import Realizability.Binary64.Shortest
import Realizability.Encoding.Error
import Realizability.Text.Digit

/-!
# Literals as values

A number takes the sort that is asked for if that is a real or bit-vector sort and is an integer
otherwise; a decimal is a real. The value of a decimal is that of the digits it is written with.
-/

namespace Realizability

/-! ## Escapes in strings -/

def bracedCode? : Nat → Nat → List Char → Option (Nat × List Char)
  | _, value, '}' :: rest => some (value, rest)
  | n + 1, value, c :: rest => do bracedCode? n (value * 16 + (← Text.hexValue? c)) rest
  | _, _, _ => none

def fourDigitCode? : List Char → Option (Nat × List Char)
  | a :: b :: c :: d :: rest => do
    let a ← Text.hexValue? a
    let b ← Text.hexValue? b
    let c ← Text.hexValue? c
    let d ← Text.hexValue? d
    return (((a * 16 + b) * 16 + c) * 16 + d, rest)
  | _ => none

/-- The character that an escape denotes, behind its backslash and `u`. -/
def escapedCode? : List Char → Option (Nat × List Char)
  | '{' :: c :: rest => do
    let r ← bracedCode? 4 (← Text.hexValue? c) rest
    if r.1 ≤ 0x2ffff then some r else none
  | cs => fourDigitCode? cs

/-- The characters of a string with its escapes replaced. Reading is cut into steps of at least one
character, of which there are at most `fuel`. -/
def codesUpTo : Nat → List Char → List Nat
  | 0, _ | _, [] => []
  | fuel + 1, c :: cs =>
    match c, cs with
    | '\\', 'u' :: rest =>
      match escapedCode? rest with
      | some (code, rest) => code :: codesUpTo fuel rest
      | none => c.toNat :: codesUpTo fuel cs
    | _, _ => c.toNat :: codesUpTo fuel cs

def stringCodes (s : String) : List Nat := codesUpTo s.length s.toList

/-! ## Literals -/

def numberAt (sort : Option SmtSort) (n : Int) : Expr :=
  match sort with
  | some (.bitVec width) => .bits width (n % Nat.pow 2 width).toNat
  | some .real => .real (Rat.ofInt n)
  | _ => .int n

def decimalValue (x : Binary64) : Build Expr :=
  match x.decimalValue? with
  | some q => .ok (.real q)
  | none => .error .illSorted

/-- The value of a literal, of a truth value or of a negated number. Bit-vectors have no negated
numbers. -/
def literal? (sort : Option SmtSort) : Term → Build (Option Expr)
  | .number n => .ok (some (numberAt sort n))
  | .decimal x => some <$> decimalValue x
  | .string s => .ok (some (.text (stringCodes s)))
  | .bits width value => .ok (some (.bits width (value % Nat.pow 2 width)))
  | .app name _ [] =>
    if name.name = "true" then .ok (some (Expr.truth true))
    else if name.name = "false" then .ok (some (Expr.truth false))
    else .ok none
  | .app name _ [(_, t)] =>
    if name.name = "-" ∧ (sort.map SmtSort.isBitVec).getD false = false then
      match t with
      | .number n => .ok (some (numberAt sort (-n)))
      | .decimal x => some <$> decimalValue x.neg
      | _ => .ok none
    else .ok none
  | _ => .ok none

def expectLiteral (sort : Option SmtSort) (t : Term) : Except EncodeError Expr := do
  match ← formed (literal? sort t) with
  | some e => return e
  | none => .error (.literal (.notLiteral t))

def sortHint (sort : Identifier) (t : Term) : Option SmtSort :=
  if t.isLiteral then (SmtSort.ofIdentifier sort).toOption else none

end Realizability
