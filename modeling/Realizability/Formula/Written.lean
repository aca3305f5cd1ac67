import Realizability.Formula.Basic
import Realizability.Text.Quoted

/-!
# Written expressions

Expressions, sorts and symbols as they stand in a script. A name that is no simple symbol is
written between bars.
-/

namespace Realizability

/-! ## Symbols -/

def isSymbolStart (c : Char) : Bool := c.isAlpha || "~!@$%^&*_-+=<>.?/".toList.contains c

def isSymbolChar (c : Char) : Bool := isSymbolStart c || c.isDigit

/-- Simple symbols start with no digit; a line end may follow. -/
def isSimpleSymbol (cs : List Char) : Bool :=
  let body := if cs.getLast? = some '\n' then cs.dropLast else cs
  match body with
  | [] => false
  | c :: rest => isSymbolStart c && rest.all isSymbolChar

def writtenSymbol (name : String) : String :=
  if isSimpleSymbol name.toList then name else "|" ++ name ++ "|"

def writtenList (parts : List String) : String := "(" ++ " ".intercalate parts ++ ")"

/-! ## Expressions -/

def writtenInt (n : Int) : String :=
  if n < 0 then writtenList ["-", toString n.natAbs] else toString n.natAbs

def writtenReal (q : Rat) : String :=
  let num := toString q.num.natAbs ++ ".0"
  let size := if q.den = 1 then num else writtenList ["/", num, toString q.den ++ ".0"]
  if q.num < 0 then writtenList ["-", size] else size

/-- A character of a string literal: quotes are doubled, and all but printable ASCII is escaped. -/
def writtenCode (code : Nat) : List Char :=
  if code = 34 then ['"', '"']
  else if 32 ≤ code ∧ code < 127 ∧ code ≠ 92 then [Char.ofNat code]
  else ['\\', 'u', Char.ofNat 123] ++ Nat.toDigits 16 code ++ [Char.ofNat 125]

def writtenText (codes : List Nat) : String :=
  String.ofList ('"' :: codes.flatMap writtenCode ++ ['"'])

def Op.written (op : Op) : String :=
  match op.symbol with
  | (name, []) => name
  | (name, indices) => writtenList ("_" :: name :: indices.map toString)

def Const.written (c : Const) : String := writtenSymbol c.name

mutual

def Expr.written : Expr → String
  | .int n => writtenInt n
  | .real q => writtenReal q
  | .bits width value => writtenList ["_", "bv" ++ toString value, toString width]
  | .text codes => writtenText codes
  | .const c => c.written
  | .call name [] => writtenSymbol name
  | .call name args => writtenList (writtenSymbol name :: writtenArgs args)
  | .app op [] => op.written
  | .app op args => writtenList (op.written :: writtenArgs args)
  | .forAll vars body => writtenList
      ["forall", writtenList (vars.map fun c => writtenList [c.written, c.sort.text]), body.written]

def writtenArgs : List Expr → List String
  | [] => []
  | e :: es => e.written :: writtenArgs es

end

end Realizability
