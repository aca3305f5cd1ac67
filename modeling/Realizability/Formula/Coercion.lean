import Realizability.Formula.Basic

/-!
# Coercions

Truth values count as the numbers 0 and 1 and integers as reals where the other operand calls for
it; no other sorts mix. Two operands are merged by bringing both to the join of their sorts.
-/

namespace Realizability

/-- Why an expression cannot be formed: its operands do not fit together, or the operation is not
there for operands of these sorts at all. -/
inductive Misuse
  | illSorted
  | undefined
  deriving DecidableEq, Repr

abbrev Build (α : Type) := Except Misuse α

namespace Expr

def truth : Bool → Expr
  | true => app .true []
  | false => app .false []

def ite (c a b : Expr) : Expr := app .ite [c, a, b]

def toReal (e : Expr) : Expr := app .toReal [e]

def boolToInt (b : Expr) : Expr := ite b (int 1) (int 0)

def boolToReal (b : Expr) : Expr := ite b (real 1) (real 0)

def zeroOf : SmtSort → Expr
  | .real => real 0
  | .bitVec width => bits width 0
  | _ => int 0

def coerce (sort : SmtSort) (e : Expr) : Build Expr :=
  if e.sort = sort then .ok e else
    match sort, e.sort with
    | .int, .bool => .ok (boolToInt e)
    | .real, .bool => .ok (boolToReal e)
    | .real, .int => .ok (toReal e)
    | _, _ => .error .illSorted

end Expr

/-- The least sort that admits both, in the order Bool, Int, Real. -/
def SmtSort.join? (s t : SmtSort) : Option SmtSort :=
  if s = t then some s else
    match s, t with
    | .bool, .int | .int, .bool => some .int
    | .bool, .real | .real, .bool | .int, .real | .real, .int => some .real
    | _, _ => none

def merge (a b : Expr) : Build (Expr × Expr) := do
  match a.sort.join? b.sort with
  | none => .error .illSorted
  | some s => return (← a.coerce s, ← b.coerce s)

def mergeAll : List Expr → Build (List Expr)
  | [] => .error .illSorted
  | e :: es => do
    let sort ← es.foldlM (fun s x => match s.join? x.sort with
      | some t => .ok t
      | none => .error .illSorted) e.sort
    (e :: es).mapM (·.coerce sort)

/-- A comparison of an expression with a numeral is written with the numeral in front. -/
def reflects (a b : Expr) : Bool :=
  b.isNumeral && !a.isNumeral &&
    ((a.sort.isArith && b.sort.isArith) || (a.sort.isBitVec && b.sort.isBitVec))

end Realizability
