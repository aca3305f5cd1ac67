import Realizability.Formula.Sort

/-!
# Expressions

The expressions of the solver's language as trees: values, constants, applications of indicators
and of interpreted operators, and universal closures. A closure binds the constants of its list
wherever they occur in its body.
-/

namespace Realizability

/-- An uninterpreted constant. Stamped constants differ from all others, whatever their names. -/
structure Const where
  base : String
  stamp : Option Nat := none
  sort : SmtSort
  deriving DecidableEq, Repr

def Const.name (c : Const) : String :=
  match c.stamp with
  | none => c.base
  | some k => c.base ++ "!" ++ toString k

inductive Op
  -- truth values
  | true | false | not | and | or | xor | implies | eq | distinct | ite
  -- numbers
  | add | neg | sub | mul | intDiv | realDiv | mod | lt | le | gt | ge | toReal
  -- bit-vectors
  | bvnot | bvneg | bvand | bvor | bvxor | bvadd | bvsub | bvmul | bvudiv | bvurem | bvsdiv
  | bvsrem | bvsmod | bvshl | bvlshr | bvashr | bvult | bvule | bvugt | bvuge | bvslt | bvsle
  | bvsgt | bvsge | concat | extract (high low : Nat) | zeroExtend (n : Nat) | signExtend (n : Nat)
  -- strings
  | strConcat | strLt | strLe
  deriving DecidableEq, Repr

def Op.symbol : Op → String × List Nat
  | .true => ("true", [])
  | .false => ("false", [])
  | .not => ("not", [])
  | .and => ("and", [])
  | .or => ("or", [])
  | .xor => ("xor", [])
  | .implies => ("=>", [])
  | .eq => ("=", [])
  | .distinct => ("distinct", [])
  | .ite => ("ite", [])
  | .add => ("+", [])
  | .neg => ("-", [])
  | .sub => ("-", [])
  | .mul => ("*", [])
  | .intDiv => ("div", [])
  | .realDiv => ("/", [])
  | .mod => ("mod", [])
  | .lt => ("<", [])
  | .le => ("<=", [])
  | .gt => (">", [])
  | .ge => (">=", [])
  | .toReal => ("to_real", [])
  | .bvnot => ("bvnot", [])
  | .bvneg => ("bvneg", [])
  | .bvand => ("bvand", [])
  | .bvor => ("bvor", [])
  | .bvxor => ("bvxor", [])
  | .bvadd => ("bvadd", [])
  | .bvsub => ("bvsub", [])
  | .bvmul => ("bvmul", [])
  | .bvudiv => ("bvudiv", [])
  | .bvurem => ("bvurem", [])
  | .bvsdiv => ("bvsdiv", [])
  | .bvsrem => ("bvsrem", [])
  | .bvsmod => ("bvsmod", [])
  | .bvshl => ("bvshl", [])
  | .bvlshr => ("bvlshr", [])
  | .bvashr => ("bvashr", [])
  | .bvult => ("bvult", [])
  | .bvule => ("bvule", [])
  | .bvugt => ("bvugt", [])
  | .bvuge => ("bvuge", [])
  | .bvslt => ("bvslt", [])
  | .bvsle => ("bvsle", [])
  | .bvsgt => ("bvsgt", [])
  | .bvsge => ("bvsge", [])
  | .concat => ("concat", [])
  | .extract high low => ("extract", [high, low])
  | .zeroExtend n => ("zero_extend", [n])
  | .signExtend n => ("sign_extend", [n])
  | .strConcat => ("str.++", [])
  | .strLt => ("str.<", [])
  | .strLe => ("str.<=", [])

inductive Expr
  | int (n : Int)
  | real (q : Rat)
  | bits (width value : Nat)
  | text (codes : List Nat)
  | const (c : Const)
  | call (name : String) (args : List Expr)
  | app (op : Op) (args : List Expr)
  | forAll (vars : List Const) (body : Expr)
  deriving Inhabited, Repr

def Expr.isNumeral : Expr → Bool
  | int _ | real _ | bits .. => true
  | _ => false

/-! ## Sorts of expressions -/

def SmtSort.width : SmtSort → Nat
  | bitVec width => width
  | _ => 0

def firstSort : List SmtSort → SmtSort
  | [] => .bool
  | s :: _ => s

def widen (n : Nat) (sorts : List SmtSort) : SmtSort := .bitVec ((firstSort sorts).width + n)

def Op.sort : Op → List SmtSort → SmtSort
  | .true, _ | .false, _ | .not, _ | .and, _ | .or, _ | .xor, _ | .implies, _ | .eq, _
  | .distinct, _ | .lt, _ | .le, _ | .gt, _ | .ge, _ | .bvult, _ | .bvule, _ | .bvugt, _
  | .bvuge, _ | .bvslt, _ | .bvsle, _ | .bvsgt, _ | .bvsge, _ | .strLt, _ | .strLe, _ => .bool
  | .ite, sorts => firstSort (sorts.drop 1)
  | .intDiv, _ | .mod, _ => .int
  | .realDiv, _ | .toReal, _ => .real
  | .strConcat, _ => .string
  | .concat, sorts => .bitVec (sorts.foldr (fun s n => s.width + n) 0)
  | .extract high low, _ => .bitVec (high + 1 - low)
  | .zeroExtend n, sorts | .signExtend n, sorts => widen n sorts
  | .add, sorts | .neg, sorts | .sub, sorts | .mul, sorts | .bvnot, sorts | .bvneg, sorts
  | .bvand, sorts | .bvor, sorts | .bvxor, sorts | .bvadd, sorts | .bvsub, sorts | .bvmul, sorts
  | .bvudiv, sorts | .bvurem, sorts | .bvsdiv, sorts | .bvsrem, sorts | .bvsmod, sorts
  | .bvshl, sorts | .bvlshr, sorts | .bvashr, sorts => firstSort sorts

mutual

def Expr.sort : Expr → SmtSort
  | .int _ => .int
  | .real _ => .real
  | .bits width _ => .bitVec width
  | .text _ => .string
  | .const c => c.sort
  | .call .. => .bool
  | .app op args => op.sort (sortsOf args)
  | .forAll .. => .bool

def sortsOf : List Expr → List SmtSort
  | [] => []
  | e :: es => e.sort :: sortsOf es

end

end Realizability
