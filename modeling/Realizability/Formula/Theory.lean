import Realizability.Formula.Connective

/-!
# Theory symbols

The operators that a term may apply by name, each with the shape in which it takes its arguments.
Indexed operators receive their indices as well.
-/

namespace Realizability

inductive Operator
  | true | false | not | and | or | xor | implies | eq | distinct | ite
  | add | sub | mul | intDiv | realDiv | mod | abs | lt | le | gt | ge
  | bvnot | bvneg | bvand | bvor | bvxor | bvadd | bvsub | bvmul | bvudiv | bvurem | bvsdiv
  | bvsrem | bvshl | bvlshr | bvashr | bvult | bvule | bvugt | bvuge | bvslt | bvsle | bvsgt
  | bvsge | concat
  deriving DecidableEq, Repr

inductive IndexedOperator
  | extract
  | zeroExtend
  | signExtend
  deriving DecidableEq, Repr

namespace Operator

def all : List Operator :=
  [true, false, not, and, or, xor, implies, eq, distinct, ite,
    add, sub, mul, intDiv, realDiv, mod, abs, lt, le, gt, ge,
    bvnot, bvneg, bvand, bvor, bvxor, bvadd, bvsub, bvmul, bvudiv, bvurem, bvsdiv,
    bvsrem, bvshl, bvlshr, bvashr, bvult, bvule, bvugt, bvuge, bvslt, bvsle, bvsgt,
    bvsge, concat]

def name : Operator → String
  | true => "true"
  | false => "false"
  | not => "not"
  | and => "and"
  | or => "or"
  | xor => "xor"
  | implies => "=>"
  | eq => "="
  | distinct => "distinct"
  | ite => "ite"
  | add => "+"
  | sub => "-"
  | mul => "*"
  | intDiv => "div"
  | realDiv => "/"
  | mod => "mod"
  | abs => "abs"
  | lt => "<"
  | le => "<="
  | gt => ">"
  | ge => ">="
  | bvnot => "bvnot"
  | bvneg => "bvneg"
  | bvand => "bvand"
  | bvor => "bvor"
  | bvxor => "bvxor"
  | bvadd => "bvadd"
  | bvsub => "bvsub"
  | bvmul => "bvmul"
  | bvudiv => "bvudiv"
  | bvurem => "bvurem"
  | bvsdiv => "bvsdiv"
  | bvsrem => "bvsrem"
  | bvshl => "bvshl"
  | bvlshr => "bvlshr"
  | bvashr => "bvashr"
  | bvult => "bvult"
  | bvule => "bvule"
  | bvugt => "bvugt"
  | bvuge => "bvuge"
  | bvslt => "bvslt"
  | bvsle => "bvsle"
  | bvsgt => "bvsgt"
  | bvsge => "bvsge"
  | concat => "concat"

def ofName? (name : String) : Option Operator := all.find? (·.name = name)

end Operator

namespace IndexedOperator

def all : List IndexedOperator := [extract, zeroExtend, signExtend]

def name : IndexedOperator → String
  | extract => "extract"
  | zeroExtend => "zero_extend"
  | signExtend => "sign_extend"

def ofName? (name : String) : Option IndexedOperator := all.find? (·.name = name)

def indexCount : IndexedOperator → Nat
  | extract => 2
  | zeroExtend => 1
  | signExtend => 1

end IndexedOperator

inductive Symbol
  | plain (op : Operator)
  | indexed (op : IndexedOperator) (indices : List Index)
  deriving DecidableEq, Repr

def Symbol.ofIdentifier? (ident : Identifier) : Option Symbol :=
  if ident.indices.isEmpty then (Operator.ofName? ident.name).map plain
  else (IndexedOperator.ofName? ident.name).map (indexed · ident.indices)

inductive ApplyError
  | arity (name : String) (expected got : Nat)
  | noArguments (name : String)
  | oneArgument (name : String)
  | indexCount (name : String) (expected got : Nat)
  | misuse (m : Misuse)
  deriving DecidableEq, Repr

/-! ## Shapes -/

open Realizability.Expr

/-- How an operator takes its arguments. A left-associative one folds them from the left and leaves
a single argument as it is; a chainable one holds of every adjacent pair. -/
inductive Shape
  | constant (e : Expr)
  | unary (f : Expr → Build Expr)
  | binary (f : Expr → Expr → Build Expr)
  | ternary (f : Expr → Expr → Expr → Build Expr)
  | list (f : List Expr → Build Expr)
  | leftAssoc (f : Expr → Expr → Build Expr)
  | chainable (f : Expr → Expr → Build Expr)
  | rightAssoc (f : Expr → Expr → Build Expr)
  | minus
  | division

/-- The fold `f x₁ (f x₂ (… xₙ))`. -/
def foldRight (f : Expr → Expr → Build Expr) (x : Expr) : List Expr → Build Expr
  | [] => .ok x
  | y :: ys => do f x (← foldRight f y ys)

def ofBuild {α : Type} : Build α → Except ApplyError α := Except.mapError .misuse

def applyLeft (name : String) (f : Expr → Expr → Build Expr) : List Expr → Except ApplyError Expr
  | [] => .error (.noArguments name)
  | x :: xs => ofBuild (xs.foldlM f x)

def adjacent (f : Expr → Expr → Build Expr) : List Expr → Build (List Expr)
  | x :: y :: rest => do return (← f x y) :: (← adjacent f (y :: rest))
  | _ => .ok []

def Shape.apply (name : String) : Shape → List Expr → Except ApplyError Expr
  | constant e, _ => .ok e
  | unary f, args =>
    match args with
    | [a] => ofBuild (f a)
    | _ => .error (.arity name 1 args.length)
  | binary f, args =>
    match args with
    | [a, b] => ofBuild (f a b)
    | _ => .error (.arity name 2 args.length)
  | ternary f, args =>
    match args with
    | [a, b, c] => ofBuild (f a b c)
    | _ => .error (.arity name 3 args.length)
  | list f, args => ofBuild (f args)
  | leftAssoc f, args => applyLeft name f args
  | chainable f, args =>
    if args.length < 2 then .error (.oneArgument name)
    else ofBuild (adjacent f args >>= conjoin)
  | rightAssoc f, args =>
    match args with
    | x :: y :: rest => ofBuild (foldRight f x (y :: rest))
    | _ => .error (.oneArgument name)
  | minus, args =>
    match args with
    | [a] => ofBuild (mkNeg a)
    | _ => applyLeft name (mkArith .sub) args
  | division, args =>
    if args.length < 2 then .error (.oneArgument name)
    else applyLeft name (mkArith .div) (args.map intToReal)

def Operator.shape : Operator → Shape
  | true => .constant (truth Bool.true)
  | false => .constant (truth Bool.false)
  | not => .unary mkNot
  | and => .list conjoin
  | or => .list disjoin
  | xor => .leftAssoc mkXor
  | implies => .rightAssoc mkImplies
  | eq => .chainable mkEq
  | distinct => .list mkDistinct
  | ite => .ternary mkIte
  | add => .leftAssoc mkAdd
  | sub => .minus
  | mul => .leftAssoc mkMul
  | intDiv => .leftAssoc (mkArith .div)
  | realDiv => .division
  | mod => .binary (mkArith .mod)
  | abs => .unary mkAbs
  | lt => .chainable (mkCompare .lt)
  | le => .chainable (mkCompare .le)
  | gt => .chainable (mkCompare .gt)
  | ge => .chainable (mkCompare .ge)
  | bvnot => .unary mkBvnot
  | bvneg => .unary mkNeg
  | bvand => .leftAssoc (mkBitwise .bvand .and)
  | bvor => .leftAssoc (mkBitwise .bvor .or)
  | bvxor => .leftAssoc (mkBitwise .bvxor .xor)
  | bvadd => .leftAssoc mkAdd
  | bvsub => .binary (mkArith .sub)
  | bvmul => .leftAssoc mkMul
  | bvudiv => .binary (mkBits .bvudiv)
  | bvurem => .binary (mkBits .bvurem)
  | bvsdiv => .binary (mkArith .div)
  | bvsrem => .binary (mkBits .bvsrem)
  | bvshl => .binary (mkShift .bvshl)
  | bvlshr => .binary (mkBits .bvlshr)
  | bvashr => .binary (mkShift .bvashr)
  | bvult => .binary (mkBits .bvult)
  | bvule => .binary (mkBits .bvule)
  | bvugt => .binary (mkBits .bvugt)
  | bvuge => .binary (mkBits .bvuge)
  | bvslt => .binary (mkCompare .lt)
  | bvsle => .binary (mkCompare .le)
  | bvsgt => .binary (mkCompare .gt)
  | bvsge => .binary (mkCompare .ge)
  | concat => .list mkConcat

/-! ## Application -/

def IndexedOperator.apply : IndexedOperator → List Index → List Expr → Except ApplyError Expr
  | extract, [high, low], [a] => ofBuild (mkExtract high low a)
  | extract, [_, _], args => .error (.arity "extract" 1 args.length)
  | zeroExtend, [n], a :: _ => ofBuild (mkExtend .zeroExtend n a)
  | signExtend, [n], a :: _ => ofBuild (mkExtend .signExtend n a)
  | zeroExtend, [_], [] | signExtend, [_], [] => .error (.misuse .undefined)
  | op, indices, _ => .error (.indexCount op.name op.indexCount indices.length)

def Symbol.apply : Symbol → List Expr → Except ApplyError Expr
  | plain op, args => op.shape.apply op.name args
  | indexed op indices, args => op.apply indices args

end Realizability
