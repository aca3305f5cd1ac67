import Realizability.Formula.Coercion

/-!
# Forming expressions

One function per operation on expressions, with the coercions that it makes and the operands that
it refuses.
-/

namespace Realizability.Expr

def isBool (e : Expr) : Bool := e.sort == .bool

def logical (op : Op) (args : List Expr) : Build Expr :=
  if args.all isBool then .ok (app op args) else .error .illSorted

def mkNot (a : Expr) : Build Expr := logical .not [a]
def mkXor (a b : Expr) : Build Expr := logical .xor [a, b]
def mkImplies (a b : Expr) : Build Expr := logical .implies [a, b]

/-- The conjunction; a single conjunct stands for itself, whatever its sort. -/
def conjoin : List Expr → Build Expr
  | [] => .ok (truth true)
  | [e] => .ok e
  | es => logical .and es

def disjoin : List Expr → Build Expr
  | [] => .ok (truth false)
  | [e] => .ok e
  | es => logical .or es

def mkIte (c a b : Expr) : Build Expr :=
  if c.isBool then do
    let (a, b) ← merge a b
    return ite c a b
  else .error .illSorted

/-! ## Equality and order -/

def mkEq (a b : Expr) : Build Expr := do
  let (a, b) ← if reflects a b then merge b a else merge a b
  return app .eq [a, b]

def mkDistinct (args : List Expr) : Build Expr := do return app .distinct (← mergeAll args)

inductive Comparison
  | lt | le | gt | ge
  deriving DecidableEq, Repr

namespace Comparison

def flip : Comparison → Comparison
  | lt => gt
  | le => ge
  | gt => lt
  | ge => le

def arith : Comparison → Op
  | lt => .lt
  | le => .le
  | gt => .gt
  | ge => .ge

def signed : Comparison → Op
  | lt => .bvslt
  | le => .bvsle
  | gt => .bvsgt
  | ge => .bvsge

/-- Strings are compared by the two ascending operators only. -/
def lexical : Comparison → Expr → Expr → Expr
  | lt, a, b => app .strLt [a, b]
  | le, a, b => app .strLe [a, b]
  | gt, a, b => app .strLt [b, a]
  | ge, a, b => app .strLe [b, a]

end Comparison

def compareMerged (c : Comparison) (a b : Expr) : Build Expr := do
  let (a, b) ← merge a b
  match a.sort with
  | .int | .real => return app c.arith [a, b]
  | .bitVec _ => return app c.signed [a, b]
  | .string => return c.lexical a b
  | .bool => .error .undefined

/-- A truth value on the left of a number changes sides, as does an expression on the left of a
numeral. -/
def mkCompare (c : Comparison) (a b : Expr) : Build Expr :=
  if reflects a b || (a.isBool && b.sort.isArith) then compareMerged c.flip b a
  else compareMerged c a b

/-! ## Arithmetic -/

/-- The operators of an operation by sort; where there is none, the operands do not fit. -/
structure Family where
  int : Op
  real : Option Op
  bits : Op

def Family.add : Family := ⟨.add, some .add, .bvadd⟩
def Family.sub : Family := ⟨.sub, some .sub, .bvsub⟩
def Family.mul : Family := ⟨.mul, some .mul, .bvmul⟩
def Family.div : Family := ⟨.intDiv, some .realDiv, .bvsdiv⟩
def Family.mod : Family := ⟨.mod, none, .bvsmod⟩

def Family.apply (f : Family) (a b : Expr) : Build Expr := do
  let (a, b) ← merge a b
  match a.sort, f.real with
  | .int, _ => return app f.int [a, b]
  | .real, some op => return app op [a, b]
  | .bitVec _, _ => return app f.bits [a, b]
  | _, _ => .error .illSorted

/-- Sums also join strings; a truth value on the left counts as an integer. -/
def mkAdd (a b : Expr) : Build Expr :=
  match a.sort, b.sort with
  | .string, .string => .ok (app .strConcat [a, b])
  | .bool, _ => Family.add.apply (boolToInt a) b
  | _, _ => Family.add.apply a b

/-- A truth value in a product chooses between the other factor and zero. -/
def mkMul (a b : Expr) : Build Expr :=
  match a.sort, b.sort with
  | .bool, .bool => .ok (ite a (boolToInt b) (int 0))
  | .bool, .int | .bool, .real | .bool, .bitVec _ => .ok (ite a b (zeroOf b.sort))
  | .int, .bool | .real, .bool => .ok (ite b a (zeroOf a.sort))
  | .string, .string => .error .undefined
  | _, _ => Family.mul.apply a b

/-- Neither truth values nor strings have differences, quotients and remainders. -/
def lacksArith : SmtSort → Bool
  | .bool | .string => true
  | _ => false

def mkArith (f : Family) (a b : Expr) : Build Expr :=
  if lacksArith a.sort && lacksArith b.sort then .error .undefined else f.apply a b

def mkNeg (a : Expr) : Build Expr :=
  match a.sort with
  | .int | .real => .ok (app .neg [a])
  | .bitVec _ => .ok (app .bvneg [a])
  | _ => .error .undefined

def mkAbs (a : Expr) : Build Expr := do
  let negated ← mkNeg a
  let positive := app (if a.sort.isBitVec then .bvsgt else .gt) [a, zeroOf a.sort]
  return ite positive a negated

def intToReal (a : Expr) : Expr := if a.sort = .int then toReal a else a

/-! ## Bit-vectors -/

def mkBvnot (a : Expr) : Build Expr :=
  match a.sort with
  | .bitVec _ => .ok (app .bvnot [a])
  | .bool => .ok (app .not [a])
  | _ => .error .undefined

/-- A bitwise operation, which on truth values is a connective. -/
def mkBitwise (op connective : Op) (a b : Expr) : Build Expr :=
  if a.sort.isBitVec && a.sort == b.sort then .ok (app op [a, b])
  else if a.isBool && b.isBool then .ok (app connective [a, b])
  else if a.isBool || a.sort.isBitVec || b.sort.isBitVec then .error .illSorted
  else .error .undefined

def mkShift (op : Op) (a b : Expr) : Build Expr :=
  if a.sort.isBitVec && a.sort == b.sort then .ok (app op [a, b])
  else if a.sort.isBitVec || b.sort.isBitVec then .error .illSorted
  else .error .undefined

def mkBits (op : Op) (a b : Expr) : Build Expr :=
  if a.sort.isBitVec && a.sort == b.sort then .ok (app op [a, b]) else .error .illSorted

def mkConcat (args : List Expr) : Build Expr :=
  match args with
  | a :: b :: rest =>
    if args.all (·.sort.isBitVec) then
      .ok ((b :: rest).foldl (fun x y => app .concat [x, y]) a)
    else if args.all (·.sort == .string) then .ok (app .strConcat args)
    else .error .illSorted
  | _ => .error .illSorted

/-- The indices are compared before anything else, and a number is not compared with a name. -/
def mkExtract (high low : Index) (a : Expr) : Build Expr :=
  match high, low, a.sort with
  | .number (.ofNat high), .number (.ofNat low), .bitVec width =>
    if low ≤ high ∧ high < width then .ok (app (.extract high low) [a]) else .error .illSorted
  | .number _, .name _, _ => .error .undefined
  | _, _, _ => .error .illSorted

def mkExtend (op : Nat → Op) (n : Index) (a : Expr) : Build Expr :=
  match n, a.sort with
  | .number (.ofNat n), .bitVec _ => .ok (app (op n) [a])
  | _, _ => .error .illSorted

/-! ## Closures -/

/-- The universal closure; without variables it is the body itself. -/
def close (vars : List Const) (body : Expr) : Build Expr :=
  if vars.isEmpty then .ok body
  else if body.isBool then .ok (forAll vars body)
  else .error .illSorted

end Realizability.Expr
