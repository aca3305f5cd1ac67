import Realizability.Formula.Theory
import Realizability.Proofs.Meaning.Value

/-!
# Values of theory symbols

What the symbols of a specification compute on values, coercions included: truth values count as 0
and 1 and integers as reals where the other operand calls for it. A symbol has no value on operands
that it does not take.
-/

namespace Realizability

namespace Value

/-- The value at another sort that admits it. -/
noncomputable def coerce (s : SmtSort) (v : Value) : Option Value :=
  if v.sort = s then some v else
    match s, v with
    | .int, bool b => some (int b.toInt)
    | .real, bool b => some (real (if b then 1 else 0))
    | .real, int n => some (real n)
    | _, _ => none

noncomputable def merge (v w : Value) : Option (Value × Value) :=
  match v.sort.join? w.sort with
  | none => none
  | some s => do return (← v.coerce s, ← w.coerce s)

noncomputable def mergeAll : List Value → Option (List Value)
  | [] => none
  | v :: vs => do
    let sort ← vs.foldlM (fun s x => s.join? x.sort) v.sort
    (v :: vs).mapM (coerce sort)

/-! ## Connectives, equality and order -/

def allBool (vs : List Value) : Bool := vs.all (·.sort == .bool)

def negation : Value → Option Value
  | bool b => some (bool !b)
  | _ => none

/-- A single conjunct stands for itself. -/
noncomputable def conjunction : List Value → Option Value
  | [] => some yes
  | [v] => some v
  | vs => if allBool vs then some (ofProp (∀ v ∈ vs, v = yes)) else none

noncomputable def disjunction : List Value → Option Value
  | [] => some no
  | [v] => some v
  | vs => if allBool vs then some (ofProp (∃ v ∈ vs, v = yes)) else none

def exclusive : Value → Value → Option Value
  | bool a, bool b => some (bool (a != b))
  | _, _ => none

def implication : Value → Value → Option Value
  | bool a, bool b => some (bool (!a || b))
  | _, _ => none

noncomputable def equal (v w : Value) : Option Value := do
  let (a, b) ← merge v w
  return ofProp (a = b)

noncomputable def distinct (vs : List Value) : Option Value := do
  return ofProp (← mergeAll vs).Nodup

noncomputable def choice : Value → Value → Value → Option Value
  | bool c, v, w => do
    let (a, b) ← merge v w
    return if c then a else b
  | _, _, _ => none

end Value

def Expr.Comparison.Holds {α : Type} [LT α] [LE α] : Expr.Comparison → α → α → Prop
  | lt, a, b => a < b
  | le, a, b => a ≤ b
  | gt, a, b => a > b
  | ge, a, b => a ≥ b

namespace Value

/-- Bit-vectors are compared as signed numbers, strings by the order of their codes. -/
noncomputable def compare (c : Expr.Comparison) (v w : Value) : Option Value := do
  match ← merge v w with
  | (int a, int b) => some (ofProp (c.Holds a b))
  | (real a, real b) => some (ofProp (c.Holds a b))
  | (bits _ a, bits _ b) => some (ofProp (c.Holds a.toInt b.toInt))
  | (text a, text b) => some (ofProp (c.Holds a b))
  | _ => none

/-! ## Arithmetic -/

/-- An operation on integers, on reals if it is there for them, and on bit-vectors. -/
structure Arithmetic where
  int : Int → Int → Int
  real : Option (ℝ → ℝ → ℝ)
  bits : (n : Nat) → BitVec n → BitVec n → BitVec n

namespace Arithmetic

noncomputable def add : Arithmetic := ⟨(· + ·), some (· + ·), fun _ a b => a + b⟩
noncomputable def sub : Arithmetic := ⟨(· - ·), some (· - ·), fun _ a b => a - b⟩
noncomputable def mul : Arithmetic := ⟨(· * ·), some (· * ·), fun _ a b => a * b⟩

noncomputable def div (z : ZeroDivision) : Arithmetic :=
  ⟨z.div, some z.divReal, fun _ a b => a.smtSDiv b⟩

def mod (z : ZeroDivision) : Arithmetic := ⟨z.mod, none, fun _ a b => a.smod b⟩

noncomputable def apply (f : Arithmetic) (v w : Value) : Option Value := do
  match ← merge v w with
  | (.int a, .int b) => some (.int (f.int a b))
  | (.real a, .real b) => f.real.map fun g => .real (g a b)
  | (.bits n a, .bits _ b) => some (.bits n (f.bits n a (b.setWidth n)))
  | _ => none

end Arithmetic

/-- Sums also join strings; a truth value on the left counts as an integer. -/
noncomputable def add : Value → Value → Option Value
  | text a, text b => some (text (a ++ b))
  | bool a, w => Arithmetic.add.apply (int a.toInt) w
  | v, w => Arithmetic.add.apply v w

/-- A truth value in a product chooses between the other factor and zero. -/
noncomputable def mul : Value → Value → Option Value
  | bool a, bool b => some (int (a && b).toInt)
  | bool a, int n => some (int (if a then n else 0))
  | bool a, real x => some (real (if a then x else 0))
  | bool a, bits n x => some (bits n (if a then x else 0))
  | int n, bool b => some (int (if b then n else 0))
  | real x, bool b => some (real (if b then x else 0))
  | v, w => Arithmetic.mul.apply v w

noncomputable def neg : Value → Option Value
  | int n => some (int (-n))
  | real x => some (real (-x))
  | bits n x => some (bits n (-x))
  | _ => none

noncomputable def abs : Value → Option Value
  | int n => some (int |n|)
  | real x => some (real |x|)
  | bits n x => some (bits n (if 0 < x.toInt then x else -x))
  | _ => none

noncomputable def intToReal : Value → Value
  | int n => real n
  | v => v

/-! ## Bit-vectors and strings -/

def complement : Value → Option Value
  | bits n x => some (bits n (~~~x))
  | bool b => some (bool !b)
  | _ => none

def sameWidth (f : (n : Nat) → BitVec n → BitVec n → Value) : Value → Value → Option Value
  | bits n a, bits m b => if n = m then some (f n a (b.setWidth n)) else none
  | _, _ => none

/-- A bitwise operation, which on truth values is a connective. -/
def bitwise (f : (n : Nat) → BitVec n → BitVec n → BitVec n) (g : Bool → Bool → Bool) :
    Value → Value → Option Value
  | bool a, bool b => some (bool (g a b))
  | v, w => sameWidth (fun n a b => bits n (f n a b)) v w

def concat : List Value → Option Value
  | v :: w :: vs =>
    if (v :: w :: vs).all (·.sort.isBitVec) then some ((w :: vs).foldl (fun x y => joined [x, y]) v)
    else if (v :: w :: vs).all (·.sort == .string) then some (text ((v :: w :: vs).flatMap codes))
    else none
  | _ => none

def extract (high low : Index) : Value → Option Value
  | bits n x =>
    match high, low with
    | .number (.ofNat high), .number (.ofNat low) =>
      if low ≤ high ∧ high < n then
        some (bits (high + 1 - low) (x.extractLsb' low (high + 1 - low)))
      else none
    | _, _ => none
  | _ => none

def extend (f : (n k : Nat) → BitVec n → BitVec (n + k)) (k : Index) : Value → Option Value
  | bits n x =>
    match k with
    | .number (.ofNat k) => some (bits (n + k) (f n k x))
    | _ => none
  | _ => none

/-! ## Lists of operands -/

def unary (f : Value → Option Value) : List Value → Option Value
  | [v] => f v
  | _ => none

def binary (f : Value → Value → Option Value) : List Value → Option Value
  | [v, w] => f v w
  | _ => none

def ternary (f : Value → Value → Value → Option Value) : List Value → Option Value
  | [u, v, w] => f u v w
  | _ => none

/-- A single operand stands for itself. -/
def leftAssoc (f : Value → Value → Option Value) : List Value → Option Value
  | [] => none
  | v :: vs => vs.foldlM f v

/-- The fold `f v₁ (f v₂ (… vₙ))`. -/
def foldRight (f : Value → Value → Option Value) (v : Value) : List Value → Option Value
  | [] => some v
  | w :: ws => do f v (← foldRight f w ws)

def rightAssoc (f : Value → Value → Option Value) : List Value → Option Value
  | v :: w :: vs => foldRight f v (w :: vs)
  | _ => none

def adjacent (f : Value → Value → Option Value) : List Value → Option (List Value)
  | v :: w :: vs => do return (← f v w) :: (← adjacent f (w :: vs))
  | _ => some []

noncomputable def chainable (f : Value → Value → Option Value) (vs : List Value) : Option Value :=
  if vs.length < 2 then none else adjacent f vs >>= conjunction

/-- A difference, which for a single operand is its negative. -/
noncomputable def minus : List Value → Option Value
  | [v] => neg v
  | vs => leftAssoc Arithmetic.sub.apply vs

noncomputable def division (z : ZeroDivision) (vs : List Value) : Option Value :=
  if vs.length < 2 then none else leftAssoc (Arithmetic.div z).apply (vs.map intToReal)

end Value

/-! ## Symbols -/

open Value in
noncomputable def Operator.value (z : ZeroDivision) : Operator → List Value → Option Value
  | true => fun _ => some yes
  | false => fun _ => some no
  | not => unary negation
  | and => conjunction
  | or => disjunction
  | xor => leftAssoc exclusive
  | implies => rightAssoc implication
  | eq => chainable equal
  | distinct => Value.distinct
  | ite => ternary choice
  | add => leftAssoc Value.add
  | sub => minus
  | mul => leftAssoc Value.mul
  | intDiv => leftAssoc (Arithmetic.div z).apply
  | realDiv => division z
  | mod => binary (Arithmetic.mod z).apply
  | abs => unary Value.abs
  | lt => chainable (compare .lt)
  | le => chainable (compare .le)
  | gt => chainable (compare .gt)
  | ge => chainable (compare .ge)
  | bvnot => unary complement
  | bvneg => unary neg
  | bvand => leftAssoc (bitwise (fun _ a b => a &&& b) Bool.and)
  | bvor => leftAssoc (bitwise (fun _ a b => a ||| b) Bool.or)
  | bvxor => leftAssoc (bitwise (fun _ a b => a ^^^ b) (· != ·))
  | bvadd => leftAssoc Value.add
  | bvsub => binary Arithmetic.sub.apply
  | bvmul => leftAssoc Value.mul
  | bvudiv => binary (sameWidth fun n a b => .bits n (a.smtUDiv b))
  | bvurem => binary (sameWidth fun n a b => .bits n (a.umod b))
  | bvsdiv => binary (Arithmetic.div z).apply
  | bvsrem => binary (sameWidth fun n a b => .bits n (a.srem b))
  | bvshl => binary (sameWidth fun n a b => .bits n (a <<< b))
  | bvlshr => binary (sameWidth fun n a b => .bits n (a >>> b))
  | bvashr => binary (sameWidth fun n a b => .bits n (a.sshiftRight' b))
  | bvult => binary (sameWidth fun _ a b => ofProp (a.toNat < b.toNat))
  | bvule => binary (sameWidth fun _ a b => ofProp (a.toNat ≤ b.toNat))
  | bvugt => binary (sameWidth fun _ a b => ofProp (a.toNat > b.toNat))
  | bvuge => binary (sameWidth fun _ a b => ofProp (a.toNat ≥ b.toNat))
  | bvslt => binary (compare .lt)
  | bvsle => binary (compare .le)
  | bvsgt => binary (compare .gt)
  | bvsge => binary (compare .ge)
  | concat => Value.concat

open Value in
def IndexedOperator.value : IndexedOperator → List Index → List Value → Option Value
  | extract, [high, low], [v] => Value.extract high low v
  | zeroExtend, [k], v :: _ => extend (fun n k x => x.setWidth (n + k)) k v
  | signExtend, [k], v :: _ => extend (fun n k x => x.signExtend (n + k)) k v
  | _, _, _ => none

noncomputable def Symbol.value (z : ZeroDivision) : Symbol → List Value → Option Value
  | plain op, vs => op.value z vs
  | indexed op indices, vs => op.value indices vs

end Realizability
