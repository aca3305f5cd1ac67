import Mathlib.Data.List.Lex
import Mathlib.Data.Real.Basic
import Realizability.Formula.Coercion

/-!
# Values of expressions

The values that expressions stand for, and the functions of the theories on them. Dividing a number
by zero has no value of its own; what it gives is a choice, which everything below is relative to.
-/

namespace Realizability

inductive Value
  | bool (b : Bool)
  | int (n : Int)
  | real (x : ℝ)
  | bits (width : Nat) (v : BitVec width)
  | text (codes : List Nat)

namespace Value

def sort : Value → SmtSort
  | bool _ => .bool
  | int _ => .int
  | real _ => .real
  | bits width _ => .bitVec width
  | text _ => .string

noncomputable def ofProp (p : Prop) : Value := bool (@decide p (Classical.propDecidable p))

abbrev yes : Value := bool true

abbrev no : Value := bool false

@[simp] theorem ofProp_eq_yes {p : Prop} : ofProp p = yes ↔ p := by
  simp [ofProp]

theorem ofProp_congr {p q : Prop} (h : p ↔ q) : ofProp p = ofProp q := by
  rw [propext h]

theorem exists_of_sort_bool {v : Value} (h : v.sort = .bool) : ∃ b, v = bool b := by
  cases v with
  | bool b => exact ⟨b, rfl⟩
  | _ => cases h

theorem exists_of_sort_int {v : Value} (h : v.sort = .int) : ∃ n, v = int n := by
  cases v with
  | int n => exact ⟨n, rfl⟩
  | _ => cases h

theorem exists_of_sort_real {v : Value} (h : v.sort = .real) : ∃ x, v = real x := by
  cases v with
  | real x => exact ⟨x, rfl⟩
  | _ => cases h

theorem exists_of_sort_bitVec {v : Value} {n : Nat} (h : v.sort = .bitVec n) :
    ∃ w, v = bits n w := by
  cases v with
  | bits m w => cases h; exact ⟨w, rfl⟩
  | _ => cases h

theorem exists_of_sort_string {v : Value} (h : v.sort = .string) : ∃ cs, v = text cs := by
  cases v with
  | text cs => exact ⟨cs, rfl⟩
  | _ => cases h

def ofSort : SmtSort → Value
  | .bool => bool false
  | .int => int 0
  | .real => real 0
  | .string => text []
  | .bitVec n => bits n 0

@[simp] theorem sort_ofSort (s : SmtSort) : (ofSort s).sort = s := by
  cases s <;> rfl

end Value

/-- What a number gives when it is divided by zero. -/
structure ZeroDivision where
  quotient : Int → Int
  remainder : Int → Int
  ratio : ℝ → ℝ

/-! ## Functions of the theories -/

namespace Value

/-- The value of a function outside of the sorts it is there for. -/
def stray : Value := bool false

def select : List Value → Value
  | [bool c, v, w] => if c then v else w
  | _ => stray

def onNumber (f : Int → Int) (g : ℝ → ℝ) : List Value → Value
  | [int a] => int (f a)
  | [real a] => real (g a)
  | _ => stray

def onNumbers (f : Int → Int → Int) (g : ℝ → ℝ → ℝ) : List Value → Value
  | [int a, int b] => int (f a b)
  | [real a, real b] => real (g a b)
  | _ => stray

def onIntegers (f : Int → Int → Int) : List Value → Value
  | [int a, int b] => int (f a b)
  | _ => stray

def onReals (g : ℝ → ℝ → ℝ) : List Value → Value
  | [real a, real b] => real (g a b)
  | _ => stray

def asReal : List Value → Value
  | [int a] => real a
  | _ => stray

noncomputable def relating (r : Int → Int → Prop) (s : ℝ → ℝ → Prop) : List Value → Value
  | [int a, int b] => ofProp (r a b)
  | [real a, real b] => ofProp (s a b)
  | _ => stray

def onVector (f : (n : Nat) → BitVec n → Value) : List Value → Value
  | [bits n a] => f n a
  | _ => stray

def onVectors (f : (n : Nat) → BitVec n → BitVec n → BitVec n) : List Value → Value
  | [bits n a, bits _ b] => bits n (f n a (b.setWidth n))
  | _ => stray

noncomputable def relatingSigned (r : Int → Int → Prop) : List Value → Value
  | [bits _ a, bits _ b] => ofProp (r a.toInt b.toInt)
  | _ => stray

noncomputable def relatingUnsigned (r : Nat → Nat → Prop) : List Value → Value
  | [bits _ a, bits _ b] => ofProp (r a.toNat b.toNat)
  | _ => stray

def joined : List Value → Value
  | [bits n a, bits m b] => bits (n + m) (a ++ b)
  | _ => stray

noncomputable def relatingTexts (r : List Nat → List Nat → Prop) : List Value → Value
  | [text a, text b] => ofProp (r a b)
  | _ => stray

def codes : Value → List Nat
  | text cs => cs
  | _ => []

end Value

namespace ZeroDivision

variable (z : ZeroDivision)

def div (a b : Int) : Int := if b = 0 then z.quotient a else a / b

def mod (a b : Int) : Int := if b = 0 then z.remainder a else a % b

noncomputable def divReal (a b : ℝ) : ℝ :=
  @ite _ (b = 0) (Classical.propDecidable _) (z.ratio a) (a / b)

end ZeroDivision

open Value in
noncomputable def Op.value (z : ZeroDivision) : Op → List Value → Value
  | .true => fun _ => yes
  | .false => fun _ => no
  | .not => fun vs => ofProp (∃ v, vs = [v] ∧ v ≠ yes)
  | .and => fun vs => ofProp (∀ v ∈ vs, v = yes)
  | .or => fun vs => ofProp (∃ v ∈ vs, v = yes)
  | .xor => fun vs => ofProp (∃ v w, vs = [v, w] ∧ ¬(v = yes ↔ w = yes))
  | .implies => fun vs => ofProp (∃ v w, vs = [v, w] ∧ (v = yes → w = yes))
  | .eq => fun vs => ofProp (∃ v w, vs = [v, w] ∧ v = w)
  | .distinct => fun vs => ofProp vs.Nodup
  | .ite => select
  | .add => onNumbers (· + ·) (· + ·)
  | .neg => onNumber (- ·) (- ·)
  | .sub => onNumbers (· - ·) (· - ·)
  | .mul => onNumbers (· * ·) (· * ·)
  | .intDiv => onIntegers z.div
  | .realDiv => onReals z.divReal
  | .mod => onIntegers z.mod
  | .lt => relating (· < ·) (· < ·)
  | .le => relating (· ≤ ·) (· ≤ ·)
  | .gt => relating (· > ·) (· > ·)
  | .ge => relating (· ≥ ·) (· ≥ ·)
  | .toReal => asReal
  | .bvnot => onVector fun n a => .bits n (~~~a)
  | .bvneg => onVector fun n a => .bits n (-a)
  | .bvand => onVectors fun _ a b => a &&& b
  | .bvor => onVectors fun _ a b => a ||| b
  | .bvxor => onVectors fun _ a b => a ^^^ b
  | .bvadd => onVectors fun _ a b => a + b
  | .bvsub => onVectors fun _ a b => a - b
  | .bvmul => onVectors fun _ a b => a * b
  | .bvudiv => onVectors fun _ a b => a.smtUDiv b
  | .bvurem => onVectors fun _ a b => a.umod b
  | .bvsdiv => onVectors fun _ a b => a.smtSDiv b
  | .bvsrem => onVectors fun _ a b => a.srem b
  | .bvsmod => onVectors fun _ a b => a.smod b
  | .bvshl => onVectors fun _ a b => a <<< b
  | .bvlshr => onVectors fun _ a b => a >>> b
  | .bvashr => onVectors fun _ a b => a.sshiftRight' b
  | .bvult => relatingUnsigned (· < ·)
  | .bvule => relatingUnsigned (· ≤ ·)
  | .bvugt => relatingUnsigned (· > ·)
  | .bvuge => relatingUnsigned (· ≥ ·)
  | .bvslt => relatingSigned (· < ·)
  | .bvsle => relatingSigned (· ≤ ·)
  | .bvsgt => relatingSigned (· > ·)
  | .bvsge => relatingSigned (· ≥ ·)
  | .concat => joined
  | .extract high low =>
    onVector fun _ a => .bits (high + 1 - low) (a.extractLsb' low (high + 1 - low))
  | .zeroExtend k => onVector fun n a => .bits (n + k) (a.setWidth (n + k))
  | .signExtend k => onVector fun n a => .bits (n + k) (a.signExtend (n + k))
  | .strConcat => fun vs => .text (vs.flatMap codes)
  | .strLt => relatingTexts (· < ·)
  | .strLe => relatingTexts (· ≤ ·)

end Realizability
