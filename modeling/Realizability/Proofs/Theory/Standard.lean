import Realizability.Proofs.Meaning.Symbol

/-!
# Standard meaning of the theory symbols

The sorts of operands that a symbol admits and the value that it has on them, by the theories of
truth values, numbers and bit-vectors alone. Integers and reals may be mixed, which gives a real. A
bit-vector counts as the natural number or the integer that its bits write, and results are cut to
their width.
-/

namespace Realizability

/-- The symbol as it is written. -/
def Symbol.identifier : Symbol → Identifier
  | plain op => ⟨op.name, []⟩
  | indexed op indices => ⟨op.name, indices⟩

/-! ## Operands -/

/-- Operands of one sort, or all of them numbers. -/
def Comparable (sorts : List SmtSort) : Prop :=
  (∃ s, ∀ t ∈ sorts, t = s) ∨ ∀ t ∈ sorts, t.isArith = true

theorem join?_self (s : SmtSort) : s.join? s = some s := if_pos rfl

theorem join?_arith {s t : SmtSort} (hs : s.isArith = true) (ht : t.isArith = true) :
    s.join? t = some (if s = .int ∧ t = .int then .int else .real) := by
  cases s <;> cases t <;> first | rfl | cases hs; done | cases ht

/-- Operands of a sort can be used at another one. -/
def Widens (s t : SmtSort) : Prop := s = t ∨ s = .int ∧ t = .real

theorem Widens.trans {s t u : SmtSort} (h : Widens s t) (h' : Widens t u) : Widens s u := by
  rcases h with rfl | ⟨rfl, rfl⟩
  · exact h'
  · rcases h' with rfl | ⟨h', -⟩
    · exact .inr ⟨rfl, rfl⟩
    · cases h'

namespace Comparable

variable {s t : SmtSort} {sorts sorts' : List SmtSort}

theorem same (h : s = t) : Comparable [s, t] := .inl ⟨t, by simp [h]⟩

theorem arith (hs : s.isArith = true) (ht : t.isArith = true) : Comparable [s, t] :=
  .inr (by simp [hs, ht])

theorem of_mem (h : Comparable sorts) (hmem : ∀ s ∈ sorts', s ∈ sorts) : Comparable sorts' := by
  rcases h with ⟨r, h⟩ | h
  · exact .inl ⟨r, fun s hs => h s (hmem s hs)⟩
  · exact .inr fun s hs => h s (hmem s hs)

theorem symm (h : Comparable [s, t]) : Comparable [t, s] := h.of_mem (by simp)

theorem join? (h : Comparable (s :: t :: sorts)) :
    ∃ u, s.join? t = some u ∧ Widens s u ∧ Widens t u ∧ Comparable (u :: sorts) := by
  rcases h with ⟨r, h⟩ | h
  · simp only [List.forall_mem_cons] at h
    obtain ⟨rfl, rfl, h⟩ := h
    exact ⟨_, join?_self _, .inl rfl, .inl rfl, .inl ⟨_, List.forall_mem_cons.mpr ⟨rfl, h⟩⟩⟩
  · simp only [List.forall_mem_cons] at h
    obtain ⟨hs, ht, h⟩ := h
    refine ⟨_, join?_arith hs ht, ?_, ?_, .inr (List.forall_mem_cons.mpr ⟨by split <;> rfl, h⟩)⟩
    · cases s <;> cases t <;> simp_all [Widens, SmtSort.isArith]
    · cases s <;> cases t <;> simp_all [Widens, SmtSort.isArith]

theorem foldlM_join? (h : Comparable (s :: sorts)) :
    ∃ r, sorts.foldlM SmtSort.join? s = some r ∧ ∀ t ∈ s :: sorts, Widens t r := by
  induction sorts generalizing s with
  | nil => exact ⟨s, rfl, by simp [Widens]⟩
  | cons t sorts ih =>
    obtain ⟨u, hu, hs, ht, h⟩ := h.join?
    obtain ⟨r, hr, hw⟩ := ih h
    rw [List.forall_mem_cons] at hw
    refine ⟨r, by rw [List.foldlM_cons, hu]; exact hr, ?_⟩
    simp only [List.forall_mem_cons]
    exact ⟨hs.trans hw.1, ht.trans hw.1, hw.2⟩

end Comparable

def Operator.Admits : Operator → List SmtSort → Prop
  | true, sorts | false, sorts => sorts = []
  | not, sorts => sorts = [.bool]
  | and, sorts | or, sorts => ∀ s ∈ sorts, s = .bool
  | xor, sorts => sorts ≠ [] ∧ ∀ s ∈ sorts, s = .bool
  | implies, sorts => 2 ≤ sorts.length ∧ ∀ s ∈ sorts, s = .bool
  | eq, sorts => 2 ≤ sorts.length ∧ Comparable sorts
  | distinct, sorts => sorts ≠ [] ∧ Comparable sorts
  | ite, sorts => ∃ s t, sorts = [.bool, s, t] ∧ Comparable [s, t]
  | add, sorts | sub, sorts | mul, sorts => sorts ≠ [] ∧ ∀ s ∈ sorts, s.isArith = Bool.true
  | intDiv, sorts => sorts ≠ [] ∧ ∀ s ∈ sorts, s = .int
  | realDiv, sorts => 2 ≤ sorts.length ∧ ∀ s ∈ sorts, s.isArith = Bool.true
  | mod, sorts => sorts = [.int, .int]
  | abs, sorts => ∃ s, sorts = [s] ∧ s.isArith = Bool.true
  | lt, sorts | le, sorts | gt, sorts | ge, sorts =>
    2 ≤ sorts.length ∧ ∀ s ∈ sorts, s.isArith = Bool.true
  | bvnot, sorts | bvneg, sorts => ∃ n, sorts = [.bitVec n]
  | bvand, sorts | bvor, sorts | bvxor, sorts | bvadd, sorts | bvmul, sorts =>
    sorts ≠ [] ∧ ∃ n, ∀ s ∈ sorts, s = .bitVec n
  | bvsub, sorts | bvudiv, sorts | bvurem, sorts | bvsdiv, sorts | bvsrem, sorts | bvshl, sorts
  | bvlshr, sorts | bvashr, sorts | bvult, sorts | bvule, sorts | bvugt, sorts | bvuge, sorts
  | bvslt, sorts | bvsle, sorts | bvsgt, sorts | bvsge, sorts =>
    ∃ n, sorts = [.bitVec n, .bitVec n]
  | concat, sorts => 2 ≤ sorts.length ∧ ∀ s ∈ sorts, s.isBitVec = Bool.true

def IndexedOperator.Admits : IndexedOperator → List Index → List SmtSort → Prop
  | extract, indices, sorts => ∃ high low n : Nat, indices = [.number high, .number low] ∧
      sorts = [.bitVec n] ∧ low ≤ high ∧ high < n
  | zeroExtend, indices, sorts | signExtend, indices, sorts =>
    ∃ k n : Nat, indices = [.number k] ∧ sorts = [.bitVec n]

/-- The symbol is well-sorted on operands of these sorts. -/
def Symbol.Admits : Symbol → List SmtSort → Prop
  | plain op, sorts => op.Admits sorts
  | indexed op indices, sorts => op.Admits indices sorts

/-! ## Reading values -/

namespace Value

def truth : Value → Bool
  | bool b => b
  | _ => false

def integer : Value → Int
  | int n => n
  | _ => 0

def number : Value → ℝ
  | int n => n
  | real x => x
  | _ => 0

def width : Value → Nat
  | bits n _ => n
  | _ => 0

def unsigned : Value → Nat
  | bits _ x => x.toNat
  | _ => 0

def signed : Value → Int
  | bits _ x => x.toInt
  | _ => 0

/-- The bit-vector for a number modulo `2 ^ n`. -/
def word (n : Nat) (k : Int) : Value := bits n (BitVec.ofInt n k)

/-- A branch of a choice, as a real if the other one is. -/
noncomputable def beside (v w : Value) : Value := if v.sort = w.sort then v else v.intToReal

def magnitude : Value → Value
  | int n => int |n|
  | real x => real |x|
  | v => v

end Value

/-! ## Taking operands -/

/-- The fold `f (f a₁ a₂) …`. -/
def foldLeft {α : Type} [Inhabited α] (f : α → α → α) : List α → α
  | [] => default
  | a :: as => as.foldl f a

/-- The negative of a single number, and otherwise what is left of the first. -/
def difference {α : Type} [Inhabited α] [Neg α] [Sub α] : List α → α
  | [a] => -a
  | as => foldLeft (· - ·) as

/-- Each truth value implies the rest. -/
def implied : List Bool → Bool
  | [] => true
  | [b] => b
  | b :: bs => !b || implied bs

namespace Value

def one (f : Value → Value) : List Value → Value
  | [v] => f v
  | _ => stray

def two (f : Value → Value → Value) : List Value → Value
  | [v, w] => f v w
  | _ => stray

def three (f : Value → Value → Value → Value) : List Value → Value
  | [u, v, w] => f u v w
  | _ => stray

/-- An integer if all operands are integers, and a real otherwise. -/
def numeric (f : List Int → Int) (g : List ℝ → ℝ) (vs : List Value) : Value :=
  if vs.all (·.sort == .int) then int (f (vs.map integer)) else real (g (vs.map number))

noncomputable def ordered (r : ℝ → ℝ → Prop) (vs : List Value) : Value :=
  ofProp ((vs.map number).IsChain r)

/-- A function of the operands as natural numbers, at their common width. -/
def words (f : Nat → Nat → Nat) (vs : List Value) : Value :=
  word ((vs.map width).headD 0) (foldLeft f (vs.map unsigned) : Nat)

end Value

/-! ## Symbols -/

namespace Operator

/-- No divisor is zero. Bit-vectors have quotients and remainders by zero as well. -/
def Regular : Operator → List Value → Prop
  | intDiv, vs | realDiv, vs | mod, vs => ∀ v ∈ vs.tail, v.number ≠ 0
  | _, _ => True

open Value in
noncomputable def standard : Operator → List Value → Value
  | true => fun _ => yes
  | false => fun _ => no
  | not => one fun v => bool !v.truth
  | and => fun vs => bool (vs.map truth).and
  | or => fun vs => bool (vs.map truth).or
  | xor => fun vs => bool (foldLeft (· ^^ ·) (vs.map truth))
  | implies => fun vs => bool (implied (vs.map truth))
  | eq => fun vs => ofProp ((vs.map intToReal).IsChain (· = ·))
  | distinct => fun vs => ofProp (vs.map intToReal).Nodup
  | ite => three fun c v w => if c.truth then v.beside w else w.beside v
  | add => numeric (foldLeft (· + ·)) (foldLeft (· + ·))
  | sub => numeric difference difference
  | mul => numeric (foldLeft (· * ·)) (foldLeft (· * ·))
  | intDiv => fun vs => int (foldLeft (· / ·) (vs.map integer))
  | realDiv => fun vs => real (foldLeft (· / ·) (vs.map number))
  | mod => two fun v w => int (v.integer % w.integer)
  | abs => one magnitude
  | lt => ordered (· < ·)
  | le => ordered (· ≤ ·)
  | gt => ordered (· > ·)
  | ge => ordered (· ≥ ·)
  | bvnot => one fun v => word v.width (-1 - v.unsigned)
  | bvneg => one fun v => word v.width (-v.unsigned)
  | bvand => words (· &&& ·)
  | bvor => words (· ||| ·)
  | bvxor => words (· ^^^ ·)
  | bvadd => words (· + ·)
  | bvmul => words (· * ·)
  | bvsub => two fun v w => word v.width (v.unsigned - w.unsigned)
  | bvudiv => two fun v w =>
    word v.width (if w.unsigned = 0 then -1 else (v.unsigned / w.unsigned : Nat))
  | bvurem => two fun v w => word v.width (v.unsigned % w.unsigned : Nat)
  | bvsdiv => two fun v w => word v.width
    (if w.signed = 0 then if v.signed < 0 then 1 else -1 else v.signed.tdiv w.signed)
  | bvsrem => two fun v w => word v.width (v.signed.tmod w.signed)
  | bvshl => two fun v w => word v.width (v.unsigned * 2 ^ w.unsigned : Nat)
  | bvlshr => two fun v w => word v.width (v.unsigned / 2 ^ w.unsigned : Nat)
  | bvashr => two fun v w => word v.width (v.signed / 2 ^ w.unsigned)
  | bvult => two fun v w => ofProp (v.unsigned < w.unsigned)
  | bvule => two fun v w => ofProp (v.unsigned ≤ w.unsigned)
  | bvugt => two fun v w => ofProp (v.unsigned > w.unsigned)
  | bvuge => two fun v w => ofProp (v.unsigned ≥ w.unsigned)
  | bvslt => two fun v w => ofProp (v.signed < w.signed)
  | bvsle => two fun v w => ofProp (v.signed ≤ w.signed)
  | bvsgt => two fun v w => ofProp (v.signed > w.signed)
  | bvsge => two fun v w => ofProp (v.signed ≥ w.signed)
  | concat => fun vs => word (vs.map width).sum
    (vs.foldl (fun k v => k * 2 ^ v.width + v.unsigned) 0 : Nat)

end Operator

namespace IndexedOperator

open Value in
def standard : IndexedOperator → List Index → List Value → Value
  | extract, [.number high, .number low] => one fun v =>
    word (high.toNat + 1 - low.toNat) (v.unsigned / 2 ^ low.toNat : Nat)
  | zeroExtend, [.number k] => one fun v => word (v.width + k.toNat) v.unsigned
  | signExtend, [.number k] => one fun v => word (v.width + k.toNat) v.signed
  | _, _ => fun _ => stray

end IndexedOperator

namespace Symbol

def Regular : Symbol → List Value → Prop
  | plain op, vs => op.Regular vs
  | indexed .., _ => True

/-- The value of the symbol on operands that it admits. -/
noncomputable def standard : Symbol → List Value → Value
  | plain op, vs => op.standard vs
  | indexed op indices, vs => op.standard indices vs

end Symbol

end Realizability
