import Mathlib.Algebra.Ring.Int.Defs
import Mathlib.Algebra.Ring.Nat
import Mathlib.Data.List.Defs

/-!
# Bit-vectors as numbers

Every operation on bit-vectors is an operation on the natural numbers or integers that their bits
write, cut to the width (`…_eq_word`). A fold may be cut once at its end (`foldl_eq_word`).
-/

namespace Realizability

section
variable {n m : Nat} (x y : BitVec n)

theorem ofInt_toNat : BitVec.ofInt n x.toNat = x := by
  rw [BitVec.ofInt_natCast, BitVec.ofNat_toNat, BitVec.setWidth_eq]

theorem not_eq_word : ~~~x = BitVec.ofInt n (-1 - x.toNat) := by
  rw [BitVec.not_eq_neg_add]
  simp only [Int.sub_eq_add_neg, BitVec.sub_eq_add_neg, BitVec.ofInt_add, BitVec.ofInt_neg,
    ofInt_toNat, BitVec.ofInt_ofNat, BitVec.add_comm]

theorem neg_eq_word : -x = BitVec.ofInt n (-x.toNat) := by
  rw [BitVec.ofInt_neg, ofInt_toNat]

theorem sub_eq_word : x - y = BitVec.ofInt n (x.toNat - y.toNat) := by
  rw [Int.sub_eq_add_neg, BitVec.ofInt_add, BitVec.ofInt_neg, ofInt_toNat, ofInt_toNat,
    BitVec.sub_eq_add_neg]

theorem udiv_eq_word : x.smtUDiv y =
    BitVec.ofInt n (if y.toNat = 0 then -1 else (x.toNat / y.toNat : Nat)) := by
  rw [BitVec.smtUDiv_eq]
  by_cases hy : y = 0#n
  · simp [hy, BitVec.ofInt_neg, BitVec.neg_one_eq_allOnes]
  · have hz : y.toNat ≠ 0 := fun h => hy (BitVec.eq_of_toNat_eq (by simpa using h))
    rw [if_neg hy, if_neg hz, BitVec.ofInt_natCast]
    exact BitVec.udiv_def ..

theorem umod_eq_word : x.umod y = BitVec.ofInt n (x.toNat % y.toNat : Nat) := by
  rw [BitVec.ofInt_natCast]
  exact BitVec.umod_def ..

theorem sdiv_eq_word : x.smtSDiv y = BitVec.ofInt n
    (if y.toInt = 0 then if x.toInt < 0 then 1 else -1 else x.toInt.tdiv y.toInt) := by
  by_cases hy : y = 0#n
  · subst hy
    rw [BitVec.smtSDiv_zero, BitVec.toInt_zero, if_pos rfl]
    by_cases hx : x.toInt < 0
    · simp [BitVec.slt, hx]
    · simp [BitVec.slt, hx, BitVec.ofInt_neg, BitVec.neg_one_eq_allOnes]
  · have hz : y.toInt ≠ 0 := fun h => hy (BitVec.eq_of_toInt_eq (by simpa using h))
    have hneg : -y ≠ 0#n := by simpa using hy
    have hdiv : x.smtSDiv y = x.sdiv y := by
      rw [BitVec.smtSDiv, BitVec.sdiv]
      cases x.msb <;> cases y.msb <;> simp [BitVec.smtUDiv_eq, hy, hneg, BitVec.udiv_eq]
    rw [if_neg hz, hdiv]
    apply BitVec.eq_of_toInt_eq
    rw [BitVec.toInt_ofInt, BitVec.toInt_sdiv]

theorem srem_eq_word : x.srem y = BitVec.ofInt n (x.toInt.tmod y.toInt) := by
  rw [← BitVec.toInt_srem, BitVec.ofInt_toInt]

theorem shl_eq_word : x <<< y = BitVec.ofInt n (x.toNat * 2 ^ y.toNat : Nat) := by
  apply BitVec.eq_of_toNat_eq
  rw [BitVec.ofInt_natCast, BitVec.toNat_ofNat, BitVec.shiftLeft_eq', BitVec.toNat_shiftLeft,
    Nat.shiftLeft_eq]

theorem lshr_eq_word : x >>> y = BitVec.ofInt n (x.toNat / 2 ^ y.toNat : Nat) := by
  apply BitVec.eq_of_toNat_eq
  have hlt := Nat.lt_of_le_of_lt (Nat.div_le_self x.toNat (2 ^ y.toNat)) x.isLt
  rw [BitVec.ofInt_natCast, BitVec.toNat_ofNat, BitVec.ushiftRight_eq', BitVec.toNat_ushiftRight,
    Nat.shiftRight_eq_div_pow, Nat.mod_eq_of_lt hlt]

theorem ashr_eq_word : x.sshiftRight' y = BitVec.ofInt n (x.toInt / 2 ^ y.toNat) := by
  show BitVec.ofInt n (x.toInt >>> y.toNat) = _
  rw [Int.shiftRight_eq_div_pow]
  push_cast
  rfl

theorem toNat_append_eq (w : BitVec m) : (x ++ w).toNat = x.toNat * 2 ^ m + w.toNat := by
  rw [BitVec.toNat_append, ← Nat.shiftLeft_add_eq_or_of_lt w.isLt, Nat.shiftLeft_eq]

theorem extract_eq_word (low len : Nat) :
    x.extractLsb' low len = BitVec.ofInt len (x.toNat / 2 ^ low : Nat) := by
  rw [BitVec.ofInt_natCast, ← Nat.shiftRight_eq_div_pow]
  rfl

theorem zeroExtend_eq_word (k : Nat) : x.setWidth k = BitVec.ofInt k x.toNat := by
  rw [BitVec.ofInt_natCast, BitVec.ofNat_toNat]

theorem and_ofNat (k : Nat) (y : BitVec n) :
    BitVec.ofNat n k &&& y = BitVec.ofNat n (k &&& y.toNat) := by
  rw [BitVec.ofNat_and, BitVec.ofNat_toNat, BitVec.setWidth_eq]

theorem or_ofNat (k : Nat) (y : BitVec n) :
    BitVec.ofNat n k ||| y = BitVec.ofNat n (k ||| y.toNat) := by
  rw [BitVec.ofNat_or, BitVec.ofNat_toNat, BitVec.setWidth_eq]

theorem xor_ofNat (k : Nat) (y : BitVec n) :
    BitVec.ofNat n k ^^^ y = BitVec.ofNat n (k ^^^ y.toNat) := by
  rw [BitVec.ofNat_xor, BitVec.ofNat_toNat, BitVec.setWidth_eq]

theorem add_ofNat (k : Nat) (y : BitVec n) :
    BitVec.ofNat n k + y = BitVec.ofNat n (k + y.toNat) := by
  rw [BitVec.ofNat_add, BitVec.ofNat_toNat, BitVec.setWidth_eq]

theorem mul_ofNat (k : Nat) (y : BitVec n) :
    BitVec.ofNat n k * y = BitVec.ofNat n (k * y.toNat) := by
  rw [BitVec.ofNat_mul, BitVec.ofNat_toNat, BitVec.setWidth_eq]

/-- A fold of bit-vectors is the fold of their numbers, cut to the width once. -/
theorem foldl_eq_word {op : BitVec n → BitVec n → BitVec n} {f : Nat → Nat → Nat}
    (h : ∀ (k : Nat) (y : BitVec n), op (BitVec.ofNat n k) y = BitVec.ofNat n (f k y.toNat))
    (ys : List (BitVec n)) :
    ys.foldl op x = BitVec.ofInt n ((ys.map BitVec.toNat).foldl f x.toNat : Nat) := by
  suffices hk : ∀ k, ys.foldl op (BitVec.ofNat n k) =
      BitVec.ofNat n ((ys.map BitVec.toNat).foldl f k) by
    rw [BitVec.ofInt_natCast, ← hk, BitVec.ofNat_toNat, BitVec.setWidth_eq]
  induction ys with
  | nil => exact fun k => rfl
  | cons y ys ih =>
    intro k
    rw [List.foldl_cons, h, ih]
    rfl

end

end Realizability
