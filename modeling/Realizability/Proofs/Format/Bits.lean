import Mathlib.Data.List.Forall2
import Mathlib.Data.Nat.Digits.Defs
import Mathlib.Tactic.IntervalCases
import Realizability.Term.Format

/-!
# Texts of bit-vectors

A text denotes a bit-vector if it is `#`, the letter of a base and one or more digits of the base; a
line end may follow them. The number is the one that the digits have by their places
(`bitsOfText?_eq_some`).
-/

namespace Realizability

namespace Text

/-- The character is a digit of the base, which is sixteen at most, in either case. -/
def IsDigit (base : Nat) (c : Char) (d : Nat) : Prop :=
  d < base ∧ ("0123456789abcdef".toList[d]? = some c ∨ "0123456789ABCDEF".toList[d]? = some c)

instance (base : Nat) (c : Char) (d : Nat) : Decidable (IsDigit base c d) :=
  inferInstanceAs (Decidable (_ ∧ _))

theorem eq_ofNat {c : Char} {k : Nat} (h : k ≤ c.toNat) : c = Char.ofNat (c.toNat - k + k) := by
  rw [Nat.sub_add_cancel h, Char.ofNat_toNat]

theorem isDigit_of_hexValue? {c : Char} {d : Nat} (h : hexValue? c = some d) : IsDigit 16 c d := by
  have hdecimal : ∀ d < 10, IsDigit 16 (Char.ofNat (d + 48)) d := by decide
  have hsmall : ∀ d < 16, 10 ≤ d → IsDigit 16 (Char.ofNat (d + 87)) d := by decide
  have hlarge : ∀ d < 16, 10 ≤ d → IsDigit 16 (Char.ofNat (d + 55)) d := by decide
  unfold hexValue? at h
  split_ifs at h with hten hlower hupper
  · obtain ⟨hle, hge⟩ : 48 ≤ c.toNat ∧ c.toNat ≤ 57 := Char.isDigit_iff_toNat.mp hten
    cases h
    have := hdecimal (c.toNat - 48) (by omega)
    rwa [← eq_ofNat hle] at this
  · have hle : 97 ≤ c.toNat := UInt32.le_iff_toNat_le.mp hlower.1
    have hge : c.toNat ≤ 102 := UInt32.le_iff_toNat_le.mp hlower.2
    cases h
    have := hsmall (c.toNat - 87) (by omega) (by omega)
    rwa [← eq_ofNat (by omega)] at this
  · have hle : 65 ≤ c.toNat := UInt32.le_iff_toNat_le.mp hupper.1
    have hge : c.toNat ≤ 70 := UInt32.le_iff_toNat_le.mp hupper.2
    cases h
    have := hlarge (c.toNat - 55) (by omega) (by omega)
    rwa [← eq_ofNat (by omega)] at this

theorem hexValue?_eq_some {c : Char} {d : Nat} : hexValue? c = some d ↔ IsDigit 16 c d := by
  have hlower : ∀ d < 16, ("0123456789abcdef".toList[d]?).bind hexValue? = some d := by decide
  have hupper : ∀ d < 16, ("0123456789ABCDEF".toList[d]?).bind hexValue? = some d := by decide
  refine ⟨isDigit_of_hexValue?, ?_⟩
  rintro ⟨hd, hc | hc⟩
  · have := hlower d hd
    rwa [hc] at this
  · have := hupper d hd
    rwa [hc] at this

theorem binaryValue?_eq_some {c : Char} {d : Nat} : binaryValue? c = some d ↔ IsDigit 2 c d := by
  have hdigits : ∀ d < 2, ("0123456789abcdef".toList[d]?).bind binaryValue? = some d ∧
      ("0123456789ABCDEF".toList[d]?).bind binaryValue? = some d := by decide
  constructor
  · intro h
    unfold binaryValue? at h
    split_ifs at h with hzero hone
    · cases h
      exact hzero ▸ by decide
    · cases h
      exact hone ▸ by decide
  · rintro ⟨hd, hc | hc⟩
    · have := (hdigits d hd).1
      rwa [hc] at this
    · have := (hdigits d hd).2
      rwa [hc] at this

/-- The digits of a number in a base, the greatest place first. -/
def IsNumeral (base : Nat) (cs : List Char) (n : Nat) : Prop :=
  cs ≠ [] ∧ ∃ ds, List.Forall₂ (IsDigit base) cs ds ∧ n = Nat.ofDigits base ds.reverse

end Text

theorem ofDigits_reverse (base : Nat) (ds : List Nat) :
    Nat.ofDigits base ds.reverse = ds.foldl (fun n d => n * base + d) 0 := by
  rw [Nat.ofDigits_eq_foldr, List.foldr_reverse]
  congr 1
  funext n d
  simp [Nat.mul_comm, Nat.add_comm]

section
variable {base : Nat} {digit? : Char → Option Nat}

theorem numeral?_of_digits (hend : digit? '\n' = none) {front ending : List Char} {ds : List Nat}
    (h : List.Forall₂ (fun c d => digit? c = some d) front ds) (hending : ending = [] ∨ ending = ['\n'])
    (value : Nat) : numeral? base digit? value (front ++ ending) =
      some (ds.foldl (fun n d => n * base + d) value) := by
  induction h generalizing value with
  | nil => rcases hending with rfl | rfl <;> rfl
  | @cons c d front ds hc _ ih =>
    have hne : c ≠ '\n' := by
      rintro rfl
      simp [hend] at hc
    rw [List.cons_append, numeral?, hc, Option.bind_eq_bind, Option.bind_some, ih, List.foldl_cons]
    exact fun h => absurd h hne

theorem numeral?_eq_some (hend : digit? '\n' = none) {value n : Nat} {cs : List Char} :
    numeral? base digit? value cs = some n ↔ ∃ front ds ending, cs = front ++ ending ∧
      (ending = [] ∨ ending = ['\n']) ∧ List.Forall₂ (fun c d => digit? c = some d) front ds ∧
      n = ds.foldl (fun n d => n * base + d) value := by
  constructor
  · intro h
    fun_induction numeral? base digit? value cs with
    | case1 value =>
      cases h
      exact ⟨[], [], [], rfl, .inl rfl, .nil, rfl⟩
    | case2 value =>
      cases h
      exact ⟨[], [], ['\n'], rfl, .inr rfl, .nil, rfl⟩
    | case3 value c cs _ ih =>
      obtain ⟨d, hd, h⟩ := Option.bind_eq_some_iff.mp h
      obtain ⟨front, ds, ending, rfl, hending, hds, rfl⟩ := ih d h
      exact ⟨c :: front, d :: ds, ending, rfl, hending, .cons hd hds, rfl⟩
  · rintro ⟨front, ds, ending, rfl, hending, hds, rfl⟩
    exact numeral?_of_digits hend hds hending value

end

/-! ## Marked numerals -/

def BitsText (s : String) (n : Nat) : Prop :=
  ∃ letter base cs ending, (letter = 'x' ∧ base = 16 ∨ letter = 'b' ∧ base = 2) ∧
    (ending = [] ∨ ending = ['\n']) ∧ s.toList = '#' :: letter :: (cs ++ ending) ∧
    Text.IsNumeral base cs n

section
variable {base : Nat} {digit? : Char → Option Nat}

theorem numeral?_first (hend : digit? '\n' = none)
    (hdigit : ∀ c d, digit? c = some d ↔ Text.IsDigit base c d) {c : Char} {cs : List Char} {n : Nat} :
    ((digit? c).bind fun d => numeral? base digit? d cs) = some n ↔
      ∃ front ending, c :: cs = front ++ ending ∧ (ending = [] ∨ ending = ['\n']) ∧
        Text.IsNumeral base front n := by
  simp only [Option.bind_eq_some_iff, numeral?_eq_some hend, Text.IsNumeral, ofDigits_reverse,
    hdigit]
  constructor
  · rintro ⟨d, hd, front, ds, ending, rfl, hending, hds, rfl⟩
    exact ⟨c :: front, ending, rfl, hending, by simp, d :: ds, .cons hd hds, by simp⟩
  · rintro ⟨front, ending, hcs, hending, hne, ds, hds, rfl⟩
    cases hds with
    | nil => exact absurd rfl hne
    | @cons c' d front ds hd hds =>
      obtain ⟨rfl, rfl⟩ := List.cons.inj hcs
      exact ⟨d, hd, front, ds, ending, rfl, hending, hds, by simp⟩

end

theorem bitsOfText?_eq_some {s : String} {n : Nat} : bitsOfText? s = some n ↔ BitsText s n := by
  have hhex : ∀ c cs, ((Text.hexValue? c).bind fun d => numeral? 16 Text.hexValue? d cs) = some n ↔ _ :=
    fun c cs => numeral?_first (by decide) (fun _ _ => Text.hexValue?_eq_some)
  have hbinary : ∀ c cs, ((Text.binaryValue? c).bind fun d => numeral? 2 Text.binaryValue? d cs) =
      some n ↔ _ := fun c cs => numeral?_first (by decide) (fun _ _ => Text.binaryValue?_eq_some)
  unfold bitsOfText?
  constructor
  · intro h
    split at h
    · rename_i c cs hs
      obtain ⟨front, ending, hcs, hending, hnumeral⟩ := (hhex c cs).mp h
      exact ⟨'x', 16, front, ending, .inl ⟨rfl, rfl⟩, hending, hcs ▸ hs, hnumeral⟩
    · rename_i c cs hs
      obtain ⟨front, ending, hcs, hending, hnumeral⟩ := (hbinary c cs).mp h
      exact ⟨'b', 2, front, ending, .inr ⟨rfl, rfl⟩, hending, hcs ▸ hs, hnumeral⟩
    · cases h
  · rintro ⟨letter, base, front, ending, hbase, hending, hs, hnumeral⟩
    obtain ⟨c, front, rfl⟩ := List.exists_cons_of_ne_nil hnumeral.1
    rcases hbase with ⟨rfl, rfl⟩ | ⟨rfl, rfl⟩
    · rw [hs]
      exact (hhex c (front ++ ending)).mpr ⟨_, ending, rfl, hending, hnumeral⟩
    · rw [hs]
      exact (hbinary c (front ++ ending)).mpr ⟨_, ending, rfl, hending, hnumeral⟩

end Realizability
