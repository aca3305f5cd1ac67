import Realizability.Proofs.Format.Bits
import Realizability.Proofs.Format.Term

/-!
# Notations of bit-vectors

A number is written in base sixteen or two behind the mark of its notation, with any number of zeros
in front and every digit in either case, and it is read back from there (`BitsNotation.write_read`).
A bit-vector is read from such a literal, and also from one with a line feed behind its last digit,
which is no literal (`Term.ofJson_bitsText`).
-/

namespace Realizability

inductive BitsNotation
  | hexadecimal
  | binary
  deriving DecidableEq

namespace BitsNotation

def letter : BitsNotation → Char
  | hexadecimal => 'x'
  | binary => 'b'

def base : BitsNotation → Nat
  | hexadecimal => 16
  | binary => 2

/-- The number in the notation, with `zeros` zeros in front and some digits as capitals. -/
def write (w : BitsNotation) (zeros : Nat) (capital : Nat → Bool) (n : Nat) : String :=
  String.ofList ('#' :: w.letter :: (List.replicate zeros '0' ++
    (Nat.toDigits w.base n).mapIdx fun i c => if capital i then c.toUpper else c))

end BitsNotation

/-- The whole text is the mark of a notation and one or more digits that denote the number. -/
def BitsLiteral (s : String) (n : Nat) : Prop :=
  ∃ w : BitsNotation, ∃ cs, s.toList = '#' :: w.letter :: cs ∧ Text.IsNumeral w.base cs n

/-! ## Written numbers -/

namespace Text

section
variable {base n d : Nat} {c : Char} {cs : List Char} {ds : List Nat}

theorem isDigit_digitChar (hbase : base ≤ 16) (hd : d < base) :
    IsDigit base (Nat.digitChar d) d := by
  have hdigits : ∀ d < 16, "0123456789abcdef".toList[d]? = some (Nat.digitChar d) := by decide
  exact ⟨hd, .inl (hdigits d (by omega))⟩

theorem isDigit_toUpper (hbase : base ≤ 16) (hd : d < base) :
    IsDigit base (Nat.digitChar d).toUpper d := by
  have hdigits : ∀ d < 16, "0123456789ABCDEF".toList[d]? = some (Nat.digitChar d).toUpper := by
    decide
  exact ⟨hd, .inr (hdigits d (by omega))⟩

theorem forall₂_toDigits (hbase : 1 < base) (n : Nat) :
    ∃ ds, List.Forall₂ (fun c d => d < base ∧ c = Nat.digitChar d) (Nat.toDigits base n) ds ∧
      n = Nat.ofDigits base ds.reverse := by
  induction n using Nat.strongRecOn with
  | ind n ih =>
    rw [Nat.toDigits_eq_if hbase]
    split
    · rename_i hn
      exact ⟨[n], .cons ⟨hn, rfl⟩ .nil, by simp⟩
    · rename_i hn
      obtain ⟨ds, hds, hvalue⟩ := ih (n / base) (Nat.div_lt_self (by omega) hbase)
      refine ⟨ds ++ [n % base], List.rel_append hds (.cons ⟨Nat.mod_lt n (by omega), rfl⟩ .nil), ?_⟩
      calc n = n % base + base * (n / base) := (Nat.mod_add_div n base).symm
        _ = n % base + base * Nat.ofDigits base ds.reverse := by rw [← hvalue]
        _ = Nat.ofDigits base (ds ++ [n % base]).reverse := by simp [Nat.ofDigits_cons]

theorem forall₂_mapIdx (hbase : base ≤ 16) (capital : Nat → Bool)
    (h : List.Forall₂ (fun c d => d < base ∧ c = Nat.digitChar d) cs ds) :
    List.Forall₂ (IsDigit base) (cs.mapIdx fun i c => if capital i then c.toUpper else c) ds := by
  induction h generalizing capital with
  | nil => exact .nil
  | cons hd _ ih =>
    obtain ⟨hd, rfl⟩ := hd
    rw [List.mapIdx_cons]
    refine .cons ?_ (ih fun i => capital (i + 1))
    split
    · exact isDigit_toUpper hbase hd
    · exact isDigit_digitChar hbase hd

theorem isNumeral_toDigits (hone : 1 < base) (hbase : base ≤ 16) (capital : Nat → Bool) (n : Nat) :
    IsNumeral base ((Nat.toDigits base n).mapIdx fun i c => if capital i then c.toUpper else c)
      n := by
  obtain ⟨ds, hds, hvalue⟩ := forall₂_toDigits hone n
  exact ⟨by simp [Nat.toDigits_ne_nil], ds, forall₂_mapIdx hbase capital hds, hvalue⟩

theorem IsNumeral.zeros (hbase : 0 < base) (zeros : Nat) (h : IsNumeral base cs n) :
    IsNumeral base (List.replicate zeros '0' ++ cs) n := by
  obtain ⟨hne, ds, hds, hvalue⟩ := h
  refine ⟨by simp [hne], List.replicate zeros 0 ++ ds, List.rel_append ?_ hds, ?_⟩
  · exact List.forall₂_iff_get.mpr ⟨by simp, fun i hi hi' => by simpa using ⟨hbase, .inl rfl⟩⟩
  · simp [Nat.ofDigits_append, hvalue]

end

end Text

theorem BitsNotation.write_literal (w : BitsNotation) (zeros : Nat) (capital : Nat → Bool)
    (n : Nat) : BitsLiteral (w.write zeros capital n) n := by
  refine ⟨w, _, String.toList_ofList, .zeros ?_ zeros (Text.isNumeral_toDigits ?_ ?_ capital n)⟩ <;>
    cases w <;> decide

/-! ## Read literals -/

section
variable {s : String} {n : Nat}

theorem bitsText_iff_literal :
    BitsText s n ↔ BitsLiteral s n ∨ ∃ front, s = front ++ "\n" ∧ BitsLiteral front n := by
  constructor
  · rintro ⟨letter, base, cs, ending, hnotation, hending, hs, hnumeral⟩
    obtain ⟨w, rfl, rfl⟩ : ∃ w : BitsNotation, w.letter = letter ∧ w.base = base := by
      rcases hnotation with ⟨rfl, rfl⟩ | ⟨rfl, rfl⟩
      · exact ⟨.hexadecimal, rfl, rfl⟩
      · exact ⟨.binary, rfl, rfl⟩
    rcases hending with rfl | rfl
    · exact .inl ⟨w, cs, by simpa using hs, hnumeral⟩
    · refine .inr ⟨String.ofList ('#' :: w.letter :: cs), ?_, w, cs, String.toList_ofList, hnumeral⟩
      rw [← String.toList_inj, hs]
      simp
  · have hnotation (w : BitsNotation) :
        w.letter = 'x' ∧ w.base = 16 ∨ w.letter = 'b' ∧ w.base = 2 := by
      cases w <;> decide
    rintro (⟨w, cs, hs, hnumeral⟩ | ⟨front, rfl, w, cs, hs, hnumeral⟩)
    · exact ⟨_, _, cs, [], hnotation w, .inl rfl, by simpa using hs, hnumeral⟩
    · exact ⟨_, _, cs, ['\n'], hnotation w, .inr rfl, by simp [hs], hnumeral⟩

theorem not_literal_lineFeed (front : String) : ¬ BitsLiteral (front ++ "\n") n := by
  rintro ⟨w, cs, hs, hne, ds, hds, -⟩
  have hlast : cs.getLast hne = '\n' := by
    have := congrArg List.getLast? hs
    simpa [List.getLast?_cons, List.getLast?_eq_some_getLast hne] using this.symm
  obtain ⟨d, -, hd⟩ := exists_of_forall₂ hds.flip (List.getLast_mem hne)
  rw [hlast] at hd
  have hno : (∀ d < 16, ¬ Text.IsDigit 16 '\n' d) ∧ ∀ d < 2, ¬ Text.IsDigit 2 '\n' d := by decide
  cases w with
  | hexadecimal => exact hno.1 d hd.1 hd
  | binary => exact hno.2 d hd.1 hd

end

/-! ## Bit-vectors in texts -/

section
variable {o : Members} {width : Int} {s : String}

theorem Term.ofJson_bitvector (hkind : Table.get? "$termType" o = some (.string "bitvector"))
    (hwidth : Table.get? "size" o = some (.int width)) (hpos : 0 < width)
    (hvalue : Table.get? "value" o = some (.string s)) :
    Term.ofJson (.object o) = match bitsOfText? s with
      | some n => .ok (.bits width.toNat n)
      | none => .error ⟨.badBits, [.field "value"]⟩ := by
  rw [Term.ofJson, Members.stringField_eq_ok.mpr hkind]
  simp only [bind, Except.bind, Members.integerField_eq_ok.mpr hwidth,
    Members.field_eq_ok.mpr hvalue, if_neg (Int.not_le.mpr hpos), bitsOfJson]
  cases bitsOfText? s <;> rfl

/-- A bit-vector of a positive size is read from the text of a literal, and then it is the number of
the literal's digits; so numbers are read back in whatever way they are written. The only other
texts that are accepted are literals with a line feed behind them, of which there are some: that no
text but literals is accepted is true of exactly the texts that are not of this form. -/
theorem Term.ofJson_bitsText (hkind : Table.get? "$termType" o = some (.string "bitvector"))
    (hwidth : Table.get? "size" o = some (.int width)) (hpos : 0 < width)
    (hvalue : Table.get? "value" o = some (.string s)) :
    (∀ t, Term.ofJson (.object o) = .ok t ↔ ∃ n, t = .bits width.toNat n ∧
      (BitsLiteral s n ∨ ∃ front, s = front ++ "\n" ∧ BitsLiteral front n)) ∧
    ((∀ t, Term.ofJson (.object o) = .ok t ↔ ∃ n, t = .bits width.toNat n ∧ BitsLiteral s n) ↔
      ¬ ∃ front n, s = front ++ "\n" ∧ BitsLiteral front n) ∧
    (∀ e, Term.ofJson (.object o) = .error e ↔
      e = ⟨.badBits, [.field "value"]⟩ ∧ ¬ ∃ n, BitsText s n) ∧
    ∀ (w : BitsNotation) (zeros : Nat) (capital : Nat → Bool) (n : Nat),
      s = w.write zeros capital n → Term.ofJson (.object o) = .ok (.bits width.toNat n) := by
  have hread := Term.ofJson_bitvector hkind hwidth hpos hvalue
  have hok : ∀ t, Term.ofJson (.object o) = .ok t ↔
      ∃ n, t = .bits width.toNat n ∧ BitsText s n := by
    intro t
    rw [hread]
    simp only [← bitsOfText?_eq_some]
    cases bitsOfText? s <;> simp [eq_comm]
  refine ⟨by simpa only [bitsText_iff_literal] using hok, ?_, ?_, ?_⟩
  · constructor
    · rintro hclaim ⟨front, n, rfl, hfront⟩
      have haccepted := (hok _).mpr ⟨n, rfl, bitsText_iff_literal.mpr (.inr ⟨front, rfl, hfront⟩)⟩
      obtain ⟨m, -, hm⟩ := (hclaim _).mp haccepted
      exact not_literal_lineFeed front hm
    · intro hno t
      rw [hok]
      refine exists_congr fun n => and_congr_right fun _ => ?_
      rw [bitsText_iff_literal]
      exact or_iff_left fun ⟨front, hs, hfront⟩ => hno ⟨front, n, hs, hfront⟩
  · intro e
    rw [hread]
    simp only [← bitsOfText?_eq_some]
    cases bitsOfText? s <;> simp [eq_comm]
  · rintro w zeros capital n rfl
    exact (hok _).mpr ⟨n, rfl, bitsText_iff_literal.mpr (.inl (w.write_literal zeros capital n))⟩

end

namespace LineFed

def members (s : String) : Members :=
  [("$termType", .string "bitvector"), ("size", .int 8), ("value", .string s)]

theorem size_members (s : String) : Table.get? "size" (members s) = some (.int 8) := rfl

theorem value_members (s : String) : Table.get? "value" (members s) = some (.string s) := rfl

/-- Two zeros and a capital digit. -/
theorem padded_read : Term.ofJson (.object (members "#x00fF")) = .ok (.bits 8 255) :=
  (Term.ofJson_bitsText rfl (size_members _) (by decide) (value_members _)).2.2.2
    .hexadecimal 2 (fun i => i = 1) 255 (by decide)

/-- A line feed behind the last digit is passed over. -/
theorem lineFeed_read : Term.ofJson (.object (members "#xff\n")) = .ok (.bits 8 255) ∧
    ¬ ∃ n, BitsLiteral "#xff\n" n := by
  have htext : bitsOfText? "#xff\n" = some 255 := by decide
  refine ⟨?_, fun ⟨n, h⟩ => not_literal_lineFeed "#xff" h⟩
  rw [Term.ofJson_bitvector rfl (size_members _) (by decide) (value_members _), htext]
  rfl

end LineFed

end Realizability
