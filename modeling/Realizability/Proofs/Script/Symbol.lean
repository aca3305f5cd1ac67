import Realizability.Proofs.Script.Token

/-!
# Written symbols and numerals

A name without bars and backslashes is read back as a symbol of this name, with two exceptions:
reserved words are written as they are, and of a simple symbol with a line feed behind it the line
feed is lost.
-/

namespace Realizability.Script

/-! ## Words -/

theorem start_wordChar {c : Char} (h : isWordChar c) : start c = some (.word [c], []) := by
  -- no character with a meaning of its own belongs to a word
  have hne (d : Char) (hd : isWordChar d = false) : c ≠ d := by
    rintro rfl
    rw [h] at hd
    cases hd
  simp [start, isBlank, isLineEnd, hne ' ' (by decide), hne '\t' (by decide),
    hne '\n' (by decide), hne '\r' (by decide), hne ';' (by decide), hne '(' (by decide),
    hne ')' (by decide), hne '|' (by decide), hne '"' (by decide), h]

theorem scan_word {cs ds : List Char} (h : ∀ d ∈ ds, isWordChar d) :
    scan (.word cs) ds = some (.word (cs ++ ds), []) := by
  induction ds generalizing cs with
  | nil => simp
  | cons d ds ih =>
    rw [List.forall_mem_cons] at h
    have hd : (Mode.word cs).next d = some (.word (cs ++ [d]), []) := by simp [Mode.next, h.1]
    rw [scan, hd, Option.bind_some, ih h.2]
    simp

theorem atomOf_nil : atomOf [] = none := by decide

theorem spells_word {s : String} {a : Atom} (h : ∀ c ∈ s.toList, isWordChar c)
    (ha : atomOf s.toList = some a) : Spells s [.atom a] := by
  refine spells_iff.mpr ⟨.word s.toList, [], [.atom a], ?_, rfl, nofun, by simp [Mode.close, ha], rfl⟩
  cases hs : s.toList with
  | nil => rw [hs, atomOf_nil] at ha; cases ha
  | cons c cs =>
    rw [hs, List.forall_mem_cons] at h
    have hc : Mode.blank.next c = some (.word [c], []) := start_wordChar h.1
    rw [scan, hc, Option.bind_some, scan_word h.2]
    simp

theorem isWordChar_of_isSimple {cs : List Char} (h : isSimple cs) : ∀ c ∈ cs, isWordChar c := by
  cases cs with
  | nil => simp
  | cons c cs =>
    simp only [isSimple, Bool.and_eq_true, List.all_eq_true, Bool.or_eq_true] at h
    refine List.forall_mem_cons.mpr ⟨?_, fun d hd => ?_⟩
    · rcases h.1 with hc | hc <;> simp [isWordChar, hc]
    · rcases h.2 d hd with (hc | hc) | hc <;> simp [isWordChar, hc]

/-- The atom that is spelled with the characters of a simple symbol. -/
def wordAtom (word : String) : Atom :=
  if word ∈ reservedWords then .reserved word else .symbol word

theorem spells_simple {s : String} (h : isSimple s.toList) : Spells s [.atom (wordAtom s)] := by
  refine spells_word (isWordChar_of_isSimple h) ?_
  by_cases hr : s ∈ reservedWords <;> simp [atomOf, wordAtom, hr, h]

theorem not_isAlpha_of_isDigit {c : Char} (h : c.isDigit) : c.isAlpha = false := by
  have hdigit : c.val.toNat ≤ 57 := (Char.isDigit_iff_toNat.mp h).2
  have hupper : c.isUpper = false := by
    refine Bool.eq_false_iff.mpr fun hu => ?_
    have hle : 65 ≤ c.val.toNat := UInt32.le_iff_toNat_le.mp (of_decide_eq_true hu).1
    omega
  have hlower : c.isLower = false := by
    refine Bool.eq_false_iff.mpr fun hl => ?_
    have hle : 97 ≤ c.val.toNat :=
      UInt32.le_iff_toNat_le.mp (of_decide_eq_true (Bool.and_eq_true_iff.mp hl).1)
    omega
  show (c.isUpper || c.isLower) = false
  rw [hupper, hlower]
  rfl

theorem not_isMark_of_isDigit {c : Char} (h : c.isDigit) : isMark c = false := by
  have hmarks : ("~!@$%^&*_-+=<>.?/".toList.all fun d => !d.isDigit) := by decide
  refine Bool.eq_false_iff.mpr fun hm => ?_
  have := List.all_eq_true.mp hmarks c (List.contains_iff_mem.mp hm)
  rw [h] at this
  cases this

theorem not_isSimple_of_digit {c : Char} {cs : List Char} (h : c.isDigit) :
    isSimple (c :: cs) = false := by
  simp [isSimple, not_isAlpha_of_isDigit h, not_isMark_of_isDigit h]

theorem isSimple_of_mem_reservedWords : ∀ word ∈ reservedWords, isSimple word.toList := by decide

theorem atomOf_of_digit {c : Char} {cs : List Char} (h : c.isDigit) :
    atomOf (c :: cs) =
      if cs.all Char.isDigit then some (.numeral (Nat.ofDigitChars 10 (c :: cs) 0))
      else if isConstant (c :: cs) then some (.constant (String.ofList (c :: cs))) else none := by
  have hs : isSimple (c :: cs) = false := not_isSimple_of_digit h
  have hr : String.ofList (c :: cs) ∉ reservedWords := fun hm => by
    have := isSimple_of_mem_reservedWords _ hm
    rw [String.toList_ofList, hs] at this
    cases this
  rw [atomOf, if_neg hr, hs]
  simp [h]

theorem toString_toList (n : Nat) : (toString n).toList = Nat.toDigits 10 n := by
  rw [Nat.toString_eq_repr, Nat.toList_repr]

theorem isDigit_of_mem_toString {n : Nat} {c : Char} (h : c ∈ (toString n).toList) : c.isDigit := by
  rw [toString_toList] at h
  exact Nat.isDigit_of_mem_toDigits (by omega) (by omega) h

theorem toString_eq_cons (n : Nat) : ∃ c cs, (toString n).toList = c :: cs := by
  rw [toString_toList]
  exact List.exists_cons_of_ne_nil Nat.toDigits_ne_nil

theorem spells_numeral (n : Nat) : Spells (toString n) [.atom (.numeral n)] := by
  have hd (c : Char) (hc : c ∈ (toString n).toList) := isDigit_of_mem_toString hc
  refine spells_word (fun c hc => by simp [isWordChar, hd c hc]) ?_
  have hvalue : Nat.ofDigitChars 10 (toString n).toList 0 = n := by
    rw [toString_toList, Nat.ofDigitChars_ten_toDigits]
  obtain ⟨c, cs, hcs⟩ := toString_eq_cons n
  rw [hcs] at hd hvalue ⊢
  rw [List.forall_mem_cons] at hd
  rw [atomOf_of_digit hd.1, if_pos (List.all_eq_true.mpr hd.2), hvalue]

/-! ## Symbols between bars -/

/-- The name can stand between bars. -/
def Quotable (name : String) : Prop := '|' ∉ name.toList ∧ '\\' ∉ name.toList

instance (name : String) : Decidable (Quotable name) := inferInstanceAs (Decidable (_ ∧ _))

theorem scan_quoted {cs ds : List Char} (hb : '|' ∉ ds) (hs : '\\' ∉ ds) (es : List Char) :
    scan (.quoted cs) (ds ++ '|' :: es) =
      prepend [.atom (.symbol (String.ofList (cs ++ ds)))] (scan .blank es) := by
  induction ds generalizing cs with
  | nil => simp [scan, Mode.next]
  | cons d ds ih =>
    rw [List.mem_cons, not_or] at hb hs
    have hd : (Mode.quoted cs).next d = some (.quoted (cs ++ [d]), []) := by
      simp [Mode.next, Ne.symm hb.1, Ne.symm hs.1]
    rw [List.cons_append, scan, hd, Option.bind_some, ih hb.2 hs.2]
    simp

theorem spells_quoted {name : String} (h : Quotable name) :
    Spells ("|" ++ name ++ "|") [.atom (.symbol name)] := by
  have hname : ("|" ++ name ++ "|").toList ++ [' '] = '|' :: (name.toList ++ '|' :: [' ']) := by
    rw [String.toList_append, String.toList_append]
    simp
  rw [Spells, hname]
  show prepend [] (scan (.quoted []) _) = _
  rw [scan_quoted h.1 h.2]
  simp

/-! ## Written names -/

theorem isSimpleSymbol_eq (cs : List Char) :
    isSimpleSymbol cs = isSimple (if cs.getLast? = some '\n' then cs.dropLast else cs) := by
  unfold isSimpleSymbol
  generalize (if cs.getLast? = some '\n' then cs.dropLast else cs) = ds
  cases ds <;> rfl

theorem getLast?_of_isSimple {cs : List Char} (h : isSimple cs) : cs.getLast? ≠ some '\n' := by
  intro hl
  have := isWordChar_of_isSimple h _ (List.mem_of_getLast? hl)
  revert this
  decide

/-- The name is told apart from the words of the language, and keeps all its characters. -/
def Kept (name : String) : Prop :=
  name ∉ reservedWords ∧ ∀ word : String, isSimple word.toList → name ≠ word ++ "\n"

theorem kept_of_getLast? {name : String} (hr : name ∉ reservedWords)
    (hl : name.toList.getLast? ≠ some '\n') : Kept name := by
  refine ⟨hr, fun word _ h => hl ?_⟩
  rw [h]
  simp

theorem isSimpleSymbol_iff {name : String} : isSimpleSymbol name.toList ↔
    isSimple name.toList ∨ ∃ word : String, isSimple word.toList ∧ name = word ++ "\n" := by
  rw [isSimpleSymbol_eq]
  constructor
  · intro h
    by_cases hl : name.toList.getLast? = some '\n'
    · rw [if_pos hl] at h
      refine .inr ⟨String.ofList name.toList.dropLast, by simpa using h, ?_⟩
      rw [← String.toList_inj, String.toList_append, String.toList_ofList]
      exact (List.dropLast_append_getLast? _ hl).symm
    · rw [if_neg hl] at h
      exact .inl h
  · rintro (h | ⟨word, h, rfl⟩)
    · rwa [if_neg (getLast?_of_isSimple h)]
    · simpa using h

theorem wordAtom_eq_symbol_iff {word name : String} :
    wordAtom word = .symbol name ↔ word ∉ reservedWords ∧ word = name := by
  by_cases h : word ∈ reservedWords <;> simp [wordAtom, h]

theorem spells_lineFeed {s : String} {ts : List Token} (h : Spells s ts) : Spells (s ++ "\n") ts := by
  have hs : (s ++ "\n").toList ++ [' '] = s.toList ++ '\n' :: [' '] := by simp
  rw [Spells, hs, h.scan_delimiter (by decide)]
  simp

theorem spells_writtenSymbol {name : String} (hq : Quotable name) :
    ∃ a, Spells (writtenSymbol name) [.atom a] ∧ (a = .symbol name ↔ Kept name) := by
  by_cases h : isSimpleSymbol name.toList
  · rw [writtenSymbol, if_pos h]
    rcases isSimpleSymbol_iff.mp h with h | ⟨word, hw, rfl⟩
    · refine ⟨wordAtom name, spells_simple h, ?_⟩
      rw [wordAtom_eq_symbol_iff]
      exact ⟨fun hr => kept_of_getLast? hr.1 (getLast?_of_isSimple h), fun hk => ⟨hk.1, rfl⟩⟩
    · refine ⟨wordAtom word, spells_lineFeed (spells_simple hw), ?_⟩
      have hne : word ≠ word ++ "\n" := by simp [← String.toList_inj]
      simp only [wordAtom_eq_symbol_iff, hne, and_false, false_iff]
      exact fun hk => hk.2 word hw rfl
  · rw [writtenSymbol, if_neg h]
    refine ⟨.symbol name, spells_quoted hq, iff_of_true rfl ?_⟩
    rw [isSimpleSymbol_iff, not_or] at h
    exact ⟨fun hr => h.1 (isSimple_of_mem_reservedWords _ hr), fun word hw hn =>
      h.2 ⟨word, hw, hn⟩⟩

end Realizability.Script
