import Mathlib.Data.List.Forall2
import Realizability.Formula.Written

/-!
# Tokens of a script

What a reader of SMT-LIB makes of the characters of a script. A semicolon starts a comment that
runs to the end of its line, bars delimit a symbol that may hold anything but bars and backslashes,
and quotes a string, in which a quote is written twice. All other words are reserved words, simple
symbols or constants by their characters.
-/

namespace Realizability.Script

/-! ## Words -/

def commandNames : List String :=
  ["assert", "check-sat", "check-sat-assuming", "declare-const", "declare-datatype",
    "declare-datatypes", "declare-fun", "declare-sort", "define-const", "define-fun",
    "define-fun-rec", "define-funs-rec", "define-sort", "echo", "exit", "get-assertions",
    "get-assignment", "get-info", "get-model", "get-option", "get-proof", "get-unsat-assumptions",
    "get-unsat-core", "get-value", "pop", "push", "reset", "reset-assertions", "set-info",
    "set-logic", "set-option"]

/-- The words that are no symbols, although they have the characters of one. -/
def reservedWords : List String :=
  ["!", "_", "as", "BINARY", "DECIMAL", "exists", "forall", "HEXADECIMAL", "let", "match",
    "NUMERAL", "par", "STRING"] ++ commandNames

inductive Atom
  | symbol (name : String)
  | reserved (word : String)
  | numeral (n : Nat)
  | constant (word : String)
  | text (content : String)
  deriving DecidableEq, Repr

inductive Token
  | opening
  | closing
  | atom (a : Atom)
  deriving DecidableEq, Repr

def isMark (c : Char) : Bool := "~!@$%^&*_-+=<>.?/".toList.contains c

/-- Letters, digits and marks, no digit at the start. -/
def isSimple : List Char → Bool
  | [] => false
  | c :: cs => (c.isAlpha || isMark c) && cs.all fun d => d.isAlpha || isMark d || d.isDigit

def isHexDigit (c : Char) : Bool := c.isDigit || "abcdefABCDEF".toList.contains c

/-- Keywords, hexadecimals, binaries and decimals. -/
def isConstant (cs : List Char) : Bool :=
  match cs with
  | ':' :: word => !word.isEmpty && word.all fun d => d.isAlpha || isMark d || d.isDigit
  | '#' :: 'x' :: digits => !digits.isEmpty && digits.all isHexDigit
  | '#' :: 'b' :: digits => !digits.isEmpty && digits.all fun d => d = '0' || d = '1'
  | _ =>
    match cs.dropWhile Char.isDigit with
    | '.' :: digits => (cs.head?.any Char.isDigit) && !digits.isEmpty && digits.all Char.isDigit
    | _ => false

def atomOf (cs : List Char) : Option Atom :=
  let word := String.ofList cs
  if word ∈ reservedWords then some (.reserved word)
  else if isSimple cs then some (.symbol word)
  else if !cs.isEmpty && cs.all Char.isDigit then some (.numeral (Nat.ofDigitChars 10 cs 0))
  else if isConstant cs then some (.constant word)
  else none

/-! ## Reading character by character -/

/-- What the reader has begun; `textEnd` is behind a quote that ends a string unless another one
follows. -/
inductive Mode
  | blank
  | comment
  | word (cs : List Char)
  | quoted (cs : List Char)
  | text (cs : List Char)
  | textEnd (cs : List Char)
  deriving DecidableEq, Repr

def isLineEnd (c : Char) : Bool := c = '\n' || c = '\r'

def isBlank (c : Char) : Bool := c = ' ' || c = '\t' || isLineEnd c

def isWordChar (c : Char) : Bool := c.isAlpha || isMark c || c.isDigit || c = ':' || c = '#'

/-- What a character begins between two tokens. -/
def start (c : Char) : Option (Mode × List Token) :=
  if isBlank c then some (.blank, [])
  else if c = ';' then some (.comment, [])
  else if c = '(' then some (.blank, [.opening])
  else if c = ')' then some (.blank, [.closing])
  else if c = '|' then some (.quoted [], [])
  else if c = '"' then some (.text [], [])
  else if isWordChar c then some (.word [c], [])
  else none

def prepend (ts : List Token) (r : Option (Mode × List Token)) : Option (Mode × List Token) :=
  r.map fun p => (p.1, ts ++ p.2)

namespace Mode

def close : Mode → Option (List Token)
  | .blank | .comment => some []
  | .word cs => (atomOf cs).map fun a => [.atom a]
  | .textEnd cs => some [.atom (.text (String.ofList cs))]
  | .quoted _ | .text _ => none

/-- A character behind a complete token. -/
def leave (m : Mode) (c : Char) : Option (Mode × List Token) :=
  m.close.bind fun ts => prepend ts (start c)

def next (m : Mode) (c : Char) : Option (Mode × List Token) :=
  match m with
  | .blank => start c
  | .comment => some (if isLineEnd c then .blank else .comment, [])
  | .word cs => if isWordChar c then some (.word (cs ++ [c]), []) else m.leave c
  | .quoted cs =>
    if c = '|' then some (.blank, [.atom (.symbol (String.ofList cs))])
    else if c = '\\' then none
    else some (.quoted (cs ++ [c]), [])
  | .text cs => some (if c = '"' then .textEnd cs else .text (cs ++ [c]), [])
  | .textEnd cs => if c = '"' then some (.text (cs ++ [c]), []) else m.leave c

/-- A line end does not end the token. -/
def isOpen : Mode → Bool
  | .quoted _ | .text _ => true
  | _ => false

end Mode

def scan (m : Mode) : List Char → Option (Mode × List Token)
  | [] => some (m, [])
  | c :: cs => (m.next c).bind fun p => prepend p.2 (scan p.1 cs)

def tokens (s : String) : Option (List Token) :=
  (scan .blank s.toList).bind fun p => p.1.close.map (p.2 ++ ·)

/-- The text has the tokens, and what follows it behind a blank is no part of them. -/
def Spells (s : String) (ts : List Token) : Prop :=
  scan .blank (s.toList ++ [' ']) = some (.blank, ts)

instance (s : String) (ts : List Token) : Decidable (Spells s ts) :=
  inferInstanceAs (Decidable (_ = _))

/-- The text ends within a symbol between bars, or within a string. -/
def LeavesOpen (s : String) : Prop := ∃ m ts, scan .blank s.toList = some (m, ts) ∧ m.isOpen

/-! ## Texts behind each other -/

@[simp]
theorem prepend_nil (r : Option (Mode × List Token)) : prepend [] r = r := by
  cases r <;> rfl

@[simp]
theorem prepend_prepend (ts us : List Token) (r : Option (Mode × List Token)) :
    prepend ts (prepend us r) = prepend (ts ++ us) r := by
  cases r <;> simp [prepend]

@[simp]
theorem prepend_some (ts us : List Token) (m : Mode) :
    prepend ts (some (m, us)) = some (m, ts ++ us) := rfl

theorem prepend_bind (ts : List Token) (r : Option (Mode × List Token))
    (f : Mode × List Token → Option (Mode × List Token)) (hf : ∀ m us,
      f (m, ts ++ us) = prepend ts (f (m, us))) :
    (prepend ts r).bind f = prepend ts (r.bind f) := by
  cases r with
  | none => rfl
  | some p => exact hf p.1 p.2

theorem scan_append (m : Mode) (cs ds : List Char) :
    scan m (cs ++ ds) = (scan m cs).bind fun p => prepend p.2 (scan p.1 ds) := by
  induction cs generalizing m with
  | nil => simp [scan]
  | cons c cs ih =>
    rw [List.cons_append, scan, scan]
    cases hc : m.next c with
    | none => rfl
    | some p =>
      rw [Option.bind_some, Option.bind_some, ih, prepend_bind]
      intro m us
      rw [prepend_prepend]

@[simp]
theorem scan_nil (m : Mode) : scan m [] = some (m, []) := rfl

@[simp]
theorem scan_space (cs : List Char) : scan .blank (' ' :: cs) = scan .blank cs := prepend_nil _

@[simp]
theorem scan_newline (cs : List Char) : scan .blank ('\n' :: cs) = scan .blank cs := prepend_nil _

@[simp]
theorem scan_opening (cs : List Char) :
    scan .blank ('(' :: cs) = prepend [.opening] (scan .blank cs) := rfl

@[simp]
theorem scan_closing (cs : List Char) :
    scan .blank (')' :: cs) = prepend [.closing] (scan .blank cs) := rfl

def isDelimiter (c : Char) : Bool := !isWordChar c && c ≠ '"'

theorem Mode.next_delimiter {m : Mode} {c : Char} (hc : isDelimiter c) (hm : m.isOpen = false)
    (hne : m ≠ .comment) : m.next c = m.leave c := by
  simp only [isDelimiter, Bool.and_eq_true, Bool.not_eq_true', decide_eq_true_eq] at hc
  cases m with
  | blank => simp [next, leave, close]
  | comment => exact absurd rfl hne
  | word cs => simp [next, hc.1]
  | quoted cs => cases hm
  | text cs => cases hm
  | textEnd cs => simp [next, hc.2]

theorem scan_delimiter {m : Mode} {c : Char} (hc : isDelimiter c) (hm : m.isOpen = false)
    (hne : m ≠ .comment) (cs : List Char) :
    scan m (c :: cs) = m.close.bind fun ts => prepend ts (scan .blank (c :: cs)) := by
  rw [scan, scan, Mode.next_delimiter hc hm hne, Mode.leave]
  cases m.close with
  | none => rfl
  | some ts =>
    rw [Option.bind_some, Option.bind_some]
    show (prepend ts (start c)).bind _ = prepend ts ((start c).bind _)
    rw [prepend_bind]
    intro m us
    rw [prepend_prepend]

theorem scan_lineEnd {m : Mode} (hm : m.isOpen = false) (cs : List Char) :
    scan m ('\n' :: cs) = m.close.bind fun ts => prepend ts (scan .blank cs) := by
  by_cases hne : m = .comment
  · subst hne
    rfl
  · rw [scan_delimiter (by decide) hm hne, scan_newline]

section
variable {s : String} {ts : List Token}

theorem spells_iff : Spells s ts ↔ ∃ m us vs, scan .blank s.toList = some (m, us) ∧
    m.isOpen = false ∧ m ≠ .comment ∧ m.close = some vs ∧ us ++ vs = ts := by
  rw [Spells, scan_append]
  constructor
  · intro h
    obtain ⟨⟨m, us⟩, hs, h⟩ := Option.bind_eq_some_iff.mp h
    -- a comment or an open token would have taken the blank in
    have hm : m.isOpen = false := by cases m <;> simp_all [scan, Mode.next, Mode.isOpen, prepend]
    have hne : m ≠ .comment := by
      rintro rfl
      simp [scan, Mode.next, isLineEnd, prepend] at h
    rw [scan_delimiter (by decide) hm hne] at h
    cases hv : m.close with
    | none => simp [hv, prepend] at h
    | some vs =>
      refine ⟨m, us, vs, hs, hm, hne, hv, ?_⟩
      simpa [hv] using h
  · rintro ⟨m, us, vs, hs, hm, hne, hv, rfl⟩
    rw [hs, Option.bind_some, scan_delimiter (by decide) hm hne, hv]
    simp

theorem Spells.scan_delimiter (h : Spells s ts) {c : Char} (hc : isDelimiter c) (cs : List Char) :
    scan .blank (s.toList ++ c :: cs) = prepend ts (scan .blank (c :: cs)) := by
  obtain ⟨m, us, vs, hs, hm, hne, hv, rfl⟩ := spells_iff.mp h
  rw [scan_append, hs, Option.bind_some, Script.scan_delimiter hc hm hne, hv, Option.bind_some,
    prepend_prepend]

theorem Spells.tokens (h : Spells s ts) : tokens s = some ts := by
  obtain ⟨m, us, vs, hs, -, -, hv, rfl⟩ := spells_iff.mp h
  simp [Script.tokens, hs, hv]

theorem not_leavesOpen_of_tokens (h : tokens s = some ts) : ¬ LeavesOpen s := by
  rintro ⟨m, us, hs, hm⟩
  cases m <;> simp_all [tokens, Mode.close, Mode.isOpen]

/-! ## Lines -/

theorem scan_line (h : ¬ LeavesOpen s) (cs : List Char) :
    scan .blank (s.toList ++ '\n' :: cs) =
      (tokens s).bind fun ts => prepend ts (scan .blank cs) := by
  rw [scan_append, tokens]
  cases hs : scan .blank s.toList with
  | none => rfl
  | some p =>
    have hm : p.1.isOpen = false := Bool.eq_false_iff.mpr fun ho => h ⟨p.1, p.2, hs, ho⟩
    rw [Option.bind_some, Option.bind_some, scan_lineEnd hm]
    cases p.1.close with
    | none => rfl
    | some ts => simp

end

theorem scan_lines {lines : List String} (h : ∀ l ∈ lines, ¬ LeavesOpen l) :
    scan .blank (lines.flatMap fun l => l.toList ++ ['\n']) =
      (lines.mapM tokens).map fun tss => (.blank, tss.flatten) := by
  induction lines with
  | nil => rfl
  | cons l lines ih =>
    rw [List.forall_mem_cons] at h
    rw [List.flatMap_cons, List.append_assoc, List.singleton_append, scan_line h.1, ih h.2,
      List.mapM_cons]
    cases tokens l with
    | none => rfl
    | some ts => cases lines.mapM tokens <;> simp [prepend]

theorem toList_lines {lines : List String} (h : lines ≠ []) :
    ("\n".intercalate lines ++ "\n").toList = lines.flatMap fun l => l.toList ++ ['\n'] := by
  induction lines with
  | nil => exact absurd rfl h
  | cons l lines ih =>
    cases lines with
    | nil => simp
    | cons l' lines =>
      have := ih (by simp)
      simp_all

/-- Lines that leave nothing open are read one by one. -/
theorem tokens_lines {lines : List String} (hne : lines ≠ []) (h : ∀ l ∈ lines, ¬ LeavesOpen l) :
    tokens ("\n".intercalate lines ++ "\n") = (lines.mapM tokens).map List.flatten := by
  rw [tokens, toList_lines hne, scan_lines h]
  cases lines.mapM tokens <;> simp [Mode.close]

/-! ## Texts that leave nothing open -/

theorem isOpen_start {c : Char} {m : Mode} {ts : List Token} (hb : c ≠ '|') (hq : c ≠ '"')
    (h : start c = some (m, ts)) : m.isOpen = false := by
  simp only [start, hb, hq, if_false] at h
  split_ifs at h <;> cases h <;> rfl

theorem isOpen_leave {m m' : Mode} {c : Char} {ts : List Token} (hb : c ≠ '|') (hq : c ≠ '"')
    (h : m.leave c = some (m', ts)) : m'.isOpen = false := by
  obtain ⟨vs, -, h⟩ := Option.bind_eq_some_iff.mp h
  obtain ⟨p, hstart, h⟩ := Option.map_eq_some_iff.mp h
  cases h
  exact isOpen_start hb hq hstart

theorem isOpen_next {m m' : Mode} {c : Char} {ts : List Token} (hm : m.isOpen = false)
    (hb : c ≠ '|') (hq : c ≠ '"') (h : m.next c = some (m', ts)) : m'.isOpen = false := by
  cases m with
  | blank => exact isOpen_start hb hq h
  | comment => cases h; split_ifs <;> rfl
  | word cs =>
    by_cases hw : isWordChar c
    · rw [Mode.next, if_pos hw] at h
      cases h
      rfl
    · rw [Mode.next, if_neg hw] at h
      exact isOpen_leave hb hq h
  | textEnd cs =>
    rw [Mode.next, if_neg hq] at h
    exact isOpen_leave hb hq h
  | quoted cs => cases hm
  | text cs => cases hm

theorem isOpen_scan {m m' : Mode} {cs : List Char} {ts : List Token} (hm : m.isOpen = false)
    (hb : '|' ∉ cs) (hq : '"' ∉ cs) (h : scan m cs = some (m', ts)) : m'.isOpen = false := by
  induction cs generalizing m ts with
  | nil => cases h; exact hm
  | cons c cs ih =>
    rw [List.mem_cons, not_or] at hb hq
    obtain ⟨p, hnext, h⟩ := Option.bind_eq_some_iff.mp h
    obtain ⟨q, hscan, h⟩ := Option.map_eq_some_iff.mp h
    cases h
    exact ih (isOpen_next hm (Ne.symm hb.1) (Ne.symm hq.1) hnext) hb.2 hq.2 hscan

theorem not_leavesOpen {s : String} (hb : '|' ∉ s.toList) (hq : '"' ∉ s.toList) :
    ¬ LeavesOpen s := by
  rintro ⟨m, ts, hs, hm⟩
  rw [isOpen_scan rfl hb hq hs] at hm
  cases hm

/-! ## Lists between parentheses -/

theorem scan_parts {parts : List String} {tss : List (List Token)}
    (h : List.Forall₂ Spells parts tss) (cs : List Char) :
    scan .blank ((" ".intercalate parts).toList ++ ')' :: cs) =
      prepend (tss.flatten ++ [.closing]) (scan .blank cs) := by
  induction h with
  | nil => rfl
  | @cons s ts parts tss hs hparts ih =>
    cases hparts with
    | nil =>
      rw [String.intercalate_singleton, hs.scan_delimiter (by decide)]
      simp
    | @cons s' ts' parts tss hs' hparts =>
      have hsep : (" ".intercalate (s :: s' :: parts)).toList ++ ')' :: cs =
          s.toList ++ ' ' :: ((" ".intercalate (s' :: parts)).toList ++ ')' :: cs) := by
        rw [String.intercalate_cons_cons, String.toList_append, String.toList_append]
        simp
      rw [hsep, hs.scan_delimiter (by decide), scan_space, ih]
      simp

theorem Spells.list {parts : List String} {tss : List (List Token)}
    (h : List.Forall₂ Spells parts tss) :
    Spells (writtenList parts) (.opening :: tss.flatten ++ [.closing]) := by
  have hlist : (writtenList parts).toList ++ [' '] =
      '(' :: ((" ".intercalate parts).toList ++ ')' :: [' ']) := by
    rw [writtenList, String.toList_append, String.toList_append]
    simp
  rw [Spells, hlist, scan_opening, scan_parts h]
  simp

end Realizability.Script
