import Realizability.Proofs.Script.Token

/-!
# Expressions of a script

Tokens are gathered into atoms and lists. The reader keeps what it has read of each list that is
still open, token by token; it reads an expression back from its tokens, and nothing else.
-/

namespace Realizability.Script

inductive SExpr
  | atom (a : Atom)
  | list (es : List SExpr)
  deriving Repr

namespace SExpr

mutual

def tokens : SExpr → List Token
  | .atom a => [.atom a]
  | .list es => .opening :: (tokensOf es ++ [.closing])

def tokensOf : List SExpr → List Token
  | [] => []
  | e :: es => e.tokens ++ tokensOf es

end

@[simp]
theorem tokensOf_nil : tokensOf [] = [] := rfl

@[simp]
theorem tokensOf_cons (e : SExpr) (es : List SExpr) :
    tokensOf (e :: es) = e.tokens ++ tokensOf es := rfl

@[simp]
theorem tokensOf_append (es fs : List SExpr) :
    tokensOf (es ++ fs) = tokensOf es ++ tokensOf fs := by
  induction es with
  | nil => rfl
  | cons e es ih => simp [ih]

theorem tokensOf_eq_flatten (es : List SExpr) : tokensOf es = (es.map tokens).flatten := by
  induction es with
  | nil => rfl
  | cons e es ih => simp [ih]

end SExpr

/-! ## Reading token by token -/

/-- What has been read of the lists that are still open, innermost first; the last entry is what
stands outside of all lists. -/
abbrev Levels := List (List SExpr)

def push (levels : Levels) : Token → Option Levels
  | .opening => some ([] :: levels)
  | .closing =>
    match levels with
    | es :: outer :: levels => some ((outer ++ [.list es]) :: levels)
    | _ => none
  | .atom a =>
    match levels with
    | es :: levels => some ((es ++ [.atom a]) :: levels)
    | [] => none

def parse (ts : List Token) : Option (List SExpr) :=
  (ts.foldlM push [[]]).bind fun levels =>
    match levels with
    | [es] => some es
    | _ => none

def exprs (s : String) : Option (List SExpr) := (tokens s).bind parse

mutual

theorem push_tokens : ∀ (e : SExpr) (es : List SExpr) (levels : Levels),
    e.tokens.foldlM push (es :: levels) = some ((es ++ [e]) :: levels)
  | .atom _, _, _ => rfl
  | .list es, outer, levels => by
    rw [SExpr.tokens, List.foldlM_cons]
    show (SExpr.tokensOf es ++ [Token.closing]).foldlM push ([] :: outer :: levels) = _
    rw [List.foldlM_append, push_tokensOf es]
    rfl

theorem push_tokensOf : ∀ (fs es : List SExpr) (levels : Levels),
    (SExpr.tokensOf fs).foldlM push (es :: levels) = some ((es ++ fs) :: levels)
  | [], es, levels => by simp
  | f :: fs, es, levels => by
    rw [SExpr.tokensOf_cons, List.foldlM_append, push_tokens f]
    show (SExpr.tokensOf fs).foldlM push _ = _
    rw [push_tokensOf fs, List.append_assoc]
    rfl

end

/-- The tokens that have led to the levels. -/
def pushed : Levels → List Token
  | [] => []
  | [es] => SExpr.tokensOf es
  | es :: outer :: levels => pushed (outer :: levels) ++ .opening :: SExpr.tokensOf es

theorem pushed_append (es fs : List SExpr) (levels : Levels) :
    pushed ((es ++ fs) :: levels) = pushed (es :: levels) ++ SExpr.tokensOf fs := by
  cases levels <;> simp [pushed]

theorem push_pushed {levels levels' : Levels} {t : Token} (hne : levels ≠ [])
    (h : push levels t = some levels') : levels' ≠ [] ∧ pushed levels' = pushed levels ++ [t] := by
  obtain ⟨es, levels, rfl⟩ := List.exists_cons_of_ne_nil hne
  cases t with
  | opening => cases h; simp [pushed]
  | atom a =>
    cases h
    rw [pushed_append]
    simp [SExpr.tokens]
  | closing =>
    cases levels with
    | nil => cases h
    | cons outer levels =>
      cases h
      rw [pushed_append]
      simp [SExpr.tokens, pushed]

theorem foldlM_pushed {levels levels' : Levels} {ts : List Token} (hne : levels ≠ [])
    (h : ts.foldlM push levels = some levels') : pushed levels' = pushed levels ++ ts := by
  induction ts generalizing levels with
  | nil => cases h; simp
  | cons t ts ih =>
    rw [List.foldlM_cons] at h
    obtain ⟨levels₁, ht, h⟩ := Option.bind_eq_some_iff.mp h
    obtain ⟨hne₁, hpushed⟩ := push_pushed hne ht
    rw [ih hne₁ h, hpushed, List.append_assoc]
    rfl

theorem parse_eq_some {ts : List Token} {es : List SExpr} :
    parse ts = some es ↔ SExpr.tokensOf es = ts := by
  constructor
  · intro h
    obtain ⟨levels, hl, h⟩ := Option.bind_eq_some_iff.mp h
    have hpushed := foldlM_pushed (by simp) hl
    split at h
    · cases h
      exact hpushed
    · cases h
  · rintro rfl
    rw [parse, push_tokensOf]
    rfl

theorem exprs_eq_some {s : String} {es : List SExpr} :
    exprs s = some es ↔ tokens s = some (SExpr.tokensOf es) := by
  rw [exprs, Option.bind_eq_some_iff]
  simp only [parse_eq_some]
  exact ⟨fun ⟨_, hs, hts⟩ => hts ▸ hs, fun hs => ⟨_, hs, rfl⟩⟩

/-! ## Texts that are one expression -/

/-- The text is the expression. -/
def Writes (s : String) (x : SExpr) : Prop := Spells s x.tokens

instance (s : String) (x : SExpr) : Decidable (Writes s x) :=
  inferInstanceAs (Decidable (Spells s x.tokens))

theorem Writes.list {parts : List String} {xs : List SExpr} (h : List.Forall₂ Writes parts xs) :
    Writes (writtenList parts) (.list xs) := by
  have hts : List.Forall₂ Spells parts (xs.map SExpr.tokens) := List.forall₂_map_right_iff.mpr h
  rw [Writes, SExpr.tokens, SExpr.tokensOf_eq_flatten]
  exact Spells.list hts

theorem Writes.exprs {s : String} {x : SExpr} (h : Writes s x) : exprs s = some [x] := by
  rw [exprs_eq_some, Spells.tokens h]
  simp

end Realizability.Script
