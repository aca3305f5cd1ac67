import Realizability.Proofs.Script.Command

/-!
# Lines of a script

Lines that leave neither a string nor a symbol open are read one by one. If none of them is read as
fewer tokens than it stands for, a script is read as the commands that its lines stand for if and
only if each line is.
-/

namespace Realizability.Script

/-! ## Comments -/

theorem scan_comment (name : String) :
    scan .blank ("; " ++ name).toList = scan .comment name.toList := by
  rw [String.toList_append]
  show prepend [] (prepend [] (scan .comment name.toList)) = _
  simp

theorem scan_queryComment (name : String) :
    scan .blank ("; query for " ++ name).toList = scan .comment name.toList := by
  have hchars : ("; query for " ++ name).toList = "; query for ".toList ++ name.toList :=
    String.toList_append
  have hscan : scan .blank "; query for ".toList = some (.comment, []) := by decide
  rw [hchars, scan_append, hscan]
  simp

theorem tokens_queryComment (name : String) :
    tokens ("; query for " ++ name) = tokens ("; " ++ name) := by
  rw [tokens, tokens, scan_queryComment, scan_comment]

theorem scan_commentLine {cs : List Char} (hn : '\n' ∉ cs) (hr : '\r' ∉ cs) :
    scan .comment cs = some (.comment, []) := by
  induction cs with
  | nil => rfl
  | cons c cs ih =>
    rw [List.mem_cons, not_or] at hn hr
    have hc : isLineEnd c = false := by simp [isLineEnd, Ne.symm hn.1, Ne.symm hr.1]
    simp [scan, Mode.next, hc, ih hn.2 hr.2]

theorem tokens_comment {name : String} (hn : '\n' ∉ name.toList) (hr : '\r' ∉ name.toList) :
    tokens ("; " ++ name) = some [] := by
  rw [tokens, scan_comment, scan_commentLine hn hr]
  rfl

/-! ## Commands line by line -/

def commandTokens (cs : List Command) : List Token := SExpr.tokensOf (cs.map Command.expr)

/-- The line can be read by itself if it can be read at all, and then it is no shorter than what it
stands for. -/
structure Legible (line : String) (cs : List Command) : Prop where
  closed : ¬ LeavesOpen line
  long : ∀ ts, tokens line = some ts → (commandTokens cs).length ≤ ts.length

theorem Legible.of_readScript {line : String} {cs : List Command} (h : readScript line = some cs) :
    Legible line cs := by
  rw [readScript_eq_some] at h
  refine ⟨not_leavesOpen_of_tokens h, fun ts hts => ?_⟩
  rw [h] at hts
  cases hts
  exact Nat.le_refl _

theorem append_eq_append_iff_of_le {α : Type} {as bs cs ds : List α} (ha : cs.length ≤ as.length)
    (hb : ds.length ≤ bs.length) : as ++ bs = cs ++ ds ↔ as = cs ∧ bs = ds := by
  constructor
  · intro h
    have hl := congrArg List.length h
    rw [List.length_append, List.length_append] at hl
    exact List.append_inj h (by omega)
  · rintro ⟨rfl, rfl⟩
    rfl

section
variable {lines : List (String × List Command)}

theorem length_commandTokens_le (h : ∀ l ∈ lines, Legible l.1 l.2) {tss : List (List Token)}
    (hts : (lines.map Prod.fst).mapM tokens = some tss) :
    (commandTokens (lines.map Prod.snd).flatten).length ≤ tss.flatten.length := by
  induction lines generalizing tss with
  | nil => exact Nat.zero_le _
  | cons l lines ih =>
    rw [List.forall_mem_cons] at h
    rw [mapM_eq_some, List.map_cons] at hts
    obtain ⟨ts, uss, hl, hus, rfl⟩ := List.forall₂_cons_left_iff.mp hts
    have hlong := h.1.long ts hl
    have hrest := ih h.2 (mapM_eq_some.mpr hus)
    simp only [commandTokens, List.map_cons, List.flatten_cons, List.map_append,
      SExpr.tokensOf_append, List.length_append] at hlong hrest ⊢
    omega

theorem mapM_tokens_eq_iff (h : ∀ l ∈ lines, Legible l.1 l.2) :
    ((lines.map Prod.fst).mapM tokens).map List.flatten =
      some (commandTokens (lines.map Prod.snd).flatten) ↔
    ∀ l ∈ lines, tokens l.1 = some (commandTokens l.2) := by
  induction lines with
  | nil => simp [commandTokens]
  | cons l lines ih =>
    rw [List.forall_mem_cons] at h
    rw [List.forall_mem_cons, ← ih h.2, List.map_cons, List.map_cons, List.mapM_cons]
    cases hl : tokens l.1 with
    | none => simp
    | some ts =>
      cases hr : (lines.map Prod.fst).mapM tokens with
      | none => simp
      | some tss =>
        -- neither part is too short, so the whole is right only if it is split at the right place
        have happend := append_eq_append_iff_of_le (h.1.long ts hl) (length_commandTokens_le h.2 hr)
        simpa [commandTokens] using happend

/-- A script of legible lines is read as their commands if and only if each line is. -/
theorem readScript_lines_iff (hne : lines ≠ []) (h : ∀ l ∈ lines, Legible l.1 l.2) :
    readScript ("\n".intercalate (lines.map Prod.fst) ++ "\n") = some (lines.map Prod.snd).flatten ↔
      ∀ l ∈ lines, readScript l.1 = some l.2 := by
  have hclosed : ∀ l ∈ lines.map Prod.fst, ¬ LeavesOpen l :=
    List.forall_mem_map.mpr fun l hl => (h l hl).closed
  simp only [readScript_eq_some]
  rw [tokens_lines (by simpa using hne) hclosed]
  exact mapM_tokens_eq_iff h

end

theorem readScript_of_writes {s : String} {c : Command} (h : Writes s c.expr) :
    readScript s = some [c] := by
  rw [readScript_eq_some, h.tokens]
  simp

theorem readScript_queryComment (name : String) :
    readScript ("; query for " ++ name) = readScript ("; " ++ name) := by
  rw [readScript, exprs, tokens_queryComment, ← exprs, ← readScript]

theorem legible_comment {name : String} (h : ¬ LeavesOpen ("; " ++ name)) :
    Legible ("; " ++ name) [] := ⟨h, fun _ _ => Nat.zero_le _⟩

theorem legible_queryComment {name : String} (h : ¬ LeavesOpen ("; " ++ name)) :
    Legible ("; query for " ++ name) [] := by
  refine ⟨?_, fun _ _ => Nat.zero_le _⟩
  rwa [LeavesOpen, scan_queryComment, ← scan_comment]

end Realizability.Script
