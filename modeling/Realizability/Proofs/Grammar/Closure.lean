import Mathlib.Data.List.Nodup
import Mathlib.Data.String.Basic
import Mathlib.Logic.Function.Iterate
import Realizability.Problem.Graph

/-!
# Sets that are closed by passes

A pass over a set of names adds names from a known list (`Extends`). Every pass but the last adds
one at least, so that repeating it as often as the list is long ends in a set that another pass
leaves alone (`saturate_fixed`). Names are handed out in the order of their code points.
-/

namespace Realizability

variable {names s s' s'' : List String}

/-! ## Growing sets -/

/-- The second set has names of `names` behind the first, none of them in it. -/
def Extends (names s s' : List String) : Prop :=
  ∃ new, s' = s ++ new ∧ ∀ x ∈ new, x ∈ names ∧ x ∉ s

namespace Extends

theorem refl : Extends names s s := ⟨[], by simp, by simp⟩

theorem one {x : String} (hx : x ∈ names) (hs : x ∉ s) : Extends names s (s ++ [x]) :=
  ⟨[x], rfl, by simp [hx, hs]⟩

theorem trans (h : Extends names s s') (h' : Extends names s' s'') : Extends names s s'' := by
  obtain ⟨first, rfl, hfirst⟩ := h
  obtain ⟨rest, rfl, hrest⟩ := h'
  refine ⟨first ++ rest, List.append_assoc .., fun x hx => ?_⟩
  rcases List.mem_append.mp hx with hx | hx
  · exact hfirst x hx
  · exact ⟨(hrest x hx).1, fun hs => (hrest x hx).2 (List.mem_append_left _ hs)⟩

theorem subset (h : Extends names s s') : s ⊆ s' := by
  obtain ⟨new, rfl, -⟩ := h
  exact List.subset_append_left s new

theorem antisymm (h : Extends names s s') (h' : Extends names s' s) : s = s' := by
  obtain ⟨first, rfl, -⟩ := h
  obtain ⟨rest, heq, -⟩ := h'
  have hnone : first ++ rest = [] := by simpa [List.append_assoc] using heq.symm
  simp [(List.append_eq_nil_iff.mp hnone).1]

theorem eq_of_length (h : Extends names s s') (hlen : s'.length = s.length) : s' = s := by
  obtain ⟨new, rfl, -⟩ := h
  rw [List.length_append, Nat.add_eq_left] at hlen
  rw [List.eq_nil_of_length_eq_zero hlen, List.append_nil]

end Extends

section
variable {α : Type} {step : List String → α → List String} {as : List α}

theorem extends_foldl (h : ∀ s, ∀ a ∈ as, Extends names s (step s a)) (s : List String) :
    Extends names s (as.foldl step s) :=
  List.foldlRecOn as step .refl fun s' hs a ha => hs.trans (h s' a ha)

theorem foldl_eq_self_iff (h : ∀ s, ∀ a ∈ as, Extends names s (step s a)) :
    as.foldl step s = s ↔ ∀ a ∈ as, step s a = s := by
  induction as with
  | nil => simp
  | cons a as ih =>
    have htail : ∀ s, ∀ b ∈ as, Extends names s (step s b) :=
      fun s b hb => h s b (List.mem_cons_of_mem a hb)
    rw [List.foldl_cons, List.forall_mem_cons]
    constructor
    · intro heq
      have hhead : Extends names s (step s a) := h s a List.mem_cons_self
      have hrest : Extends names (step s a) (as.foldl step (step s a)) := extends_foldl htail _
      rw [heq] at hrest
      have hs : step s a = s := (hhead.antisymm hrest).symm
      rw [hs] at heq
      exact ⟨hs, (ih htail).mp heq⟩
    · rintro ⟨hs, hall⟩
      rw [hs]
      exact (ih htail).mpr hall

end

/-! ## Saturation -/

def lacking (names s : List String) : List String := names.filter (· ∉ s)

theorem Extends.length_lacking_lt (h : Extends names s s') (hne : s' ≠ s) :
    (lacking names s').length < (lacking names s).length := by
  have hsub : (lacking names s').Sublist (lacking names s) := by
    refine List.monotone_filter_right names fun y hy => ?_
    simp only [decide_eq_true_eq] at hy ⊢
    exact fun hmem => hy (h.subset hmem)
  obtain ⟨new, rfl, hnew⟩ := h
  obtain ⟨x, hx⟩ : ∃ x, x ∈ new := List.exists_mem_of_ne_nil new fun hnil => hne (by simp [hnil])
  refine Nat.lt_of_le_of_ne hsub.length_le fun hlen => ?_
  have hmem : x ∈ lacking names s := by simpa [lacking] using hnew x hx
  rw [← hsub.eq_of_length hlen] at hmem
  simp [lacking, hx] at hmem

variable {pass : List String → List String}

/-- With a pass for every name that is lacking, the set is closed in the end. -/
theorem saturate_fixed (h : ∀ s, Extends names s (pass s)) {n : Nat}
    (hn : (lacking names s).length ≤ n) : pass (saturate pass n s) = saturate pass n s := by
  induction n generalizing s with
  | zero =>
    by_contra hs
    have := (h s).length_lacking_lt hs
    omega
  | succ n ih =>
    rw [saturate]
    split
    · rename_i hlen
      exact (h s).eq_of_length hlen
    · rename_i hlen
      have := (h s).length_lacking_lt fun heq => hlen (congrArg List.length heq)
      exact ih (by omega)

theorem saturate_eq_iterate (pass : List String → List String) (n : Nat) (s : List String) :
    ∃ k ≤ n, saturate pass n s = pass^[k] s := by
  induction n generalizing s with
  | zero => exact ⟨0, Nat.le_refl 0, rfl⟩
  | succ n ih =>
    rw [saturate]
    split
    · exact ⟨0, Nat.zero_le _, rfl⟩
    · obtain ⟨k, hk, heq⟩ := ih (pass s)
      exact ⟨k + 1, Nat.succ_le_succ hk, by rw [heq, Function.iterate_succ_apply]⟩

/-- What every pass keeps holds of the saturated set. -/
theorem saturate_induction {P : List String → Prop} (hpass : ∀ s, P s → P (pass s)) (n : Nat)
    (h : P s) : P (saturate pass n s) := by
  obtain ⟨k, -, heq⟩ := saturate_eq_iterate pass n s
  rw [heq]
  exact Function.Iterate.rec P h hpass k

/-! ## Sorted names -/

theorem mem_sorted {x : String} : x ∈ sorted names ↔ x ∈ names := List.mem_mergeSort

theorem sorted_pairwise (h : names.Nodup) : (sorted names).Pairwise (· < ·) := by
  have hle : (sorted names).Pairwise fun a b => decide (a ≤ b) = true :=
    List.pairwise_mergeSort (by simpa using fun a b c => le_trans) (by simpa using le_total) names
  have hne : (sorted names).Nodup := (List.mergeSort_perm names _).nodup_iff.mpr h
  exact (hle.and hne).imp fun hab => lt_of_le_of_ne (of_decide_eq_true hab.1) hab.2

theorem eq_of_sorted (h : s.Pairwise (· < ·)) (h' : s'.Pairwise (· < ·))
    (hmem : ∀ x, x ∈ s ↔ x ∈ s') : s = s' := by
  have hperm : s.Perm s' := (List.perm_ext_iff_of_nodup (h.imp fun hlt => ne_of_lt hlt)
    (h'.imp fun hlt => ne_of_lt hlt)).mpr hmem
  exact hperm.eq_of_pairwise (fun a b _ _ hab hba => absurd hba (lt_asymm hab)) h h'

end Realizability
