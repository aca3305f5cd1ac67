import Mathlib.Data.List.Nodup
import Realizability.Encoding.Premise
import Realizability.Proofs.Meaning.Term

/-!
# Constants of an encoding

The copies of a variable are constants of different names, and stamped constants differ from those
and from each other. So the constants that a clause binds can be given any values of their sorts.
-/

namespace Realizability

/-! ## Names -/

theorem append_cons_inj {α : Type} {a : α} {xs ys us vs : List α} (hx : a ∉ xs) (hy : a ∉ ys)
    (h : xs ++ a :: us = ys ++ a :: vs) : xs = ys ∧ us = vs := by
  induction xs generalizing ys with
  | nil =>
    cases ys with
    | nil => exact ⟨rfl, List.tail_eq_of_cons_eq h⟩
    | cons y ys =>
      have : a = y := List.head_eq_of_cons_eq h
      exact absurd (this ▸ List.mem_cons_self ..) hy
  | cons x xs ih =>
    rw [List.mem_cons, not_or] at hx
    cases ys with
    | nil => exact absurd (List.head_eq_of_cons_eq h).symm hx.1
    | cons y ys =>
      rw [List.mem_cons, not_or] at hy
      obtain ⟨hxs, hus⟩ := ih hx.2 hy.2 (List.tail_eq_of_cons_eq h)
      exact ⟨by rw [List.head_eq_of_cons_eq h, hxs], hus⟩

theorem copyName_toList (i : Nat) (name : String) :
    (copyName i name).toList = Nat.toDigits 10 i ++ '_' :: name.toList := by
  have hi : toString (i : Int) = Nat.repr i := rfl
  rw [copyName, hi, String.toList_append, String.toList_append, Nat.toList_repr]
  simp

theorem copyName_inj {i j : Nat} {x y : String} (h : copyName i x = copyName j y) :
    i = j ∧ x = y := by
  have hl := congrArg String.toList h
  rw [copyName_toList, copyName_toList] at hl
  -- the first underscore ends the index, whatever underscores the names have
  obtain ⟨hd, hn⟩ := append_cons_inj Nat.underscore_not_in_toDigits Nat.underscore_not_in_toDigits hl
  refine ⟨?_, String.toList_inj.mp hn⟩
  rw [← @Nat.ofDigitChars_ten_toDigits i, hd, Nat.ofDigitChars_ten_toDigits]

/-! ## Vectors of constants -/

section
variable {x : String} {s : SmtSort} {n next : Nat} {c : Const}

theorem mem_freshVector : c ∈ freshVector x s n ↔ ∃ i < n, c = ⟨copyName i x, none, s⟩ := by
  simp only [freshVector, List.mem_map, List.mem_range, eq_comm]

theorem freshVector_nodup : (freshVector x s n).Nodup := by
  refine List.Nodup.map ?_ List.nodup_range
  intro i j h
  exact (copyName_inj (congrArg Const.base h)).1

theorem freshVector_sorts : (freshVector x s n).map Const.sort = List.replicate n s := by
  rw [freshVector, List.map_map]
  change (List.range n).map (fun _ => s) = _
  rw [List.map_const', List.length_range]

theorem not_mem_freshVector {y : String} {t : SmtSort} (h : x ≠ y) (hc : c ∈ freshVector x s n) :
    c ∉ freshVector y t n := by
  intro hc'
  obtain ⟨i, -, rfl⟩ := mem_freshVector.mp hc
  obtain ⟨j, -, hj⟩ := mem_freshVector.mp hc'
  exact h (copyName_inj (congrArg Const.base hj)).2

theorem stamp_of_mem_freshVector (h : c ∈ freshVector x s n) : c.stamp = none := by
  obtain ⟨i, -, rfl⟩ := mem_freshVector.mp h
  rfl

theorem witnessVector_sorts : (witnessVector x s n next).map Const.sort = List.replicate n s := by
  rw [witnessVector, List.map_map]
  change (List.range n).map (fun _ => s) = _
  rw [List.map_const', List.length_range]

theorem witnessVector_stamps :
    (witnessVector x s n next).map Const.stamp = (List.range' next n).map some := by
  rw [List.range'_eq_map_range, witnessVector, List.map_map, List.map_map]
  rfl

end

/-! ## Valuations -/

namespace Valuation

variable {ν ν' ν'' : Valuation} {cs ds : List Const} {vs : List Value}

theorem ext (h : ∀ c, ν.value c = ν'.value c) : ν = ν' := by
  obtain ⟨f, hf⟩ := ν
  obtain ⟨f', hf'⟩ := ν'
  obtain rfl : f = f' := funext h
  rfl

theorem AgreeOff.trans (h : AgreeOff cs ν ν') (h' : AgreeOff ds ν' ν'') :
    AgreeOff (cs ++ ds) ν ν'' := by
  intro c hc
  rw [List.mem_append, not_or] at hc
  rw [h' c hc.2, h c hc.1]

theorem AgreeOff.mono (h : AgreeOff cs ν ν') (hs : cs ⊆ ds) : AgreeOff ds ν ν' :=
  fun c hc => h c fun hm => hc (hs hm)

theorem agreeOff_nil (h : AgreeOff [] ν ν') : ν' = ν := ext fun c => h c List.not_mem_nil

theorem AgreeOff.map_eq (h : AgreeOff cs ν ν') (hd : ∀ d ∈ ds, d ∉ cs) :
    ds.map ν'.value = ds.map ν.value :=
  List.map_congr_left fun d hm => h d (hd d hm)

theorem exists_assign (ν : Valuation) (hn : cs.Nodup) (hs : vs.map Value.sort = cs.map Const.sort) :
    ∃ ν', AgreeOff cs ν ν' ∧ cs.map ν'.value = vs := by
  induction cs generalizing vs with
  | nil =>
    rw [List.map_nil, List.map_eq_nil_iff] at hs
    exact ⟨ν, fun _ _ => rfl, hs.symm⟩
  | cons c cs ih =>
    obtain ⟨v, vs, rfl⟩ : ∃ v vs', vs = v :: vs' := List.exists_cons_of_ne_nil (by rintro rfl; cases hs)
    rw [List.map_cons, List.map_cons, List.cons.injEq] at hs
    rw [List.nodup_cons] at hn
    obtain ⟨ν', ha, hv⟩ := ih hn.2 hs.2
    refine ⟨ν'.set c v hs.1, ?_, ?_⟩
    · intro d hd
      rw [List.mem_cons, not_or] at hd
      have : (ν'.set c v hs.1).value d = ν'.value d := if_neg hd.1
      rw [this, ha d hd.2]
    · have hc : (ν'.set c v hs.1).value c = v := if_pos rfl
      have htail : cs.map (ν'.set c v hs.1).value = cs.map ν'.value := by
        refine List.map_congr_left fun d hd => if_neg ?_
        rintro rfl
        exact hn.1 hd
      rw [List.map_cons, hc, htail, hv]

end Valuation

section
variable {M : Model} {ν : Valuation}

theorem means_consts (cs : List Const) : MeanEach M ν (cs.map .const) (cs.map ν.value) :=
  List.forall₂_map_left_iff.mpr (List.forall₂_map_right_iff.mpr
    (List.forall₂_same.mpr fun c _ => Expr.means_const c))

theorem values_append {cs ds : List Const} {vs ws : List Value}
    (hs : vs.map Value.sort = cs.map Const.sort) (h : (cs ++ ds).map ν.value = vs ++ ws) :
    cs.map ν.value = vs ∧ ds.map ν.value = ws := by
  have hlen : vs.length = cs.length := by
    rw [← List.length_map Value.sort, hs, List.length_map]
  rw [List.map_append] at h
  exact List.append_inj h (by rw [List.length_map, hlen])

theorem IsVector.sorts {n : Nat} {s : SmtSort} {vs : List Value} (h : IsVector n s vs) :
    vs.map Value.sort = List.replicate n s :=
  List.eq_replicate_iff.mpr ⟨by rw [List.length_map, h.length], by simpa using h.sort⟩

theorem isVector_values {n : Nat} {s : SmtSort} {cs : List Const}
    (h : cs.map Const.sort = List.replicate n s) : IsVector n s (cs.map ν.value) where
  length := by rw [List.length_map, ← List.length_map Const.sort, h, List.length_replicate]
  sort := by
    intro v hv
    obtain ⟨c, hc, rfl⟩ := List.mem_map.mp hv
    have : c.sort ∈ List.replicate n s := h ▸ List.mem_map_of_mem hc
    rw [ν.sort_value, List.eq_of_mem_replicate this]

end

end Realizability
