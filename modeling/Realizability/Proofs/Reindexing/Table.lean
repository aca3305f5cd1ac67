import Realizability.Proofs.Encoding.Table

/-!
# Reindexed tables

Examples can be left out, repeated and put in another order by a list of indices. The columns of the
table change in the same way.
-/

namespace Realizability

/-- The entries of a list at the given indices are related to those of another list. -/
def Picked {α β : Type} (indices : List Nat) (R : α → β → Prop) (xs : List α) (ys : List β) : Prop :=
  List.Forall₂ (fun i y => ∃ x, xs[i]? = some x ∧ R x y) indices ys

namespace Picked

variable {α β γ δ : Type} {indices : List Nat} {R : α → β → Prop} {xs : List α} {ys : List β}

theorem length (h : Picked indices R xs ys) : ys.length = indices.length := h.length_eq.symm

theorem get (h : Picked indices R xs ys) {i j : Nat} (hj : indices[j]? = some i) :
    ∃ x y, xs[i]? = some x ∧ ys[j]? = some y ∧ R x y := by
  obtain ⟨y, hy, x, hx, hr⟩ := get_of_forall₂ h hj
  exact ⟨x, y, hx, hy, hr⟩

theorem bound (h : Picked indices R xs ys) {i : Nat} (hi : i ∈ indices) : i < xs.length := by
  obtain ⟨j, hj⟩ := List.mem_iff_getElem?.mp hi
  obtain ⟨x, -, hx, -, -⟩ := h.get hj
  exact (List.getElem?_eq_some_iff.mp hx).1

theorem of_get (hlen : ys.length = indices.length) (h : ∀ i j : Nat, indices[j]? = some i →
    ∃ x y, xs[i]? = some x ∧ ys[j]? = some y ∧ R x y) : Picked indices R xs ys := by
  refine forall₂_of_get hlen fun j i hj => ?_
  obtain ⟨x, y, hx, hy, hr⟩ := h i j hj
  exact ⟨y, hy, x, hx, hr⟩

theorem exists_picked {xs : List α} (h : ∀ i ∈ indices, i < xs.length) :
    ∃ ys, Picked indices Eq xs ys :=
  exists_forall₂ fun i hi => ⟨xs.get ⟨i, h i hi⟩, _, List.getElem?_eq_getElem (h i hi), rfl⟩

theorem unique {xs ys zs : List α} (h : Picked indices Eq xs ys) (h' : Picked indices Eq xs zs) :
    ys = zs := by
  unfold Picked at h h'
  induction h generalizing zs with
  | nil => cases h'; rfl
  | cons h _ ih =>
    cases h' with
    | cons h' hs =>
      obtain ⟨x, hx, rfl⟩ := h
      obtain ⟨y, hy, rfl⟩ := h'
      rw [ih hs, Option.some.inj (hx.symm.trans hy)]

theorem mem {xs ys : List α} (h : Picked indices Eq xs ys) {y : α} (hy : y ∈ ys) : y ∈ xs := by
  obtain ⟨i, -, x, hx, rfl⟩ := exists_of_forall₂ h hy
  exact List.mem_of_getElem? hx

theorem map {xs ys : List α} (h : Picked indices Eq xs ys) (f : α → β) :
    Picked indices Eq (xs.map f) (ys.map f) := by
  refine List.forall₂_map_right_iff.mpr (h.imp ?_)
  rintro i _ ⟨x, hx, rfl⟩
  exact ⟨f x, by rw [List.getElem?_map, hx]; rfl, rfl⟩

theorem forall₂ {S : α → β → Prop} {xs xs' : List α} {ys ys' : List β} (h : List.Forall₂ S xs ys)
    (hx : Picked indices Eq xs xs') (hy : Picked indices Eq ys ys') : List.Forall₂ S xs' ys' := by
  unfold Picked at hx hy
  induction hx generalizing ys' with
  | nil => cases hy; exact .nil
  | cons hx _ ih =>
    cases hy with
    | cons hy hys =>
      obtain ⟨x, hx, rfl⟩ := hx
      obtain ⟨y, hy, rfl⟩ := hy
      obtain ⟨z, hz, hs⟩ := get_of_forall₂ h hx
      rw [Option.some.inj (hy.symm.trans hz)]
      exact .cons hs (ih hys)

theorem range {P : Nat → α → Prop} {Q : Nat → β → Prop} {n : Nat} {xs : List α}
    (hn : ∀ i ∈ indices, i < n)
    (hq : ∀ i j, indices[j]? = some i → ∀ x, P i x → ∃ y, Q j y ∧ R x y)
    (h : List.Forall₂ P (List.range n) xs) :
    ∃ ys, List.Forall₂ Q (List.range indices.length) ys ∧ Picked indices R xs ys := by
  have hstep : ∀ j ∈ List.range indices.length, ∃ y, Q j y ∧
      ∃ i x, indices[j]? = some i ∧ xs[i]? = some x ∧ R x y := by
    intro j hj
    have hi := List.getElem?_eq_getElem (List.mem_range.mp hj)
    have hmem := hn _ (List.mem_of_getElem? hi)
    obtain ⟨x, hx, hp⟩ := get_of_forall₂ h (List.getElem?_range hmem)
    obtain ⟨y, hy, hr⟩ := hq _ j hi x hp
    exact ⟨y, hy, _, x, hi, hx, hr⟩
  obtain ⟨ys, hys⟩ := exists_forall₂ hstep
  have hlen : ys.length = indices.length := by
    rw [← hys.length_eq, List.length_range]
  refine ⟨ys, hys.imp fun _ _ h => h.1, of_get hlen fun i j hj => ?_⟩
  have hlt := (List.getElem?_eq_some_iff.mp hj).1
  obtain ⟨y, hy, -, i', x, hi', hx, hr⟩ := get_of_forall₂ hys (List.getElem?_range hlt)
  rw [hj] at hi'
  cases hi'
  exact ⟨x, y, hx, hy, hr⟩

end Picked

/-! ## Columns -/

theorem transpose_picked {α : Type} {indices : List Nat} {rows rows' : List (List α)} {n : Nat}
    (h : Picked indices Eq rows rows') (hne : indices ≠ []) (hn : ∀ row ∈ rows, row.length = n)
    (k : Nat) : Option.Rel (Picked indices Eq) (transpose rows)[k]? (transpose rows')[k]? := by
  have hne' : rows' ≠ [] := by
    rintro rfl
    exact hne (List.length_eq_zero_iff.mp h.length.symm)
  obtain ⟨row, hrow⟩ := List.exists_mem_of_ne_nil _ hne'
  have hrows : rows ≠ [] := List.ne_nil_of_mem (h.mem hrow)
  have hlen := length_transpose hrows hn
  have hlen' := length_transpose hne' fun row hrow => hn row (h.mem hrow)
  cases hk : (transpose rows)[k]? with
  | none =>
    rw [List.getElem?_eq_none_iff, hlen] at hk
    rw [List.getElem?_eq_none (by omega)]
    exact .none
  | some column =>
    rw [getElem?_transpose hrows, mapM_eq_some] at hk
    have hbound : ∀ i ∈ indices, i < column.length := by
      intro i hi
      rw [← hk.length_eq]
      exact h.bound hi
    obtain ⟨column', hc⟩ := Picked.exists_picked hbound
    have hk' : (transpose rows')[k]? = some column' := by
      rw [getElem?_transpose hne', mapM_eq_some]
      exact Picked.forall₂ hk h hc
    rw [hk']
    exact .some hc

/-! ## Tables -/

/-- A table whose columns are those of another one at the given indices. -/
structure ExampleTable.Reindexed (indices : List Nat) (t t' : ExampleTable) : Prop where
  bound : ∀ i ∈ indices, i < t.size
  operator : t'.operator = t.operator
  inputs : ∀ k : Nat, Option.Rel (Picked indices Eq) t.inputs[k]? t'.inputs[k]?
  results : Picked indices Eq t.results t'.results

namespace ExampleTable

variable {indices : List Nat}

theorem Reindexed.size {t t' : ExampleTable} (h : t.Reindexed indices t') :
    t'.size = indices.length := h.results.length

theorem ofRows_reindexed {operator : String} {values values' : List (List Expr)} {n : Nat}
    (h : Picked indices Eq values values') (hne : indices ≠ [])
    (hn : ∀ row ∈ values, row.length = n + 1) :
    (ofRows operator values).Reindexed indices (ofRows operator values') := by
  have hne' : values' ≠ [] := by
    rintro rfl
    exact hne (List.length_eq_zero_iff.mp h.length.symm)
  obtain ⟨row, hrow⟩ := List.exists_mem_of_ne_nil _ hne'
  have hvalues : values ≠ [] := List.ne_nil_of_mem (h.mem hrow)
  have hn' : ∀ row ∈ values', row.length = n + 1 := fun row hrow => hn row (h.mem hrow)
  have hcolumns := transpose_picked h hne hn
  have hlast := ofRows_results operator hvalues hn
  have hlast' := ofRows_results operator hne' hn'
  have hresults : Picked indices Eq (ofRows operator values).results
      (ofRows operator values').results := by
    have := hcolumns n
    rw [hlast, hlast'] at this
    cases this with
    | some h => exact h
  refine ⟨?_, rfl, ?_, hresults⟩
  · exact fun i hi => hresults.bound hi
  · intro k
    rw [ofRows, ofRows, List.getElem?_dropLast, List.getElem?_dropLast,
      length_transpose hvalues hn, length_transpose hne' hn']
    split
    · exact hcolumns k
    · exact .none

theorem ofTerms_reindexed {rows rows' : List Term} {table : ExampleTable}
    (h : ofTerms rows = .ok table) (hrows : Picked indices Eq rows rows') (hne : indices ≠ []) :
    ∃ table', ofTerms rows' = .ok table' ∧ table.Reindexed indices table' := by
  have hne' : rows' ≠ [] := by
    rintro rfl
    exact hne (List.length_eq_zero_iff.mp hrows.length.symm)
  have hne'' : rows ≠ [] := by
    obtain ⟨row, hrow⟩ := List.exists_mem_of_ne_nil _ hne'
    exact List.ne_nil_of_mem (hrows.mem hrow)
  obtain ⟨operator, width, values, hwidth, hall, rfl⟩ := (ofTerms_eq_ok hne'').mp h
  have hbound : ∀ i ∈ indices, i < values.length := by
    intro i hi
    rw [← hall.length_eq]
    exact hrows.bound hi
  obtain ⟨values', hvalues⟩ := Picked.exists_picked hbound
  have hall' := Picked.forall₂ hall hrows hvalues
  have hwidths : ∀ row ∈ values, row.length = width - 2 + 1 := by
    intro row hrow
    obtain ⟨t, -, ht⟩ := exists_of_forall₂ hall hrow
    rw [ht.length]
    omega
  exact ⟨_, (ofTerms_eq_ok hne').mpr ⟨operator, width, values', hwidth, hall', rfl⟩,
    ofRows_reindexed hvalues hne hwidths⟩

end ExampleTable

end Realizability
