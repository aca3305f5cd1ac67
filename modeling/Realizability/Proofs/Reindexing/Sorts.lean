import Realizability.Proofs.Encoding.Correctness
import Realizability.Proofs.Reindexing.Success

/-!
# Encodings by the sorts of examples

Whether a problem can be encoded depends on its examples through their sorts only, not on the values
and not on how many examples there are, as long as there is one (`Problem.encode_ok_iff`).
-/

namespace Realizability

open Realizability.Expr (Alike)

/-- All entries of both vectors have one sort. -/
def SameSort (es es' : List Expr) : Prop := ∃ s, ∀ e ∈ es ++ es', e.sort = s

theorem SameSort.symm {es es' : List Expr} (h : SameSort es es') : SameSort es' es := by
  obtain ⟨s, hs⟩ := h
  exact ⟨s, fun e he => hs e (List.mem_append.mpr (List.mem_append.mp he).symm)⟩

theorem SameSort.picked {es es' : List Expr} (h : SameSort es es') (hes : 0 < es.length) :
    Picked (List.replicate es'.length 0) Alike es es' := by
  obtain ⟨s, hs⟩ := h
  refine Picked.of_get (by rw [List.length_replicate]) fun i j hj => ?_
  obtain rfl : i = 0 := List.eq_of_mem_replicate (List.mem_of_getElem? hj)
  have hj : j < es'.length := by simpa using (List.getElem?_eq_some_iff.mp hj).1
  have hx := List.getElem?_eq_getElem hes
  have hy := List.getElem?_eq_getElem hj
  have hxs := hs _ (List.mem_append_left _ (List.mem_of_getElem? hx))
  have hys := hs _ (List.mem_append_right _ (List.mem_of_getElem? hy))
  exact ⟨_, _, hx, hy, hxs.trans hys.symm⟩

/-! ## Tables -/

namespace ExampleTable

variable {rows rows' : List Term} {table table' : ExampleTable}

/-- Tables for one function with as many columns, each with values of one sort. -/
structure SameSorts (t t' : ExampleTable) : Prop where
  operator : t'.operator = t.operator
  inputs : List.Forall₂ SameSort t.inputs t'.inputs
  results : SameSort t.results t'.results

theorem SameSorts.symm (h : table.SameSorts table') : table'.SameSorts table where
  operator := h.operator.symm
  inputs := h.inputs.flip.imp fun _ _ => SameSort.symm
  results := h.results.symm

theorem length_of_mem_inputs (h : ofTerms rows = .ok table) (hne : rows ≠ []) {column : List Expr}
    (hc : column ∈ table.inputs) : column.length = table.size := by
  rw [size_ofTerms h]
  obtain ⟨operator, width, values, -, hrows, rfl⟩ := (ofTerms_eq_ok hne).mp h
  have hvalues : values ≠ [] := by
    rintro rfl
    exact hne (List.forall₂_nil_right_iff.mp hrows)
  obtain ⟨k, hk⟩ := List.mem_iff_getElem?.mp (List.dropLast_subset _ hc)
  rw [getElem?_transpose hvalues, mapM_eq_some] at hk
  rw [hrows.length_eq, hk.length_eq]

theorem SameSorts.alike (h : table.SameSorts table') (ht : ofTerms rows = .ok table)
    (ht' : ofTerms rows' = .ok table') (hne : rows ≠ []) (hne' : rows' ≠ []) :
    table.Alike (List.replicate table'.size 0) table' := by
  have hsize : 0 < table.size := by
    rw [size_ofTerms ht]
    exact List.length_pos_iff.mpr hne
  refine ⟨fun i hi => ?_, h.operator, fun k => ?_, h.results.picked hsize⟩
  · rwa [List.eq_of_mem_replicate hi]
  · cases hk : table.inputs[k]? with
    | none =>
      rw [List.getElem?_eq_none_iff, h.inputs.length_eq, ← List.getElem?_eq_none_iff] at hk
      rw [hk]
      exact .none
    | some column =>
      obtain ⟨column', hk', hs⟩ := get_of_forall₂ h.inputs hk
      have hlen := length_of_mem_inputs ht hne (List.mem_of_getElem? hk)
      have hlen' := length_of_mem_inputs ht' hne' (List.mem_of_getElem? hk')
      rw [hk', ← hlen']
      exact .some (hs.picked (hlen ▸ hsize))

end ExampleTable

/-! ## Encodings -/

/-- A problem is encoded on all examples of the same sorts or on none. -/
theorem Problem.encode_ok_iff {p : Problem} {rows rows' : List Term}
    {table table' : ExampleTable} (ht : ExampleTable.ofTerms rows = .ok table)
    (ht' : ExampleTable.ofTerms rows' = .ok table') (hne : rows ≠ []) (hne' : rows' ≠ [])
    (hs : table.SameSorts table') :
    (∃ e, (p.encode (some rows)).outcome = .ok e) ↔
      ∃ e, (p.encode (some rows')).outcome = .ok e := by
  constructor
  · rintro ⟨e, h⟩
    obtain ⟨target, he⟩ := encode_eq_ok.mp h
    obtain rfl : e.examples = table := Except.ok.inj (he.table.symm.trans ht)
    obtain ⟨e', he', -⟩ := encodes_alike he ht' (hs.alike ht ht' hne hne')
    exact ⟨e', encode_eq_ok.mpr ⟨target, he'⟩⟩
  · rintro ⟨e', h'⟩
    obtain ⟨target, he'⟩ := encode_eq_ok.mp h'
    obtain rfl : e'.examples = table' := Except.ok.inj (he'.table.symm.trans ht')
    obtain ⟨e, he, -⟩ := encodes_alike he' ht (hs.symm.alike ht' ht hne' hne)
    exact ⟨e, encode_eq_ok.mpr ⟨target, he⟩⟩

/-- Two successors can be encoded because any three sums of integers can. -/
theorem Sums.integers_encode_ok_iff : ∃ table table',
    ExampleTable.ofTerms [row 1 2, row 2 3] = .ok table ∧
    ExampleTable.ofTerms [row 0 5, row (-7) 1, row 4 4] = .ok table' ∧
    [row 1 2, row 2 3] ≠ [] ∧ [row 0 5, row (-7) 1, row 4 4] ≠ [] ∧ table.SameSorts table' ∧
    ((∃ e, ((problem grammar).encode (some [row 1 2, row 2 3])).outcome = .ok e) ↔
      ∃ e, ((problem grammar).encode (some [row 0 5, row (-7) 1, row 4 4])).outcome = .ok e) := by
  have ht : ExampleTable.ofTerms [row 1 2, row 2 3] =
      .ok ⟨some "E.Sem", [[.int 1, .int 2]], [.int 2, .int 3]⟩ := rfl
  have ht' : ExampleTable.ofTerms [row 0 5, row (-7) 1, row 4 4] =
      .ok ⟨some "E.Sem", [[.int 0, .int (-7), .int 4]], [.int 5, .int 1, .int 4]⟩ := rfl
  have hs : ExampleTable.SameSorts ⟨some "E.Sem", [[.int 1, .int 2]], [.int 2, .int 3]⟩
      ⟨some "E.Sem", [[.int 0, .int (-7), .int 4]], [.int 5, .int 1, .int 4]⟩ :=
    ⟨rfl, .cons ⟨.int, by simp [Expr.sort]⟩ .nil, ⟨.int, by simp [Expr.sort]⟩⟩
  exact ⟨_, _, ht, ht', by simp, by simp, hs,
    Problem.encode_ok_iff ht ht' (by simp) (by simp) hs⟩

end Realizability
