import Realizability.Proofs.Encoding.Correctness

/-!
# What a query asks

The clauses of an encoding alone are never contradictory. Its query rules out that the relation of
the target holds of a vector that is equal to the outputs of the examples; values are equal if they
are as numbers, where a truth value counts as 0 or 1.
-/

namespace Realizability

/-! ## Equality of values -/

namespace Value

/-- The number that a value counts as where it is compared. -/
def number? : Value → Option ℝ
  | bool b => some (if b then 1 else 0)
  | int n => some n
  | real x => some x
  | bits .. | text _ => none

/-- Values that count as numbers are compared as numbers. -/
def Same (v w : Value) : Prop :=
  match v.number?, w.number? with
  | some x, some y => x = y
  | _, _ => v = w

theorem same_of_sort {v w : Value} (h : v.sort = w.sort) : v.Same w ↔ v = w := by
  cases v <;> cases w <;> simp_all [sort, Same, number?]
  case bool.bool a b => cases a <;> cases b <;> simp

theorem equal_eq_yes {v w : Value} : Value.equal v w = some .yes ↔ v.Same w := by
  by_cases h : v.sort = w.sort
  · rw [equal_of_sort h, Option.some_inj, ofProp_eq_yes, same_of_sort h]
  · cases v <;> cases w <;> simp_all [sort, Same, number?, equal, merge, SmtSort.join?, coerce]
    case bool.int b n => cases b <;> exact_mod_cast Iff.rfl
    case int.bool n b => cases b <;> exact_mod_cast Iff.rfl

end Value

/-! ## Queries -/

namespace Problem

variable {p : Problem} {examples : Option (List Term)} {e : Encoding} {target : Function}
  {s : SmtSort} {M : Model} {ν : Valuation}

theorem Encodes.clauses_satisfiable (h : p.Encodes examples target e) (zero : ZeroDivision) :
    Satisfiable zero e.clauses.values.flatten := by
  have hl := ExampleTable.literal_ofTerms h.table
  refine ⟨fun _ _ => True, .default, (Signature.functions_hold hl h.clauses).mpr ?_⟩
  intro f _ c _ v _
  trivial

theorem equalEach_iff_same {vs ws : List Value} :
    EqualEach vs ws ↔ List.Forall₂ Value.Same vs ws := by
  unfold EqualEach
  simp only [Value.equal_eq_yes]

theorem Encodes.query_holds (h : p.Encodes examples target e) (hs : target.resultSort = .ok s) :
    e.query.Holds M ν ↔ ¬ ∃ v, IsVector e.examples.size s v ∧ M.relations e.target v ∧
      List.Forall₂ Value.Same v (e.examples.results.map Expr.literal) := by
  have hl := ExampleTable.literal_ofTerms h.table
  rw [target.query_holds hl hs h.query, h.name]
  simp only [equalEach_iff_same, not_exists, not_and]

theorem Encodes.query_holds_of_fit (h : p.Encodes examples target e)
    (hs : target.resultSort = .ok s) (hout : ∀ x ∈ e.examples.results, x.sort = s) :
    e.query.Holds M ν ↔ ¬ M.relations e.target (e.examples.results.map Expr.literal) := by
  have hl := ExampleTable.literal_ofTerms h.table
  have houtputs := hl.isVector_results hout
  rw [target.query_holds hl hs h.query, h.name]
  constructor
  · intro hall hr
    exact hall _ houtputs hr ((equalEach_iff rfl).mpr rfl)
  · intro hnot v hv hr heq
    exact hnot ((equalEach_iff (hv.sorts.trans houtputs.sorts.symm)).mp heq ▸ hr)

theorem Encodes.query_holds_of_size_eq_zero (h : p.Encodes examples target e)
    (hsize : e.examples.size = 0) : e.query.Holds M ν ↔ ¬ M.relations e.target [] := by
  obtain ⟨s, hs, -⟩ := bind_eq_ok.mp h.query
  have hnone : e.examples.results = [] := List.length_eq_zero_iff.mp hsize
  have hout : ∀ x ∈ e.examples.results, x.sort = s := by simp [hnone]
  rw [h.query_holds_of_fit hs hout, hnone, List.map_nil]

/-- The query holds unless the target has a value that is the same as the outputs. -/
theorem query_decides (h : (p.encode examples).outcome = .ok e) :
    (∀ zero, Satisfiable zero e.clauses.values.flatten) ∧
      ∃ target s, p.targetFunction e.examples = .ok target ∧ target.name = e.target ∧
        target.resultSort = .ok s ∧ ∀ M ν,
          (e.query.Holds M ν ↔ ¬ ∃ v, IsVector e.examples.size s v ∧ M.relations e.target v ∧
            List.Forall₂ Value.Same v (e.examples.results.map Expr.literal)) ∧
          ((∀ x ∈ e.examples.results, x.sort = s) → (e.query.Holds M ν ↔
            ¬ M.relations e.target (e.examples.results.map Expr.literal))) ∧
          (e.examples.size = 0 → (e.query.Holds M ν ↔ ¬ M.relations e.target [])) := by
  obtain ⟨target, he⟩ := encode_eq_ok.mp h
  obtain ⟨s, hs, -⟩ := bind_eq_ok.mp he.query
  refine ⟨he.clauses_satisfiable, target, s, he.chosen, he.name.symm, hs, fun M ν => ?_⟩
  exact ⟨he.query_holds hs, he.query_holds_of_fit hs, he.query_holds_of_size_eq_zero⟩

end Problem

/-! ## Outputs of different sorts -/

namespace Sums

def realRow (input result : Int) : Term :=
  .app ⟨"E.Sem", []⟩ truth [(expression, .app ⟨"f", []⟩ expression []), (integer, .number input),
    (⟨"Real", []⟩, .number result)]

theorem mixed_query_decides : ∃ e,
    ((problem grammar).encode (some [row 1 2, realRow 2 3])).outcome = .ok e ∧
      (∀ zero, Satisfiable zero e.clauses.values.flatten) ∧
      ∃ target s, (problem grammar).targetFunction e.examples = .ok target ∧
        target.name = e.target ∧ target.resultSort = .ok s ∧ ∀ M ν,
          (e.query.Holds M ν ↔ ¬ ∃ v, IsVector e.examples.size s v ∧ M.relations e.target v ∧
            List.Forall₂ Value.Same v (e.examples.results.map Expr.literal)) ∧
          ((∀ x ∈ e.examples.results, x.sort = s) → (e.query.Holds M ν ↔
            ¬ M.relations e.target (e.examples.results.map Expr.literal))) ∧
          (e.examples.size = 0 → (e.query.Holds M ν ↔ ¬ M.relations e.target [])) := by
  obtain ⟨e, h⟩ : ∃ e, ((problem grammar).encode (some [row 1 2, realRow 2 3])).outcome = .ok e :=
    ⟨_, rfl⟩
  exact ⟨e, h, Problem.query_decides h⟩

end Sums

end Realizability
