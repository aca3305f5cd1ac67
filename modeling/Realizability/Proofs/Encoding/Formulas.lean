import Realizability.Proofs.Encoding.Clause

/-!
# Formulas of an encoding

An encoding is formed step by step from its functions (`Problem.Encodes`). Its clauses hold if the
relations are closed under the cases of all functions, its query if the target does not have the
outputs of the examples.
-/

namespace Realizability

variable {M : Model} {ν : Valuation}

/-! ## Steps -/

theorem declareIndicators_eq_ok {fs : List Function} {indicators : Table SmtSort} :
    (declareIndicators fs).outcome = .ok indicators ↔
      List.Forall₂ (fun f i => i.1 = f.name ∧ f.resultSort = .ok i.2) fs indicators := by
  induction fs generalizing indicators with
  | nil =>
    rw [List.forall₂_nil_left_iff]
    exact ⟨fun h => (Except.ok.inj h).symm, fun h => h ▸ rfl⟩
  | cons f fs ih =>
    rw [List.forall₂_cons_left_iff]
    constructor
    · intro h
      obtain ⟨s, hs, h⟩ := outcome_bind_eq_ok.mp h
      obtain ⟨-, -, h⟩ := outcome_bind_eq_ok.mp h
      obtain ⟨rest, hrest, h⟩ := outcome_bind_eq_ok.mp h
      cases h
      exact ⟨(f.name, s), rest, ⟨rfl, hs⟩, ih.mp hrest, rfl⟩
    · rintro ⟨⟨name, s⟩, rest, ⟨rfl, hs⟩, hrest, rfl⟩
      exact outcome_bind_eq_ok.mpr ⟨s, hs, outcome_bind_eq_ok.mpr ⟨(), rfl,
        outcome_bind_eq_ok.mpr ⟨rest, ih.mpr hrest, rfl⟩⟩⟩

namespace Signature

variable {g : Signature} {table : ExampleTable} {f : Function} {fs : List Function}
  {frame : Frame} {next : Nat}

theorem clauses_cons_eq_ok {c : MatchCase Term} {cs : List (MatchCase Term)} {r : List Expr × Nat} :
    (g.clauses f frame next (c :: cs)).outcome = .ok r ↔
      ∃ r' rest, g.clause frame next c.result = .ok r' ∧
        (g.clauses f frame r'.2 cs).outcome = .ok rest ∧ r = (r'.1 :: rest.1, rest.2) := by
  constructor
  · intro h
    obtain ⟨-, -, h⟩ := outcome_bind_eq_ok.mp h
    obtain ⟨r', hr', h⟩ := outcome_bind_eq_ok.mp h
    obtain ⟨rest, hrest, h⟩ := outcome_bind_eq_ok.mp h
    exact ⟨r', rest, hr', hrest, (Except.ok.inj h).symm⟩
  · rintro ⟨r', rest, hr', hrest, rfl⟩
    exact outcome_bind_eq_ok.mpr ⟨(), rfl, outcome_bind_eq_ok.mpr ⟨r', hr',
      outcome_bind_eq_ok.mpr ⟨rest, hrest, rfl⟩⟩⟩

theorem encodeFunctions_cons_eq_ok {clauses : Table (List Expr)} :
    (g.encodeFunctions table next (f :: fs)).outcome = .ok clauses ↔
      ∃ cases frame r rest, f.cases = .ok cases ∧ f.frame table = .ok frame ∧
        (g.clauses f frame next cases).outcome = .ok r ∧
        (g.encodeFunctions table r.2 fs).outcome = .ok rest ∧ clauses = (f.name, r.1) :: rest := by
  constructor
  · intro h
    obtain ⟨cases, hcases, h⟩ := outcome_bind_eq_ok.mp h
    obtain ⟨frame, hframe, h⟩ := outcome_bind_eq_ok.mp h
    obtain ⟨r, hr, h⟩ := outcome_bind_eq_ok.mp h
    obtain ⟨rest, hrest, h⟩ := outcome_bind_eq_ok.mp h
    exact ⟨cases, frame, r, rest, hcases, hframe, hr, hrest, (Except.ok.inj h).symm⟩
  · rintro ⟨cases, frame, r, rest, hcases, hframe, hr, hrest, rfl⟩
    exact outcome_bind_eq_ok.mpr ⟨cases, hcases, outcome_bind_eq_ok.mpr ⟨frame, hframe,
      outcome_bind_eq_ok.mpr ⟨r, hr, outcome_bind_eq_ok.mpr ⟨rest, hrest, rfl⟩⟩⟩⟩

/-! ## Clauses -/

theorem clauses_hold {cs : List (MatchCase Term)} {r : List Expr × Nat} (hl : table.Literal)
    (hlen : 2 ≤ f.args.length) (hf : f.frame table = .ok frame)
    (hr : (g.clauses f frame next cs).outcome = .ok r) :
    (∀ φ ∈ r.1, φ.Holds M ν) ↔
      ∀ c ∈ cs, ∀ v, g.CaseGives M (callsIn M.relations) table f c v → M.relations f.name v := by
  induction cs generalizing next r with
  | nil => cases hr; simp
  | cons c cs ih =>
    obtain ⟨r', rest, hr', hrest, rfl⟩ := clauses_cons_eq_ok.mp hr
    rw [List.forall_mem_cons, List.forall_mem_cons, clause_holds hl hlen hf hr', ih hrest]

theorem functions_hold {clauses : Table (List Expr)} (hl : table.Literal)
    (h : (g.encodeFunctions table next fs).outcome = .ok clauses) :
    (∀ φ ∈ clauses.values.flatten, φ.Holds M ν) ↔ ∀ f ∈ fs, ∀ c ∈ f.matchCases, ∀ v,
      g.CaseGives M (callsIn M.relations) table f c v → M.relations f.name v := by
  induction fs generalizing next clauses with
  | nil => cases h; simp [Table.values]
  | cons f fs ih =>
    obtain ⟨cases, frame, r, rest, hcases, hframe, hr, hrest, rfl⟩ :=
      encodeFunctions_cons_eq_ok.mp h
    obtain ⟨hlen, hbody⟩ := Function.cases_eq_ok hcases
    have hvalues : Table.values ((f.name, r.1) :: rest) = r.1 :: rest.values := rfl
    rw [hvalues, List.flatten_cons, List.forall_mem_append, List.forall_mem_cons,
      clauses_hold hl hlen hframe hr, ih hrest, hbody]

end Signature

/-! ## The query -/

/-- Values at the same places are equal, whatever their sorts. -/
def EqualEach : List Value → List Value → Prop :=
  List.Forall₂ fun v w => Value.equal v w = some .yes

theorem Value.equal_of_sort {v w : Value} (h : v.sort = w.sort) :
    Value.equal v w = some (.ofProp (v = w)) := by
  have hm : Value.merge v w = some (v, w) := by
    have hj : w.sort.join? w.sort = some w.sort := if_pos rfl
    have hc : ∀ u : Value, u.sort = w.sort → u.coerce w.sort = some u := fun _ hu => if_pos hu
    unfold Value.merge
    rw [h, hj]
    dsimp only
    rw [hc v h, hc w rfl]
    rfl
  rw [Value.equal, hm]
  rfl

theorem equalEach_iff {vs ws : List Value} (h : vs.map Value.sort = ws.map Value.sort) :
    EqualEach vs ws ↔ vs = ws := by
  unfold EqualEach
  induction vs generalizing ws with
  | nil =>
    rw [List.forall₂_nil_left_iff]
    exact eq_comm
  | cons v vs ih =>
    cases ws with
    | nil => cases h
    | cons w ws =>
      rw [List.map_cons, List.map_cons, List.cons.injEq] at h
      rw [List.forall₂_cons, ih h.2, Value.equal_of_sort h.1, Option.some_inj,
        Value.ofProp_eq_yes, List.cons.injEq]

theorem equalities_hold {cs : List Const} {es equalities : List Expr}
    (hl : ∀ e ∈ es, e.Means M ν e.literal) (hlen : cs.length = es.length)
    (h : (cs.zip es).mapM (fun p => Expr.mkEq (.const p.1) p.2) = .ok equalities) :
    (∀ φ ∈ equalities, φ.Holds M ν) ↔ EqualEach (cs.map ν.value) (es.map Expr.literal) := by
  unfold EqualEach
  induction cs generalizing es equalities with
  | nil =>
    obtain rfl : es = [] := List.length_eq_zero_iff.mp hlen.symm
    cases h
    simp
  | cons c cs ih =>
    cases es with
    | nil => cases hlen
    | cons e es =>
      rw [List.zip_cons_cons, List.mapM_cons] at h
      obtain ⟨φ, hφ, h⟩ := bind_eq_ok.mp h
      obtain ⟨φs, hφs, h⟩ := bind_eq_ok.mp h
      cases h
      obtain ⟨he, hes⟩ := List.forall_mem_cons.mp hl
      obtain ⟨u, hu, hm⟩ := Expr.mkEq_computes (Expr.means_const c) he hφ
      rw [List.forall_mem_cons, ih hes (Nat.succ.inj hlen) hφs, hm.holds_iff, List.map_cons,
        List.map_cons, List.forall₂_cons, hu, Option.some_inj]

theorem ExampleTable.Literal.isVector_results {table : ExampleTable} {s : SmtSort}
    (hl : table.Literal) (hout : ∀ x ∈ table.results, x.sort = s) :
    IsVector table.size s (table.results.map Expr.literal) := by
  refine ⟨List.length_map .., ?_⟩
  intro v hv
  obtain ⟨x, hx, rfl⟩ := List.mem_map.mp hv
  have hcolumn : table.results ∈ table.columns :=
    List.mem_append_right _ (List.mem_singleton_self _)
  rw [(hl _ hcolumn x hx ⟨⟨id, id, id⟩, fun _ _ => False⟩ .default).sort, hout x hx]

theorem Function.query_holds {f : Function} {table : ExampleTable} {s : SmtSort} {e : Expr}
    (hl : table.Literal) (hf : f.resultSort = .ok s) (h : f.query table = .ok e) :
    e.Holds M ν ↔ ∀ v, IsVector table.size s v → M.relations f.name v →
      ¬ EqualEach v (table.results.map Expr.literal) := by
  have hlit : ∀ ν' : Valuation, ∀ x ∈ table.results, x.Means M ν' x.literal := fun ν' x hx =>
    hl _ (List.mem_append_right _ (List.mem_singleton_self _)) x hx M ν'
  obtain ⟨s', hs', h⟩ := bind_eq_ok.mp h
  obtain rfl : s = s' := Except.ok.inj (hf.symm.trans hs')
  have h := mapError_eq_ok.mp h
  obtain ⟨equalities, hequal, h⟩ := bind_eq_ok.mp h
  obtain ⟨matched, hmatched, h⟩ := bind_eq_ok.mp h
  obtain ⟨refuted, hrefuted, h⟩ := bind_eq_ok.mp h
  obtain ⟨implication, himp, h⟩ := bind_eq_ok.mp h
  have hsorts : (freshVector resultName s table.size).map Const.sort =
    List.replicate table.size s := freshVector_sorts
  have hnodup : (freshVector resultName s table.size).Nodup := freshVector_nodup
  -- of the copies of the result only this counts: they differ and have its sort
  generalize freshVector resultName s table.size = vector at *
  have hlen : vector.length = table.results.length := by
    rw [← List.length_map Const.sort, hsorts, List.length_replicate]
    rfl
  have hholds : ∀ ν' : Valuation, implication.Holds M ν' ↔
      (M.relations f.name (vector.map ν'.value) →
        ¬ EqualEach (vector.map ν'.value) (table.results.map Expr.literal)) := by
    intro ν'
    rw [Expr.mkImplies_holds himp, (Expr.means_call (means_consts _)).holds_iff,
      Value.ofProp_eq_yes, Expr.mkNot_holds hrefuted, Expr.conjoin_holds hmatched,
      equalities_hold (hlit ν') hlen hequal]
  rw [Expr.close_holds h]
  constructor
  · intro hall v hv hr
    obtain ⟨ν', ha, rfl⟩ := ν.exists_assign hnodup (hv.sorts.trans hsorts.symm)
    exact (hholds ν').mp (hall ν' ha) hr
  · intro hall ν' _
    exact (hholds ν').mpr (hall _ (isVector_values hsorts))

/-! ## Encodings -/

namespace Problem

/-- The steps in which the encoding of a problem is formed, and the function that it is about. -/
structure Encodes (p : Problem) (examples : Option (List Term)) (target : Function) (e : Encoding) :
    Prop where
  table : ExampleTable.ofTerms (examples.getD p.constraints) = .ok e.examples
  indicators : (declareIndicators p.functions.values).outcome = .ok e.indicators
  chosen : p.targetFunction e.examples = .ok target
  clauses : (Signature.encodeFunctions ⟨e.examples.size, e.indicators⟩ e.examples 0
    p.functions.values).outcome = .ok e.clauses
  query : target.query e.examples = .ok e.query
  name : e.target = target.name

theorem encode_eq_ok {p : Problem} {examples : Option (List Term)} {e : Encoding} :
    (p.encode examples).outcome = .ok e ↔ ∃ target, p.Encodes examples target e := by
  constructor
  · intro h
    obtain ⟨table, htable, h⟩ := outcome_bind_eq_ok.mp h
    obtain ⟨-, -, h⟩ := outcome_bind_eq_ok.mp h
    obtain ⟨indicators, hind, h⟩ := outcome_bind_eq_ok.mp h
    obtain ⟨target, htarget, h⟩ := outcome_bind_eq_ok.mp h
    obtain ⟨clauses, hclauses, h⟩ := outcome_bind_eq_ok.mp h
    obtain ⟨query, hquery, h⟩ := outcome_bind_eq_ok.mp h
    obtain ⟨-, -, h⟩ := outcome_bind_eq_ok.mp h
    cases h
    exact ⟨target, htable, hind, htarget, hclauses, hquery, rfl⟩
  · rintro ⟨target, h⟩
    obtain ⟨indicators, clauses, query, table, name⟩ := e
    obtain rfl : name = target.name := h.name
    exact outcome_bind_eq_ok.mpr ⟨table, h.table, outcome_bind_eq_ok.mpr ⟨(), rfl,
      outcome_bind_eq_ok.mpr ⟨indicators, h.indicators, outcome_bind_eq_ok.mpr ⟨target, h.chosen,
        outcome_bind_eq_ok.mpr ⟨clauses, h.clauses, outcome_bind_eq_ok.mpr ⟨query, h.query,
          outcome_bind_eq_ok.mpr ⟨(), rfl, rfl⟩⟩⟩⟩⟩⟩⟩

theorem resultSorts_of_declared {p : Problem} {indicators : Table SmtSort}
    (h : (declareIndicators p.functions.values).outcome = .ok indicators) :
    p.resultSorts = indicators := by
  have hall := declareIndicators_eq_ok.mp h
  clear h
  unfold resultSorts
  generalize p.functions.values = fs at hall
  induction hall with
  | nil => rfl
  | @cons f i fs is hf _ ih =>
    obtain ⟨name, s⟩ := i
    obtain ⟨rfl, hs⟩ := hf
    rw [List.filterMap_cons, hs, ih]
    rfl

/-- The formulas of an encoding hold for relations that are closed and leave out the outputs. -/
theorem formulas_hold {p : Problem} {examples : Option (List Term)} {target : Function}
    {e : Encoding} {s : SmtSort} (h : p.Encodes examples target e)
    (hs : target.resultSort = .ok s) :
    (∀ φ ∈ e.formulas, φ.Holds M ν) ↔ p.Closed e.examples M.zero M.relations ∧
      ∀ v, IsVector e.examples.size s v → M.relations target.name v →
        ¬ EqualEach v (e.examples.results.map Expr.literal) := by
  have hl := ExampleTable.literal_ofTerms h.table
  have hclauses := Signature.functions_hold (M := M) (ν := ν) hl h.clauses
  rw [← resultSorts_of_declared h.indicators] at hclauses
  rw [Encoding.formulas, List.forall_mem_append, List.forall_mem_singleton,
    target.query_holds hl hs h.query, hclauses]
  rfl

end Problem

end Realizability
