import Realizability.Proofs.Problem.Acceptance

/-!
# Why a problem is not built

Events are refused for other reasons than those for which a draft cannot be finished. A draft cannot
be finished if it lacks something that its grammar asks for (`Draft.Lacks`), or if a production has
a child that is no nonterminal of the grammar.
-/

namespace Realizability

/-- The error is about a single event and those before it. -/
def BuildError.OfEvent : BuildError → Prop
  | duplicateTermType _ | undeclaredTermType _ | duplicateConstructor .. | undeclaredChild _
  | unknownTermType _ | unknownConstructor .. | secondSynthFun _ => True
  | _ => False

namespace Draft

variable {d : Draft} {err : BuildError}

/-! ## Events -/

theorem addConstructor_ofEvent {termType : String} {c : ConstructorDecl}
    (h : d.addConstructor termType c = .error err) : err.OfEvent := by
  unfold addConstructor at h
  dsimp only at h
  split at h
  · cases h
    trivial
  · split at h
    · cases h
      trivial
    · cases h

theorem addConstructors_ofEvent {termType : String} {cs : List ConstructorDecl}
    (h : (d.addConstructors termType cs).2 = some err) : err.OfEvent := by
  induction cs generalizing d with
  | nil => cases h
  | cons c cs ih =>
    rw [addConstructors] at h
    cases hc : d.addConstructor termType c with
    | ok d' => exact ih (by simpa [hc] using h)
    | error e =>
      have heq : e = err := by simpa [hc] using h
      exact heq ▸ addConstructor_ofEvent hc

theorem addRule_ofEvent {constructor termType : String} {r : SemanticRule}
    (h : d.addRule constructor termType r = .error err) : err.OfEvent := by
  unfold addRule at h
  split at h
  · cases h
    trivial
  · split at h
    · cases h
      trivial
    · cases h

theorem consume_ofEvent {e : Event} (h : (d.consume e).2 = some err) : err.OfEvent := by
  cases e with
  | declareTermType name =>
    rw [consume] at h
    split at h
    · cases h
      trivial
    · cases h
  | defineTermType name cs =>
    rw [consume] at h
    split at h
    · exact addConstructors_ofEvent h
    · cases h
      trivial
  | hornClause constructor termType r =>
    rw [consume] at h
    cases hr : d.addRule constructor termType r with
    | ok d' => simp [hr] at h
    | error e =>
      have heq : e = err := by simpa [hr] using h
      exact heq ▸ addRule_ofEvent hr
  | synthFun f =>
    rw [consume] at h
    split at h
    · cases h
      trivial
    · cases h
  | _ => cases h

/-! ## Finishing -/

/-- What a draft lacks that has to be there for it to be finished. -/
inductive Lacks (d : Draft) : BuildError → Prop
  | synthFun (h : d.synthFun = none) : Lacks d .noSynthFun
  | termType {f : SynthFun} {n : NonterminalDecl} (hf : d.synthFun = some f) (hn : n ∈ f.grammar)
    (h : d.termTypes.has n.termType = false) :
    Lacks d (.undeclaredNonterminalType n.termType n.name)
  | constructor {f : SynthFun} {n : NonterminalDecl} {q : ProductionDecl}
    (hf : d.synthFun = some f) (hn : n ∈ f.grammar) (hq : q ∈ n.productions)
    (h : d.constructor? n.termType q.operator = none) :
    Lacks d (.noConstructor q.operator n.name n.termType)
  | signature {f : SynthFun} {n : NonterminalDecl} {q : ProductionDecl} {c : TermConstructor}
    {types : List String} (hf : d.synthFun = some f) (hn : n ∈ f.grammar) (hq : q ∈ n.productions)
    (hc : d.constructor? n.termType q.operator = some c)
    (htypes : q.occurrences.map (termTypeOf? f.grammar) = types.map some) (h : types ≠ c.children) :
    Lacks d (.childMismatch q.occurrences q.operator c.children)
  | target {f : SynthFun} (hf : d.synthFun = some f)
    (h : ∀ n ∈ f.grammar, n.termType ≠ f.termType) : Lacks d (.noTarget f.termType f.name)

section
variable {grammar : List NonterminalDecl} {n : NonterminalDecl} {q : ProductionDecl}

theorem childType_eq_error {operator child : String} :
    childType grammar operator child = .error err ↔
      termTypeOf? grammar child = none ∧ err = .unknownChild child operator := by
  unfold childType termTypeOf?
  cases grammar.find? (·.name = child) with
  | none => simp [eq_comm]
  | some n => simp

theorem get?_constructors (d : Draft) (termType operator : String) :
    ((d.constructors? termType).getD []).get? operator = d.constructor? termType operator := by
  unfold constructor?
  cases d.constructors? termType <;> rfl

theorem production_eq_error (h : d.production grammar n q = .error err) :
    (d.constructor? n.termType q.operator = none ∧
        err = .noConstructor q.operator n.name n.termType) ∨
      (∃ x ∈ q.occurrences, termTypeOf? grammar x = none ∧ err = .unknownChild x q.operator) ∨
      ∃ c types, d.constructor? n.termType q.operator = some c ∧
        q.occurrences.map (termTypeOf? grammar) = types.map some ∧ types ≠ c.children ∧
        err = .childMismatch q.occurrences q.operator c.children := by
  rw [production, get?_constructors] at h
  cases hc : d.constructor? n.termType q.operator with
  | none =>
    rw [hc] at h
    cases h
    exact .inl ⟨rfl, rfl⟩
  | some c =>
    rw [hc] at h
    rcases bind_eq_error.mp h with h | ⟨types, htypes, h⟩
    · obtain ⟨x, hx, hchild⟩ := exists_of_mapM_eq_error h
      exact .inr (.inl ⟨x, hx, childType_eq_error.mp hchild⟩)
    · split at h
      · cases h
      · rename_i hne
        cases h
        exact .inr (.inr ⟨c, types, rfl, childTypes_eq_ok.mp htypes, hne, rfl⟩)

theorem nonterminal_eq_error (h : d.nonterminal grammar n = .error err) :
    ∃ q ∈ n.productions, d.production grammar n q = .error err := by
  unfold nonterminal at h
  rcases bind_eq_error.mp h with h | ⟨ps, -, h⟩
  · exact exists_of_mapM_eq_error h
  · cases h

theorem checkTermType_eq_error (h : d.checkTermType n = .error err) :
    d.termTypes.has n.termType = false ∧ err = .undeclaredNonterminalType n.termType n.name := by
  unfold checkTermType at h
  split at h
  · cases h
  · rename_i hno
    cases h
    exact ⟨by simpa using hno, rfl⟩

end

theorem finish_eq_error (h : d.finish = .error err) : d.Lacks err ∨
    ∃ f, d.synthFun = some f ∧ ∃ n ∈ f.grammar, ∃ q ∈ n.productions, ∃ x ∈ q.occurrences,
      termTypeOf? f.grammar x = none ∧ err = .unknownChild x q.operator := by
  unfold finish at h
  cases hf : d.synthFun with
  | none =>
    rw [hf] at h
    cases h
    exact .inl (.synthFun hf)
  | some f =>
    rw [hf] at h
    rcases bind_eq_error.mp h with h | ⟨-, -, h⟩
    · obtain ⟨n, hn, h⟩ := exists_of_forM_eq_error h
      obtain ⟨htype, rfl⟩ := checkTermType_eq_error h
      exact .inl (.termType hf hn htype)
    · rcases bind_eq_error.mp h with h | ⟨ns, hns, h⟩
      · obtain ⟨n, hn, h⟩ := exists_of_mapM_eq_error h
        obtain ⟨q, hq, h⟩ := nonterminal_eq_error h
        obtain ⟨hc, rfl⟩ | hchild | ⟨c, types, hc, htypes, hne, rfl⟩ := production_eq_error h
        · exact .inl (.constructor hf hn hq hc)
        · exact .inr ⟨f, rfl, n, hn, q, hq, hchild⟩
        · exact .inl (.signature hf hn hq hc htypes hne)
      · split at h
        · rename_i hfind
          cases h
          refine .inl (.target hf fun n hn htype => ?_)
          have hsome := (mem_termType_iff hns f.termType).mpr ⟨n, hn, htype⟩
          rw [hfind] at hsome
          cases hsome
        · cases h

theorem Lacks.finish (h : d.Lacks err) : ∃ err', d.finish = .error err' := by
  cases hp : d.finish with
  | error err' => exact ⟨err', rfl⟩
  | ok p =>
    obtain ⟨f, hf, htypes, hproductions, n, hn, htarget⟩ := finish_ok_iff.mp ⟨p, hp⟩
    have hchildren : ∀ n ∈ f.grammar, ∀ q ∈ n.productions, ∃ c,
        d.constructor? n.termType q.operator = some c ∧
          q.occurrences.map (termTypeOf? f.grammar) = c.children.map some := by
      intro n hn q hq
      obtain ⟨_, hs, hmap⟩ := production_ok_iff.mp (hproductions n hn q hq)
      obtain ⟨c, hc, rfl⟩ := Option.map_eq_some_iff.mp hs
      exact ⟨c, hc, hmap⟩
    cases h with
    | synthFun hno => simp [hno] at hf
    | termType hf' hn' hno =>
      cases hf.symm.trans hf'
      simp [htypes _ hn'] at hno
    | constructor hf' hn' hq hno =>
      cases hf.symm.trans hf'
      obtain ⟨c, hc, -⟩ := hchildren _ hn' _ hq
      simp [hc] at hno
    | signature hf' hn' hq hc hmap hne =>
      cases hf.symm.trans hf'
      obtain ⟨c, hc', hmap'⟩ := hchildren _ hn' _ hq
      cases hc.symm.trans hc'
      have heq := List.map_injective_iff.mpr (fun _ _ => Option.some.inj) (hmap.symm.trans hmap')
      exact absurd heq hne
    | target hf' hno =>
      cases hf.symm.trans hf'
      exact absurd htarget (hno n hn)

end Draft

end Realizability
