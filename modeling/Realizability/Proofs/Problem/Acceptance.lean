import Realizability.Proofs.Problem.Draft

/-!
# Streams that describe a problem

Which streams of events a problem can be built from, said of the stream as a whole: what stands
before each event, and how the grammar of the only function to be synthesized fits the term types.
-/

namespace Realizability

def declaredTypeOf? : Event → Option String
  | .declareTermType name => some name
  | _ => none

def termTypeOf? (grammar : List NonterminalDecl) (name : String) : Option String :=
  (grammar.find? (·.name = name)).map NonterminalDecl.termType

/-- The grammar is one over the term types and the constructors of the stream. -/
structure SynthFun.Resolves (f : SynthFun) (es : List Event) : Prop where
  types : ∀ n ∈ f.grammar, Event.declareTermType n.termType ∈ es
  productions : ∀ n ∈ f.grammar, ∀ q ∈ n.productions, ∃ c, Constructs es n.termType c ∧
    c.name = q.operator ∧ q.occurrences.map (termTypeOf? f.grammar) = c.children.map some
  target : ∃ n ∈ f.grammar, n.termType = f.termType

structure Describes (es : List Event) : Prop where
  declared : (es.filterMap declaredTypeOf?).Nodup
  defined : ∀ before name cs after, es = before ++ .defineTermType name cs :: after →
    Event.declareTermType name ∈ before ∧
      (∀ c ∈ cs, ∀ x ∈ c.children, Event.declareTermType x ∈ before) ∧
      (cs.map ConstructorDecl.name).Nodup ∧
      ∀ c ∈ cs, ∀ c', Constructs before name c' → c'.name ≠ c.name
  ruled : ∀ before constructor termType r after,
    es = before ++ .hornClause constructor termType r :: after →
    ∃ c, Constructs before termType c ∧ c.name = constructor
  synthesized : ∃ f, synthFuns es = [f] ∧ f.Resolves es

/-! ## Finishing -/

namespace Draft

variable {d d' : Draft} {es : List Event} {grammar : List NonterminalDecl}

theorem childType_eq_ok {operator child termType : String} :
    childType grammar operator child = .ok termType ↔ termTypeOf? grammar child = some termType := by
  unfold childType termTypeOf?
  cases grammar.find? (·.name = child) with
  | none => simp
  | some n => simp

theorem childTypes_eq_ok {operator : String} {children types : List String} :
    children.mapM (childType grammar operator) = .ok types ↔
      children.map (termTypeOf? grammar) = types.map some := by
  rw [mapM_eq_ok, ← List.forall₂_eq_eq_eq, List.forall₂_map_left_iff, List.forall₂_map_right_iff]
  simp only [childType_eq_ok]

theorem production_ok_iff {n : NonterminalDecl} {q : ProductionDecl} :
    (∃ r, d.production grammar n q = .ok r) ↔ ∃ children,
      d.signature? n.termType q.operator = some children ∧
        q.occurrences.map (termTypeOf? grammar) = children.map some := by
  unfold production signature?
  cases ht : d.constructors? n.termType with
  | none => simp
  | some constructors =>
    rw [Option.getD_some, Option.bind_some]
    cases hc : constructors.get? q.operator with
    | none => simp
    | some c =>
      rw [bind_ok_iff, Option.map_some]
      constructor
      · rintro ⟨types, htypes, r, hr⟩
        split at hr
        · rename_i heq
          exact ⟨types, by rw [heq], childTypes_eq_ok.mp htypes⟩
        · cases hr
      · rintro ⟨children, hchildren, htypes⟩
        cases hchildren
        refine ⟨c.children, childTypes_eq_ok.mpr htypes, ?_⟩
        rw [if_pos rfl]
        exact ⟨_, rfl⟩

theorem nonterminal_eq_ok {n : NonterminalDecl} {m : Nonterminal} :
    d.nonterminal grammar n = .ok m ↔ ∃ ps, n.productions.mapM (d.production grammar n) = .ok ps ∧
      ⟨n.name, n.termType, ps⟩ = m := by
  unfold nonterminal
  rw [bind_eq_ok]
  simp [pure, Except.pure]

theorem checkTermType_eq_ok {n : NonterminalDecl} :
    d.checkTermType n = .ok () ↔ d.termTypes.has n.termType = true := by
  unfold checkTermType
  by_cases h : d.termTypes.has n.termType = true
  · simp [h]
  · simp [h]

theorem nonterminals_ok_iff : (∃ ns, grammar.mapM (d.nonterminal grammar) = .ok ns) ↔
    ∀ n ∈ grammar, ∀ q ∈ n.productions, ∃ r, d.production grammar n q = .ok r := by
  rw [mapM_ok_iff]
  refine forall₂_congr fun n _ => ?_
  rw [← mapM_ok_iff]
  constructor
  · rintro ⟨m, hm⟩
    obtain ⟨ps, hps, -⟩ := nonterminal_eq_ok.mp hm
    exact ⟨ps, hps⟩
  · rintro ⟨ps, hps⟩
    exact ⟨_, nonterminal_eq_ok.mpr ⟨ps, hps, rfl⟩⟩

theorem mem_termType_iff {ns : List Nonterminal}
    (h : grammar.mapM (d.nonterminal grammar) = .ok ns) (termType : String) :
    (ns.find? (·.termType = termType)).isSome = true ↔ ∃ n ∈ grammar, n.termType = termType := by
  have hall := mapM_eq_ok.mp h
  rw [List.find?_isSome]
  constructor
  · rintro ⟨m, hm, ht⟩
    obtain ⟨n, hn, hnm⟩ := exists_of_forall₂ hall hm
    obtain ⟨ps, -, rfl⟩ := nonterminal_eq_ok.mp hnm
    exact ⟨n, hn, by simpa using ht⟩
  · rintro ⟨n, hn, ht⟩
    obtain ⟨i, hi⟩ := List.mem_iff_getElem?.mp hn
    obtain ⟨m, hm, hnm⟩ := get_of_forall₂ hall hi
    obtain ⟨ps, -, rfl⟩ := nonterminal_eq_ok.mp hnm
    exact ⟨_, List.mem_of_getElem? hm, by simpa using ht⟩

theorem finish_eq_ok {p : Problem} : d.finish = .ok p ↔ ∃ f ns, d.synthFun = some f ∧
    (∀ n ∈ f.grammar, d.termTypes.has n.termType = true) ∧
    f.grammar.mapM (d.nonterminal f.grammar) = .ok ns ∧
    ns.find? (·.termType = f.termType) = some p.target ∧
    p = ⟨f.name, p.target, ns, d.constraints, d.metadata, d.datatypes, d.functions⟩ := by
  unfold finish
  cases hf : d.synthFun with
  | none => simp
  | some f =>
    dsimp only
    constructor
    · intro hp
      obtain ⟨u, hcheck, hp⟩ := bind_eq_ok.mp hp
      obtain ⟨ns, hns, hp⟩ := bind_eq_ok.mp hp
      have htypes := forM_eq_ok.mp hcheck
      refine ⟨f, ns, rfl, fun n hn => checkTermType_eq_ok.mp (htypes n hn), hns, ?_⟩
      split at hp
      · cases hp
      · rename_i target htarget
        cases hp
        exact ⟨htarget, rfl⟩
    · rintro ⟨f', ns, hf', htypes, hns, htarget, hp⟩
      cases hf'
      have hcheck := forM_eq_ok.mpr fun n hn => checkTermType_eq_ok.mpr (htypes n hn)
      refine bind_eq_ok.mpr ⟨(), hcheck, bind_eq_ok.mpr ⟨ns, hns, ?_⟩⟩
      rw [htarget, hp]
      rfl

theorem finish_ok_iff : (∃ p, d.finish = .ok p) ↔ ∃ f, d.synthFun = some f ∧
    (∀ n ∈ f.grammar, d.termTypes.has n.termType = true) ∧
    (∀ n ∈ f.grammar, ∀ q ∈ n.productions, ∃ r, d.production f.grammar n q = .ok r) ∧
    ∃ n ∈ f.grammar, n.termType = f.termType := by
  constructor
  · rintro ⟨p, hp⟩
    obtain ⟨f, ns, hf, htypes, hns, htarget, -⟩ := finish_eq_ok.mp hp
    refine ⟨f, hf, htypes, nonterminals_ok_iff.mp ⟨ns, hns⟩, ?_⟩
    exact (mem_termType_iff hns f.termType).mp (by simp [htarget])
  · rintro ⟨f, hf, htypes, hproductions, htarget⟩
    obtain ⟨ns, hns⟩ := nonterminals_ok_iff.mpr hproductions
    have hsome := (mem_termType_iff hns f.termType).mpr htarget
    obtain ⟨target, hfind⟩ := Option.isSome_iff_exists.mp hsome
    exact ⟨⟨f.name, target, ns, d.constraints, d.metadata, d.datatypes, d.functions⟩,
      finish_eq_ok.mpr ⟨f, ns, hf, htypes, hns, hfind, rfl⟩⟩

theorem Reads.production_ok_iff (h : d.Reads es) {n : NonterminalDecl} {q : ProductionDecl} :
    (∃ r, d.production grammar n q = .ok r) ↔ ∃ c, Constructs es n.termType c ∧
      c.name = q.operator ∧ q.occurrences.map (termTypeOf? grammar) = c.children.map some := by
  rw [Draft.production_ok_iff]
  constructor
  · rintro ⟨children, hs, ht⟩
    exact ⟨⟨q.operator, children⟩, (h.constructors n.termType ⟨q.operator, children⟩).mp hs, rfl, ht⟩
  · rintro ⟨c, hc, hname, ht⟩
    exact ⟨c.children, hname ▸ (h.constructors n.termType c).mpr hc, ht⟩

theorem Reads.finish_ok_iff (h : d.Reads es) :
    (∃ p, d.finish = .ok p) ↔ ∃ f, synthFuns es = [f] ∧ f.Resolves es := by
  rw [Draft.finish_ok_iff]
  refine exists_congr fun f => ?_
  rw [← h.synthesized, Option.toList_eq_singleton_iff]
  refine and_congr_right fun _ => ?_
  simp only [h.types, h.production_ok_iff]
  constructor
  · rintro ⟨htypes, hproductions, htarget⟩
    exact ⟨htypes, hproductions, htarget⟩
  · rintro ⟨htypes, hproductions, htarget⟩
    exact ⟨htypes, hproductions, htarget⟩

end Draft

/-! ## Streams -/

theorem forall_split_cons {α : Type} {P : List α → α → Prop} {x : α} {xs : List α} :
    (∀ before y after, x :: xs = before ++ y :: after → P before y) ↔
      P [] x ∧ ∀ before y after, xs = before ++ y :: after → P (x :: before) y := by
  constructor
  · intro h
    refine ⟨h [] x xs rfl, fun before y after hxs => h (x :: before) y after ?_⟩
    rw [hxs, List.cons_append]
  · rintro ⟨hx, hxs⟩ before y after heq
    cases before with
    | nil =>
      cases heq
      exact hx
    | cons z before =>
      rw [List.cons_append, List.cons.injEq] at heq
      obtain ⟨rfl, heq⟩ := heq
      exact hxs before y after heq

theorem nodup_filterMap_iff {α β : Type} {f : α → Option β} {xs : List α} :
    (xs.filterMap f).Nodup ↔ ∀ before x after, xs = before ++ x :: after →
      ∀ b, f x = some b → b ∉ before.filterMap f := by
  constructor
  · rintro h before x after rfl b hb hmem
    rw [List.filterMap_append, List.filterMap_cons_some hb, List.nodup_append] at h
    exact h.2.2 b hmem b (List.mem_cons_self ..) rfl
  · intro h
    induction xs with
    | nil => exact List.nodup_nil
    | cons x xs ih =>
      obtain ⟨-, hxs⟩ := forall_split_cons.mp h
      have hrest : (xs.filterMap f).Nodup := by
        refine ih fun before y after heq b hb hmem => hxs before y after heq b hb ?_
        rw [List.mem_filterMap] at hmem ⊢
        obtain ⟨z, hz, hf⟩ := hmem
        exact ⟨z, List.mem_cons_of_mem _ hz, hf⟩
      cases hx : f x with
      | none => rwa [List.filterMap_cons_none hx]
      | some b =>
        rw [List.filterMap_cons_some hx, List.nodup_cons]
        refine ⟨fun hmem => ?_, hrest⟩
        obtain ⟨y, hy, hb⟩ := List.mem_filterMap.mp hmem
        obtain ⟨before, after, rfl⟩ := List.append_of_mem hy
        refine hxs before y after rfl b hb ?_
        rw [List.filterMap_cons_some hx]
        exact List.mem_cons_self ..

namespace Draft

variable {d d' : Draft} {es : List Event}

theorem consumeAll_cons_eq_ok {e : Event} :
    (d.consumeAll (e :: es)).outcome = .ok d' ↔
      (d.consume e).2 = none ∧ ((d.consume e).1.consumeAll es).outcome = .ok d' := by
  rw [consumeAll, outcome_bind_eq_ok]
  simp only [Logged.outcome_writeAll]
  split
  · rename_i d₁ heq
    simp [heq]
  · rename_i err heq
    simp only [heq]
    constructor
    · rintro ⟨u, -, h⟩
      cases h
    · rintro ⟨h, -⟩
      cases h

/-- What every event that is taken preserves holds after a whole run. -/
theorem consumeAll_preserves {P : Draft → List Event → Prop}
    (hstep : ∀ d es, P d es → ∀ e, (d.consume e).2 = none → P (d.consume e).1 (es ++ [e]))
    {before : List Event} (h : P d before) (hd : (d.consumeAll es).outcome = .ok d') :
    P d' (before ++ es) := by
  induction es generalizing d before with
  | nil =>
    cases hd
    rw [List.append_nil]
    exact h
  | cons e es ih =>
    obtain ⟨htaken, hd⟩ := consumeAll_cons_eq_ok.mp hd
    have hrest := ih (hstep d before h e htaken) hd
    rwa [List.append_assoc] at hrest

theorem Reads.consumeAll {before : List Event} (h : d.Reads before)
    (hd : (d.consumeAll es).outcome = .ok d') : d'.Reads (before ++ es) :=
  consumeAll_preserves (fun _ _ h e => h.consume e) h hd

theorem Reads.consumeAll_ok_iff {seen : List Event} (h : d.Reads seen) :
    (∃ d', (d.consumeAll es).outcome = .ok d') ↔
      ∀ before e after, es = before ++ e :: after → Admitted (seen ++ before) e := by
  induction es generalizing d seen with
  | nil =>
    constructor
    · intro _ before e after heq
      simp at heq
    · intro _
      exact ⟨d, rfl⟩
  | cons e es ih =>
    rw [forall_split_cons, List.append_nil, ← consume_ok_iff h]
    simp only [consumeAll_cons_eq_ok, exists_and_left]
    refine and_congr_right fun htaken => ?_
    rw [ih (h.consume e htaken)]
    simp only [List.append_assoc, List.singleton_append]

end Draft

theorem mem_declaredTypes {es : List Event} {name : String} :
    name ∈ es.filterMap declaredTypeOf? ↔ Event.declareTermType name ∈ es := by
  rw [List.mem_filterMap]
  constructor
  · rintro ⟨e, he, hname⟩
    cases e with
    | declareTermType x =>
      cases hname
      exact he
    | _ => cases hname
  · intro h
    exact ⟨_, h, rfl⟩

theorem describes_iff {es : List Event} : Describes es ↔
    (∀ before e after, es = before ++ e :: after → Admitted before e) ∧
      ∃ f, synthFuns es = [f] ∧ f.Resolves es := by
  constructor
  · intro h
    refine ⟨fun before e after heq => ?_, h.synthesized⟩
    cases e with
    | declareTermType name =>
      have hnew := nodup_filterMap_iff.mp h.declared before _ after heq name rfl
      exact mt mem_declaredTypes.mpr hnew
    | defineTermType name cs => exact h.defined before name cs after heq
    | hornClause constructor termType r => exact h.ruled before constructor termType r after heq
    | synthFun g =>
      obtain ⟨f, hf, -⟩ := h.synthesized
      -- there is a single function in the whole stream, so that none stands before this one
      have hcons : (Event.synthFun g :: after).filterMap synthFunOf? = g :: synthFuns after := rfl
      rw [heq, synthFuns, List.filterMap_append, hcons, List.append_eq_singleton_iff] at hf
      rcases hf with ⟨hnil, -⟩ | ⟨-, hcons⟩
      · exact hnil
      · cases hcons
    | _ => trivial
  · rintro ⟨hall, hsynth⟩
    refine ⟨?_, fun before name cs after heq => hall before _ after heq,
      fun before constructor termType r after heq => hall before _ after heq, hsynth⟩
    refine nodup_filterMap_iff.mpr fun before e after heq name hname => ?_
    cases e with
    | declareTermType x =>
      cases hname
      exact mt mem_declaredTypes.mp (hall before _ after heq)
    | _ => cases hname

/-- A problem is built from a stream of events if and only if the stream describes one. -/
theorem Problem.ofEvents_ok_iff (es : List Event) :
    (∃ p, (Problem.ofEvents es).outcome = .ok p) ↔ Describes es := by
  have hread : ∀ d, (Draft.consumeAll {} es).outcome = .ok d → d.Reads es :=
    fun d hd => Draft.reads_nil.consumeAll hd
  rw [describes_iff]
  constructor
  · rintro ⟨p, hp⟩
    obtain ⟨d, hd, hp⟩ := outcome_bind_eq_ok.mp hp
    obtain ⟨p', hfinish, -⟩ := outcome_bind_eq_ok.mp hp
    exact ⟨Draft.reads_nil.consumeAll_ok_iff.mp ⟨d, hd⟩, (hread d hd).finish_ok_iff.mp ⟨p', hfinish⟩⟩
  · rintro ⟨hall, hsynth⟩
    obtain ⟨d, hd⟩ := Draft.reads_nil.consumeAll_ok_iff.mpr hall
    obtain ⟨p, hfinish⟩ := (hread d hd).finish_ok_iff.mpr hsynth
    exact ⟨p, outcome_bind_eq_ok.mpr ⟨d, hd, outcome_bind_eq_ok.mpr ⟨p, hfinish, rfl⟩⟩⟩

end Realizability
