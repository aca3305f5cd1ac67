import Realizability.Problem.Builder
import Realizability.Proofs.Grammar.Tree

/-!
# Cases that follow a grammar

The formulas of an encoding are made from the cases of the functions and do not depend on the
grammar. Their verdict is about the trees of the grammar if every case is about a production of
each nonterminal that its function is applied to and calls no child twice.
-/

namespace Realizability

namespace Problem

variable (p : Problem)

/-- There is a function of this name over the term type of the nonterminal. -/
def Applies (name : String) (n : Nonterminal) : Prop :=
  ∃ f ∈ p.functions.values, f.name = name ∧ ∃ x, f.args.head? = some x ∧ x.sort.name = n.termType

/-- A case without an operator calls nothing. Another one is about a production of the nonterminal;
it calls each child at most once, and functions over the term type of the child. -/
def CaseFollows (count : Nat) (n : Nonterminal) (c : MatchCase Term) : Prop :=
  match c.operator with
  | none => (p.signature count).callsOf c.result = []
  | some operator =>
    ∃ q ∈ n.productions, q.operator = operator ∧
      ∃ ns, q.children.mapM p.nonterminal? = some ns ∧
        (((p.signature count).callsOf c.result).map fun call => c.child? call.2).Nodup ∧
        ∀ call ∈ (p.signature count).callsOf c.result,
          ∃ i m, c.child? call.2 = some i ∧ ns[i]? = some m ∧ p.Applies call.1 m

structure FollowsGrammar (count : Nat) : Prop where
  target : p.target ∈ p.nonterminals
  productive : ∀ n ∈ p.nonterminals, ∃ t, p.Generates n t
  covered : ∀ f ∈ p.functions.values, ∀ c ∈ f.matchCases, ∀ n ∈ p.nonterminals,
    p.Applies f.name n → p.CaseFollows count n c

variable {p}

theorem mem_nonterminals {names : List String} {ns : List Nonterminal}
    (h : names.mapM p.nonterminal? = some ns) {n : Nonterminal} (hn : n ∈ ns) :
    n ∈ p.nonterminals := by
  obtain ⟨x, -, hx⟩ := exists_of_forall₂ (mapM_eq_some.mp h) hn
  exact List.mem_of_find?_eq_some hx

variable {table : ExampleTable} {zero : ZeroDivision}

theorem evaluates_of_vectors (h : p.ConjunctiveCalls table.size) {f : Function}
    (hf : f ∈ p.functions.values) {c : MatchCase Term} (hc : c ∈ f.matchCases) {operator : String}
    (hop : c.operator = none ∨ c.operator = some operator) {ts : List Tree} {v : List Value}
    {R : Relations} {vectors : List (List Value)}
    (hv : ∀ C, Signature.CallsHave C ((p.signature table.size).callsOf c.result) vectors →
      (p.signature table.size).CaseGives ⟨zero, R⟩ C table f c v)
    (hcalls : Signature.CallsHave (callsOn (p.Evaluates table zero) f c (.node operator ts))
      ((p.signature table.size).callsOf c.result) vectors) :
    p.Evaluates table zero (.node operator ts) f.name v :=
  evaluates_closedOn h f hf c hc operator ts hop v
    (caseGives_mono (h f hf c hc) (fun _ _ _ hC => hC) (hv _ hcalls))

variable (p table zero) in
def callsOnChild (c : MatchCase Term) (ns : List Nonterminal) : Signature.Calls :=
  fun name args vs => ∃ i m t, c.child? args = some i ∧ ns[i]? = some m ∧ p.Generates m t ∧
    p.Evaluates table zero t name vs

section
variable {c : MatchCase Term} {ns : List Nonterminal}
  {calls : List (String × List (Identifier × Term))} {vectors : List (List Value)}

theorem call_unique (hnodup : (calls.map fun call => c.child? call.2).Nodup) {k k' : Nat}
    {call call' : String × List (Identifier × Term)} (h : calls[k]? = some call)
    (h' : calls[k']? = some call') (hc : c.child? call.2 = c.child? call'.2) : k = k' := by
  have hmap : (calls.map fun call => c.child? call.2)[k]? =
      (calls.map fun call => c.child? call.2)[k']? := by
    simp [List.getElem?_map, h, h', hc]
  have hlt : k < (calls.map fun call => c.child? call.2).length := by
    have := (List.getElem?_eq_some_iff.mp h).1
    simpa using this
  exact (List.getElem?_inj hlt hnodup).mp hmap

/-- A child that is called at most once has a tree on which its call has its vector. -/
theorem exists_child (hp : ∀ n ∈ p.nonterminals, ∃ t, p.Generates n t)
    (hns : ∀ n ∈ ns, n ∈ p.nonterminals)
    (hnodup : (calls.map fun call => c.child? call.2).Nodup)
    (hcalls : Signature.CallsHave (p.callsOnChild table zero c ns) calls vectors)
    (i : Fin ns.length) :
    ∃ t, p.Generates ns[i] t ∧ ∀ (k : Nat) call vs, calls[k]? = some call →
      vectors[k]? = some vs → c.child? call.2 = some (i : Nat) →
        p.Evaluates table zero t call.1 vs := by
  -- a child that is called takes the tree of its call, another one any tree of its nonterminal
  by_cases hk : ∃ (k : Nat) (call : String × List (Identifier × Term)),
      calls[k]? = some call ∧ c.child? call.2 = some (i : Nat)
  · obtain ⟨k, call, hcall, hi⟩ := hk
    obtain ⟨vs, hvs, j, m, t, hj, hm, ht, he⟩ := get_of_forall₂ hcalls hcall
    rw [hi] at hj
    cases hj
    have hm : ns[i] = m := by simpa using hm
    refine ⟨t, hm ▸ ht, fun k' call' vs' hcall' hvs' hi' => ?_⟩
    obtain rfl : k = k' := call_unique hnodup hcall hcall' (hi.trans hi'.symm)
    cases Option.some.inj (hcall.symm.trans hcall')
    cases Option.some.inj (hvs.symm.trans hvs')
    exact he
  · obtain ⟨t, ht⟩ := hp ns[i] (hns _ (List.getElem_mem _))
    refine ⟨t, ht, fun k call vs hcall _ hi => ?_⟩
    exact absurd ⟨k, call, hcall, hi⟩ hk

theorem exists_children (hp : ∀ n ∈ p.nonterminals, ∃ t, p.Generates n t)
    (hns : ∀ n ∈ ns, n ∈ p.nonterminals)
    (hnodup : (calls.map fun call => c.child? call.2).Nodup)
    (hcalls : Signature.CallsHave (p.callsOnChild table zero c ns) calls vectors) :
    ∃ ts : List Tree, ts.length = ns.length ∧
      (∀ (i : Nat) (m : Nonterminal) (t : Tree), ns[i]? = some m → ts[i]? = some t →
        p.Generates m t) ∧
      Signature.CallsHave (fun name args vs => ∃ i t, c.child? args = some i ∧ ts[i]? = some t ∧
        p.Evaluates table zero t name vs) calls vectors := by
  choose ts hgenerates hevaluates using exists_child hp hns hnodup hcalls
  have hget : ∀ i (hi : i < ns.length), (List.ofFn ts)[i]? = some (ts ⟨i, hi⟩) := by
    intro i hi
    rw [List.getElem?_ofFn, dif_pos hi]
  refine ⟨List.ofFn ts, List.length_ofFn, ?_, ?_⟩
  · intro i m t hm ht
    obtain ⟨hi, rfl⟩ := List.getElem?_eq_some_iff.mp hm
    rw [hget i hi] at ht
    cases ht
    exact hgenerates ⟨i, hi⟩
  · refine forall₂_of_get hcalls.length_eq.symm fun k call hcall => ?_
    obtain ⟨vs, hvs, i, m, t, hi, hm, -⟩ := get_of_forall₂ hcalls hcall
    obtain ⟨hlt, -⟩ := List.getElem?_eq_some_iff.mp hm
    exact ⟨vs, hvs, i, ts ⟨i, hlt⟩, hi, hget i hlt, hevaluates ⟨i, hlt⟩ k call vs hcall hvs hi⟩

end

variable (p table zero) in
/-- The vectors that functions have on some tree of every nonterminal that they are applied to. -/
def Generated : Relations := fun name v => ∀ n ∈ p.nonterminals, p.Applies name n →
  ∃ t, p.Generates n t ∧ p.Evaluates table zero t name v

section
variable {f : Function} {c : MatchCase Term} {n : Nonterminal} {v : List Value} {R : Relations}
  {vectors : List (List Value)}

theorem exists_tree_of_silent (h : p.ConjunctiveCalls table.size)
    (hg : p.FollowsGrammar table.size) (hf : f ∈ p.functions.values) (hc : c ∈ f.matchCases)
    (hn : n ∈ p.nonterminals) (hop : c.operator = none)
    (hsilent : (p.signature table.size).callsOf c.result = [])
    (hv : ∀ C, Signature.CallsHave C ((p.signature table.size).callsOf c.result) vectors →
      (p.signature table.size).CaseGives ⟨zero, R⟩ C table f c v)
    (hlen : vectors.length = ((p.signature table.size).callsOf c.result).length) :
    ∃ t, p.Generates n t ∧ p.Evaluates table zero t f.name v := by
  obtain ⟨t, ht⟩ := hg.productive n hn
  have hnil : vectors = [] := by
    rw [hsilent] at hlen
    exact List.length_eq_zero_iff.mp hlen
  cases ht with
  | node hq hns hlen hts =>
    refine ⟨_, .node hq hns hlen hts, evaluates_of_vectors h hf hc (.inl hop) hv ?_⟩
    rw [hsilent, hnil]
    exact .nil

theorem exists_tree_of_production (h : p.ConjunctiveCalls table.size)
    (hg : p.FollowsGrammar table.size) (hf : f ∈ p.functions.values) (hc : c ∈ f.matchCases)
    {q : Production} (hq : q ∈ n.productions) (hop : c.operator = some q.operator)
    {ns : List Nonterminal} (hns : q.children.mapM p.nonterminal? = some ns)
    (hnodup : (((p.signature table.size).callsOf c.result).map fun call => c.child? call.2).Nodup)
    (hv : ∀ C, Signature.CallsHave C ((p.signature table.size).callsOf c.result) vectors →
      (p.signature table.size).CaseGives ⟨zero, R⟩ C table f c v)
    (hcalls : Signature.CallsHave (p.callsOnChild table zero c ns)
      ((p.signature table.size).callsOf c.result) vectors) :
    ∃ t, p.Generates n t ∧ p.Evaluates table zero t f.name v := by
  have hmem : ∀ m ∈ ns, m ∈ p.nonterminals := fun m => mem_nonterminals hns
  obtain ⟨ts, hlen, hts, hchildren⟩ := exists_children hg.productive hmem hnodup hcalls
  refine ⟨_, .node hq hns hlen hts, evaluates_of_vectors h hf hc (.inr hop) hv ?_⟩
  refine hchildren.imp ?_
  rintro call vs ⟨i, t, hi, ht, he⟩
  have hoperator : c.operator.isSome = true := by rw [hop]; rfl
  have hsubject := MatchCase.subject?_child hoperator hi (f := f) (t := .node q.operator ts)
  exact ⟨t, hsubject.trans ht, he⟩

end

theorem generated_closed (h : p.ConjunctiveCalls table.size)
    (hg : p.FollowsGrammar table.size) : p.Closed table zero (p.Generated table zero) := by
  intro f hf c hc v ⟨hv, bs, hb, hh⟩ n hn happ
  obtain ⟨vectors, hvectors, hall⟩ := Signature.exists_vectors c.result hh
  have hgives : ∀ C, Signature.CallsHave C ((p.signature table.size).callsOf c.result) vectors →
      (p.signature table.size).CaseGives ⟨zero, p.Generated table zero⟩ C table f c v :=
    fun C hC => ⟨hv, bs, hb, hall C hC⟩
  have hfollows := hg.covered f hf c hc n hn happ
  unfold CaseFollows at hfollows
  cases hop : c.operator with
  | none =>
    rw [hop] at hfollows
    exact exists_tree_of_silent h hg hf hc hn hop hfollows hgives hvectors.length_eq.symm
  | some operator =>
    rw [hop] at hfollows
    obtain ⟨q, hq, rfl, ns, hns, hnodup, hcalls⟩ := hfollows
    refine exists_tree_of_production h hg hf hc hq hop hns hnodup hgives ?_
    refine forall₂_of_get hvectors.length_eq.symm fun k call hcall => ?_
    obtain ⟨vs, hvs, hr⟩ := get_of_forall₂ hvectors hcall
    obtain ⟨i, m, hi, hm, happ⟩ := hcalls call (List.mem_of_getElem? hcall)
    obtain ⟨t, ht, he⟩ := hr m (mem_nonterminals hns (List.mem_of_getElem? hm)) happ
    exact ⟨vs, hvs, i, m, t, hi, hm, ht, he⟩

/-! ## Verdicts -/

variable (p table zero) in
/-- A term of the grammar has the outputs of the examples as its value. -/
def GeneratesOutputs : Prop :=
  ∃ t, p.Generates p.target t ∧ p.GivesOutputs table (p.Evaluates table zero t)

theorem givesOutputs_mono {R R' : Relations} (h : ∀ name v, R name v → R' name v)
    (hr : p.GivesOutputs table R) : p.GivesOutputs table R' := by
  obtain ⟨f, s, v, hf, hs, hv, heq, hr⟩ := hr
  exact ⟨f, s, v, hf, hs, hv, heq, h _ _ hr⟩

theorem derived_of_generates (h : p.ConjunctiveCalls table.size)
    (hg : p.GeneratesOutputs table zero) : p.GivesOutputs table (p.Derived table zero) := by
  obtain ⟨t, -, ht⟩ := hg
  exact givesOutputs_mono (fun _ _ => derived_of_evaluates h) ht

theorem generates_of_derived (h : p.ConjunctiveCalls table.size) {target : Function}
    (htarget : p.targetFunction table = .ok target) (happ : p.Applies target.name p.target)
    (hg : p.FollowsGrammar table.size) (hd : p.GivesOutputs table (p.Derived table zero)) :
    p.GeneratesOutputs table zero := by
  obtain ⟨f, s, v, hf, hs, hv, heq, hd⟩ := hd
  obtain rfl : target = f := Except.ok.inj (htarget.symm.trans hf)
  obtain ⟨t, ht, he⟩ := hd _ (generated_closed h hg) p.target hg.target happ
  exact ⟨t, ht, target, s, v, hf, hs, hv, heq, he⟩

/-- Formulas are unsatisfiable if a term of the grammar has the outputs as its value. The other way
around they depend on the cases alone, so that a term of the grammar is only certain where the cases
follow the grammar. -/
theorem verdict_of_grammar {examples : Option (List Term)} {e : Encoding}
    (h : (p.encode examples).outcome = .ok e) (hcalls : p.ConjunctiveCalls e.examples.size)
    (zero : ZeroDivision) :
    (p.GeneratesOutputs e.examples zero → ¬ Satisfiable zero e.formulas) ∧
    ((¬ Satisfiable zero e.formulas → p.GeneratesOutputs e.examples zero) ↔
      (p.GivesOutputs e.examples (p.Derived e.examples zero) →
        p.GeneratesOutputs e.examples zero)) ∧
    (p.FollowsGrammar e.examples.size → p.Applies e.target p.target →
      (¬ Satisfiable zero e.formulas ↔ p.GeneratesOutputs e.examples zero)) := by
  obtain ⟨target, he⟩ := encode_eq_ok.mp h
  have hunsat : ¬ Satisfiable zero e.formulas ↔
      p.GivesOutputs e.examples (p.Derived e.examples zero) := by
    rw [satisfiable_iff_not_givesOutputs h hcalls, not_not]
  rw [hunsat, he.name]
  refine ⟨derived_of_generates hcalls, Iff.rfl, fun hg happ => ⟨?_, derived_of_generates hcalls⟩⟩
  exact generates_of_derived hcalls he.chosen happ hg

end Problem

/-! ## Sums of inputs and ones -/

namespace Sums

theorem applies (start : Nonterminal) (h : start.termType = "E") :
    (problem start).Applies "E.Sem" start :=
  ⟨semantics, List.mem_singleton_self _, rfl, _, rfl, h.symm⟩

theorem grammar_productive : (problem grammar).Generates grammar (.node "$x" []) := by
  have hq : (⟨"$x", [], []⟩ : Production) ∈ grammar.productions := List.mem_cons_self ..
  have hns : List.mapM (problem grammar).nonterminal? [] = some [] := rfl
  exact .node hq hns rfl fun i m t hm _ => by cases hm

theorem followsGrammar (n : Nat) : (problem grammar).FollowsGrammar n where
  target := List.mem_singleton_self _
  productive := by
    intro m hm
    obtain rfl : m = grammar := List.mem_singleton.mp hm
    exact ⟨_, grammar_productive⟩
  covered := by
    intro f hf c hc m hm _
    obtain rfl : f = semantics := List.mem_singleton.mp hf
    obtain rfl : m = grammar := List.mem_singleton.mp hm
    have hone : (⟨"$1", [], []⟩ : Production) ∈ grammar.productions :=
      List.mem_cons_of_mem _ (List.mem_cons_self ..)
    have hplus : (⟨"$+", ["Start", "Start"], []⟩ : Production) ∈ grammar.productions :=
      List.mem_cons_of_mem _ (List.mem_cons_of_mem _ (List.mem_cons_self ..))
    have happ : (problem grammar).Applies "E.Sem" grammar := applies grammar rfl
    rcases mem_matchCases.mp hc with rfl | rfl | rfl
    · refine ⟨_, List.mem_cons_self .., rfl, [], rfl, List.nodup_nil, ?_⟩
      intro call hcall
      exact absurd hcall List.not_mem_nil
    · refine ⟨_, hone, rfl, [], rfl, List.nodup_nil, ?_⟩
      intro call hcall
      exact absurd hcall List.not_mem_nil
    · refine ⟨_, hplus, rfl, [grammar, grammar], rfl, ?_, ?_⟩
      · show [some 0, some 1].Nodup
        decide
      · intro call hcall
        rcases List.mem_pair.mp hcall with rfl | rfl
        · exact ⟨0, grammar, rfl, rfl, happ⟩
        · exact ⟨1, grammar, rfl, rfl, happ⟩

/-- Where the grammar has all operators, the verdict on successors is about its terms. -/
theorem successors_unsatisfiable_iff :
    ∃ e, ((problem grammar).encode (some [row 1 2, row 2 3])).outcome = .ok e ∧
      (problem grammar).ConjunctiveCalls e.examples.size ∧ ∀ zero,
      (¬ Satisfiable zero e.formulas ↔ (problem grammar).GeneratesOutputs e.examples zero) := by
  obtain ⟨e, h, htable⟩ := encode_successors
  have hcalls := conjunctiveCalls grammar e.examples.size
  refine ⟨e, h, hcalls, fun zero => ?_⟩
  obtain ⟨-, -, hiff⟩ := Problem.verdict_of_grammar h hcalls zero
  refine hiff (followsGrammar _) ?_
  obtain ⟨target, he⟩ := Problem.encode_eq_ok.mp h
  have htarget : semantics = target := by
    have hchosen := he.chosen
    rw [htable] at hchosen
    exact Except.ok.inj hchosen
  rw [he.name, ← htarget]
  exact applies grammar rfl

/-! A grammar without the operator for ones -/

def inputOnly : Nonterminal := ⟨"Start", "E", [⟨"$x", [], []⟩]⟩

def inputOnlyEvents : List Event := [
  .declareTermType "E",
  .defineTermType "E" [⟨"$x", []⟩, ⟨"$1", []⟩, ⟨"$+", ["E", "E"]⟩],
  .defineFunction "E.Sem" truth semantics.args semantics.body,
  .synthFun ⟨"f", "E", [⟨"Start", "E", [⟨"$x", []⟩]⟩]⟩]

theorem generates_inputOnly {t : Tree} (h : (problem inputOnly).Generates inputOnly t) :
    t = .node "$x" [] := by
  cases h with
  | node hq hns hlen hts =>
    obtain rfl := List.mem_singleton.mp hq
    cases hns
    rw [List.length_eq_zero_iff.mp hlen]

variable {start : Nonterminal} {n : Nat} {M : Model} {C : Signature.Calls} {ρ : Environment}

theorem equation_holds {t : Term} {us vs : List Value} (hu : IsVector n .int us)
    (hv : IsVector n .int vs) (hr : ρ "r" = some us)
    (ht : ∀ i < n, ((problem start).signature n).valueOf M ρ (sortHint integer t) t i = vs[i]?) :
    ((problem start).signature n).Holds M C ρ (equation "r" t) ↔ us = vs := by
  have hlen : us.length = vs.length := hu.length.trans hv.length.symm
  have hvalue : ∀ i (h : i < us.length), ((problem start).signature n).valueOf M ρ none
      (equation "r" t) i = some (.ofProp (us[i] = vs[i])) := by
    intro i h
    have hsort : us[i].sort = vs[i].sort := by
      rw [hu.sort _ (List.getElem_mem h), hv.sort _ (List.getElem_mem (hlen ▸ h))]
    have hs : Symbol.ofIdentifier? ⟨"=", []⟩ = some (.plain .eq) := rfl
    rw [equation, Signature.valueOf, hs]
    simp only [Signature.valuesOf, ht i (hu.length ▸ h), Signature.valueOf, hr]
    simp [hlen ▸ h, h, Symbol.value, Operator.value, Value.chainable, Value.adjacent,
      Value.equal_of_sort hsort, Value.conjunction]
  have hpointwise : ((problem start).signature n).Holds M C ρ (equation "r" t) ↔
      ((problem start).signature n).HoldsPointwise M ρ (equation "r" t) := by
    rw [equation, Signature.Holds, if_neg, if_neg]
    · exact fun h => Bool.false_ne_true h.1
    · exact fun h => absurd (congrArg Identifier.name h.1) (by decide)
  rw [hpointwise]
  constructor
  · intro h
    refine List.ext_getElem hlen fun i hi _ => ?_
    have hyes := h i (hu.length ▸ hi)
    rw [hvalue i hi] at hyes
    simpa using hyes
  · rintro rfl i hi
    rw [hvalue i (hu.length.symm ▸ hi)]
    simp

theorem evaluates_inputOnly {table : ExampleTable} {zero : ZeroDivision} {column : List Expr}
    (htable : table.inputs = [column]) (hcolumn : IsVector table.size .int (column.map Expr.literal))
    {v : List Value} (h : (problem start).Evaluates table zero (.node "$x" []) "E.Sem" v) :
    v = column.map Expr.literal := by
  refine h (fun t _ v => t = .node "$x" [] → v = column.map Expr.literal) ?_ rfl
  intro f hf c hc operator ts hop v ⟨⟨s, hs, hv⟩, bs, hb, hh⟩ ht
  obtain rfl : f = semantics := List.mem_singleton.mp hf
  cases hs
  cases ht
  rcases mem_matchCases.mp hc with rfl | rfl | rfl
  · cases hb with
    | fixed hfirst hb =>
      rw [htable] at hfirst
      cases hfirst
      cases hb with
      | result => exact (equation_holds hv hcolumn rfl fun i _ => rfl).mp hh
    | free hfirst =>
      rw [htable] at hfirst
      cases hfirst
  · rcases hop with hop | hop
    · cases hop
    · exact absurd (Option.some.inj hop) (by decide)
  · rcases hop with hop | hop
    · cases hop
    · exact absurd (Option.some.inj hop) (by decide)

theorem derived_ones {table : ExampleTable} {zero : ZeroDivision} {column : List Expr}
    (htable : table.inputs = [column]) :
    (problem start).Derived table zero "E.Sem" (List.replicate table.size (.int 1)) := by
  intro R hR
  have hones : IsVector table.size .int (List.replicate table.size (.int 1)) := by
    refine ⟨List.length_replicate, fun v hv => ?_⟩
    rw [List.eq_of_mem_replicate hv]
    rfl
  have hfirst : table.inputs[0]? = some column := by rw [htable]; rfl
  refine hR semantics (List.mem_singleton_self _) _ (mem_matchCases.mpr (.inr (.inl rfl))) _ ?_
  refine ⟨⟨.int, rfl, hones⟩, _, .fixed hfirst .result, ?_⟩
  refine (equation_holds hones hones rfl fun i hi => ?_).mpr rfl
  rw [List.getElem?_replicate, if_pos hi]
  rfl

/-- No term of the grammar gives one on both examples, but a case of another operator does. -/
theorem ones_unsatisfiable_not_generated :
    (Problem.ofEvents inputOnlyEvents).outcome = .ok (problem inputOnly) ∧
      ∃ e, ((problem inputOnly).encode (some [row 2 1, row 3 1])).outcome = .ok e ∧
        (problem inputOnly).ConjunctiveCalls e.examples.size ∧ ∀ zero,
        ¬ Satisfiable zero e.formulas ∧ ¬ (problem inputOnly).GeneratesOutputs e.examples zero := by
  refine ⟨rfl, ?_⟩
  obtain ⟨e, h⟩ : ∃ e, ((problem inputOnly).encode (some [row 2 1, row 3 1])).outcome = .ok e :=
    ⟨_, rfl⟩
  obtain ⟨target, he⟩ := Problem.encode_eq_ok.mp h
  have htable : e.examples = ⟨some "E.Sem", [[.int 2, .int 3]], [.int 1, .int 1]⟩ :=
    Except.ok.inj (he.table.symm.trans rfl)
  have hinputs : e.examples.inputs = [[.int 2, .int 3]] := by rw [htable]
  have hl := ExampleTable.literal_ofTerms he.table
  have hf : (problem inputOnly).targetFunction e.examples = .ok semantics := by
    rw [htable]
    rfl
  have hout : ∀ x ∈ e.examples.results, x.sort = .int := by
    rw [htable]
    decide
  have hones : e.examples.results.map Expr.literal = List.replicate e.examples.size (.int 1) := by
    rw [htable]
    rfl
  have hcalls := conjunctiveCalls inputOnly e.examples.size
  refine ⟨e, h, hcalls, fun zero => ⟨?_, ?_⟩⟩
  · rw [Problem.satisfiable_iff_not_givesOutputs h hcalls, not_not,
      Problem.givesOutputs_iff hl hf rfl hout, hones]
    exact derived_ones hinputs
  · rintro ⟨t, ht, hgives⟩
    rw [Problem.givesOutputs_iff hl hf rfl hout, generates_inputOnly ht] at hgives
    have hcolumn : IsVector e.examples.size .int ([.int 2, .int 3].map Expr.literal) := by
      rw [htable]
      exact ⟨rfl, by simp [Expr.literal, Value.sort]⟩
    have heq := evaluates_inputOnly hinputs hcolumn hgives
    rw [htable] at heq
    simp [Expr.literal] at heq

end Sums

end Realizability
