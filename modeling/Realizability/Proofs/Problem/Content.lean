import Realizability.Proofs.Problem.Acceptance

/-!
# What a problem says

A finished problem is read off its stream: the grammar of the function to be synthesized, with the
rules that the stream has for each operator wherever they stand, and what was written last under
each name.
-/

namespace Realizability

/-! ## Events -/

/-- The rule of a clause about the constructor. -/
def ruleOf? (termType constructor : String) : Event → Option SemanticRule
  | .hornClause name type r => if type = termType ∧ name = constructor then some r else none
  | _ => none

def rulesOf (es : List Event) (termType constructor : String) : List SemanticRule :=
  es.filterMap (ruleOf? termType constructor)

def constraintOf? : Event → Option Term
  | .constraint t => some t
  | _ => none

def infoOf? : Event → Option (String × InfoValue)
  | .setInfo keyword value => some (keyword, value)
  | _ => none

def functionOf? : Event → Option (String × Function)
  | .defineFunction name _ args body => some (name, ⟨name, args, body⟩)
  | _ => none

def datatypeOf? : Event → Option (String × Datatype)
  | .defineDatatype name constructors =>
    some (name, ⟨name, Table.ofEntries (constructors.map fun c => (c.name, c))⟩)
  | _ => none

/-! ## Steps of a draft -/

namespace Draft

variable {d d' : Draft} {es : List Event}

def rules (d : Draft) (termType constructor : String) : List SemanticRule :=
  (d.constructor? termType constructor).elim [] TermConstructor.rules

def SameButTypes (d d' : Draft) : Prop := ∃ types, d' = { d with termTypes := types }

theorem addConstructors_sameButTypes (d : Draft) (termType : String) (cs : List ConstructorDecl) :
    d.SameButTypes (d.addConstructors termType cs).1 := by
  induction cs generalizing d with
  | nil => exact ⟨d.termTypes, rfl⟩
  | cons c cs ih =>
    rw [addConstructors]
    cases hc : d.addConstructor termType c with
    | ok d' =>
      obtain ⟨-, -, rfl⟩ := addConstructor_eq_ok.mp hc
      obtain ⟨types, htypes⟩ := ih (d.putConstructor termType c.name ⟨c.name, c.children, []⟩)
      exact ⟨types, htypes⟩
    | error e => exact ⟨d.termTypes, rfl⟩

theorem addRule_sameButTypes {constructor termType : String} {r : SemanticRule}
    (h : d.addRule constructor termType r = .ok d') : d.SameButTypes d' := by
  obtain ⟨constructors, c, -, -, rfl⟩ := addRule_eq_ok.mp h
  exact ⟨_, rfl⟩

/-- What a draft holds besides term types grows by what the event says. -/
theorem consume_content (d : Draft) (e : Event) :
    (d.consume e).1.constraints = d.constraints ++ (constraintOf? e).toList ∧
    (d.consume e).1.metadata = (infoOf? e).elim d.metadata (fun w => d.metadata.put w.1 w.2) ∧
    (d.consume e).1.functions = (functionOf? e).elim d.functions (fun w => d.functions.put w.1 w.2) ∧
    (d.consume e).1.datatypes =
      (datatypeOf? e).elim d.datatypes (fun w => d.datatypes.put w.1 w.2) := by
  have hsame : ∀ {d'}, d.SameButTypes d' → d'.constraints = d.constraints ++ [] ∧
      d'.metadata = d.metadata ∧ d'.functions = d.functions ∧ d'.datatypes = d.datatypes := by
    rintro d' ⟨types, rfl⟩
    simp
  cases e with
  | declareTermType name =>
    rw [consume]
    split
    · exact hsame ⟨d.termTypes, rfl⟩
    · exact hsame ⟨_, rfl⟩
  | defineTermType name cs =>
    rw [consume]
    split
    · exact hsame (d.addConstructors_sameButTypes name cs)
    · exact hsame ⟨d.termTypes, rfl⟩
  | hornClause constructor termType r =>
    rw [consume]
    cases hr : d.addRule constructor termType r with
    | ok d' => exact hsame (addRule_sameButTypes hr)
    | error err => exact hsame ⟨d.termTypes, rfl⟩
  | synthFun f =>
    rw [consume]
    cases d.synthFun <;> simp [constraintOf?, infoOf?, functionOf?, datatypeOf?]
  | _ => simp [consume, constraintOf?, infoOf?, functionOf?, datatypeOf?]

/-! ## Rules -/

theorem rules_putConstructor (d : Draft) (termType name : String) (c : TermConstructor)
    (termType' name' : String) : (d.putConstructor termType name c).rules termType' name' =
      if termType = termType' ∧ name = name' then c.rules else d.rules termType' name' := by
  unfold rules
  rw [constructor?_putConstructor]
  split <;> rfl

theorem rules_addConstructors {termType : String} {cs : List ConstructorDecl}
    (h : (d.addConstructors termType cs).2 = none) (termType' name : String) :
    (d.addConstructors termType cs).1.rules termType' name = d.rules termType' name := by
  induction cs generalizing d with
  | nil => rfl
  | cons c cs ih =>
    obtain ⟨d', hd', hcs, heq⟩ := addConstructors_cons.mp h
    rw [heq, ih hcs]
    obtain ⟨hnone, -, rfl⟩ := addConstructor_eq_ok.mp hd'
    have hold : d.rules termType c.name = [] := by
      have : d.constructor? termType c.name = none := Option.map_eq_none_iff.mp hnone
      simp [rules, this]
    rw [rules_putConstructor]
    by_cases hc : termType = termType' ∧ c.name = name
    · obtain ⟨rfl, rfl⟩ := hc
      simp [hold]
    · simp [hc]

theorem rules_declare {name : String} (hnew : d.termTypes.has name = false)
    (termType constructor : String) :
    ({ d with termTypes := d.termTypes.put name [] } : Draft).rules termType constructor =
      d.rules termType constructor := by
  have hnone : d.termTypes.get? name = none := by simpa [Table.has] using hnew
  unfold rules constructor? constructors?
  rw [Table.get?_put]
  by_cases h : name = termType
  · subst h
    simp [hnone]
  · simp [h]

theorem rules_addRule {constructor termType : String} {r : SemanticRule}
    (h : d.addRule constructor termType r = .ok d') (termType' name : String) :
    d'.rules termType' name = d.rules termType' name ++
      (ruleOf? termType' name (.hornClause constructor termType r)).toList := by
  obtain ⟨constructors, c, ht, hc, rfl⟩ := addRule_eq_ok.mp h
  rw [rules_putConstructor, ruleOf?]
  by_cases heq : termType = termType' ∧ constructor = name
  · obtain ⟨rfl, rfl⟩ := heq
    simp [rules, constructor?, ht, hc]
  · simp [heq]

theorem rules_consume {e : Event} (h : (d.consume e).2 = none) (termType name : String) :
    (d.consume e).1.rules termType name =
      d.rules termType name ++ (ruleOf? termType name e).toList := by
  cases e with
  | declareTermType x =>
    by_cases hd : d.termTypes.has x = true
    · simp [consume, hd] at h
    · rw [consume, if_neg hd]
      simp [rules_declare (Bool.eq_false_iff.mpr hd), ruleOf?]
  | defineTermType x cs =>
    by_cases hd : d.termTypes.has x = true
    · rw [consume, if_pos hd] at h ⊢
      simp [rules_addConstructors h, ruleOf?]
    · simp [consume, hd] at h
  | hornClause constructor x r =>
    cases hr : d.addRule constructor x r with
    | ok d' =>
      have hd : d.consume (.hornClause constructor x r) = (d', none) := by simp [consume, hr]
      rw [hd]
      exact rules_addRule hr termType name
    | error err => simp [consume, hr] at h
  | synthFun f =>
    cases hs : d.synthFun with
    | none =>
      have hd : d.consume (.synthFun f) = ({ d with synthFun := some f }, none) := by
        simp [consume, hs]
      rw [hd]
      simp [rules, constructor?, constructors?, ruleOf?]
    | some g => simp [consume, hs] at h
  | _ => simp [consume, rules, constructor?, constructors?, ruleOf?]

/-! ## Runs -/

/-- The draft holds all that the events say. -/
structure Collects (d : Draft) (es : List Event) : Prop where
  rules : ∀ termType constructor, d.rules termType constructor = rulesOf es termType constructor
  constraints : d.constraints = es.filterMap constraintOf?
  metadata : d.metadata.Records (es.filterMap infoOf?)
  functions : d.functions.Records (es.filterMap functionOf?)
  datatypes : d.datatypes.Records (es.filterMap datatypeOf?)

theorem collects_nil : ({} : Draft).Collects [] where
  rules _ _ := rfl
  constraints := rfl
  metadata := Table.records_nil
  functions := Table.records_nil
  datatypes := Table.records_nil

theorem records_step {α : Type} {t : Table α} {f : Event → Option (String × α)} {e : Event}
    (h : t.Records (es.filterMap f)) :
    ((f e).elim t fun w => t.put w.1 w.2).Records ((es ++ [e]).filterMap f) := by
  rw [List.filterMap_append]
  cases hf : f e with
  | none => simpa [hf] using h
  | some w =>
    have hw : [e].filterMap f = [(w.1, w.2)] := by simp [hf]
    rw [hw]
    exact h.put w.1 w.2

theorem Collects.consume (h : d.Collects es) (e : Event) (ha : (d.consume e).2 = none) :
    (d.consume e).1.Collects (es ++ [e]) := by
  obtain ⟨hconstraints, hmetadata, hfunctions, hdatatypes⟩ := d.consume_content e
  refine ⟨fun termType constructor => ?_, ?_, ?_, ?_, ?_⟩
  · rw [rules_consume ha, h.rules, rulesOf, rulesOf, List.filterMap_append]
    cases hr : ruleOf? termType constructor e <;> simp [hr]
  · rw [hconstraints, h.constraints, List.filterMap_append]
    cases hc : constraintOf? e <;> simp [hc]
  · rw [hmetadata]
    exact records_step h.metadata
  · rw [hfunctions]
    exact records_step h.functions
  · rw [hdatatypes]
    exact records_step h.datatypes

theorem Collects.consumeAll {before : List Event} (h : d.Collects before)
    (hd : (d.consumeAll es).outcome = .ok d') : d'.Collects (before ++ es) :=
  consumeAll_preserves (fun _ _ h e => h.consume e) h hd

/-! ## Finishing -/

theorem production_eq_ok {grammar : List NonterminalDecl} {n : NonterminalDecl} {q : ProductionDecl}
    {r : Production} (h : d.production grammar n q = .ok r) :
    r = ⟨q.operator, q.occurrences, d.rules n.termType q.operator⟩ ∧
      ∀ x ∈ q.occurrences, ∃ m, grammar.find? (·.name = x) = some m := by
  unfold production at h
  cases hc : ((d.constructors? n.termType).getD []).get? q.operator with
  | none => simp [hc] at h
  | some c =>
    have hrules : d.rules n.termType q.operator = c.rules := by
      unfold rules constructor?
      cases ht : d.constructors? n.termType with
      | none => simp [ht] at hc
      | some constructors =>
        have : constructors.get? q.operator = some c := by simpa [ht] using hc
        simp [this]
    rw [hc] at h
    obtain ⟨types, htypes, h⟩ := bind_eq_ok.mp h
    refine ⟨?_, fun x hx => ?_⟩
    · split at h
      · rw [hrules]
        exact (Except.ok.inj h).symm
      · cases h
    · obtain ⟨i, hi⟩ := List.mem_iff_getElem?.mp hx
      obtain ⟨type, -, htype⟩ := get_of_forall₂ (mapM_eq_ok.mp htypes) hi
      have hfound := childType_eq_ok.mp htype
      exact ⟨_, (Option.map_eq_some_iff.mp hfound).choose_spec.1⟩

end Draft

/-- The nonterminal with the rules that the stream has for its operators. -/
def NonterminalDecl.resolved (es : List Event) (n : NonterminalDecl) : Nonterminal where
  name := n.name
  termType := n.termType
  productions := n.productions.map fun q =>
    ⟨q.operator, q.occurrences, rulesOf es n.termType q.operator⟩

theorem NonterminalDecl.find?_resolved (es : List Event) (grammar : List NonterminalDecl)
    (name : String) : (grammar.map (·.resolved es)).find? (·.name = name) =
      (grammar.find? (·.name = name)).map (·.resolved es) := by
  rw [List.find?_map]
  rfl

namespace Draft

variable {d : Draft} {es : List Event} {grammar : List NonterminalDecl}

theorem Collects.nonterminal (h : d.Collects es) {n : NonterminalDecl} {m : Nonterminal}
    (hm : d.nonterminal grammar n = .ok m) : m = n.resolved es := by
  obtain ⟨ps, hps, rfl⟩ := nonterminal_eq_ok.mp hm
  have hall := mapM_eq_ok.mp hps
  have heq : ps = n.productions.map fun q =>
      ⟨q.operator, q.occurrences, rulesOf es n.termType q.operator⟩ := by
    rw [← List.forall₂_eq_eq_eq, List.forall₂_map_right_iff]
    refine hall.flip.imp fun r q hr => ?_
    rw [(production_eq_ok hr).1, h.rules]
  rw [heq]
  rfl

theorem Collects.nonterminals (h : d.Collects es) {ns : List Nonterminal}
    (hns : grammar.mapM (d.nonterminal grammar) = .ok ns) : ns = grammar.map (·.resolved es) := by
  rw [← List.forall₂_eq_eq_eq, List.forall₂_map_right_iff]
  exact (mapM_eq_ok.mp hns).flip.imp fun m n hm => h.nonterminal hm

theorem children_of_nonterminals {ns : List Nonterminal}
    (hns : grammar.mapM (d.nonterminal grammar) = .ok ns) {n : NonterminalDecl} (hn : n ∈ grammar)
    {q : ProductionDecl} (hq : q ∈ n.productions) {x : String} (hx : x ∈ q.occurrences) :
    ∃ m, grammar.find? (·.name = x) = some m := by
  obtain ⟨r, hr⟩ := nonterminals_ok_iff.mp ⟨ns, hns⟩ n hn q hq
  exact (production_eq_ok hr).2 x hx

end Draft

/-! ## Problems -/

/-- The problem is what the stream says about the function. -/
structure Problem.ReadOff (p : Problem) (es : List Event) (f : SynthFun) : Prop where
  name : p.targetName = f.name
  nonterminals : p.nonterminals = f.grammar.map (·.resolved es)
  target : p.nonterminals.find? (·.termType = f.termType) = some p.target
  children : ∀ n ∈ f.grammar, ∀ q ∈ n.productions, ∀ x ∈ q.occurrences,
    ∃ m ∈ f.grammar, m.name = x ∧ p.nonterminal? x = some (m.resolved es)
  constraints : p.constraints = es.filterMap constraintOf?
  metadata : p.metadata.Records (es.filterMap infoOf?)
  functions : p.functions.Records (es.filterMap functionOf?)
  datatypes : p.datatypes.Records (es.filterMap datatypeOf?)

theorem Draft.Collects.finish {d : Draft} {es : List Event} {p : Problem} (h : d.Collects es)
    (hp : d.finish = .ok p) : ∃ f, d.synthFun = some f ∧ p.ReadOff es f := by
  obtain ⟨f, ns, hf, -, hns, htarget, heq⟩ := Draft.finish_eq_ok.mp hp
  have hresolved := h.nonterminals hns
  refine ⟨f, hf, ?_⟩
  rw [heq]
  refine ⟨rfl, hresolved, htarget, fun n hn q hq x hx => ?_, h.constraints, h.metadata, h.functions,
    h.datatypes⟩
  obtain ⟨m, hm⟩ := Draft.children_of_nonterminals hns hn hq hx
  have hname : m.name = x := by simpa using List.find?_some hm
  refine ⟨m, List.mem_of_find?_eq_some hm, hname, ?_⟩
  change ns.find? (·.name = x) = _
  rw [hresolved, NonterminalDecl.find?_resolved, hm]
  rfl

/-- A problem says what its stream says. -/
theorem Problem.readOff_of_ofEvents {es : List Event} {p : Problem}
    (h : (Problem.ofEvents es).outcome = .ok p) : ∃ f, synthFuns es = [f] ∧ p.ReadOff es f := by
  obtain ⟨d, hd, h⟩ := outcome_bind_eq_ok.mp h
  obtain ⟨p', hfinish, h⟩ := outcome_bind_eq_ok.mp h
  obtain ⟨-, -, h⟩ := outcome_bind_eq_ok.mp h
  cases h
  obtain ⟨f, hf, hread⟩ := (Draft.collects_nil.consumeAll hd).finish hfinish
  refine ⟨f, ?_, hread⟩
  have hsynth := (Draft.reads_nil.consumeAll hd).synthesized
  simpa [hf] using hsynth.symm

/-! ## Rules on both sides of a function -/

namespace Scattered

def rule (name : String) : SemanticRule :=
  ⟨[], ⟨name, []⟩, [], .app ⟨"true", []⟩ ⟨"Bool", []⟩ [], []⟩

def nonterminal (name termType : String) : NonterminalDecl := ⟨name, termType, [⟨"$0", []⟩]⟩

/-- Two term types share the name of a constructor and two nonterminals share a term type. -/
def stream : List Event := [
  .declareTermType "E", .declareTermType "B",
  .defineTermType "E" [⟨"$0", []⟩], .defineTermType "B" [⟨"$0", []⟩],
  .setInfo "status" (.string "draft"), .setInfo "level" (.int 1),
  .hornClause "$0" "E" (rule "zero"),
  .synthFun ⟨"f", "E", [nonterminal "Guard" "B", nonterminal "Start" "E", nonterminal "Other" "E"]⟩,
  .hornClause "$0" "B" (rule "never"), .hornClause "$0" "E" (rule "nothing"),
  .setInfo "status" (.string "final")]

theorem stream_readOff : ∃ p, (Problem.ofEvents stream).outcome = .ok p ∧
    ∃ f, synthFuns stream = [f] ∧ p.ReadOff stream f := by
  obtain ⟨p, hp⟩ : ∃ p, (Problem.ofEvents stream).outcome = .ok p := ⟨_, rfl⟩
  exact ⟨p, hp, Problem.readOff_of_ofEvents hp⟩

end Scattered

end Realizability
