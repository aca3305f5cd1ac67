import Realizability.Proofs.Format.GrammarRoundTrip
import Realizability.Proofs.Format.TermRoundTrip

/-!
# Reading what was written

Well-formed events are read back from what is written for them, and what is read from any value at
all is well-formed.
-/

namespace Realizability

/-! ## Functions and constructors -/

section
variable {o : Members}

theorem functionHead_eq {name : String} {sort : Identifier} {sorts : List Identifier}
    (hname : Table.get? "name" o = some (.string name))
    (hrank : Table.get? "rank" o = some (rankJson sort sorts)) :
    functionHead o = .ok (name, sort, sorts) := by
  simp only [functionHead, bind_eq_ok, within_eq_ok]
  exact ⟨_, Members.stringField_eq_ok.mpr hname, _, Members.objectField_eq_ok.mpr hrank,
    _, identifierField_toJson rfl, _, identifiersField_toJson rfl, rfl⟩

theorem definitionOf_members (args : List TypedVar) {body : Term} (h : body.WellFormed) :
    definitionOf (args.map TypedVar.sort) (definitionMembers (args.map TypedVar.name) body) =
      .ok (args, body) := by
  rw [definitionOf, bind_eq_ok]
  refine ⟨_, Members.stringsField_eq_ok.mpr rfl, ?_⟩
  rw [if_pos (by simp), bind_eq_ok]
  refine ⟨_, termMember_eq_ok.mpr ⟨_, rfl, body.ofJson_toJson h⟩, ?_⟩
  rw [typedVars_map]
  rfl

theorem wellFormed_of_definitionOf {sorts : List Identifier} {args : List TypedVar} {body : Term}
    (h : definitionOf sorts o = .ok (args, body)) : body.WellFormed := by
  rw [definitionOf, bind_eq_ok] at h
  obtain ⟨names, -, h⟩ := h
  by_cases hlength : names.length = sorts.length
  · rw [if_pos hlength, bind_eq_ok] at h
    obtain ⟨t, ht, h⟩ := h
    obtain ⟨v, -, hv⟩ := termMember_eq_ok.mp ht
    cases h
    exact Term.wellFormed_of_ofJson v body hv
  · simp [hlength, Read.fault] at h

theorem constructorsField_eq {α : Type} {f : Members → Read α} {g : α → Members} {cs : List α}
    (h : Table.get? "constructors" o = some (.array ((cs.map g).map .object)))
    (hf : ∀ c ∈ cs, f (g c) = .ok c) : constructorsField f o = .ok cs := by
  simp only [constructorsField, bind_eq_ok, within_eq_ok]
  exact ⟨_, Members.objectsField_eq_ok.mpr h, readEach_map hf⟩

theorem datatypeConstructorOf_members (c : DatatypeConstructor) :
    datatypeConstructorOf c.members = .ok c := by
  simp only [datatypeConstructorOf, bind_eq_ok]
  exact ⟨_, Members.stringField_eq_ok.mpr rfl, _, identifiersField_toJson rfl, rfl⟩

theorem constructorOf_members (c : ConstructorDecl) : constructorOf c.members = .ok c := by
  simp only [constructorOf, bind_eq_ok]
  exact ⟨_, Members.stringField_eq_ok.mpr rfl, _, Members.stringsField_eq_ok.mpr rfl, rfl⟩

/-! ## Horn clauses -/

theorem clauseConstructorOf_members (name : String) (children : List TypedVar)
    (termType : String) :
    clauseConstructorOf (clauseConstructorMembers name children termType) =
      .ok (name, children, termType) := by
  simp only [clauseConstructorOf, bind_eq_ok, within_eq_ok, sameLength_eq_ok]
  refine ⟨_, Members.stringField_eq_ok.mpr rfl, _, Members.stringField_eq_ok.mpr rfl,
    _, Members.stringsField_eq_ok.mpr rfl, _, Members.arrayField_eq_ok.mpr rfl, (), by simp,
    _, readEach_identifiers _, ?_⟩
  rw [typedVars_map]
  rfl

theorem distinctFrom_eq_ok {seen : List String} {i : Nat} {xs : List String} {u : Unit} :
    distinctFrom seen i xs = .ok u ↔ xs.Nodup ∧ ∀ x ∈ xs, x ∉ seen := by
  induction xs generalizing seen i with
  | nil => simp [distinctFrom]
  | cons x xs ih =>
    by_cases hx : x ∈ seen
    · simp [distinctFrom, hx, Read.fault]
    · rw [distinctFrom, if_neg hx, ih]
      grind

theorem knownFrom_eq_ok {known : List String} {usage : Usage} {i : Nat} {xs : List String}
    {u : Unit} : knownFrom known usage i xs = .ok u ↔ ∀ x ∈ xs, x ∈ known := by
  induction xs generalizing i with
  | nil => simp [knownFrom]
  | cons x xs ih => by_cases hx : x ∈ known <;> simp [knownFrom, hx, ih, Read.fault]

theorem usedVariables_eq {known names : List String} {usage : Usage} {key : String}
    (h : Table.get? key o = some (Json.ofStrings names)) (hknown : ∀ x ∈ names, x ∈ known) :
    usedVariables known usage key o = .ok names := by
  have hnames : o.stringsField? key = .ok (some names) := by
    simp only [Members.stringsField?, h, Json.ofStrings, bind_eq_ok]
    exact ⟨_, Members.stringsField_eq_ok.mpr h, rfl⟩
  have hused : knownFrom known usage 0 names = .ok () := knownFrom_eq_ok.mpr hknown
  simp [usedVariables, hnames, hused, bind, Except.bind, pure, Except.pure]

theorem mem_usedNames {used : ClauseVar → Bool} {vars : List ClauseVar}
    (h : (vars.map ClauseVar.name).Nodup) {x : ClauseVar} (hx : x ∈ vars) :
    x.name ∈ usedNames used vars ↔ used x = true := by
  simp only [usedNames, List.mem_map, List.mem_filter]
  constructor
  · intro hy
    obtain ⟨y, ⟨hy, hused⟩, hname⟩ := hy
    obtain rfl : y = x := List.inj_on_of_nodup_map h hy hx hname
    exact hused
  · exact fun hused => ⟨x, ⟨hx, hused⟩, rfl⟩

theorem usedNames_subset (used : ClauseVar → Bool) (vars : List ClauseVar) :
    ∀ x ∈ usedNames used vars, x ∈ vars.map ClauseVar.name := by
  intro x hx
  simp only [usedNames, List.mem_map, List.mem_filter] at hx ⊢
  obtain ⟨y, ⟨hy, -⟩, rfl⟩ := hx
  exact ⟨y, hy, rfl⟩

theorem clauseVariables_eq {vars : List ClauseVar}
    (hnames : Table.get? "variables" o = some (Json.ofStrings (vars.map ClauseVar.name)))
    (hinput : Table.get? "inputVariables" o =
      some (Json.ofStrings (usedNames ClauseVar.input vars)))
    (houtput : Table.get? "outputVariables" o =
      some (Json.ofStrings (usedNames ClauseVar.output vars)))
    (h : (vars.map ClauseVar.name).Nodup) : clauseVariables o = .ok vars := by
  have hflags : ∀ x ∈ vars, (⟨x.name, (usedNames ClauseVar.input vars).contains x.name,
      (usedNames ClauseVar.output vars).contains x.name⟩ : ClauseVar) = x := by
    intro x hx
    have hin : (usedNames ClauseVar.input vars).contains x.name = x.input := by
      rw [Bool.eq_iff_iff, List.contains_iff_mem, mem_usedNames h hx]
    have hout : (usedNames ClauseVar.output vars).contains x.name = x.output := by
      rw [Bool.eq_iff_iff, List.contains_iff_mem, mem_usedNames h hx]
    rw [hin, hout]
  simp only [clauseVariables, bind_eq_ok, within_eq_ok]
  refine ⟨_, Members.stringsField_eq_ok.mpr hnames, (), distinctFrom_eq_ok.mpr ⟨h, by simp⟩,
    _, usedVariables_eq hinput (usedNames_subset _ _),
    _, usedVariables_eq houtput (usedNames_subset _ _), ?_⟩
  rw [List.map_map, List.map_congr_left (g := id) (by simpa using hflags), List.map_id]
  rfl

theorem nodup_of_clauseVariables {vars : List ClauseVar} (h : clauseVariables o = .ok vars) :
    (vars.map ClauseVar.name).Nodup := by
  simp only [clauseVariables, bind_eq_ok, within_eq_ok, distinctFrom_eq_ok] at h
  obtain ⟨names, -, -, hnodup, inputs, -, outputs, -, h⟩ := h
  cases h
  simpa [Function.comp_def] using hnodup.1

end

/-! ## Events -/

namespace Event

theorem hornClauseOf_members {name termType : String} {rule : SemanticRule}
    (h : rule.constraint.WellFormed) (hvars : (rule.vars.map ClauseVar.name).Nodup) :
    hornClauseOf (hornClause name termType rule).members = .ok (hornClause name termType rule) := by
  simp only [hornClauseOf, bind_eq_ok, within_eq_ok]
  exact ⟨_, Members.objectField_eq_ok.mpr rfl, _, clauseConstructorOf_members _ _ _,
    _, Members.objectField_eq_ok.mpr rfl, _, Relation.ofMembers_members _,
    _, Members.objectsField_eq_ok.mpr rfl, _, readEach_map fun r _ => Relation.ofMembers_members r,
    _, termMember_eq_ok.mpr ⟨_, rfl, Term.ofJson_toJson h⟩,
    _, clauseVariables_eq rfl rfl rfl hvars, rfl⟩

theorem ofMembers_members {e : Event} (h : e.WellFormed) : ofMembers e.members = .ok e := by
  rw [ofMembers, bind_eq_ok]
  refine ⟨e.kindName, Members.stringField_eq_ok.mpr rfl, ?_⟩
  cases e with
  | setInfo keyword value =>
    simp only [kindName, bind_eq_ok, within_eq_ok]
    exact ⟨_, Members.stringField_eq_ok.mpr rfl, _, value.ofJson_toJson, rfl⟩
  | declareFunction name sort sorts =>
    simp only [kindName, bind_eq_ok]
    exact ⟨_, functionHead_eq rfl rfl, rfl⟩
  | defineFunction name sort args body =>
    simp only [kindName, bind_eq_ok, within_eq_ok]
    exact ⟨_, functionHead_eq rfl rfl, _, Members.objectField_eq_ok.mpr rfl,
      _, definitionOf_members args h, rfl⟩
  | declareDatatype name =>
    simp only [kindName, bind_eq_ok]
    exact ⟨_, Members.stringField_eq_ok.mpr rfl, rfl⟩
  | defineDatatype name constructors =>
    simp only [kindName, bind_eq_ok]
    exact ⟨_, Members.stringField_eq_ok.mpr rfl,
      _, constructorsField_eq rfl fun c _ => datatypeConstructorOf_members c, rfl⟩
  | declareTermType name =>
    simp only [kindName, bind_eq_ok]
    exact ⟨_, Members.stringField_eq_ok.mpr rfl, rfl⟩
  | defineTermType name constructors =>
    simp only [kindName, bind_eq_ok]
    exact ⟨_, Members.stringField_eq_ok.mpr rfl,
      _, constructorsField_eq rfl fun c _ => constructorOf_members c, rfl⟩
  | hornClause name termType rule => exact hornClauseOf_members h.1 h.2
  | constraint term =>
    simp only [kindName, bind_eq_ok]
    exact ⟨_, termMember_eq_ok.mpr ⟨_, rfl, term.ofJson_toJson h⟩, rfl⟩
  | synthFun f =>
    simp only [kindName, synthFunOf, bind_eq_ok, within_eq_ok]
    exact ⟨_, ⟨_, Members.stringField_eq_ok.mpr rfl, _, Members.stringField_eq_ok.mpr rfl,
      _, Members.objectField_eq_ok.mpr rfl, _, grammarOf_members h, rfl⟩, rfl⟩
  | checkSynth => rfl
  | endOfStream => rfl

theorem wellFormed_of_hornClauseOf {o : Members} {e : Event} (h : hornClauseOf o = .ok e) :
    e.WellFormed := by
  simp only [hornClauseOf, bind_eq_ok, within_eq_ok, termMember_eq_ok] at h
  obtain ⟨-, -, about, -, -, -, head, -, -, -, body, -, constraint, ⟨v, -, hv⟩, vars, hvars, h⟩ := h
  cases h
  exact ⟨Term.wellFormed_of_ofJson v _ hv, nodup_of_clauseVariables hvars⟩

theorem wellFormed_of_ofMembers {o : Members} {e : Event} (h : ofMembers o = .ok e) :
    e.WellFormed := by
  rw [ofMembers, bind_eq_ok] at h
  obtain ⟨kind, -, h⟩ := h
  split at h
  case h_3 =>
    simp only [bind_eq_ok, within_eq_ok] at h
    obtain ⟨head, -, definition, -, ⟨args, body⟩, hbody, h⟩ := h
    cases h
    exact wellFormed_of_definitionOf hbody
  case h_8 => exact wellFormed_of_hornClauseOf h
  case h_9 =>
    simp only [bind_eq_ok, termMember_eq_ok] at h
    obtain ⟨t, ⟨v, -, hv⟩, h⟩ := h
    cases h
    exact Term.wellFormed_of_ofJson v t hv
  case h_10 =>
    simp only [synthFunOf, bind_eq_ok, within_eq_ok] at h
    obtain ⟨f, ⟨name, -, termType, -, o, -, grammar, hgrammar, hf⟩, h⟩ := h
    cases hf
    cases h
    exact wellFormed_of_grammarOf hgrammar
  -- Events of the other kinds hold no terms, clauses or grammars.
  all_goals
    simp only [bind_eq_ok, pure, Except.pure, Read.fault] at h
    grind [WellFormed]

theorem listOfJson_eq_ok {v : Json} {es : List Event} : listOfJson v = .ok es ↔
    ∃ os : List Members, v = .array (os.map .object) ∧ readEach ofMembers os = .ok es := by
  have hobjects : ∀ {items os}, readEach Json.asObject items = .ok os ↔
      items = os.map Json.object := readEach_eq_map fun _ _ => Json.asObject_eq_ok
  cases v with
  | array items => simp [listOfJson, bind_eq_ok, hobjects]
  | _ => simp [listOfJson, Read.fault]

/-- Well-formed events are read back from what is written for them, and nothing else than
well-formed events is ever read. -/
theorem listOfJson_roundTrip :
    (∀ es : List Event, (∀ e ∈ es, e.WellFormed) → listOfJson (listToJson es) = .ok es) ∧
    ∀ (v : Json) (es : List Event), listOfJson v = .ok es → ∀ e ∈ es, e.WellFormed := by
  constructor
  · intro es h
    rw [listOfJson_eq_ok]
    refine ⟨es.map members, by simp [listToJson, toJson, Function.comp_def], ?_⟩
    exact readEach_map fun e he => ofMembers_members (h e he)
  · intro v es h e he
    obtain ⟨os, -, hread⟩ := listOfJson_eq_ok.mp h
    obtain ⟨o, -, ho⟩ := exists_of_forall₂ (readEach_eq_ok.mp hread) he
    exact wellFormed_of_ofMembers ho

end Event

/-! ## Masks of words -/

namespace Masks

def word : Identifier := ⟨"BitVec", [.number 8]⟩

def equation (x : String) (t : Term) : Term :=
  .app ⟨"=", []⟩ ⟨"Bool", []⟩ [(word, .var x word), (word, t)]

/-- The result of a mask is the lower half of the result of its child. -/
def masked : SemanticRule where
  children := [⟨"t1", ⟨"E", []⟩⟩]
  head := ⟨"E.Sem", [⟨"t", ⟨"E", []⟩⟩, ⟨"x", word⟩, ⟨"r", word⟩]⟩
  body := [⟨"E.Sem", [⟨"t1", ⟨"E", []⟩⟩, ⟨"x", word⟩, ⟨"r1", word⟩]⟩]
  constraint := .quantified .existential [⟨"half", word⟩] <| .app ⟨"and", []⟩ ⟨"Bool", []⟩
    [(⟨"Bool", []⟩, equation "half" (.bits 8 15)),
      (⟨"Bool", []⟩, equation "r" (.app ⟨"bvand", []⟩ word [(word, .var "r1" word),
        (word, .var "half" word)]))]
  vars := [⟨"t1", false, false⟩, ⟨"x", true, false⟩, ⟨"r", false, true⟩, ⟨"r1", false, false⟩]

def stream : List Event := [
  .setInfo "sources" (.list [.string "masks", .keyword "draft", .int 1]),
  .declareTermType "E", .defineTermType "E" [⟨"$x", []⟩, ⟨"$mask", ["E"]⟩],
  .hornClause "$mask" "E" masked,
  .synthFun ⟨"f", "E", [⟨"Start", "E", [⟨"$x", []⟩, ⟨"$mask", ["Other"]⟩]⟩,
    ⟨"Other", "E", [⟨"$x", []⟩]⟩]⟩,
  .checkSynth]

theorem masked_wellFormed : masked.constraint.WellFormed := by
  have hequation : ∀ {x t}, t.WellFormed → (equation x t).WellFormed := by
    intro x t h
    refine .app fun a ha => ?_
    simp only [List.mem_cons, List.not_mem_nil, or_false] at ha
    rcases ha with rfl | rfl
    · exact .var _ _
    · exact h
  refine .quantified _ _ (.app fun a ha => ?_)
  simp only [List.mem_cons, List.not_mem_nil, or_false] at ha
  rcases ha with rfl | rfl
  · exact hequation (.bits _ (by omega))
  · refine hequation (.app fun a ha => ?_)
    simp only [List.mem_cons, List.not_mem_nil, or_false] at ha
    rcases ha with rfl | rfl <;> exact .var _ _

theorem wellFormed_stream : ∀ e ∈ stream, e.WellFormed := by
  have hgrammar : GrammarWellFormed [⟨"Start", "E", [⟨"$x", []⟩, ⟨"$mask", ["Other"]⟩]⟩,
      ⟨"Other", "E", [⟨"$x", []⟩]⟩] := ⟨by decide, by decide, by decide⟩
  have hclause : (masked.vars.map ClauseVar.name).Nodup := by decide
  simp [stream, Event.WellFormed, hgrammar, hclause, masked_wellFormed]

theorem stream_roundTrip : Event.listOfJson (Event.listToJson stream) = .ok stream ∧
    ∀ e ∈ stream, e.WellFormed := by
  have hread := Event.listOfJson_roundTrip.1 stream wellFormed_stream
  exact ⟨hread, Event.listOfJson_roundTrip.2 _ stream hread⟩

end Masks

end Realizability
