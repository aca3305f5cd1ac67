import Realizability.Proofs.Format.Agreement

/-!
# Events of values that agree on the fields of the format

The readers of events ask objects for the fields of the format and for nothing else. So values that
agree on these fields are read as the same events and terms, or refused for the same fault at the
same place (`Json.AgreeOnFields.listOfJson_eq`).
-/

namespace Realizability

open SameRead

/-! ## Parts of events -/

section
variable {o o' : Members} (h : o.AgreeOnFields o')
include h

theorem termField_agree {key : String} (hkey : key ∈ formatFields) :
    termMember key o = termMember key o' :=
  termMember_agree h hkey fun _ _ _ => Term.ofJson_agree

theorem functionHead_agree : functionHead o = functionHead o' := by
  refine bind_same (h.stringField (by decide)) fun name => ?_
  refine (h.objectField (by decide)).bind_eq fun rank rank' hrank => within_same ?_
  exact bind_same (identifierField_agree hrank (by decide)) fun _ =>
    bind_same (identifiersField_agree hrank (by decide)) fun _ => rfl

theorem definitionOf_agree (sorts : List Identifier) : definitionOf sorts o = definitionOf sorts o' := by
  refine bind_same (h.stringsField (by decide)) fun names => ?_
  rw [termField_agree h (by decide)]

theorem datatypeConstructorOf_agree : datatypeConstructorOf o = datatypeConstructorOf o' :=
  bind_same (h.stringField (by decide)) fun _ =>
    bind_same (identifiersField_agree h (by decide)) fun _ => rfl

theorem constructorOf_agree : constructorOf o = constructorOf o' :=
  bind_same (h.stringField (by decide)) fun _ =>
    bind_same (h.stringsField (by decide)) fun _ => rfl

theorem constructorsField_agree {α : Type} {f : Members → Read α}
    (hf : ∀ o o', o.AgreeOnFields o' → f o = f o') : constructorsField f o = constructorsField f o' :=
  (h.objectsField (by decide)).bind_eq fun _ _ hos =>
    within_same (readFrom_agree hos fun o o' _ => hf o o')

theorem clauseConstructorOf_agree : clauseConstructorOf o = clauseConstructorOf o' := by
  refine bind_same (h.stringField (by decide)) fun name => ?_
  refine bind_same (h.stringField (by decide)) fun termType => ?_
  refine bind_same (h.stringsField (by decide)) fun names => ?_
  refine (h.arrayField (by decide)).bind_eq fun vs ws hvs => ?_
  refine bind_same (sameLength_agree hvs.length_eq rfl) fun _ => ?_
  refine bind_same (within_same (readFrom_agree hvs fun _ _ _ => ?_)) fun _ => rfl
  exact Identifier.ofJson_agree

theorem usedVariables_agree {known : List String} {usage : Usage} {key : String}
    (hkey : key ∈ formatFields) :
    usedVariables known usage key o = usedVariables known usage key o' :=
  bind_same (h.stringsField? hkey) fun _ => rfl

theorem clauseVariables_agree : clauseVariables o = clauseVariables o' := by
  refine bind_same (h.stringsField (by decide)) fun names => bind_same rfl fun _ => ?_
  exact bind_same (usedVariables_agree h (by decide)) fun _ =>
    bind_same (usedVariables_agree h (by decide)) fun _ => rfl

theorem hornClauseOf_agree : hornClauseOf o = hornClauseOf o' := by
  refine (h.objectField (by decide)).bind_eq fun c c' hc => ?_
  refine bind_same (within_same (clauseConstructorOf_agree hc)) fun _ => ?_
  refine (h.objectField (by decide)).bind_eq fun r r' hr => ?_
  refine bind_same (within_same (Relation.ofMembers_agree hr)) fun head => ?_
  refine (h.objectsField (by decide)).bind_eq fun bs bs' hbs => ?_
  refine bind_same (within_same (readFrom_agree hbs fun _ _ _ => Relation.ofMembers_agree)) fun _ => ?_
  refine bind_same (termField_agree h (by decide)) fun _ => ?_
  exact bind_same (clauseVariables_agree h) fun _ => rfl

/-! ## Grammars -/

theorem nonterminalOf_agree (declared : List String) :
    nonterminalOf declared o = nonterminalOf declared o' := by
  refine bind_same (h.stringField (by decide)) fun name => ?_
  rw [h.stringField (by decide)]

theorem productionOf_agree (declared : List String) (seen : List (String × String)) :
    productionOf declared seen o = productionOf declared seen o' :=
  bind_same (h.stringField (by decide)) fun _ =>
    bind_same (h.stringField (by decide)) fun _ =>
      bind_same (h.stringsField (by decide)) fun _ => rfl

end

theorem nonterminalsFrom_agree {declared : List String} {i : Nat} {os os' : List Members}
    (h : List.Forall₂ Members.AgreeOnFields os os') :
    nonterminalsFrom declared i os = nonterminalsFrom declared i os' := by
  induction h generalizing declared i with
  | nil => rfl
  | cons ho _ ih =>
    exact bind_same (within_same (nonterminalOf_agree ho declared)) fun _ => bind_same ih fun _ => rfl

theorem productionsFrom_agree {declared : List String} {seen : List (String × String)} {i : Nat}
    {os os' : List Members} (h : List.Forall₂ Members.AgreeOnFields os os') :
    productionsFrom declared seen i os = productionsFrom declared seen i os' := by
  induction h generalizing seen i with
  | nil => rfl
  | cons ho _ ih =>
    exact bind_same (within_same (productionOf_agree ho declared seen)) fun _ =>
      bind_same ih fun _ => rfl

section
variable {o o' : Members} (h : o.AgreeOnFields o')
include h

theorem grammarOf_agree : grammarOf o = grammarOf o' := by
  refine (h.objectsField (by decide)).bind_eq fun os os' hos => ?_
  refine (h.objectsField (by decide)).bind_eq fun ps ps' hps => ?_
  refine bind_same (within_same (nonterminalsFrom_agree hos)) fun heads => ?_
  exact bind_same (within_same (productionsFrom_agree hps)) fun _ => rfl

theorem synthFunOf_agree : synthFunOf o = synthFunOf o' := by
  refine bind_same (h.stringField (by decide)) fun _ => bind_same (h.stringField (by decide)) fun _ => ?_
  refine (h.objectField (by decide)).bind_eq fun g g' hg => ?_
  exact bind_same (within_same (grammarOf_agree hg)) fun _ => rfl

/-! ## Lists of events and terms -/

theorem Event.ofMembers_agree : ofMembers o = ofMembers o' := by
  refine bind_same (h.stringField (by decide)) fun kind => ?_
  split
  · refine bind_same (h.stringField (by decide)) fun _ => bind_same (within_same ?_) fun _ => rfl
    obtain ⟨hnone, hnone'⟩ | ⟨v, w, hv, hw, hvw⟩ := h.get? (by decide : "value" ∈ formatFields)
    · rw [hnone, hnone']
    · rw [hv, hw]
      exact InfoValue.ofJson_agree hvw
  · exact bind_same (functionHead_agree h) fun _ => rfl
  · refine bind_same (functionHead_agree h) fun head => ?_
    refine (h.objectField (by decide)).bind_eq fun d d' hd => ?_
    exact bind_same (within_same (definitionOf_agree hd _)) fun _ => rfl
  · exact bind_same (h.stringField (by decide)) fun _ => rfl
  · exact bind_same (h.stringField (by decide)) fun _ =>
      bind_same (constructorsField_agree h fun _ _ => datatypeConstructorOf_agree) fun _ => rfl
  · exact bind_same (h.stringField (by decide)) fun _ => rfl
  · exact bind_same (h.stringField (by decide)) fun _ =>
      bind_same (constructorsField_agree h fun _ _ => constructorOf_agree) fun _ => rfl
  · exact hornClauseOf_agree h
  · exact bind_same (termField_agree h (by decide)) fun _ => rfl
  · exact bind_same (synthFunOf_agree h) fun _ => rfl
  · rfl
  · rfl
  · rfl

end

/-- Values that agree on the fields of the format are read as the same events and as the same terms,
or are refused for the same fault at the same place. -/
theorem Json.AgreeOnFields.listOfJson_eq {v w : Json} (h : v.AgreeOnFields w) :
    Event.listOfJson v = Event.listOfJson w ∧ Term.listOfJson v = Term.listOfJson w := by
  cases h with
  | array hvs =>
    constructor
    · refine (SameRead.readFrom hvs fun _ _ _ hvw => hvw.asObject).bind_eq fun os os' hos => ?_
      exact readFrom_agree hos fun _ _ _ => Event.ofMembers_agree
    · rw [Term.listOfJson, Term.listOfJson, termsFrom_eq, termsFrom_eq]
      exact readFrom_agree hvs fun _ _ _ => Term.ofJson_agree
  | _ => exact ⟨rfl, rfl⟩

/-! ## An annotated stream -/

namespace Annotated

def fields : Members :=
  [("$termType", .string "variable"), ("name", .string "x"), ("sort", .string "Int")]

def term : Json := .object fields

/-- The same term, its fields in reverse order behind the line on which it stands. -/
def annotatedTerm : Json := .object (("line", .int 3) :: fields.reverse)

def stream : Json := .array [
  .object [("$event", .string "constraint"), ("constraint", term)],
  .object [("$event", .string "declare-term-type")]]

def annotatedStream : Json := .array [
  .object [("constraint", annotatedTerm), ("$event", .string "constraint")],
  .object [("title", .string "E"), ("$event", .string "declare-term-type")]]

theorem annotatedTerm_agrees : annotatedTerm.AgreeOnFields term := by
  have hreversed : Members.AgreeOnFields fields.reverse fields :=
    .of_perm (by decide) (List.reverse_perm fields)
  exact (Members.AgreeOnFields.skip (by decide) hreversed).object

theorem annotatedStream_agrees : annotatedStream.AgreeOnFields stream := by
  have hreordered : Members.AgreeOnFields
      [("constraint", annotatedTerm), ("$event", .string "constraint")]
      [("$event", .string "constraint"), ("constraint", annotatedTerm)] :=
    .of_perm (by decide) (.swap _ _ [])
  have hannotated : Members.AgreeOnFields
      [("$event", .string "constraint"), ("constraint", annotatedTerm)]
      [("$event", .string "constraint"), ("constraint", term)] :=
    .cons (.string _) (.cons annotatedTerm_agrees (.refl []))
  have htitled : Members.AgreeOnFields
      [("title", .string "E"), ("$event", .string "declare-term-type")]
      [("$event", .string "declare-term-type")] := .skip (by decide) (.refl _)
  exact .array (.cons (hreordered.trans hannotated).object (.cons htitled.object .nil))

/-- The title is no name, and its lack is reported. -/
theorem annotatedStream_eq : annotatedStream.AgreeOnFields stream ∧
    Event.listOfJson annotatedStream = .error ⟨.missingField, [.index 1, .field "name"]⟩ ∧
    (Json.array [annotatedTerm]).AgreeOnFields (.array [term]) ∧
    Term.listOfJson (.array [annotatedTerm]) = .ok [.var "x" ⟨"Int", []⟩] := by
  have hterms : (Json.array [annotatedTerm]).AgreeOnFields (.array [term]) :=
    .array (.cons annotatedTerm_agrees .nil)
  refine ⟨annotatedStream_agrees, ?_, hterms, ?_⟩
  · rw [annotatedStream_agrees.listOfJson_eq.1]
    rfl
  · rw [hterms.listOfJson_eq.2]
    rfl

end Annotated

end Realizability
