import Realizability.Proofs.Format.Offence
import Realizability.Proofs.Format.RoundTrip

/-!
# The variables of a clause

A clause lists its variables and, if it likes, those among them that are inputs and those that are
outputs. The table that is read from the three lists, and the first entry that is refused, are said
on the names alone (`Event.hornClause_variables`).
-/

namespace Realizability

/-! ## What stands in a clause -/

/-- The names in a field that may be absent or `null`. -/
def ListsNames (o : Members) (key : String) (names : List String) : Prop :=
  Table.get? key o = some (Json.ofStrings names) ∨
    names = [] ∧ (Table.get? key o = none ∨ Table.get? key o = some .null)

/-- The parts of a clause besides its variables can be read. -/
structure ClauseReads (o : Members) (name termType : String) (children : List TypedVar)
    (head : Relation) (body : List Relation) (constraint : Term) : Prop where
  kind : Table.get? "$event" o = some (.string "chc")
  constructor : ∃ c, Table.get? "constructor" o = some (.object c) ∧
    clauseConstructorOf c = .ok (name, children, termType)
  head : ∃ h, Table.get? "head" o = some (.object h) ∧ Relation.ofMembers h = .ok head
  body : ∃ bs, Table.get? "bodyRelations" o = some (.array (bs.map .object)) ∧
    List.Forall₂ (fun b r => Relation.ofMembers b = .ok r) bs body
  constraint : ∃ v, Table.get? "constraint" o = some v ∧ Term.ofJson v = .ok constraint

structure VariablesRead (o : Members) (names inputs outputs : List String) : Prop where
  names : Table.get? "variables" o = some (Json.ofStrings names)
  inputs : ListsNames o "inputVariables" inputs
  outputs : ListsNames o "outputVariables" outputs

/-- What is wrong with the variables: one that is repeated, or else an input that is none of them,
or else an output. -/
inductive VariablesOffend (names inputs outputs : List String) : FormatError → Prop
  | repeated {i : Nat} {x : String} (h : FirstRepeated names i x) :
    VariablesOffend names inputs outputs
      ⟨.duplicateVariable x, [.field "variables", .index i]⟩
  | input (hnames : names.Nodup) {i : Nat} {x : String} (h : FirstUnknown names inputs i x) :
    VariablesOffend names inputs outputs
      ⟨.unknownVariable x .input, [.field "inputVariables", .index i]⟩
  | output (hnames : names.Nodup) (hinputs : ∀ x ∈ inputs, x ∈ names) {i : Nat} {x : String}
    (h : FirstUnknown names outputs i x) :
    VariablesOffend names inputs outputs
      ⟨.unknownVariable x .output, [.field "outputVariables", .index i]⟩

/-! ## Reading the lists -/

section
variable {o : Members} {key : String} {known names inputs outputs : List String} {usage : Usage}
  {e : FormatError}

theorem stringsField?_eq (h : ListsNames o key names) :
    ∃ listed, o.stringsField? key = .ok listed ∧ listed.getD [] = names := by
  rcases h with h | ⟨rfl, h | h⟩
  · refine ⟨some names, ?_, rfl⟩
    simp only [Members.stringsField?, h, Json.ofStrings, bind_eq_ok]
    exact ⟨_, Members.stringsField_eq_ok.mpr h, rfl⟩
  · exact ⟨none, by rw [Members.stringsField?, h], rfl⟩
  · exact ⟨none, by rw [Members.stringsField?, h], rfl⟩

theorem usedVariables_of (h : ListsNames o key names) : usedVariables known usage key o = do
    within [.field key] (knownFrom known usage 0 names)
    return names := by
  obtain ⟨listed, hlisted, rfl⟩ := stringsField?_eq h
  rw [usedVariables, hlisted]
  cases listed <;> rfl

theorem usedVariables_eq_ok {xs : List String} (h : ListsNames o key names) :
    usedVariables known usage key o = .ok xs ↔ xs = names ∧ ∀ x ∈ names, x ∈ known := by
  rw [usedVariables_of h]
  simp only [bind_eq_ok, within_eq_ok, knownFrom_eq_ok]
  constructor
  · rintro ⟨-, hknown, hxs⟩
    exact ⟨(Except.ok.inj hxs).symm, hknown⟩
  · rintro ⟨rfl, hknown⟩
    exact ⟨(), hknown, rfl⟩

theorem usedVariables_eq_error (h : ListsNames o key names) :
    usedVariables known usage key o = .error e ↔ ∃ i x, FirstUnknown known names i x ∧
      e = ⟨.unknownVariable x usage, [.field key, .index i]⟩ := by
  rw [usedVariables_of h]
  simp only [bind_eq_error, within_eq_error, knownFrom_eq_error]
  constructor
  · rintro (⟨_, ⟨i, x, hx, rfl⟩, rfl⟩ | ⟨_, -, hend⟩)
    · exact ⟨i, x, hx, by simp [Located.under]⟩
    · cases hend
  · rintro ⟨i, x, hx, rfl⟩
    exact .inl ⟨_, ⟨i, x, hx, rfl⟩, by simp [Located.under]⟩

theorem clauseVariables_eq_ok {vars : List ClauseVar} (h : VariablesRead o names inputs outputs) :
    clauseVariables o = .ok vars ↔ names.Nodup ∧ (∀ x ∈ inputs, x ∈ names) ∧
      (∀ x ∈ outputs, x ∈ names) ∧
      vars = names.map fun x => ⟨x, inputs.contains x, outputs.contains x⟩ := by
  simp only [clauseVariables, bind_eq_ok, within_eq_ok, Members.stringsField_eq_ok.mpr h.names,
    Except.ok.injEq, exists_eq_left', distinctFrom_eq_ok, usedVariables_eq_ok h.inputs,
    usedVariables_eq_ok h.outputs]
  constructor
  · rintro ⟨-, ⟨hnodup, -⟩, _, ⟨rfl, hinputs⟩, _, ⟨rfl, houtputs⟩, hvars⟩
    exact ⟨hnodup, hinputs, houtputs, (Except.ok.inj hvars).symm⟩
  · rintro ⟨hnodup, hinputs, houtputs, rfl⟩
    exact ⟨(), ⟨hnodup, by simp⟩, _, ⟨rfl, hinputs⟩, _, ⟨rfl, houtputs⟩, rfl⟩

theorem clauseVariables_eq_error (h : VariablesRead o names inputs outputs) :
    clauseVariables o = .error e ↔ VariablesOffend names inputs outputs e := by
  simp only [clauseVariables, bind_eq_error, within_eq_ok, within_eq_error,
    Members.stringsField_eq_ok.mpr h.names, Except.ok.injEq, exists_eq_left', reduceCtorEq,
    false_or, distinctFrom_eq_ok, distinctFrom_eq_error, usedVariables_eq_ok h.inputs,
    usedVariables_eq_error h.inputs, usedVariables_eq_error h.outputs]
  constructor
  · rintro (⟨_, ⟨i, x, hx, rfl⟩, rfl⟩ | ⟨-, ⟨hnodup, -⟩, ⟨i, x, hx, rfl⟩ |
      ⟨_, ⟨rfl, hinputs⟩, ⟨i, x, hx, rfl⟩ | ⟨_, -, hend⟩⟩⟩)
    · exact .repeated (by simpa using hx)
    · exact .input hnodup hx
    · exact .output hnodup hinputs hx
    · cases hend
  · intro h
    cases h with
    | repeated hx => exact .inl ⟨_, ⟨_, _, hx, rfl⟩, by simp [Located.under]⟩
    | input hnodup hx => exact .inr ⟨(), ⟨hnodup, by simp⟩, .inl ⟨_, _, hx, rfl⟩⟩
    | output hnodup hinputs hx =>
      exact .inr ⟨(), ⟨hnodup, by simp⟩, .inr ⟨_, ⟨rfl, hinputs⟩, .inl ⟨_, _, hx, rfl⟩⟩⟩

/-! ## Clauses -/

variable {name termType : String} {children : List TypedVar} {head : Relation}
  {body : List Relation} {constraint : Term}

theorem ClauseReads.ofMembers (h : ClauseReads o name termType children head body constraint) :
    Event.ofMembers o = (fun vars =>
      .hornClause name termType ⟨children, head, body, constraint, vars⟩) <$> clauseVariables o := by
  obtain ⟨c, hc, hconstructor⟩ := h.constructor
  obtain ⟨r, hr, hhead⟩ := h.head
  obtain ⟨bs, hbs, hbody⟩ := h.body
  have hkind := Members.stringField_eq_ok.mpr h.kind
  have hconstraint : termMember "constraint" o = .ok constraint := termMember_eq_ok.mpr h.constraint
  have hclause : Event.ofMembers o = hornClauseOf o := by
    rw [Event.ofMembers, hkind]
    rfl
  rw [hclause, hornClauseOf, Members.objectField_eq_ok.mpr hc, Members.objectField_eq_ok.mpr hr,
    Members.objectsField_eq_ok.mpr hbs]
  simp only [hconstructor, hhead, readEach_eq_ok.mpr hbody, hconstraint, bind, Except.bind,
    within_ok]
  cases clauseVariables o <;> rfl

namespace Event

/-- A clause is accepted if and only if its variables are distinct and its inputs and outputs are
among them; the table then says of each variable in its turn whether it is listed as either, and
otherwise the first offence is reported. -/
theorem hornClause_variables (h : ClauseReads o name termType children head body constraint)
    (hvars : VariablesRead o names inputs outputs) :
    ((∃ ev, ofMembers o = .ok ev) ↔
      names.Nodup ∧ (∀ x ∈ inputs, x ∈ names) ∧ ∀ x ∈ outputs, x ∈ names) ∧
    (∀ ev, ofMembers o = .ok ev → ∃ vars,
      ev = .hornClause name termType ⟨children, head, body, constraint, vars⟩ ∧
      vars.map ClauseVar.name = names ∧ ∀ v ∈ vars,
        (v.input = true ↔ v.name ∈ inputs) ∧ (v.output = true ↔ v.name ∈ outputs)) ∧
    ∀ e, ofMembers o = .error e ↔ VariablesOffend names inputs outputs e := by
  rw [h.ofMembers]
  refine ⟨?_, fun ev hev => ?_, fun e => ?_⟩
  · simp only [map_eq_ok, clauseVariables_eq_ok hvars]
    constructor
    · rintro ⟨_, _, ⟨hnodup, hinputs, houtputs, -⟩, -⟩
      exact ⟨hnodup, hinputs, houtputs⟩
    · rintro ⟨hnodup, hinputs, houtputs⟩
      exact ⟨_, _, ⟨hnodup, hinputs, houtputs, rfl⟩, rfl⟩
  · obtain ⟨vars, hread, rfl⟩ := map_eq_ok.mp hev
    obtain ⟨-, -, -, rfl⟩ := (clauseVariables_eq_ok hvars).mp hread
    exact ⟨_, rfl, by simp [Function.comp_def], by simp⟩
  · rw [← clauseVariables_eq_error hvars]
    cases clauseVariables o <;> simp [Functor.map, Except.map]

end Event

end

/-! ## A variable that is input and output -/

namespace Rebound

def head : Relation := ⟨"E.Sem", [⟨"t", ⟨"E", []⟩⟩, ⟨"x", ⟨"Int", []⟩⟩, ⟨"r", ⟨"Int", []⟩⟩]⟩

def equation : Term := .app ⟨"=", []⟩ ⟨"Bool", []⟩
  [(⟨"Int", []⟩, .var "r" ⟨"Int", []⟩), (⟨"Int", []⟩, .var "x" ⟨"Int", []⟩)]

def clause (lists : Members) : Members := [
  ("$event", .string "chc"), ("constructor", .object (clauseConstructorMembers "$x" [] "E")),
  ("head", .object head.members), ("bodyRelations", .array []),
  ("constraint", equation.toJson)] ++ lists

theorem clause_reads (lists : Members) :
    ClauseReads (clause lists) "$x" "E" [] head [] equation where
  kind := rfl
  constructor := ⟨_, rfl, clauseConstructorOf_members _ _ _⟩
  head := ⟨_, rfl, head.ofMembers_members⟩
  body := ⟨[], rfl, .nil⟩
  constraint := by
    refine ⟨_, rfl, Term.ofJson_toJson (.app fun a ha => ?_)⟩
    simp only [List.mem_cons, List.not_mem_nil, or_false] at ha
    rcases ha with rfl | rfl <;> exact .var _ _

def overlapping : Members := [
  ("variables", Json.ofStrings ["t", "x", "r"]), ("inputVariables", Json.ofStrings ["x", "x"]),
  ("outputVariables", Json.ofStrings ["r", "x"])]

/-- The second output is not among the variables, and no inputs are listed. -/
def undeclared : Members := [
  ("variables", Json.ofStrings ["t", "x", "r"]), ("inputVariables", .null),
  ("outputVariables", Json.ofStrings ["x", "r1"])]

theorem clause_variables :
    (∃ vars, Event.ofMembers (clause overlapping) =
        .ok (.hornClause "$x" "E" ⟨[], head, [], equation, vars⟩) ∧
      vars.map ClauseVar.name = ["t", "x", "r"] ∧ ∀ v ∈ vars,
        (v.input = true ↔ v.name ∈ ["x", "x"]) ∧ (v.output = true ↔ v.name ∈ ["r", "x"])) ∧
    Event.ofMembers (clause undeclared) =
      .error ⟨.unknownVariable "r1" .output, [.field "outputVariables", .index 1]⟩ := by
  have hread : VariablesRead (clause overlapping) ["t", "x", "r"] ["x", "x"] ["r", "x"] :=
    ⟨rfl, .inl rfl, .inl rfl⟩
  have hrefused : VariablesRead (clause undeclared) ["t", "x", "r"] [] ["x", "r1"] :=
    ⟨rfl, .inr ⟨rfl, .inr rfl⟩, .inl rfl⟩
  have hfirst : FirstUnknown ["t", "x", "r"] ["x", "r1"] 1 "r1" :=
    firstOffence_succ.mpr ⟨by decide, firstOffence_zero.mpr ⟨rfl, by decide⟩⟩
  have haccepted := Event.hornClause_variables (clause_reads overlapping) hread
  constructor
  · obtain ⟨ev, hev⟩ := haccepted.1.mpr ⟨by decide, by decide, by decide⟩
    obtain ⟨vars, rfl, hvars⟩ := haccepted.2.1 ev hev
    exact ⟨vars, hev, hvars⟩
  · exact ((Event.hornClause_variables (clause_reads undeclared) hrefused).2.2 _).mpr
      (.output (by decide) (by simp) hfirst)

end Rebound

end Realizability
