import Realizability.Event.Format

/-!
# Writing events

Events as Json values, field by field as the format lists them, and the events that can be written.
A map is written as the list of its entries.
-/

namespace Realizability

/-! ## Identifiers and relations -/

def Json.ofStrings (ss : List String) : Json := .array (ss.map .string)

def Index.toJson : Index → Json
  | .name s => .string s
  | .number n => .int n

def Identifier.toJson (ident : Identifier) : Json :=
  if ident.indices.isEmpty then .string ident.name
  else .array (.string ident.name :: ident.indices.map Index.toJson)

def Json.ofIdentifiers (idents : List Identifier) : Json := .array (idents.map Identifier.toJson)

def Relation.members (r : Relation) : Members :=
  [("name", .string r.name),
    ("signature", Json.ofIdentifiers (r.args.map TypedVar.sort)),
    ("arguments", Json.ofStrings (r.args.map TypedVar.name))]

/-! ## Terms -/

mutual

def Term.toJson : Term → Json
  | .app name sort args => .object
      [("$termType", .string "application"), ("name", name.toJson), ("returnSort", sort.toJson),
        ("argumentSorts", Json.ofIdentifiers (args.map Prod.fst)),
        ("arguments", .array (argsJson args))]
  | .var name sort => .object
      [("$termType", .string "variable"), ("name", .string name), ("sort", sort.toJson)]
  | .number n => .int n
  | .decimal x => .decimal x
  | .string s => .string s
  | .bits width value => .object
      [("$termType", .string "bitvector"), ("size", .int width), ("value", .int value)]
  | .quantified kind bindings child => .object
      [("$termType", .string kind.name), ("bindings", Json.ofStrings (bindings.map TypedVar.name)),
        ("bindingSorts", Json.ofIdentifiers (bindings.map TypedVar.sort)), ("child", child.toJson)]
  | .matching scrutinee cases => .object
      [("$termType", .string "match"), ("term", scrutinee.toJson),
        ("binders", .array (casesJson cases))]
  | .lambda names body => .object
      [("$termType", .string "lambda"), ("arguments", Json.ofStrings names), ("body", body.toJson)]

def argsJson : List (Identifier × Term) → List Json
  | [] => []
  | (_, t) :: args => t.toJson :: argsJson args

def casesJson : List (MatchCase Term) → List Json
  | [] => []
  | ⟨operator, names, result⟩ :: cases =>
    .object [("operator", operator.elim .null .string), ("arguments", Json.ofStrings names),
      ("child", result.toJson)] :: casesJson cases

end

def MatchCase.members (c : MatchCase Term) : Members :=
  [("operator", c.operator.elim .null .string), ("arguments", Json.ofStrings c.names),
    ("child", c.result.toJson)]

theorem argsJson_eq (args : List (Identifier × Term)) :
    argsJson args = args.map fun a => a.2.toJson := by
  induction args with
  | nil => rw [argsJson, List.map_nil]
  | cons a args ih => rw [argsJson, List.map_cons, ih]

theorem casesJson_eq (cases : List (MatchCase Term)) :
    casesJson cases = (cases.map MatchCase.members).map .object := by
  induction cases with
  | nil => simp [casesJson]
  | cons c cases ih => simp [casesJson, MatchCase.members, ih]

/-- The bit-vector literals of a term have a positive width. -/
inductive Term.WellFormed : Term → Prop
  | app {name sort : Identifier} {args : List (Identifier × Term)}
    (h : ∀ a ∈ args, WellFormed a.2) : WellFormed (.app name sort args)
  | var (name : String) (sort : Identifier) : WellFormed (.var name sort)
  | number (n : Int) : WellFormed (.number n)
  | decimal (x : Binary64) : WellFormed (.decimal x)
  | string (s : String) : WellFormed (.string s)
  | bits {width : Nat} (value : Nat) (h : 0 < width) : WellFormed (.bits width value)
  | quantified (kind : Quantifier) (bindings : List TypedVar) {child : Term}
    (h : WellFormed child) : WellFormed (.quantified kind bindings child)
  | matching {scrutinee : Term} {cases : List (MatchCase Term)} (h : WellFormed scrutinee)
    (hcases : ∀ c ∈ cases, WellFormed c.result) : WellFormed (.matching scrutinee cases)
  | lambda (names : List String) {body : Term} (h : WellFormed body) :
    WellFormed (.lambda names body)

/-! ## Attribute values -/

mutual

def InfoValue.toJson : InfoValue → Json
  | .unit => .null
  | .string s => .string s
  | .int n => .int n
  | .decimal x => .decimal x
  | .keyword name => .object [("keyword", .string name)]
  | .list values => .array (infoValuesJson values)

def infoValuesJson : List InfoValue → List Json
  | [] => []
  | x :: xs => x.toJson :: infoValuesJson xs

end

/-! ## Parts of events -/

def rankJson (sort : Identifier) (sorts : List Identifier) : Json :=
  .object [("returnSort", sort.toJson), ("argumentSorts", Json.ofIdentifiers sorts)]

def definitionMembers (names : List String) (body : Term) : Members :=
  [("arguments", Json.ofStrings names), ("body", body.toJson)]

def DatatypeConstructor.members (c : DatatypeConstructor) : Members :=
  [("name", .string c.name), ("children", Json.ofIdentifiers c.sorts)]

def ConstructorDecl.members (c : ConstructorDecl) : Members :=
  [("name", .string c.name), ("children", Json.ofStrings c.children)]

def clauseConstructorMembers (name : String) (children : List TypedVar) (termType : String) :
    Members :=
  [("name", .string name), ("returnSort", .string termType),
    ("arguments", Json.ofStrings (children.map TypedVar.name)),
    ("argumentSorts", Json.ofIdentifiers (children.map TypedVar.sort))]

def usedNames (used : ClauseVar → Bool) (vars : List ClauseVar) : List String :=
  (vars.filter used).map ClauseVar.name

def NonterminalDecl.members (n : NonterminalDecl) : Members :=
  [("name", .string n.name), ("termType", .string n.termType)]

def grammarRules (ns : List NonterminalDecl) : List (String × ProductionDecl) :=
  ns.flatMap fun n => n.productions.map fun p => (n.name, p)

def ruleMembers (r : String × ProductionDecl) : Members :=
  [("instance", .string r.1), ("operator", .string r.2.operator),
    ("occurrences", Json.ofStrings r.2.occurrences)]

def grammarMembers (ns : List NonterminalDecl) : Members :=
  [("nonTerminals", .array ((ns.map NonterminalDecl.members).map .object)),
    ("productions", .array (((grammarRules ns).map ruleMembers).map .object))]

structure GrammarWellFormed (ns : List NonterminalDecl) : Prop where
  names : (ns.map NonterminalDecl.name).Nodup
  operators : ∀ n ∈ ns, (n.productions.map ProductionDecl.operator).Nodup
  occurrences : ∀ n ∈ ns, ∀ p ∈ n.productions, ∀ x ∈ p.occurrences,
    x ∈ ns.map NonterminalDecl.name

/-! ## Events -/

namespace Event

def kindName : Event → String
  | setInfo .. => "set-info"
  | declareFunction .. => "declare-function"
  | defineFunction .. => "define-function"
  | declareDatatype .. => "declare-datatype"
  | defineDatatype .. => "define-datatype"
  | declareTermType .. => "declare-term-type"
  | defineTermType .. => "define-term-type"
  | hornClause .. => "chc"
  | constraint .. => "constraint"
  | synthFun .. => "synth-fun"
  | checkSynth => "check-synth"
  | endOfStream => "end-of-stream"

def fields : Event → Members
  | setInfo keyword value => [("keyword", .string keyword), ("value", value.toJson)]
  | declareFunction name sort sorts => [("name", .string name), ("rank", rankJson sort sorts)]
  | defineFunction name sort args body =>
    [("name", .string name), ("rank", rankJson sort (args.map TypedVar.sort)),
      ("definition", .object (definitionMembers (args.map TypedVar.name) body))]
  | declareDatatype name => [("name", .string name)]
  | defineDatatype name constructors =>
    [("name", .string name),
      ("constructors", .array ((constructors.map DatatypeConstructor.members).map .object))]
  | declareTermType name => [("name", .string name)]
  | defineTermType name constructors =>
    [("name", .string name),
      ("constructors", .array ((constructors.map ConstructorDecl.members).map .object))]
  | hornClause name termType rule =>
    [("constructor", .object (clauseConstructorMembers name rule.children termType)),
      ("head", .object rule.head.members),
      ("bodyRelations", .array ((rule.body.map Relation.members).map .object)),
      ("constraint", rule.constraint.toJson),
      ("variables", Json.ofStrings (rule.vars.map ClauseVar.name)),
      ("inputVariables", Json.ofStrings (usedNames ClauseVar.input rule.vars)),
      ("outputVariables", Json.ofStrings (usedNames ClauseVar.output rule.vars))]
  | constraint term => [("constraint", term.toJson)]
  | synthFun f =>
    [("name", .string f.name), ("termType", .string f.termType),
      ("grammar", .object (grammarMembers f.grammar))]
  | checkSynth => []
  | endOfStream => []

def members (e : Event) : Members := ("$event", .string e.kindName) :: e.fields

def toJson (e : Event) : Json := .object e.members

def listToJson (es : List Event) : Json := .array (es.map toJson)

def WellFormed : Event → Prop
  | defineFunction _ _ _ body => body.WellFormed
  | hornClause _ _ rule => rule.constraint.WellFormed ∧ (rule.vars.map ClauseVar.name).Nodup
  | constraint term => term.WellFormed
  | synthFun f => GrammarWellFormed f.grammar
  | _ => True

end Event

end Realizability
