import Realizability.Event.Basic
import Realizability.Term.Format

/-!
# Events in the event format

An event is an object that names its kind. A list of events is read as a whole: every item has to
be an object before the first of them is read, and the first event that is refused ends the
reading.
-/

namespace Realizability

/-! ## Background theory -/

mutual

def InfoValue.ofJson : Json → Read InfoValue
  | .null => .ok .unit
  | .string s => .ok (.string s)
  | .bool b => .ok (.keyword (if b then "true" else "false"))
  | .int n => .ok (.int n)
  | .decimal x => .ok (.decimal x)
  | .array items => do return .list (← infoValuesFrom 0 items)
  | .object o => do return .keyword (← Members.stringField o "keyword")

def infoValuesFrom (i : Nat) : List Json → Read (List InfoValue)
  | [] => .ok []
  | v :: vs => do
    let x ← within [.index i] (InfoValue.ofJson v)
    let xs ← infoValuesFrom (i + 1) vs
    return x :: xs

end

def functionHead (o : Members) : Read (String × Identifier × List Identifier) := do
  let name ← o.stringField "name"
  let rank ← o.objectField "rank"
  within [.field "rank"] do
    let sort ← rank.identifierField "returnSort"
    let sorts ← rank.identifiersField "argumentSorts"
    return (name, sort, sorts)

def definitionOf (sorts : List Identifier) (o : Members) : Read (List TypedVar × Term) := do
  let names ← o.stringsField "arguments"
  if names.length = sorts.length then
    let body ← termMember "body" o
    return (typedVars names sorts, body)
  else Read.fault (.arityMismatch sorts.length names.length) [.field "arguments"]

def datatypeConstructorOf (o : Members) : Read DatatypeConstructor := do
  let name ← o.stringField "name"
  let sorts ← o.identifiersField "children"
  return ⟨name, sorts⟩

def constructorOf (o : Members) : Read ConstructorDecl := do
  let name ← o.stringField "name"
  let children ← o.stringsField "children"
  return ⟨name, children⟩

def constructorsField {α : Type} (f : Members → Read α) (o : Members) : Read (List α) := do
  within [.field "constructors"] (readEach f (← o.objectsField "constructors"))

/-! ## Horn clauses -/

def clauseConstructorOf (o : Members) : Read (String × List TypedVar × String) := do
  let name ← o.stringField "name"
  let termType ← o.stringField "returnSort"
  let names ← o.stringsField "arguments"
  let sorts ← o.arrayField "argumentSorts"
  sameLength .constructor sorts names
  let sorts ← within [.field "argumentSorts"] (readEach Identifier.ofJson sorts)
  return (name, typedVars names sorts, termType)

/-- Refuses the first name that occurred before; `seen` holds those already passed. -/
def distinctFrom (seen : List String) (i : Nat) : List String → Read Unit
  | [] => .ok ()
  | x :: xs =>
    if x ∈ seen then Read.fault (.duplicateVariable x) [.index i]
    else distinctFrom (x :: seen) (i + 1) xs

def knownFrom (known : List String) (usage : Usage) (i : Nat) : List String → Read Unit
  | [] => .ok ()
  | x :: xs =>
    if x ∈ known then knownFrom known usage (i + 1) xs
    else Read.fault (.unknownVariable x usage) [.index i]

/-- The variables listed in the field `key`, which may be absent, as being used as `usage`. -/
def usedVariables (known : List String) (usage : Usage) (key : String) (o : Members) :
    Read (List String) := do
  match ← o.stringsField? key with
  | none => return []
  | some names =>
    within [.field key] (knownFrom known usage 0 names)
    return names

def clauseVariables (o : Members) : Read (List ClauseVar) := do
  let names ← o.stringsField "variables"
  within [.field "variables"] (distinctFrom [] 0 names)
  let inputs ← usedVariables names .input "inputVariables" o
  let outputs ← usedVariables names .output "outputVariables" o
  return names.map fun x => ⟨x, inputs.contains x, outputs.contains x⟩

def hornClauseOf (o : Members) : Read Event := do
  let constructor ← o.objectField "constructor"
  let (name, children, termType) ← within [.field "constructor"] (clauseConstructorOf constructor)
  let head ← within [.field "head"] (Relation.ofMembers (← o.objectField "head"))
  let body ← o.objectsField "bodyRelations"
  let body ← within [.field "bodyRelations"] (readEach Relation.ofMembers body)
  let constraint ← termMember "constraint" o
  let vars ← clauseVariables o
  return .hornClause name termType ⟨children, head, body, constraint, vars⟩

/-! ## Grammars -/

/-- A nonterminal and its term type; its name must not be among those already declared. -/
def nonterminalOf (declared : List String) (o : Members) : Read (String × String) := do
  let name ← o.stringField "name"
  if name ∈ declared then Read.fault (.duplicateNonterminal name) [.field "name"] else
    let termType ← o.stringField "termType"
    return (name, termType)

def nonterminalsFrom (declared : List String) (i : Nat) :
    List Members → Read (List (String × String))
  | [] => .ok []
  | o :: os => do
    let x ← within [.index i] (nonterminalOf declared o)
    let xs ← nonterminalsFrom (x.1 :: declared) (i + 1) os
    return x :: xs

def childrenFrom (declared : List String) (i : Nat) : List String → Read Unit
  | [] => .ok ()
  | x :: xs =>
    if x ∈ declared then childrenFrom declared (i + 1) xs
    else Read.fault (.unknownChild x) [.index i]

/-- A production of a declared nonterminal whose operator that nonterminal does not have yet. -/
def productionOf (declared : List String) (seen : List (String × String)) (o : Members) :
    Read (String × ProductionDecl) := do
  let nonterminal ← o.stringField "instance"
  let operator ← o.stringField "operator"
  let occurrences ← o.stringsField "occurrences"
  if nonterminal ∉ declared then
    Read.fault (.unknownNonterminal nonterminal) [.field "instance"]
  else if (nonterminal, operator) ∈ seen then
    Read.fault (.duplicateProduction operator nonterminal) [.field "operator"]
  else
    within [.field "occurrences"] (childrenFrom declared 0 occurrences)
    return (nonterminal, ⟨operator, occurrences⟩)

def productionsFrom (declared : List String) (seen : List (String × String)) (i : Nat) :
    List Members → Read (List (String × ProductionDecl))
  | [] => .ok []
  | o :: os => do
    let x ← within [.index i] (productionOf declared seen o)
    let xs ← productionsFrom declared ((x.1, x.2.operator) :: seen) (i + 1) os
    return x :: xs

def productionsOf (name : String) (ps : List (String × ProductionDecl)) : List ProductionDecl :=
  (ps.filter (·.1 = name)).map Prod.snd

def grammarOf (o : Members) : Read (List NonterminalDecl) := do
  let heads ← o.objectsField "nonTerminals"
  let rules ← o.objectsField "productions"
  let heads ← within [.field "nonTerminals"] (nonterminalsFrom [] 0 heads)
  let rules ← within [.field "productions"] (productionsFrom (heads.map Prod.fst) [] 0 rules)
  return heads.map fun h => ⟨h.1, h.2, productionsOf h.1 rules⟩

def synthFunOf (o : Members) : Read SynthFun := do
  let name ← o.stringField "name"
  let termType ← o.stringField "termType"
  let grammar ← o.objectField "grammar"
  let grammar ← within [.field "grammar"] (grammarOf grammar)
  return ⟨name, termType, grammar⟩

/-! ## Events -/

def Event.ofMembers (o : Members) : Read Event := do
  match ← o.stringField "$event" with
  | "set-info" =>
    let keyword ← o.stringField "keyword"
    let value ← within [.field "value"] (InfoValue.ofJson ((Table.get? "value" o).getD .null))
    return .setInfo keyword value
  | "declare-function" =>
    let (name, sort, sorts) ← functionHead o
    return .declareFunction name sort sorts
  | "define-function" =>
    let (name, sort, sorts) ← functionHead o
    let definition ← o.objectField "definition"
    let (args, body) ← within [.field "definition"] (definitionOf sorts definition)
    return .defineFunction name sort args body
  | "declare-datatype" => return .declareDatatype (← o.stringField "name")
  | "define-datatype" =>
    let name ← o.stringField "name"
    return .defineDatatype name (← constructorsField datatypeConstructorOf o)
  | "declare-term-type" => return .declareTermType (← o.stringField "name")
  | "define-term-type" =>
    let name ← o.stringField "name"
    return .defineTermType name (← constructorsField constructorOf o)
  | "chc" => hornClauseOf o
  | "constraint" => return .constraint (← termMember "constraint" o)
  | "synth-fun" => return .synthFun (← synthFunOf o)
  | "check-synth" => return .checkSynth
  | "end-of-stream" => return .endOfStream
  | kind => Read.fault (.unknownEvent kind) [.field "$event"]

def Event.ofJson (v : Json) : Read Event := do Event.ofMembers (← v.asObject)

def Event.listOfJson : Json → Read (List Event)
  | .array items => do readEach Event.ofMembers (← readEach Json.asObject items)
  | _ => Read.fault .notEvents

end Realizability
