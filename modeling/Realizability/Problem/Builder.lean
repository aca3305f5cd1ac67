import Realizability.Log
import Realizability.Problem.Graph
import Realizability.Text.Quoted

/-!
# Building a problem from events

A draft collects the events of a stream one at a time; finishing it resolves the grammar against
the term types and yields the problem. An event that is refused leaves the draft as it was, except
that a definition of a term type keeps the constructors that stand before the refused one.
-/

namespace Realizability

structure TermConstructor where
  name : String
  children : List String
  rules : List SemanticRule
  deriving Repr

structure Draft where
  metadata : Table InfoValue := []
  datatypes : Table Datatype := []
  functions : Table Function := []
  termTypes : Table (Table TermConstructor) := []
  constraints : List Term := []
  synthFun : Option SynthFun := none
  deriving Repr

inductive BuildError
  | finished
  | unsupported (text kind : String)
  | duplicateTermType (name : String)
  | undeclaredTermType (name : String)
  | duplicateConstructor (name termType : String)
  | undeclaredChild (name : String)
  | unknownTermType (name : String)
  | unknownConstructor (name termType : String)
  | secondSynthFun (name : String)
  | noSynthFun
  | undeclaredNonterminalType (termType nonterminal : String)
  | noConstructor (operator nonterminal termType : String)
  | unknownChild (child operator : String)
  | childMismatch (children : List String) (operator : String) (signature : List String)
  | noTarget (termType function : String)
  deriving DecidableEq, Repr

def unsupportedText (text kind : String) : String :=
  "Received argument " ++ text ++ " of unsupported type " ++ kind

def BuildError.message : BuildError → String
  | finished => "Problem generator has already been finished"
  | unsupported text kind => unsupportedText text kind
  | duplicateTermType name => "Duplicate term type declaration: " ++ name
  | undeclaredTermType name => "Undeclared term type for definition: " ++ name
  | duplicateConstructor name termType =>
    "Duplicate term constructor " ++ name ++ " in term type " ++ termType
  | undeclaredChild name => "Undeclared term type for constructor child: " ++ name
  | unknownTermType name => "Unknown term type: " ++ name
  | unknownConstructor name termType =>
    "Unknown term constructor " ++ name ++ " in term type " ++ termType
  | secondSynthFun name => "Synthesis function already set: " ++ name
  | noSynthFun => "No synthesis function has been set"
  | undeclaredNonterminalType termType nonterminal =>
    "Undeclared term type " ++ termType ++ " for nonterminal " ++ nonterminal
  | noConstructor operator nonterminal termType =>
    "Production " ++ operator ++ " of nonterminal " ++ nonterminal ++
      " has no constructor in term type " ++ termType
  | unknownChild child operator =>
    "Unknown nonterminal " ++ child ++ " referenced in production " ++ operator
  | childMismatch children operator signature =>
    "Children " ++ Text.quotedList children ++ " of production " ++ operator ++
      " do not match constructor signature " ++ Text.quotedList signature
  | noTarget termType function =>
    "No nonterminal of term type " ++ termType ++ " for synthesis function " ++ function

/-! ## Collecting events -/

namespace Draft

def constructors? (d : Draft) (termType : String) : Option (Table TermConstructor) :=
  d.termTypes.get? termType

def addConstructor (d : Draft) (termType : String) (c : ConstructorDecl) :
    Except BuildError Draft :=
  let constructors := (d.constructors? termType).getD []
  if constructors.has c.name then .error (.duplicateConstructor c.name termType)
  else match c.children.find? fun x => !d.termTypes.has x with
    | some x => .error (.undeclaredChild x)
    | none => .ok { d with
        termTypes := d.termTypes.put termType (constructors.put c.name ⟨c.name, c.children, []⟩) }

def addConstructors (d : Draft) (termType : String) :
    List ConstructorDecl → Draft × Option BuildError
  | [] => (d, none)
  | c :: cs =>
    match d.addConstructor termType c with
    | .ok d' => d'.addConstructors termType cs
    | .error e => (d, some e)

def addRule (d : Draft) (constructor termType : String) (r : SemanticRule) :
    Except BuildError Draft :=
  match d.constructors? termType with
  | none => .error (.unknownTermType termType)
  | some constructors =>
    match constructors.get? constructor with
    | none => .error (.unknownConstructor constructor termType)
    | some c => .ok { d with
        termTypes := d.termTypes.put termType
          (constructors.put constructor { c with rules := c.rules ++ [r] }) }

/-- The draft behind an event, and why the event was refused if it was. -/
def consume (d : Draft) : Event → Draft × Option BuildError
  | .setInfo keyword value => ({ d with metadata := d.metadata.put keyword value }, none)
  | .defineFunction name _ args body =>
    ({ d with functions := d.functions.put name ⟨name, args, body⟩ }, none)
  | .defineDatatype name constructors =>
    let entries := Table.ofEntries (constructors.map fun c => (c.name, c))
    ({ d with datatypes := d.datatypes.put name ⟨name, entries⟩ }, none)
  | .declareTermType name =>
    if d.termTypes.has name then (d, some (.duplicateTermType name))
    else ({ d with termTypes := d.termTypes.put name [] }, none)
  | .defineTermType name constructors =>
    if d.termTypes.has name then d.addConstructors name constructors
    else (d, some (.undeclaredTermType name))
  | .hornClause constructor termType r =>
    match d.addRule constructor termType r with
    | .ok d' => (d', none)
    | .error e => (d, some e)
  | .constraint t => ({ d with constraints := d.constraints ++ [t] }, none)
  | .synthFun f =>
    match d.synthFun with
    | some g => (d, some (.secondSynthFun g.name))
    | none => ({ d with synthFun := some f }, none)
  | .declareFunction .. | .declareDatatype _ | .checkSynth | .endOfStream => (d, none)

def notes (d : Draft) : Event → List Message
  | .defineFunction name .. =>
    if d.functions.has name then [warning ("Redefinition of function " ++ name)] else []
  | .defineDatatype name _ =>
    if d.datatypes.has name then [warning ("Redefinition of datatype " ++ name)] else []
  | .declareFunction .. => [debug "Skipping DeclareFunctionEvent"]
  | .declareDatatype _ => [debug "Skipping DeclareDatatypeEvent"]
  | .checkSynth => [debug "Skipping CheckSynthEvent"]
  | .endOfStream => [debug "Skipping StreamEndEvent"]
  | _ => []

/-! ## Finishing -/

def childType (grammar : List NonterminalDecl) (operator child : String) :
    Except BuildError String :=
  match grammar.find? (·.name = child) with
  | some n => .ok n.termType
  | none => .error (.unknownChild child operator)

/-- The production with the rules of its constructor, whose children it has to repeat. -/
def production (d : Draft) (grammar : List NonterminalDecl) (n : NonterminalDecl)
    (p : ProductionDecl) : Except BuildError Production := do
  match ((d.constructors? n.termType).getD []).get? p.operator with
  | none => .error (.noConstructor p.operator n.name n.termType)
  | some c =>
    let types ← p.occurrences.mapM (childType grammar p.operator)
    if types = c.children then return ⟨p.operator, p.occurrences, c.rules⟩
    else .error (.childMismatch p.occurrences p.operator c.children)

def nonterminal (d : Draft) (grammar : List NonterminalDecl) (n : NonterminalDecl) :
    Except BuildError Nonterminal := do
  return ⟨n.name, n.termType, ← n.productions.mapM (d.production grammar n)⟩

def checkTermType (d : Draft) (n : NonterminalDecl) : Except BuildError Unit :=
  if d.termTypes.has n.termType then .ok ()
  else .error (.undeclaredNonterminalType n.termType n.name)

def finish (d : Draft) : Except BuildError Problem := do
  match d.synthFun with
  | none => .error .noSynthFun
  | some f =>
    f.grammar.forM d.checkTermType
    let nonterminals ← f.grammar.mapM (d.nonterminal f.grammar)
    match nonterminals.find? (·.termType = f.termType) with
    | none => .error (.noTarget f.termType f.name)
    | some target => return {
        targetName := f.name
        target := target
        nonterminals := nonterminals
        constraints := d.constraints
        metadata := d.metadata
        datatypes := d.datatypes
        functions := d.functions }

end Draft

def Problem.notes (p : Problem) : List Message :=
  let unreachable := p.graph.unreachable p.target.name
  let unproductive := unproductive p.nonterminals
  (if unreachable.isEmpty then []
    else [warning ("Nonterminals unreachable from " ++ p.target.name ++ ": " ++
      ", ".intercalate unreachable)]) ++
  (if unproductive.isEmpty then []
    else [warning ("Nonterminals without finite terms: " ++ ", ".intercalate unproductive)]) ++
  [debug ("Recursive nonterminals: " ++ Text.quotedList p.graph.recursive),
    info ("Collected problem for " ++ p.targetName ++ " with " ++
      toString p.nonterminals.length ++ " nonterminal(s) and " ++
      toString p.constraints.length ++ " constraint(s)")]

/-! ## The builder -/

/-- A value handed to a builder: an event, or something else by its text and its kind. -/
inductive Offer
  | event (e : Event)
  | other (text kind : String)
  deriving Repr

/-- A builder collects until it has handed out its problem. -/
inductive Builder
  | collecting (d : Draft)
  | finished
  deriving Repr

namespace Builder

def fresh : Builder := collecting {}

def consume : Builder → Offer → Builder × Option BuildError
  | finished, _ => (finished, some .finished)
  | collecting d, .other text kind => (collecting d, some (.unsupported text kind))
  | collecting d, .event e =>
    let r := d.consume e
    (collecting r.1, r.2)

def notes : Builder → Offer → List Message
  | collecting d, .event e => d.notes e
  | _, _ => []

/-- A finish that fails leaves the builder as it was, so that more events can follow. -/
def finish : Builder → Builder × Except BuildError Problem
  | finished => (finished, .error .finished)
  | collecting d =>
    match d.finish with
    | .ok p => (finished, .ok p)
    | .error e => (collecting d, .error e)

end Builder

def Draft.consumeAll (d : Draft) : List Event → Logged BuildError Draft
  | [] => pure d
  | e :: es => do
    Logged.writeAll (d.notes e)
    match d.consume e with
    | (d', none) => d'.consumeAll es
    | (_, some err) => throw err

/-- The problem that a stream of events describes. -/
def Problem.ofEvents (es : List Event) : Logged BuildError Problem := do
  let d ← Draft.consumeAll {} es
  let p ← d.finish
  Logged.writeAll p.notes
  return p

end Realizability
