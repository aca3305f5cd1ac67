import Realizability.Term.Basic

/-!
# Specification events

A specification is a stream of events. They declare term types and their constructors, define the
functions and datatypes of the background theory, give the semantic rules of the constructors, and
name the function to be synthesized with its grammar.
-/

namespace Realizability

inductive InfoValue
  | unit
  | string (s : String)
  | int (n : Int)
  | decimal (x : Binary64)
  | keyword (name : String)
  | list (values : List InfoValue)
  deriving Inhabited, Repr

structure DatatypeConstructor where
  name : String
  sorts : List Identifier
  deriving DecidableEq, Repr

structure ConstructorDecl where
  name : String
  children : List String
  deriving DecidableEq, Repr

/-- A variable of a clause, and whether it was declared as input and as output. -/
structure ClauseVar where
  name : String
  input : Bool
  output : Bool
  deriving DecidableEq, Repr

/-- A semantic rule: the body relations and the constraint imply the head. -/
structure SemanticRule where
  children : List TypedVar
  head : Relation
  body : List Relation
  constraint : Term
  vars : List ClauseVar
  deriving Repr

structure ProductionDecl where
  operator : String
  occurrences : List String
  deriving DecidableEq, Repr

structure NonterminalDecl where
  name : String
  termType : String
  productions : List ProductionDecl
  deriving DecidableEq, Repr

structure SynthFun where
  name : String
  termType : String
  grammar : List NonterminalDecl
  deriving DecidableEq, Repr

inductive Event
  | setInfo (keyword : String) (value : InfoValue)
  | declareFunction (name : String) (sort : Identifier) (sorts : List Identifier)
  | defineFunction (name : String) (sort : Identifier) (args : List TypedVar) (body : Term)
  | declareDatatype (name : String)
  | defineDatatype (name : String) (constructors : List DatatypeConstructor)
  | declareTermType (name : String)
  | defineTermType (name : String) (constructors : List ConstructorDecl)
  | hornClause (constructor : String) (termType : String) (rule : SemanticRule)
  | constraint (term : Term)
  | synthFun (f : SynthFun)
  | checkSynth
  | endOfStream
  deriving Repr

end Realizability
