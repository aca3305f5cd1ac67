import Realizability.Event.Basic
import Realizability.Table
import Realizability.Term.Described

/-!
# Synthesis problems

A problem names a function to be synthesized, a grammar with the semantic rules of its operators,
the background functions and datatypes, and the constraints. Children of productions are given by
the names of their nonterminals, since grammars can be recursive.
-/

namespace Realizability

structure Datatype where
  name : String
  constructors : Table DatatypeConstructor
  deriving Repr

/-- A defined function; by convention its last argument carries the value. -/
structure Function where
  name : String
  args : List TypedVar
  body : Term
  deriving Repr

def Function.resultArg? (f : Function) : Option TypedVar := f.args.getLast?

structure Production where
  operator : String
  children : List String
  rules : List SemanticRule
  deriving Repr

structure Nonterminal where
  name : String
  termType : String
  productions : List Production
  deriving Repr

structure Problem where
  targetName : String
  target : Nonterminal
  nonterminals : List Nonterminal
  constraints : List Term
  metadata : Table InfoValue
  datatypes : Table Datatype
  functions : Table Function
  deriving Repr

/-! ## Texts -/

def Nonterminal.mark (name : String) : String := "<" ++ name ++ ">"

def Nonterminal.text (n : Nonterminal) : String :=
  n.name ++ " : " ++ n.termType ++ " ::= " ++
    " | ".intercalate (n.productions.map Production.operator)

def Production.describe (p : Production) : String :=
  described "SemgusProduction" [("operator", Text.quoted p.operator),
    ("children", tuple (p.children.map Nonterminal.mark)), ("semantic_rules", tuple [])]

namespace Problem

def nonterminal? (p : Problem) (name : String) : Option Nonterminal :=
  p.nonterminals.find? (·.name = name)

def function? (p : Problem) (name : String) : Option Function := p.functions.get? name

def text (p : Problem) : String :=
  "\n".intercalate (["SemgusProblem(" ++ p.targetName ++ ")", "  target: " ++ p.target.name] ++
    p.nonterminals.map (fun n => "  " ++ n.text) ++
    ["  " ++ toString p.constraints.length ++ " constraint(s), " ++
      toString p.functions.length ++ " function(s), " ++
      toString p.datatypes.length ++ " datatype(s)"])

end Problem

end Realizability
