import Realizability.Problem.Basic

/-!
# The graph of a grammar

There is an edge from a nonterminal to every child of its productions, with the operators of those
productions. What is reachable and what is recursive is read off the answers of a library that
searches graphs. The one at hand closes a set of nonterminals by passes that add what the set leads
to; every pass but the last adds at least one nonterminal, so as many passes as there are
nonterminals suffice.
-/

namespace Realizability

structure Edge where
  source : String
  target : String
  operators : List String
  deriving DecidableEq, Repr

/-- Nodes are given with their term types, edges in the order of their sources. -/
structure GrammarGraph where
  nodes : List (String × String)
  edges : List Edge
  deriving DecidableEq, Repr

/-! ## Edges -/

def addOperator (t : Table (List String)) (child operator : String) : Table (List String) :=
  let operators := (t.get? child).getD []
  t.put child (if operator ∈ operators then operators else operators ++ [operator])

/-- The children of a nonterminal in order of first occurrence, with their operators. -/
def Nonterminal.outgoing (n : Nonterminal) : Table (List String) :=
  n.productions.foldl (fun t p => p.children.foldl (fun t c => addOperator t c p.operator) t) []

def GrammarGraph.ofNonterminals (ns : List Nonterminal) : GrammarGraph where
  nodes := ns.map fun n => (n.name, n.termType)
  edges := ns.flatMap fun n => n.outgoing.map fun e => ⟨n.name, e.1, e.2⟩

def Problem.graph (p : Problem) : GrammarGraph := .ofNonterminals p.nonterminals

/-! ## Closing a set of names -/

/-- Repeat a growing pass until it adds nothing, at most `n` times. -/
def saturate (pass : List String → List String) : Nat → List String → List String
  | 0, s => s
  | n + 1, s =>
    let s' := pass s
    if s'.length = s.length then s else saturate pass n s'

def sorted (names : List String) : List String := names.mergeSort fun a b => decide (a ≤ b)

namespace GrammarGraph

def names (g : GrammarGraph) : List String := g.nodes.map Prod.fst

def hasEdge (g : GrammarGraph) (x y : String) : Bool :=
  g.edges.any fun e => e.source = x && e.target = y

def spread (g : GrammarGraph) (s : List String) : List String :=
  g.edges.foldl (fun s e =>
    if s.contains e.source && !s.contains e.target then s ++ [e.target] else s) s

def closure (g : GrammarGraph) (s : List String) : List String :=
  saturate g.spread g.nodes.length s

end GrammarGraph

/-! ## Searching a graph -/

/-- A set of nodes that is not empty, in any order. -/
structure Component where
  first : String
  others : List String
  deriving DecidableEq, Repr

def Component.nodes (c : Component) : List String := c.first :: c.others

/-- A library that searches graphs: for what paths lead to from a node, other than the node, and for
the sets of nodes that lead to each other. -/
structure GraphSearch where
  descendants : GrammarGraph → String → List String
  components : GrammarGraph → List Component

def unite (s t : List String) : List String := s ++ t.filter fun x => !s.contains x

namespace GraphSearch

variable (search : GraphSearch) (g : GrammarGraph)

/-- The nonterminals that can occur in a term derived from `root`. -/
def reachable (root : String) : List String := unite [root] (search.descendants g root)

def unreachable (root : String) : List String :=
  let s := search.reachable g root
  sorted (g.names.filter fun x => !s.contains x)

def cyclic (c : Component) : List String :=
  if 1 < c.nodes.length then c.nodes
  else if g.hasEdge c.first c.first then [c.first]
  else []

/-- The nonterminals that lead back to themselves. -/
def recursive : List String :=
  sorted ((search.components g).foldl (fun s c => unite s (cyclic g c)) [])

end GraphSearch

/-! ## Searching by passes -/

namespace GrammarGraph

variable (g : GrammarGraph)

def peers (x : String) : List String :=
  let ahead := g.closure [x]
  g.names.filter fun y => ahead.contains y && (g.closure [y]).contains x

/-- Every set of nodes that lead to each other, at the first of its nodes. -/
def components : List Component :=
  g.names.filterMap fun x =>
    match g.peers x with
    | [] => none
    | y :: others => if y = x then some ⟨x, others⟩ else none

end GrammarGraph

def GraphSearch.byPasses : GraphSearch where
  descendants g root := (g.closure [root]).filter fun x => x != root
  components := GrammarGraph.components

namespace GrammarGraph

def reachable (g : GrammarGraph) (root : String) : List String :=
  GraphSearch.byPasses.reachable g root

def unreachable (g : GrammarGraph) (root : String) : List String :=
  GraphSearch.byPasses.unreachable g root

def recursive (g : GrammarGraph) : List String := GraphSearch.byPasses.recursive g

end GrammarGraph

/-! ## Finite terms -/

/-- Add every nonterminal that has a production all of whose children are in `s`. -/
def spreadProductive (ns : List Nonterminal) (s : List String) : List String :=
  ns.foldl (fun s n =>
    if !s.contains n.name && n.productions.any (·.children.all s.contains) then s ++ [n.name]
    else s) s

/-- The nonterminals that derive some finite term. -/
def productive (ns : List Nonterminal) : List String :=
  saturate (spreadProductive ns) ns.length []

def unproductive (ns : List Nonterminal) : List String :=
  let s := productive ns
  sorted ((ns.map Nonterminal.name).filter fun x => !s.contains x)

end Realizability
