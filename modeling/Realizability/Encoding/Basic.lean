import Realizability.Encoding.Examples
import Realizability.Encoding.Premise
import Realizability.Problem.Basic

/-!
# Encodings

Every function gets an indicator, a predicate with one argument per example, which holds of a
vector if some term has these values on all examples at once. Each case of the body of a function
becomes a Horn clause for its indicator; the query says that the indicator of the target does not
hold of the outputs. So the formulas are unsatisfiable if the outputs can be reached.
-/

namespace Realizability

/-- Indicators are given by the sort of their arguments, of which there is one per example. -/
structure Encoding where
  indicators : Table SmtSort
  clauses : Table (List Expr)
  query : Expr
  examples : ExampleTable
  target : String
  deriving Repr

namespace Encoding

def formulas (e : Encoding) : List Expr := e.clauses.values.flatten ++ [e.query]

def conjunction (e : Encoding) : Build Expr := Expr.conjoin e.formulas

end Encoding

/-! ## Functions -/

def Function.resultSort (f : Function) : Except EncodeError SmtSort :=
  match f.resultArg? with
  | none => .error (.noArguments f.name)
  | some arg => sortOf arg.sort

/-- The vectors of the arguments behind the first, with the constants among them. The examples fix
arguments from column `i` on, but never the last one. -/
def bindArgs (table : ExampleTable) (i : Nat) :
    List TypedVar → Except EncodeError (List Const × List (String × List Expr))
  | [] => .ok ([], [])
  | v :: vs => do
    let column := if vs.isEmpty then none else table.inputs[i]?
    match column with
    | some values =>
      let (fresh, bindings) ← bindArgs table (i + 1) vs
      return (fresh, (v.name, values) :: bindings)
    | none =>
      let vector := freshVector v.name (← sortOf v.sort) table.size
      let (fresh, bindings) ← bindArgs table (i + 1) vs
      return (vector ++ fresh, (v.name, vector.map .const) :: bindings)

/-- What the clauses of a function share: the constants and the scope of its arguments, and the
indicator of its result. -/
structure Frame where
  fresh : List Const
  scope : Table (List Expr)
  head : Expr
  deriving Repr

def Function.frame (f : Function) (table : ExampleTable) : Except EncodeError Frame := do
  let (fresh, bindings) ← bindArgs table 0 (f.args.drop 1)
  match f.resultArg? with
  | none => .error (.noArguments f.name)
  | some arg =>
    let vector := freshVector arg.name (← sortOf arg.sort) table.size
    return ⟨fresh, Table.ofEntries bindings, .call f.name (vector.map .const)⟩

def Function.cases (f : Function) : Except EncodeError (List (MatchCase Term)) :=
  if f.args.length < 2 then .error (.tooFewArguments f.name)
  else match f.body with
    | .matching _ cases => .ok cases
    | _ => .error (.noMatch f.name)

def Signature.clause (g : Signature) (frame : Frame) (next : Nat) (result : Term) :
    Except EncodeError (Expr × Nat) := do
  let p ← g.vectorize [frame.scope] next result
  let implication ← formed (Expr.mkImplies p.formula frame.head)
  let closed ← formed (Expr.close (frame.fresh ++ p.witnesses) implication)
  return (closed, p.next)

def Signature.clauses (g : Signature) (f : Function) (frame : Frame) (next : Nat) :
    List (MatchCase Term) → Logged EncodeError (List Expr × Nat)
  | [] => pure ([], next)
  | c :: cs => do
    Logged.write (debug ("Encoding case " ++ c.operator.getD "None" ++ " of " ++ f.name))
    let (clause, next) ← g.clause frame next c.result
    let (rest, next) ← g.clauses f frame next cs
    return (clause :: rest, next)

def Signature.encodeFunctions (g : Signature) (table : ExampleTable) (next : Nat) :
    List Function → Logged EncodeError (Table (List Expr))
  | [] => pure []
  | f :: fs => do
    let cases ← f.cases
    let frame ← f.frame table
    let (clauses, next) ← g.clauses f frame next cases
    return (f.name, clauses) :: (← g.encodeFunctions table next fs)

def declareIndicators : List Function → Logged EncodeError (Table SmtSort)
  | [] => pure []
  | f :: fs => do
    let sort ← f.resultSort
    Logged.write (debug ("Declared indicator " ++ f.name ++ " over " ++ sort.title))
    return (f.name, sort) :: (← declareIndicators fs)

/-! ## Problems -/

/-- The function that the examples apply; without examples, the first function over terms of the
term type of the target. -/
def Problem.targetFunction (p : Problem) (table : ExampleTable) : Except EncodeError Function :=
  match table.operator with
  | some name =>
    match p.function? name with
    | some f => .ok f
    | none => .error (.unknownFunction name)
  | none =>
    let overTarget (f : Function) : Bool :=
      match f.args with
      | [] => false
      | arg :: _ => arg.sort.name == p.target.termType
    match p.functions.values.find? overTarget with
    | some f => .ok f
    | none => .error (.noFunction p.target.termType)

def resultName : String := "res"

/-- The function does not have the outputs of the examples as its value. -/
def Function.query (f : Function) (table : ExampleTable) : Except EncodeError Expr := do
  let vector := freshVector resultName (← f.resultSort) table.size
  let formula : Build Expr := do
    let equalities ← (vector.zip table.results).mapM fun p => Expr.mkEq (.const p.1) p.2
    let matched ← Expr.conjoin equalities
    let refuted ← Expr.mkNot matched
    Expr.close vector (← Expr.mkImplies (.call f.name (vector.map .const)) refuted)
  formula.mapError fun _ => .outputMismatch f.name

/-- The encoding of a problem on examples, which are its constraints unless others are given. -/
def Problem.encode (p : Problem) (examples : Option (List Term)) : Logged EncodeError Encoding := do
  let table ← ExampleTable.ofTerms (examples.getD p.constraints)
  Logged.writeAll table.notes
  let indicators ← declareIndicators p.functions.values
  let target ← p.targetFunction table
  let g : Signature := ⟨table.size, indicators⟩
  let clauses ← g.encodeFunctions table 0 p.functions.values
  let query ← target.query table
  Logged.write (info ("Encoded " ++ toString clauses.length ++ " function(s) on " ++
    toString table.size ++ " example(s), target " ++ target.name))
  return ⟨indicators, clauses, query, table, target.name⟩

end Realizability
