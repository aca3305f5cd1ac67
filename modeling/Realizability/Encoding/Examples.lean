import Realizability.Encoding.Literal
import Realizability.Log

/-!
# Example tables

An example applies the function under synthesis: the term comes first, then the inputs, the output
last. The rows are transposed, so that every position becomes a vector with one value per example.
-/

namespace Realizability

/-- The columns of a list of rows, as many as the shortest row has values. -/
def transpose {α : Type} : List (List α) → List (List α)
  | [] => []
  | [row] => row.map fun x => [x]
  | row :: rows => List.zipWith (· :: ·) row (transpose rows)

/-- The operator is the one that all rows apply; a table without rows has none. -/
structure ExampleTable where
  operator : Option String
  inputs : List (List Expr)
  results : List Expr
  deriving Repr

namespace ExampleTable

def size (t : ExampleTable) : Nat := t.results.length

def columns (t : ExampleTable) : List (List Expr) := t.inputs ++ [t.results]

def text (t : ExampleTable) : String :=
  "ExampleTable(" ++ t.operator.getD "None" ++ ", " ++ toString t.size ++ " example(s), " ++
    toString t.inputs.length ++ " input column(s))"

def empty : ExampleTable := ⟨none, [], []⟩

abbrev Row := List (Identifier × Term)

def rowOf (i : Nat) : Term → Except ExampleError (String × Row)
  | .app name _ args => .ok (name.name, args)
  | t => .error (.notApplication i t)

def rowsFrom (operator : String) (width : Nat) (i : Nat) :
    List Term → Except ExampleError (List Row)
  | [] => .ok []
  | t :: ts => do
    let (name, args) ← rowOf i t
    if name ≠ operator then .error (.otherOperator i name operator)
    else if args.length ≠ width then .error (.otherLength i args.length width)
    else return args :: (← rowsFrom operator width (i + 1) ts)

def valueOf (i : Nat) (arg : Identifier × Term) : Except EncodeError Expr := do
  match SmtSort.ofIdentifier arg.1 with
  | .error e => .error (.examples (.value i (.sort e)))
  | .ok sort =>
    match ← formed (literal? (some sort) arg.2) with
    | some e => return e
    | none => .error (.examples (.value i (.notLiteral arg.2)))

def rowValues (i : Nat) (row : Row) : Except EncodeError (List Expr) :=
  (row.drop 1).mapM (valueOf i)

def valuesFrom (i : Nat) : List Row → Except EncodeError (List (List Expr))
  | [] => .ok []
  | row :: rows => do return (← rowValues i row) :: (← valuesFrom (i + 1) rows)

/-- The table of a list of examples. All shapes are checked before the first value is read. -/
def ofTerms : List Term → Except EncodeError ExampleTable
  | [] => .ok empty
  | t :: ts => do
    let (operator, args) ← (rowOf 0 t).mapError .examples
    let rows ← (rowsFrom operator args.length 1 ts).mapError .examples
    if args.length < 2 then .error (.examples (.tooNarrow operator)) else
      let columns := transpose (← valuesFrom 0 (args :: rows))
      return ⟨some operator, columns.dropLast, columns.getLast?.getD []⟩

def notes (t : ExampleTable) : List Message :=
  match t.operator with
  | none => [info "No examples given"]
  | some operator => [debug ("Vectorized " ++ toString t.size ++ " example(s) of " ++ operator ++
      " into " ++ toString t.columns.length ++ " column(s)")]

end ExampleTable

end Realizability
