import Mathlib.Order.Bounds.Basic
import Realizability.Encoding.Basic
import Realizability.Proofs.Meaning.Term

/-!
# Meaning of functions

What the match cases of the functions say about the vectors of values that a function has on all
examples at once. Relations are closed if they hold of every vector that a case gives; the least
closed relations are those that are derivable.
-/

namespace Realizability

def Expr.literal : Expr → Value
  | .int n => .int n
  | .real q => .real q
  | .bits width n => .bits width (BitVec.ofNat width n)
  | .text codes => .text codes
  | .app .true _ => .yes
  | _ => .no

namespace Problem

def resultSorts (p : Problem) : Table SmtSort :=
  p.functions.values.filterMap fun f => f.resultSort.toOption.map fun s => (f.name, s)

def signature (p : Problem) (n : Nat) : Signature := ⟨n, p.resultSorts⟩

end Problem

namespace Function

def matchCases (f : Function) : List (MatchCase Term) :=
  match f.body with
  | .matching _ cases => cases
  | _ => []

end Function

/-- Bindings for the arguments behind the first, from column `i` of the examples on: the last one is
bound to `v`, another one to its column, and where there is none to any vector of its sort. -/
inductive Binds (table : ExampleTable) (v : List Value) : Nat → List TypedVar → List Binding → Prop
  | result {i : Nat} {x : TypedVar} : Binds table v i [x] [(x.name, v)]
  | fixed {i : Nat} {x y : TypedVar} {xs : List TypedVar} {column : List Expr} {bs : List Binding} :
    table.inputs[i]? = some column → Binds table v (i + 1) (y :: xs) bs →
    Binds table v i (x :: y :: xs) ((x.name, column.map Expr.literal) :: bs)
  | free {i : Nat} {x y : TypedVar} {xs : List TypedVar} {s : SmtSort} {ws : List Value}
    {bs : List Binding} :
    table.inputs[i]? = none → SmtSort.ofIdentifier x.sort = .ok s → IsVector table.size s ws →
    Binds table v (i + 1) (y :: xs) bs →
    Binds table v i (x :: y :: xs) ((x.name, ws) :: bs)

/-- A case of a function gives a vector if its result holds for some bindings of the arguments. -/
def Signature.CaseGives (g : Signature) (M : Model) (C : Calls) (table : ExampleTable) (f : Function)
    (c : MatchCase Term) (v : List Value) : Prop :=
  (∃ s, f.resultSort = .ok s ∧ IsVector table.size s v) ∧
    ∃ bs, Binds table v 0 (f.args.drop 1) bs ∧ g.Holds M C (Environment.empty.bind bs) c.result

namespace Problem

variable (p : Problem) (table : ExampleTable) (zero : ZeroDivision)

/-- The relations hold of every vector that a case of a function gives. -/
def Closed (R : Relations) : Prop :=
  ∀ f ∈ p.functions.values, ∀ c ∈ f.matchCases, ∀ v,
    (p.signature table.size).CaseGives ⟨zero, R⟩ (Signature.callsIn R) table f c v → R f.name v

end Problem

/-! ## Calls in conjunctive positions -/

namespace Signature

variable (g : Signature)

mutual

def callFree : Term → Bool
  | .app ident _ args =>
    (!g.calls ident || (Operator.ofName? ident.name).isSome) && callFreeArgs args
  | _ => true

def callFreeArgs : List (Identifier × Term) → Bool
  | [] => true
  | (_, t) :: args => callFree t && callFreeArgs args

end

def finalCallFree : List (Identifier × Term) → Bool
  | [] => true
  | [(_, t)] => g.callFree t
  | _ :: args => finalCallFree args

mutual

/-- Functions are called only behind existential quantifiers and non-empty conjunctions. -/
def conjunctiveCalls : Term → Bool
  | .quantified .existential _ child => conjunctiveCalls child
  | .app ident sort args =>
    if ident = ⟨"and", []⟩ ∧ args.isEmpty = false then conjunctiveCallsIn args
    else if g.calls ident ∧ (Operator.ofName? ident.name).isNone then g.finalCallFree args
    else g.callFree (.app ident sort args)
  | t => g.callFree t

def conjunctiveCallsIn : List (Identifier × Term) → Bool
  | [] => true
  | (_, t) :: args => conjunctiveCalls t && conjunctiveCallsIn args

end

end Signature

end Realizability
