import Realizability.Encoding.Premise
import Realizability.Proofs.Meaning.Formula
import Realizability.Proofs.Meaning.Symbol

/-!
# Meaning of terms

What the terms of a specification say, without any formulas: names stand for vectors with one value
per example, a term has a value for one example at a time, and a call holds or not of the vector of
its final argument. A term that a case results in holds as a whole, for all examples at once.
-/

namespace Realizability

/-! ## Names -/

abbrev Environment := String → Option (List Value)

abbrev Binding := String × List Value

namespace Environment

def empty : Environment := fun _ => none

/-- A binding counts before those in front of it and before those outside of its list. -/
def bind (ρ : Environment) (bs : List Binding) : Environment :=
  bs.foldl (fun ρ b x => if b.1 = x then some b.2 else ρ x) ρ

end Environment

/-- A vector of `n` values of one sort. -/
structure IsVector (n : Nat) (s : SmtSort) (vs : List Value) : Prop where
  length : vs.length = n
  sort : ∀ v ∈ vs, v.sort = s

def Bound (n : Nat) : List TypedVar → List Binding → Prop :=
  List.Forall₂ fun x b =>
    b.1 = x.name ∧ ∃ s, SmtSort.ofIdentifier x.sort = .ok s ∧ IsVector n s b.2

/-! ## Values -/

/-- A number is read at a real or bit-vector sort if one is asked for. -/
def numberValue (hint : Option SmtSort) (n : Int) : Value :=
  match hint with
  | some (.bitVec width) => .bits width (BitVec.ofInt width n)
  | some .real => .real n
  | _ => .int n

namespace Signature

variable (g : Signature) (M : Model)

/-- A vector at the sort that a function is called with. -/
noncomputable def coerced (name : String) (vs : List Value) : Option (List Value) :=
  vs.mapM (Value.coerce ((g.indicators.get? name).getD .bool))

mutual

/-- The value of a term for example `i`. A call is true if its relation holds of the vector of its
final argument. -/
noncomputable def valueOf (ρ : Environment) (hint : Option SmtSort) : Term → Nat → Option Value
  | .app ident _ args, i =>
    match Symbol.ofIdentifier? ident with
    | some s => do s.value M.zero (← valuesOf ρ args i)
    | none =>
      if g.calls ident then do
        return .ofProp (M.relations ident.name (← g.coerced ident.name (← finalVector ρ args)))
      else none
  | .var name _, i => do (← ρ name)[i]?
  | .number n, _ => some (numberValue hint n)
  | .decimal x, _ => x.decimalValue?.map fun q => .real q
  | .string s, _ => some (.text (stringCodes s))
  | .bits width value, _ => some (.bits width (BitVec.ofNat width value))
  | .quantified .., _ => none
  | .matching .., _ => none
  | .lambda .., _ => none

noncomputable def valuesOf (ρ : Environment) :
    List (Identifier × Term) → Nat → Option (List Value)
  | [], _ => some []
  | (sort, t) :: args, i => do
    return (← valueOf ρ (sortHint sort t) t i) :: (← valuesOf ρ args i)

noncomputable def finalVector (ρ : Environment) : List (Identifier × Term) → Option (List Value)
  | [] => none
  | [(sort, t)] => (List.range g.count).mapM fun i => valueOf ρ (sortHint sort t) t i
  | _ :: args => finalVector ρ args

end

/-! ## Truth -/

/-- What is asked of calls in conjunctive positions: the function, its arguments, and the vector of
the final one at the sort of the function. -/
abbrev Calls := String → List (Identifier × Term) → List Value → Prop

def callsIn (R : Relations) : Calls := fun name _ vs => R name vs

def HoldsCall (C : Calls) (ρ : Environment) (name : String) (args : List (Identifier × Term)) :
    Prop :=
  ∃ vs ws, g.finalVector M ρ args = some vs ∧ g.coerced name vs = some ws ∧ C name args ws

def HoldsPointwise (ρ : Environment) (t : Term) : Prop :=
  ∀ i < g.count, g.valueOf M ρ none t i = some .yes

mutual

/-- Whether a term holds for all examples, with `C` for the calls in conjunctive positions. -/
def Holds (C : Calls) (ρ : Environment) : Term → Prop
  | .quantified .existential bindings child =>
    ∃ bs, Bound g.count bindings bs ∧ Holds C (ρ.bind bs) child
  | .app ident sort args =>
    if ident = ⟨"and", []⟩ ∧ args.isEmpty = false then HoldAll C ρ args
    else if g.calls ident ∧ (Operator.ofName? ident.name).isNone then
      g.HoldsCall M C ρ ident.name args
    else g.HoldsPointwise M ρ (.app ident sort args)
  | t => g.HoldsPointwise M ρ t

def HoldAll (C : Calls) (ρ : Environment) : List (Identifier × Term) → Prop
  | [] => True
  | (_, t) :: args => Holds C ρ t ∧ HoldAll C ρ args

end

end Signature

end Realizability
