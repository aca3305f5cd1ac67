import Realizability.Encoding.Literal
import Realizability.Table

/-!
# Terms as premises

Every variable in scope stands for a vector, one expression per example. A term is evaluated for
one example at a time, except that a call of a function with an indicator applies the indicator to
the whole vector of its final argument. Existential quantifiers in conjunctive positions become
witnesses, which the clause around the premise binds; quantifiers elsewhere are refused.
-/

namespace Realizability

def copyName (i : Int) (name : String) : String := toString i ++ "_" ++ name

def freshVector (name : String) (sort : SmtSort) (n : Nat) : List Const :=
  (List.range n).map fun i : Nat => ⟨copyName i name, none, sort⟩

/-- One stamped constant per example, the stamps counting up from `next`. -/
def witnessVector (name : String) (sort : SmtSort) (n next : Nat) : List Const :=
  (List.range n).map fun i : Nat => ⟨copyName i name, some (next + i), sort⟩

/-- Scopes from the innermost outwards. -/
abbrev Scopes := List (Table (List Expr))

def Scopes.find? (scopes : Scopes) (name : String) : Option (List Expr) :=
  scopes.findSome? (Table.get? name)

/-- The number of examples, and the argument sorts of the functions with an indicator. -/
structure Signature where
  count : Nat
  indicators : Table SmtSort
  deriving Repr

namespace Signature

variable (g : Signature)

def calls (ident : Identifier) : Bool := ident.indices.isEmpty && g.indicators.has ident.name

def apply (name : String) (vector : List Expr) : Build Expr := do
  let sort := (g.indicators.get? name).getD .bool
  return .call name (← vector.mapM (·.coerce sort))

def applyIndicator (name : String) (vector : List Expr) : Except EncodeError Expr :=
  (g.apply name vector).mapError fun _ => .callMismatch name

def applySymbol (ident : Identifier) (s : Symbol) (args : List Expr) : Except EncodeError Expr :=
  match s.apply args with
  | .ok e => .ok e
  | .error (.misuse .illSorted) => .error (.notApplicable ident)
  | .error (.misuse .undefined) => .error (.misuse .undefined)
  | .error e => .error (.application e)

def lookup (scopes : Scopes) (name : String) (i : Nat) : Except EncodeError Expr :=
  match scopes.find? name with
  | none => .error (.unbound name)
  | some vector =>
    match vector[i]? with
    | some e => .ok e
    | none => .error (.misuse .undefined)

mutual

/-- The value of a term for example `i`, read at the sort `hint` if it is a literal. -/
def evaluate (scopes : Scopes) (hint : Option SmtSort) : Term → Nat → Except EncodeError Expr
  | .app ident _ args, i =>
    match Symbol.ofIdentifier? ident with
    | some s => do applySymbol ident s (← evaluateArgs scopes args i)
    | none =>
      if g.calls ident then do
        g.applyIndicator ident.name (← callVector scopes ident.name args)
      else .error (.unknownOperator ident)
  | .var name _, i => lookup scopes name i
  | .number n, _ => expectLiteral hint (.number n)
  | .decimal x, _ => expectLiteral hint (.decimal x)
  | .string s, _ => expectLiteral hint (.string s)
  | .bits width value, _ => expectLiteral hint (.bits width value)
  | .quantified kind bindings child, _ =>
    .error (.nestedQuantifier (.quantified kind bindings child))
  | .matching .., _ => .error .nestedMatch
  | .lambda .., _ => .error .nestedLambda

def evaluateArgs (scopes : Scopes) : List (Identifier × Term) → Nat → Except EncodeError (List Expr)
  | [], _ => .ok []
  | (sort, t) :: args, i => do
    let e ← evaluate scopes (sortHint sort t) t i
    let es ← evaluateArgs scopes args i
    return e :: es

def callVector (scopes : Scopes) (name : String) :
    List (Identifier × Term) → Except EncodeError (List Expr)
  | [] => .error (.callWithoutArguments name)
  | [(sort, t)] => (List.range g.count).mapM fun i => evaluate scopes (sortHint sort t) t i
  | _ :: args => callVector scopes name args

end

def call (scopes : Scopes) (name : String) (args : List (Identifier × Term)) :
    Except EncodeError Expr := do
  g.applyIndicator name (← g.callVector scopes name args)

def pointwise (scopes : Scopes) (t : Term) : Except EncodeError Expr := do
  formed (Expr.conjoin (← (List.range g.count).mapM (g.evaluate scopes none t)))

end Signature

/-- A formula that holds iff a term holds for every example, the witnesses it speaks of, and the
first stamp that is still free. -/
structure Premise where
  witnesses : List Const
  formula : Expr
  next : Nat
  deriving Repr

namespace Signature

variable (g : Signature)

def witnesses (next : Nat) :
    List TypedVar → Except EncodeError (List Const × Table (List Expr) × Nat)
  | [] => .ok ([], [], next)
  | v :: vs => do
    let vector := witnessVector v.name (← sortOf v.sort) g.count next
    let (consts, scope, next) ← witnesses (next + g.count) vs
    return (vector ++ consts, (v.name, vector.map .const) :: scope, next)

/-- The scope of a quantifier; the last binding of a name counts. -/
def scopeOf (bindings : List (String × List Expr)) : Table (List Expr) := Table.ofEntries bindings

mutual

def vectorize (scopes : Scopes) (next : Nat) : Term → Except EncodeError Premise
  | .quantified .existential bindings child => do
    let (consts, scope, next) ← g.witnesses next bindings
    let p ← vectorize (scopeOf scope :: scopes) next child
    return { p with witnesses := consts ++ p.witnesses }
  | .quantified .universal bindings child =>
    .error (.universalPremise (.quantified .universal bindings child))
  | .app ident sort args =>
    if ident = ⟨"and", []⟩ ∧ args.isEmpty = false then do
      let (consts, conjuncts, next) ← vectorizeArgs scopes next args
      return ⟨consts, ← formed (Expr.conjoin conjuncts), next⟩
    else if g.calls ident ∧ (Operator.ofName? ident.name).isNone then do
      return ⟨[], ← g.call scopes ident.name args, next⟩
    else do
      return ⟨[], ← g.pointwise scopes (.app ident sort args), next⟩
  | t => do return ⟨[], ← g.pointwise scopes t, next⟩

def vectorizeArgs (scopes : Scopes) (next : Nat) :
    List (Identifier × Term) → Except EncodeError (List Const × List Expr × Nat)
  | [] => .ok ([], [], next)
  | (_, t) :: args => do
    let p ← vectorize scopes next t
    let (consts, conjuncts, next) ← vectorizeArgs scopes p.next args
    return (p.witnesses ++ consts, p.formula :: conjuncts, next)

end

end Signature

end Realizability
