import Realizability.Format.Field
import Realizability.Term.Basic
import Realizability.Text.Digit

/-!
# Terms in the event format

A term is a number, a string or an object that names its kind. Every other value is refused at
the place where it stands, and the fields of a kind are asked for in a fixed order.
-/

namespace Realizability

/-! ## Identifiers and relations -/

def Index.ofJson : Json → Read Index
  | .string s => .ok (.name s)
  | .int n => .ok (.number n)
  | _ => Read.fault .badIndex

def Identifier.ofJson : Json → Read Identifier
  | .string s => .ok ⟨s, []⟩
  | .array [] => Read.fault .emptyIdentifier
  | .array (head :: indices) => do
    let name ← within [.index 0] head.asString
    let indices ← readFrom Index.ofJson 1 indices
    return ⟨name, indices⟩
  | _ => Read.fault .badIdentifier

namespace Members

def identifierField : Members → String → Read Identifier := fieldAs Identifier.ofJson

def identifiersField (o : Members) (key : String) : Read (List Identifier) := do
  within [.field key] (readEach Identifier.ofJson (← o.arrayField key))

end Members

def Relation.ofMembers (o : Members) : Read Relation := do
  let name ← o.stringField "name"
  let signature ← o.arrayField "signature"
  let args ← o.stringsField "arguments"
  sameLength .relation signature args
  let sorts ← within [.field "signature"] (readEach Identifier.ofJson signature)
  return ⟨name, typedVars args sorts⟩

/-! ## Bit-vector literals -/

/-- The number that digits of a base denote; a line end may follow the last of them. -/
def numeral? (base : Nat) (digit? : Char → Option Nat) (value : Nat) : List Char → Option Nat
  | [] => some value
  | ['\n'] => some value
  | c :: cs => do numeral? base digit? (value * base + (← digit? c)) cs

def bitsOfText? (s : String) : Option Nat :=
  match s.toList with
  | '#' :: 'x' :: c :: cs => do numeral? 16 Text.hexValue? (← Text.hexValue? c) cs
  | '#' :: 'b' :: c :: cs => do numeral? 2 Text.binaryValue? (← Text.binaryValue? c) cs
  | _ => none

def bitsOfJson : Json → Read Nat
  | .int (.ofNat n) => .ok n
  | .int (.negSucc _) => Read.fault .negativeBits [.field "value"]
  | .string s =>
    match bitsOfText? s with
    | some n => .ok n
    | none => Read.fault .badBits [.field "value"]
  | _ => Read.fault .badBits [.field "value"]

/-! ## Terms -/

def bindingsOf (o : Members) : Read (List TypedVar) := do
  let names ← o.stringsField "bindings"
  let sorts ← o.identifiersField "bindingSorts"
  sameLength .quantifier names sorts
  return typedVars names sorts

mutual

def Term.ofJson : Json → Read Term
  | .int n => .ok (.number n)
  | .decimal x => .ok (.decimal x)
  | .string s => .ok (.string s)
  | .object o => do
    match ← Members.stringField o "$termType" with
    | "application" =>
      let name ← Members.identifierField o "name"
      let sort ← Members.identifierField o "returnSort"
      let sorts ← Members.identifiersField o "argumentSorts"
      let args ← Members.arrayField o "arguments"
      sameLength .application sorts args
      let args ← termItems "arguments" o
      return .app name sort (sorts.zip args)
    | "variable" =>
      let name ← Members.stringField o "name"
      let sort ← Members.identifierField o "sort"
      return .var name sort
    | "exists" =>
      let bindings ← bindingsOf o
      let child ← termMember "child" o
      return .quantified .existential bindings child
    | "forall" =>
      let bindings ← bindingsOf o
      let child ← termMember "child" o
      return .quantified .universal bindings child
    | "match" =>
      let scrutinee ← termMember "term" o
      let _ ← Members.objectsField o "binders"
      let cases ← caseItems "binders" o
      return .matching scrutinee cases
    | "lambda" =>
      let names ← Members.stringsField o "arguments"
      let body ← termMember "body" o
      return .lambda names body
    | "bitvector" =>
      let width ← Members.integerField o "size"
      if width ≤ 0 then Read.fault .badWidth [.field "size"] else
        let value ← bitsOfJson (← Members.field o "value")
        return .bits width.toNat value
    | kind => Read.fault (.unknownTerm kind) [.field "$termType"]
  | _ => Read.fault .badTerm

def termMember (key : String) : Members → Read Term
  | [] => Read.fault .missingField [.field key]
  | (k, v) :: o => if k = key then within [.field key] (Term.ofJson v) else termMember key o

def termItems (key : String) : Members → Read (List Term)
  | [] => Read.fault .missingField [.field key]
  | (k, v) :: o => if k = key then within [.field key] (termsOf v) else termItems key o

def termsOf : Json → Read (List Term)
  | .array items => termsFrom 0 items
  | _ => Read.fault (.expected .array)

def termsFrom (i : Nat) : List Json → Read (List Term)
  | [] => .ok []
  | v :: vs => do
    let t ← within [.index i] (Term.ofJson v)
    let ts ← termsFrom (i + 1) vs
    return t :: ts

def caseItems (key : String) : Members → Read (List (MatchCase Term))
  | [] => Read.fault .missingField [.field key]
  | (k, v) :: o => if k = key then within [.field key] (casesOf v) else caseItems key o

def casesOf : Json → Read (List (MatchCase Term))
  | .array items => casesFrom 0 items
  | _ => Read.fault (.expected .array)

def casesFrom (i : Nat) : List Json → Read (List (MatchCase Term))
  | [] => .ok []
  | v :: vs => do
    let c ← within [.index i] (caseOf v)
    let cs ← casesFrom (i + 1) vs
    return c :: cs

def caseOf : Json → Read (MatchCase Term)
  | .object o => do
    let operator ← match ← Members.field o "operator" with
      | .null => pure none
      | v => some <$> within [.field "operator"] v.asString
    let names ← Members.stringsField o "arguments"
    let result ← termMember "child" o
    return ⟨operator, names, result⟩
  | _ => Read.fault (.expected .object)

end

def Term.listOfJson : Json → Read (List Term)
  | .array items => termsFrom 0 items
  | _ => Read.fault .notTerms

end Realizability
