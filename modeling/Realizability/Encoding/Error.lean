import Realizability.Formula.Theory
import Realizability.Term.Described

/-!
# Encoding errors

Why a problem or its examples cannot be encoded. Operands that do not fit an operator are reported
by the name of the operator; a misuse outside of operators has no message of its own.
-/

namespace Realizability

inductive LiteralError
  | sort (e : SortError)
  | notLiteral (t : Term)
  deriving Repr

inductive ExampleError
  | notApplication (row : Nat) (t : Term)
  | otherOperator (row : Nat) (got expected : String)
  | otherLength (row : Nat) (got expected : Nat)
  | tooNarrow (operator : String)
  | value (row : Nat) (cause : LiteralError)
  deriving Repr

inductive EncodeError
  | literal (e : LiteralError)
  | examples (e : ExampleError)
  | unknownOperator (ident : Identifier)
  | unbound (name : String)
  | universalPremise (t : Term)
  | nestedQuantifier (t : Term)
  | nestedMatch
  | nestedLambda
  | application (e : ApplyError)
  | notApplicable (ident : Identifier)
  | callWithoutArguments (name : String)
  | callMismatch (name : String)
  | noArguments (function : String)
  | tooFewArguments (function : String)
  | noMatch (function : String)
  | unknownFunction (name : String)
  | noFunction (termType : String)
  | outputMismatch (function : String)
  | misuse (m : Misuse)
  deriving Repr

def LiteralError.message : LiteralError → String
  | sort e => e.message
  | notLiteral t => "Expected a literal, got " ++ t.describe

def ExampleError.message : ExampleError → String
  | notApplication row t => "Example " ++ toString row ++ " is no application: " ++ t.describe
  | otherOperator row got expected =>
    "Example " ++ toString row ++ " applies " ++ got ++ " instead of " ++ expected
  | otherLength row got expected =>
    "Example " ++ toString row ++ " has " ++ toString got ++ " arguments instead of " ++
      toString expected
  | tooNarrow operator => "Examples of " ++ operator ++ " need a term and a result position"
  | value row cause => "Example " ++ toString row ++ ": " ++ cause.message

def ApplyError.message : ApplyError → String
  | arity name expected got =>
    "Operator " ++ name ++ " expects " ++ toString expected ++ " argument(s), got " ++ toString got
  | noArguments name => "Operator " ++ name ++ " expects at least one argument"
  | oneArgument name => "Operator " ++ name ++ " expects at least two arguments"
  | indexCount name expected got =>
    "Indexed operator " ++ name ++ " expects " ++ toString expected ++ " index/indices, got " ++
      toString got
  | misuse _ => ""

def EncodeError.message : EncodeError → String
  | literal e => e.message
  | examples e => e.message
  | unknownOperator ident => "Unknown operator " ++ ident.text
  | unbound name => "Unbound variable " ++ name
  | universalPremise t => "Universal quantifier in the premise of a Horn clause: " ++ t.describe
  | nestedQuantifier t => "Quantifier below a non-conjunctive operator: " ++ t.describe
  | nestedMatch => "No support for nested match terms"
  | nestedLambda => "No support for nested lambda terms"
  | application e => e.message
  | notApplicable ident => "Could not apply " ++ ident.text ++ ": "
  | callWithoutArguments name => "Call of " ++ name ++ " without arguments"
  | callMismatch name => "Could not apply indicator of " ++ name ++ ": "
  | noArguments function => "Function " ++ function ++ " has no arguments"
  | tooFewArguments function =>
    "Function " ++ function ++ " needs a term argument and a result argument"
  | noMatch function => "Body of function " ++ function ++ " is no match term"
  | unknownFunction name => "Examples apply unknown function " ++ name
  | noFunction termType => "No function over terms of type " ++ termType
  | outputMismatch function => "Example outputs do not fit the result of " ++ function ++ ": "
  | misuse _ => ""

def sortOf (ident : Identifier) : Except EncodeError SmtSort :=
  (SmtSort.ofIdentifier ident).mapError (.literal ∘ .sort)

def formed {α : Type} (x : Build α) : Except EncodeError α := x.mapError .misuse

end Realizability
