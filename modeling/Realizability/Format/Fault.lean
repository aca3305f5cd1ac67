import Realizability.Json.Path

/-!
# Faults of the event format

A value is refused for one cause, located by the path to the place where it lies.
-/

namespace Realizability

/-- The values made of two lists that have to be equally long. -/
inductive Pairing
  | constructor
  | relation
  | application
  | quantifier
  deriving DecidableEq, Repr

def Pairing.phrase : Pairing → String
  | .constructor => "Argument sorts and arguments of CHC constructor"
  | .relation => "Signature and arguments of relation application"
  | .application => "Argument sorts and arguments of application"
  | .quantifier => "Bindings and binding sorts of quantifier"

inductive Usage
  | input
  | output
  deriving DecidableEq, Repr

def Usage.name : Usage → String
  | .input => "input"
  | .output => "output"

inductive FormatFault
  | missingField
  | expected (kind : Json.Kind)
  | unequalLengths (what : Pairing) (left right : Nat)
  | arityMismatch (sorts names : Nat)
  | emptyIdentifier
  | badIdentifier
  | badIndex
  | badTerm
  | unknownTerm (kind : String)
  | badWidth
  | negativeBits
  | badBits
  | notEvents
  | notTerms
  | unknownEvent (kind : String)
  | duplicateVariable (name : String)
  | unknownVariable (name : String) (usage : Usage)
  | duplicateNonterminal (name : String)
  | unknownNonterminal (name : String)
  | unknownChild (name : String)
  | duplicateProduction (operator nonterminal : String)
  deriving DecidableEq, Repr

namespace FormatFault

def lengths (m n : Nat) : String := toString m ++ " != " ++ toString n

def message : FormatFault → String
  | missingField => "Missing required field"
  | expected kind => "Expected " ++ kind.phrase
  | unequalLengths what m n => what.phrase ++ " have different lengths " ++ lengths m n
  | arityMismatch m n => "Number of argument sorts and lambda arity differ " ++ lengths m n
  | emptyIdentifier => "Identifier array must not be empty"
  | badIdentifier => "Identifier must be a string or an array"
  | badIndex => "Identifier index must be a string or an integer"
  | badTerm => "Term must be a number, a string or an object"
  | unknownTerm kind => "Unknown term type \"" ++ kind ++ "\""
  | badWidth => "Bit-vector size must be positive"
  | negativeBits => "Bit-vector value must be non-negative"
  | badBits => "Bit-vector value must be a non-negative integer or a #x/#b literal"
  | notEvents => "Event array must be a JSON array"
  | notTerms => "Term array must be a JSON array"
  | unknownEvent kind => "Unknown specification event \"" ++ kind ++ "\""
  | duplicateVariable name => "Duplicate variable \"" ++ name ++ "\""
  | unknownVariable name usage => "Unknown variable \"" ++ name ++ "\" declared as " ++ usage.name
  | duplicateNonterminal name => "Duplicate nonterminal declaration \"" ++ name ++ "\""
  | unknownNonterminal name => "Unknown nonterminal \"" ++ name ++ "\" referenced in production"
  | unknownChild name => "Unknown nonterminal \"" ++ name ++ "\" referenced in production child"
  | duplicateProduction operator nonterminal =>
    "Duplicate production \"" ++ operator ++ "\" for nonterminal \"" ++ nonterminal ++ "\""

end FormatFault

abbrev FormatError := Located FormatFault

def FormatError.message (e : FormatError) : String := Located.text FormatFault.message e

abbrev Read (α : Type) := Except FormatError α

def Read.fault {α : Type} (f : FormatFault) (p : Json.Path := []) : Read α := .error ⟨f, p⟩

end Realizability
