import Realizability.Binary64.Shortest
import Realizability.Term.Basic
import Realizability.Text.Quoted

/-!
# Described terms

Error messages name a term by its full structure: the kind of each node with its named parts.
A tuple of one has a closing comma.
-/

namespace Realizability

def tuple : List String → String
  | [] => "()"
  | [x] => "(" ++ x ++ ",)"
  | xs => "(" ++ ", ".intercalate xs ++ ")"

/-- A node by its kind and its parts. -/
def described (kind : String) (parts : List (String × String)) : String :=
  kind ++ "(" ++ ", ".intercalate (parts.map fun p => p.1 ++ "=" ++ p.2) ++ ")"

def TypedVar.describe (v : TypedVar) : String :=
  described "TypedVar" [("name", Text.quoted v.name), ("sort", v.sort.text)]

def describedNames (names : List String) : String := tuple (names.map Text.quoted)

def describedOperator (operator : Option String) : String := (operator.map Text.quoted).getD "None"

mutual

def Term.describe : Term → String
  | .app name sort args => described "Application"
      [("name", name.text), ("return_sort", sort.text), ("arguments", tuple (describeArgs args))]
  | .var name sort => described "Variable" [("name", Text.quoted name), ("sort", sort.text)]
  | .number n => described "NumberLiteral" [("value", toString n)]
  | .decimal x => described "DecimalLiteral" [("value", x.text)]
  | .string s => described "StringLiteral" [("value", Text.quoted s)]
  | .bits width value => described "BitVectorLiteral"
      [("size", toString width), ("value", toString value)]
  | .quantified kind bindings child => described "Quantifier"
      [("kind", Text.quoted kind.name), ("bindings", tuple (bindings.map TypedVar.describe)),
        ("child", child.describe)]
  | .matching scrutinee cases => described "Match"
      [("term", scrutinee.describe), ("cases", tuple (describeCases cases))]
  | .lambda names body => described "Lambda"
      [("arguments", describedNames names), ("body", body.describe)]

def describeArgs : List (Identifier × Term) → List String
  | [] => []
  | (sort, t) :: args =>
    described "TypedTerm" [("sort", sort.text), ("term", t.describe)] :: describeArgs args

def describeCases : List (MatchCase Term) → List String
  | [] => []
  | ⟨operator, names, result⟩ :: cases =>
    described "MatchCase" [("operator", describedOperator operator),
      ("arguments", describedNames names), ("result", result.describe)] :: describeCases cases

end

end Realizability
