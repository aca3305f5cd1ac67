import Realizability.Term.Basic

/-!
# Sorts

The sorts of formulas, as named by the sort identifiers of a specification.
-/

namespace Realizability

inductive SmtSort
  | bool
  | int
  | real
  | string
  | bitVec (width : Nat)
  deriving DecidableEq, Repr, Inhabited

namespace SmtSort

def text : SmtSort → String
  | bool => "Bool"
  | int => "Int"
  | real => "Real"
  | string => "String"
  | bitVec width => "(_ BitVec " ++ toString width ++ ")"

def title : SmtSort → String
  | bitVec width => "BitVec(" ++ toString width ++ ")"
  | s => s.text

def isArith : SmtSort → Bool
  | int | real => true
  | _ => false

def isBitVec : SmtSort → Bool
  | bitVec _ => true
  | _ => false

end SmtSort

inductive SortError
  | indexCount (name : String) (expected got : Nat)
  | badWidth (width : Index)
  | unsupported (ident : Identifier)
  deriving DecidableEq, Repr

def SortError.message : SortError → String
  | indexCount name expected got =>
    "Sort " ++ name ++ " expects " ++ toString expected ++ " index/indices, got " ++ toString got
  | badWidth width => "Invalid bit-vector width " ++ width.text
  | unsupported ident => "Unsupported sort " ++ ident.text

/-- The sort that an identifier names. Only bit-vectors are indexed, by a positive width. -/
def SmtSort.ofIdentifier (ident : Identifier) : Except SortError SmtSort :=
  if ident.name = "BitVec" then
    match ident.indices with
    | [.number (.ofNat (n + 1))] => .ok (.bitVec (n + 1))
    | [index] => .error (.badWidth index)
    | indices => .error (.indexCount ident.name 1 indices.length)
  else if ident.indices.isEmpty then
    match ident.name with
    | "Int" => .ok .int
    | "Bool" => .ok .bool
    | "Real" => .ok .real
    | "String" => .ok .string
    | _ => .error (.unsupported ident)
  else .error (.indexCount ident.name 0 ident.indices.length)

end Realizability
