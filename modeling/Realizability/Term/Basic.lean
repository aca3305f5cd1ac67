import Realizability.Binary64.Basic

/-!
# Terms

The terms of a specification: applications and variables carry the sorts that were written down,
literals carry values. A match binds the names of each of its cases in the result of that case.
-/

namespace Realizability

inductive Index
  | name (s : String)
  | number (n : Int)
  deriving DecidableEq, Repr

def Index.text : Index → String
  | name s => s
  | number n => toString n

/-- A sort, or the name of an operator, with its indices. -/
structure Identifier where
  name : String
  indices : List Index := []
  deriving DecidableEq, Repr

def Identifier.text (ident : Identifier) : String :=
  if ident.indices.isEmpty then ident.name
  else ident.name ++ "[" ++ ", ".intercalate (ident.indices.map Index.text) ++ "]"

structure TypedVar where
  name : String
  sort : Identifier
  deriving DecidableEq, Repr

def typedVars (names : List String) (sorts : List Identifier) : List TypedVar :=
  List.zipWith TypedVar.mk names sorts

structure Relation where
  name : String
  args : List TypedVar
  deriving DecidableEq, Repr

def Relation.text (r : Relation) : String :=
  r.name ++ "(" ++ ", ".intercalate (r.args.map TypedVar.name) ++ ")"

inductive Quantifier
  | existential
  | universal
  deriving DecidableEq, Repr

def Quantifier.name : Quantifier → String
  | existential => "exists"
  | universal => "forall"

/-- A case of a match; without an operator it matches every term. -/
structure MatchCase (τ : Type) where
  operator : Option String
  names : List String
  result : τ
  deriving DecidableEq, Repr

inductive Term
  | app (name : Identifier) (sort : Identifier) (args : List (Identifier × Term))
  | var (name : String) (sort : Identifier)
  | number (n : Int)
  | decimal (x : Binary64)
  | string (s : String)
  | bits (width value : Nat)
  | quantified (kind : Quantifier) (bindings : List TypedVar) (child : Term)
  | matching (scrutinee : Term) (cases : List (MatchCase Term))
  | lambda (names : List String) (body : Term)
  deriving Inhabited, Repr

def Term.isLiteral : Term → Bool
  | number _ | decimal _ | string _ | bits .. => true
  | _ => false

end Realizability
