import Realizability.Json.Basic

/-!
# Places in a Json value

A path leads from the root of a value through fields and positions. A fault found deep inside a
value is located by the path to it, which grows at the front while the fault travels outwards.
-/

namespace Realizability

namespace Json

inductive Step
  | field (name : String)
  | index (i : Nat)
  deriving DecidableEq, Repr

def Step.text : Step → String
  | .field name => name
  | .index i => toString i

abbrev Path := List Step

def Path.text (p : Path) : String := ".".intercalate (p.map Step.text)

def step? : Json → Step → Option Json
  | .object members, .field name => Table.get? name members
  | .array items, .index i => items[i]?
  | _, _ => none

def follow? (v : Json) : Path → Option Json
  | [] => some v
  | s :: p => (v.step? s).bind (·.follow? p)

end Json

structure Located (ε : Type) where
  fault : ε
  path : Json.Path := []
  deriving DecidableEq, Repr

namespace Located

variable {ε : Type}

def under (p : Json.Path) (e : Located ε) : Located ε := { e with path := p ++ e.path }

def text (message : ε → String) (e : Located ε) : String :=
  if e.path.isEmpty then message e.fault else message e.fault ++ " at " ++ e.path.text

@[simp] theorem under_nil (e : Located ε) : e.under [] = e := rfl

theorem under_under (p q : Json.Path) (e : Located ε) :
    (e.under q).under p = e.under (p ++ q) := by
  simp [under]

end Located

/-- The same result, its fault located below `p`. -/
def within {ε α : Type} (p : Json.Path) : Except (Located ε) α → Except (Located ε) α
  | .ok a => .ok a
  | .error e => .error (e.under p)

@[simp] theorem within_ok {ε α : Type} (p : Json.Path) (a : α) :
    within p (.ok a : Except (Located ε) α) = .ok a := rfl

@[simp] theorem within_error {ε α : Type} (p : Json.Path) (e : Located ε) :
    within p (.error e : Except (Located ε) α) = .error (e.under p) := rfl

end Realizability
