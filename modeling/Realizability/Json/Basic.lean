import Realizability.Binary64.Basic
import Realizability.Table

/-!
# Json values

The members of an object keep their order. A number written without fraction and exponent is an
integer of any size, every other number is a binary64 number.
-/

namespace Realizability

inductive Json
  | null
  | bool (b : Bool)
  | int (n : Int)
  | decimal (x : Binary64)
  | string (s : String)
  | array (items : List Json)
  | object (members : List (String × Json))
  deriving Inhabited, Repr

namespace Json

/-- The kinds of value that a field may call for. -/
inductive Kind
  | string
  | object
  | array
  | integer
  deriving DecidableEq, Repr

def Kind.phrase : Kind → String
  | .string => "a string"
  | .object => "an object"
  | .array => "an array"
  | .integer => "an integer"

def hasKind : Json → Kind → Bool
  | .string _, .string => true
  | .object _, .object => true
  | .array _, .array => true
  | .int _, .integer => true
  | _, _ => false

end Json

end Realizability
