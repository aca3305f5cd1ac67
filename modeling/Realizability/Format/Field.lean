import Realizability.Format.Fault

/-!
# Typed fields

Looks up the fields of an object at the kind that the format asks for. A boolean is neither a
number nor a string, and `null` is a value like any other unless a field says otherwise.
-/

namespace Realizability

abbrev Members := Table Json

namespace Json

def asString : Json → Read String
  | string s => .ok s
  | _ => Read.fault (.expected .string)

def asObject : Json → Read Members
  | object members => .ok members
  | _ => Read.fault (.expected .object)

def asArray : Json → Read (List Json)
  | array items => .ok items
  | _ => Read.fault (.expected .array)

def asInteger : Json → Read Int
  | int n => .ok n
  | _ => Read.fault (.expected .integer)

end Json

/-- Read every item of a list whose first item has position `i`. -/
def readFrom {α β : Type} (f : α → Read β) (i : Nat) : List α → Read (List β)
  | [] => .ok []
  | x :: xs => do
    let y ← within [.index i] (f x)
    let ys ← readFrom f (i + 1) xs
    return y :: ys

def readEach {α β : Type} (f : α → Read β) (xs : List α) : Read (List β) := readFrom f 0 xs

namespace Members

def field (o : Members) (key : String) : Read Json :=
  match Table.get? key o with
  | some v => .ok v
  | none => Read.fault .missingField [.field key]

def fieldAs {α : Type} (f : Json → Read α) (o : Members) (key : String) : Read α := do
  within [.field key] (f (← o.field key))

def stringField : Members → String → Read String := fieldAs Json.asString
def objectField : Members → String → Read Members := fieldAs Json.asObject
def arrayField : Members → String → Read (List Json) := fieldAs Json.asArray
def integerField : Members → String → Read Int := fieldAs Json.asInteger

def objectsField (o : Members) (key : String) : Read (List Members) := do
  within [.field key] (readEach Json.asObject (← o.arrayField key))

def stringsField (o : Members) (key : String) : Read (List String) := do
  within [.field key] (readEach Json.asString (← o.arrayField key))

/-- Like `stringsField`, but a field that is absent or `null` counts as no list at all. -/
def stringsField? (o : Members) (key : String) : Read (Option (List String)) :=
  match Table.get? key o with
  | none | some .null => .ok none
  | some _ => do return some (← o.stringsField key)

end Members

def sameLength {α β : Type} (what : Pairing) (xs : List α) (ys : List β) : Read Unit :=
  if xs.length = ys.length then .ok ()
  else Read.fault (.unequalLengths what xs.length ys.length)

end Realizability
