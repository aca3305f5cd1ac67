import Realizability.Binary64.Shortest
import Realizability.Encoding.Basic
import Realizability.Event.Format
import Realizability.Failure
import Realizability.Solver
import Realizability.Text.Blank

/-!
# Sources

Problems and examples are read from Json text, which is given as such or by the name of a file. A
string names a file if there is a file of that name or if it does not begin like an array.
-/

namespace Realizability

/-- The text of a file by its name, if there is one. -/
abbrev Files := String → Option String

def Files.empty : Files := fun _ => none

def Files.open (files : Files) (name : String) : Except Failure String :=
  match files name with
  | some text => .ok text
  | none => .error (.noFile name)

def beginsArray (s : String) : Bool := (Text.trimLeft s.toList).head? == some '['

def resolve (files : Files) (s : String) : Except Failure String :=
  match files s with
  | some text => .ok text
  | none => if beginsArray s then .ok s else .error (.noFile s)

/-! ## Other values in place of a string -/

mutual

/-- How a value reads that was given in place of something else; strings are quoted inside other
values only. -/
def Json.describe : Json → String
  | .null => "None"
  | .bool b => if b then "True" else "False"
  | .int n => toString n
  | .decimal x => x.text
  | .string s => Text.quoted s
  | .array items => "[" ++ ", ".intercalate (describeItems items) ++ "]"
  | .object members => "\x7b" ++ ", ".intercalate (describeMembers members) ++ "\x7d"

def describeItems : List Json → List String
  | [] => []
  | v :: vs => v.describe :: describeItems vs

def describeMembers : List (String × Json) → List String
  | [] => []
  | (k, v) :: ms => (Text.quoted k ++ ": " ++ v.describe) :: describeMembers ms

end

def Json.kindName : Json → String
  | .null => "NoneType"
  | .bool _ => "bool"
  | .int _ => "int"
  | .decimal _ => "float"
  | .string _ => "str"
  | .array _ => "list"
  | .object _ => "dict"

def Json.shown : Json → String
  | .string s => s
  | v => v.describe

def Json.unsupported (v : Json) : Failure := .unsupported v.shown v.kindName

/-! ## Reading -/

def readJson (text : String) : Except Failure Json := (Json.ofText text).mapError .malformed

def parsedNote (count : Nat) : Message := debug ("Parsed " ++ toString count ++ " events")

def parseEvent (text : String) : Except Failure Event := do
  (Event.ofJson (← readJson text)).mapError .format

def parseEvents (text : String) : Logged Failure (List Event) := do
  let v ← readJson text
  let events ← (Event.listOfJson v).mapError Failure.format
  Logged.write (parsedNote events.length)
  return events

def parseTerms (text : String) : Except Failure (List Term) := do
  (Term.listOfJson (← readJson text)).mapError .format

def buildProblem (events : List Event) : Logged Failure Problem :=
  (Problem.ofEvents events).mapError .build

def parseProblem (text : String) : Logged Failure Problem := do
  buildProblem (← parseEvents text)

def loadProblem (files : Files) (source : String) : Logged Failure Problem := do
  parseProblem (← resolve files source)

def loadExamples (files : Files) (source : String) : Except Failure (List Term) := do
  parseTerms (← resolve files source)

/-! ## Encoding and solving -/

/-- A computation inside a solver context, which is released however it ends. -/
def inContext {ε α : Type} (x : Logged ε α) : Logged ε α :=
  ⟨debug "Acquired z3 context" :: x.messages ++ [debug "Released z3 context"], x.outcome⟩

/-- The encoding of the problem in a text, on the examples in another text if there is one. -/
def encodeText (problem : String) (examples : Option String) : Logged Failure Encoding := do
  let p ← parseProblem problem
  let rows ← match examples with
    | none => pure none
    | some text => do pure (some (← (parseTerms text : Except Failure _)))
  (p.encode rows).mapError .encode

/-- The encoding of the problem in a source. Examples given by a source of their own are read
first. -/
def encodeSource (files : Files) (problem : String) (examples : Option String) :
    Logged Failure Encoding := do
  let rows ← match examples with
    | none => pure none
    | some source => do pure (some (← (loadExamples files source : Except Failure _)))
  let p ← loadProblem files problem
  (p.encode rows).mapError .encode

def isRealizable (files : Files) (solve : List Expr → Verdict) (problem : String)
    (examples : Option String) : Logged Failure (Option Bool) :=
  inContext do
    let e ← encodeSource files problem examples
    return (solve e.formulas).realizable?

end Realizability
