import Realizability.Binary64.Shortest
import Realizability.Table

/-!
# Timing logs

A log holds the timed events of runs one after the other; each run begins with a start event. A
log that does not begin with one cannot be split into runs.
-/

namespace Realizability.Timing

inductive EventKind
  | start
  | parsed
  | built
  | encoded
  | startSolver
  | endSolver
  | sat
  | unsat
  | unknown
  | error
  deriving DecidableEq, Repr

def EventKind.number : EventKind → Nat
  | start => 0
  | parsed => 1
  | built => 2
  | encoded => 3
  | startSolver => 4
  | endSolver => 5
  | sat => 6
  | unsat => 7
  | unknown => 8
  | error => 9

structure TimedEvent where
  time : Binary64
  kind : EventKind
  attributes : Table String := []
  deriving DecidableEq, Repr

inductive TimingError
  | noStart
  | undefinedAttribute (name : String)
  deriving DecidableEq, Repr

def TimingError.message : TimingError → String
  | noStart => ""
  | undefinedAttribute name => "Access of undefined event attribute " ++ name

namespace TimedEvent

def isStart (e : TimedEvent) : Bool := e.kind == .start

def value (e : TimedEvent) (name : String) : Except TimingError String :=
  match e.attributes.get? name with
  | some value => .ok value
  | none => .error (.undefinedAttribute name)

def text (e : TimedEvent) : String :=
  "Event(" ++ e.time.text ++ ", " ++ toString e.kind.number ++
    String.join (e.attributes.map fun a => ", " ++ a.1 ++ " = " ++ a.2) ++ ")"

end TimedEvent

abbrev EventLog := List TimedEvent

/-- The log cut in front of every start event. -/
def blocks (log : EventLog) : List (List TimedEvent) := log.splitBy fun _ next => !next.isStart

def runs (log : EventLog) : Except TimingError (List (List TimedEvent)) :=
  match log with
  | [] => .ok []
  | e :: _ => if e.isStart then .ok (blocks log) else .error .noStart

end Realizability.Timing
