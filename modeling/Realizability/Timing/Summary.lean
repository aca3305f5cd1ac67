import Realizability.Binary64.Fixed
import Realizability.Text.Lines
import Realizability.Timing.Basic

/-!
# Timing tables

One row per run: how long each phase took, counted from the end of the phase before it, and how
the run ended. Solving is counted from the start of the solver if that was logged.
-/

namespace Realizability.Timing

def EventKind.status? : EventKind → Option String
  | sat => some "SAT"
  | unsat => some "UNSAT"
  | unknown => some "UNKNOWN"
  | error => some "ERR"
  | _ => none

/-- The status of the last event that has one. -/
def statusOf (events : List TimedEvent) : String :=
  (events.reverse.findSome? (·.kind.status?)).getD "?"

/-- The time of the last event of a kind. -/
def stamp? (events : List TimedEvent) (kind : EventKind) : Option Binary64 :=
  (events.reverse.find? (·.kind = kind)).map TimedEvent.time

def phases : List EventKind := [.parsed, .built, .encoded, .endSolver]

/-- The durations of phases, the first of which begins at `begun`. -/
def durationsFrom (events : List TimedEvent) (begun : Binary64) :
    List EventKind → List (Option Binary64)
  | [] => []
  | phase :: rest =>
    let begun := if phase = .endSolver then (stamp? events .startSolver).getD begun else begun
    match stamp? events phase with
    | some time => some (time.sub begun) :: durationsFrom events time rest
    | none => none :: durationsFrom events begun rest

def totalOf (events : List TimedEvent) (begun : Binary64) : Option Binary64 :=
  ((phases.filterMap (stamp? events)).getLast?).map (·.sub begun)

def durationText : Option Binary64 → String
  | some d => Text.padLeft 8 (d.fixed 4)
  | none => "n/a"

def row (start : TimedEvent) (events : List TimedEvent) : Except TimingError (List String) := do
  let benchmark ← start.value "benchmark"
  let engine ← start.value "engine"
  return [benchmark, engine] ++
    (durationsFrom events start.time phases).map durationText ++
    [durationText (totalOf events start.time), Text.padLeft 7 (statusOf events)]

def rows (log : EventLog) : Except TimingError (List (List String)) := do
  (← runs log).mapM fun
    | [] => .error .noStart
    | start :: events => row start events

def headings : List String :=
  ["Benchmark", "Engine", "Parse", "Build", "Encode", "Solve", "Total", "Status"]

def widths (rows : List (List String)) : List Nat :=
  rows.foldl (fun ws row => List.zipWith (fun w cell => max w cell.length) ws row)
    (headings.map String.length)

def line (widths : List Nat) (cells : List String) : String :=
  " | ".intercalate (List.zipWith Text.padRight widths cells)

def table (log : EventLog) : Except TimingError String := do
  let rows ← rows log
  return "\n".intercalate ((headings :: rows).map (line (widths rows)))

end Realizability.Timing
