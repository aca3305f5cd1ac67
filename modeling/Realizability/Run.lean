import Realizability.CommandLine.Reading
import Realizability.Encoding.Script
import Realizability.Source
import Realizability.Text.Lines
import Realizability.Timing.Summary

/-!
# Runs

A run reads a problem, encodes it and asks a solver for a verdict, and it logs when each of its
stages ends. What it needs of the world around it, files, a clock, a solver and places to write to,
is given as a platform. A failure ends the run at its stage; it is reported, or handed on where the
options say so. Standard output may refuse a text, and what it refuses of the words that a run ends
with is not caught any more.
-/

namespace Realizability

open CommandLine Timing

/-- What a run needs of the world around it. -/
structure Platform (m : Type → Type) where
  fetch : String → m (Except Failure String)
  store : String → String → m (Except Failure Unit)
  solve : List Expr → Engine → Setting Int → m (Except Failure Verdict)
  now : m Binary64
  print : String → ExceptT Failure m Unit
  complain : String → m Unit
  log : Message → m Unit
  write : Expr → String

/-- A stage of a run: it may fail, and it adds to the timing log in either case. -/
abbrev Stage (m : Type → Type) (α : Type) := ExceptT Failure (StateT EventLog m) α

namespace Platform

variable {m : Type → Type} [Monad m] (p : Platform m)

def perform {α : Type} (x : m α) : Stage m α := ExceptT.lift (StateT.lift x)

def attempt {α : Type} (x : m (Except Failure α)) : Stage m α := ExceptT.mk (StateT.lift x)

def mark (kind : EventKind) (attributes : Table String := []) : StateT EventLog m Unit := do
  let time ← StateT.lift p.now
  modify (· ++ [⟨time, kind, attributes⟩])

def reach (kind : EventKind) : Stage m Unit := ExceptT.lift (p.mark kind)

def note (o : Options) (message : Message) : m Unit :=
  if message.level.passes o.level then p.log message else pure ()

def noteAll (o : Options) : List Message → m Unit
  | [] => pure ()
  | message :: rest => do
    p.note o message
    noteAll o rest

def tell (o : Options) (message : Message) : Stage m Unit := perform (p.note o message)

def conduct {α : Type} (o : Options) (x : Logged Failure α) : Stage m α := do
  perform (p.noteAll o x.messages)
  ExceptT.mk (pure x.outcome)

/-! ## Stages -/

def readProblem (o : Options) : Stage m Problem := do
  p.tell o (info ("Will check realizability of '" ++ o.file ++ "'"))
  let text ← attempt (p.fetch o.file)
  let events ← p.conduct o (parseEvents text)
  p.reach .parsed
  p.tell o (debug ("Parsed " ++ toString events.length ++ " events from " ++ o.file))
  let problem ← p.conduct o (buildProblem events)
  p.reach .built
  p.tell o (debug ("Problem:\n" ++ problem.text))
  return problem

def readExamples (o : Options) : Stage m (Option (List Term)) := do
  match o.examples with
  | .unset => return none
  | .bare => throw .unnamedFile
  | .value file =>
    let text ← attempt (p.fetch file)
    let rows ← p.conduct o (Logged.lift (parseTerms text))
    p.tell o (info ("Read " ++ toString rows.length ++ " example(s) from " ++ file))
    return some rows

def printFormulas (o : Options) (e : Encoding) : Stage m Unit := do
  if o.printFormulas then attempt (p.print (e.listing p.write)).run

/-- An empty name stands for the default file. -/
def dump (o : Options) (e : Encoding) : Stage m Unit := do
  if o.dump.isSet then
    let file := if o.dumpFile.isEmpty then defaultDump else o.dumpFile
    p.tell o (info ("Writing SMTLIB2 encoding to file " ++ file))
    attempt (p.store file (e.script p.write Encoding.defaultLogic))

def solveEncoded (o : Options) (problem : Problem) (rows : Option (List Term)) :
    Stage m Verdict := do
  let e ← p.conduct o ((problem.encode rows).mapError .encode)
  p.reach .encoded
  p.printFormulas o e
  p.dump o e
  p.reach .startSolver
  let verdict ← attempt (p.solve e.formulas o.engine o.timeout)
  p.reach .endSolver
  return verdict

def solveProblem (o : Options) (problem : Problem) (rows : Option (List Term)) :
    Stage m Verdict := do
  p.tell o (debug "Acquired z3 context")
  let outcome ← ExceptT.lift (p.solveEncoded o problem rows).run
  p.tell o (debug "Released z3 context")
  ExceptT.mk (pure outcome)

def check (o : Options) : Stage m Verdict := do
  let problem ← p.readProblem o
  let rows ← p.readExamples o
  p.solveProblem o problem rows

/-! ## Runs -/

def statusKind : Verdict → EventKind
  | .sat => .sat
  | .unsat => .unsat
  | _ => .unknown

def finalKind : Except Failure Verdict → EventKind
  | .ok verdict => statusKind verdict
  | .error _ => .error

def printStats (log : EventLog) : ExceptT Failure m Unit :=
  match table log with
  | .ok text => p.print text
  | .error e => throw (.outside e.message)

/-- A run yields its verdict, or nothing if its check has failed. With the option `debug` the
failure itself is handed on. -/
def conclude (o : Options) (outcome : Except Failure Verdict) (log : EventLog) :
    ExceptT Failure m (Option Verdict) := do
  match outcome with
  | .ok verdict => if !o.suppressResult then p.print verdict.report
  | .error e =>
    if o.debug then throw e
    p.print ("Terminating with exception (" ++ e.message ++ ")")
  if !o.noStats then p.printStats log
  return outcome.toOption

def run (o : Options) : StateT EventLog m (Except Failure (Option Verdict)) := do
  p.mark .start [("benchmark", o.file), ("engine", o.engine.name)]
  let outcome ← (p.check o).run
  p.mark (finalKind outcome)
  StateT.lift (p.conclude o outcome (← get)).run

/-- The exit code of the program on a command line. -/
def execute (args : List String) : m (Except Failure Nat) := do
  match CommandLine.read args with
  | .error refusal => ExceptT.run do
    let output := refusal.output
    if !output.isEmpty then p.print (output.dropEnd 1).toString
    ExceptT.lift (p.complain refusal.complaint)
    return refusal.exitCode
  | .ok o =>
    let (outcome, _) ← (p.run o).run []
    return outcome.map fun verdict => if verdict.isSome then 0 else 1

end Platform

end Realizability
