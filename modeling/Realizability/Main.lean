import Realizability.Formula.Written
import Realizability.Run

/-!
# The program

Runs the command line against the real world. No engine is linked in: the verdict on an encoding
is a line on standard input, so that a solver can be run on the written script, and without such a
line the verdict is `unknown`. Files and standard output refuse a text that cannot be encoded;
standard error escapes what it cannot encode.
-/

namespace Realizability.World

def fileFailure (name : String) : IO.Error → Failure
  | .noFileOrDirectory .. => .noFile name
  | e => .outside (toString e)

def fetch (name : String) : IO (Except Failure String) := do
  try
    let text ← IO.FS.readFile name
    return .ok (String.ofList (Text.unifyLineEnds text.toList))
  catch e => return .error (fileFailure name e)

/-- A file is opened before its text is encoded, so that it is left empty if that fails. -/
def store (name text : String) : IO (Except Failure Unit) := do
  let fault := Text.encodingFault? text
  try
    IO.FS.writeFile name (if fault.isSome then "" else text)
    return fault.elim (.ok ()) fun fault => .error (.outside fault)
  catch e => return .error (fileFailure name e)

def print (text : String) : IO (Except Failure Unit) := do
  match Text.encodingFault? text with
  | some fault => return .error (.outside fault)
  | none =>
    try
      IO.println text
      return .ok ()
    catch e => return .error (.outside (toString e))

def askVerdict : IO Verdict := do
  let answer ← (← IO.getStdin).getLine
  let word := answer.trimAscii.toString
  return if word.isEmpty then .unknown else .ofText word

/-- Seconds on a clock that only moves forward. -/
def now : IO Binary64 := do return Binary64.ofRatio false (← IO.monoMsNow) 1000

def platform : Platform IO where
  fetch := fetch
  store := store
  solve _ _ _ := do return .ok (← askVerdict)
  now := now
  print text := .mk (print text)
  complain text := IO.eprint (Text.backslashed text)
  log message := IO.eprintln (Text.backslashed message.text)
  write := Expr.written

end Realizability.World

def main (args : List String) : IO UInt32 := do
  match ← Realizability.World.platform.execute args with
  | .ok code => return code.toUInt32
  | .error e =>
    IO.eprintln (Realizability.Text.backslashed e.message)
    return 1
