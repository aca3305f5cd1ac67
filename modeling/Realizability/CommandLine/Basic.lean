import Realizability.Log
import Realizability.Solver
import Realizability.Text.Quoted

/-!
# The command line

The options that a run is started with, the switches that set them, and why a command line is
refused.
-/

namespace Realizability.CommandLine

/-- What is said about an option that takes a value: nothing, its switch without a value, or a
value. -/
inductive Setting (α : Type)
  | unset
  | bare
  | value (a : α)
  deriving DecidableEq, Repr

namespace Setting

variable {α : Type}

def ofOption : Option α → Setting α
  | none => .bare
  | some a => .value a

def isSet : Setting α → Bool
  | unset => false
  | _ => true

end Setting

structure Options where
  file : String
  examples : Setting String := .unset
  engine : Engine := .horn
  timeout : Setting Int := .unset
  dump : Setting String := .unset
  printFormulas : Bool := false
  verbose : Bool := false
  quiet : Bool := false
  debug : Bool := false
  noStats : Bool := false
  suppressResult : Bool := false
  deriving DecidableEq, Repr

def defaultDump : String := "encoding.smt2"

/-- Verbosity wins over quiet. -/
def Options.level (o : Options) : Level :=
  if o.verbose then .debug else if o.quiet then .warning else .info

def Options.dumpFile (o : Options) : String :=
  match o.dump with
  | .value file => file
  | _ => defaultDump

/-! ## Switches -/

inductive Switch
  | help
  | examples
  | engine
  | timeout
  | dump
  | printFormulas
  | verbose
  | quiet
  | debug
  | noStats
  | suppressResult
  deriving DecidableEq, Repr

inductive Takes
  | nothing
  | one
  | atMostOne
  deriving DecidableEq, Repr

namespace Switch

def all : List Switch :=
  [help, examples, engine, timeout, dump, printFormulas, verbose, quiet, debug, noStats,
    suppressResult]

def names : Switch → List String
  | help => ["-h", "--help"]
  | examples => ["-x", "--examples"]
  | engine => ["-e", "--engine"]
  | timeout => ["-t", "--timeout"]
  | dump => ["--dump-smt"]
  | printFormulas => ["--print-formulas"]
  | verbose => ["-v", "--verbose"]
  | quiet => ["-q", "--quiet"]
  | debug => ["--debug"]
  | noStats => ["--no-stats"]
  | suppressResult => ["--suppress-result"]

def takes : Switch → Takes
  | examples | engine | timeout => .one
  | dump => .atMostOne
  | _ => .nothing

def named : List (String × Switch) := all.flatMap fun s => s.names.map fun n => (n, s)

def ofName? (name : String) : Option Switch := (named.find? (·.1 = name)).map Prod.snd

def title (s : Switch) : String := "/".intercalate s.names

end Switch

/-! ## Refusals -/

inductive UsageError
  | ambiguous (arg : String) (names : List String)
  | missingArgument (s : Switch)
  | ignoredArgument (s : Switch) (arg : String)
  | badInteger (s : Switch) (arg : String)
  | badChoice (s : Switch) (arg : String) (choices : List String)
  | missingFile
  | unrecognized (args : List String)
  deriving DecidableEq, Repr

def aboutSwitch (s : Switch) (text : String) : String := "argument " ++ s.title ++ ": " ++ text

def UsageError.message : UsageError → String
  | ambiguous arg names =>
    "ambiguous option: " ++ arg ++ " could match " ++ ", ".intercalate names
  | missingArgument s => aboutSwitch s "expected one argument"
  | ignoredArgument s arg => aboutSwitch s ("ignored explicit argument " ++ Text.quoted arg)
  | badInteger s arg => aboutSwitch s ("invalid int value: " ++ Text.quoted arg)
  | badChoice s arg choices => aboutSwitch s ("invalid choice: " ++ Text.quoted arg ++
      " (choose from " ++ ", ".intercalate (choices.map Text.quoted) ++ ")")
  | missingFile => "the following arguments are required: filename"
  | unrecognized args => "unrecognized arguments: " ++ " ".intercalate args

/-- A command line that starts no run: it asks for help, is wrong, or is well formed but leaves the
engine without a name. -/
inductive Refusal
  | help
  | usage (e : UsageError)
  | unnamedEngine
  deriving DecidableEq, Repr

def Refusal.exitCode : Refusal → Nat
  | help => 0
  | usage _ => 2
  | unnamedEngine => 1

/-! ## Texts -/

def programName : String := "semhorn"

def usageLines : List String :=
  ["usage: " ++ programName ++ " [-h] [-x EXAMPLES] [-e \x7bhorn,smt\x7d] [-t TIMEOUT]",
    "               [--dump-smt [FILE]] [--print-formulas] [-v] [-q] [--debug]",
    "               [--no-stats]",
    "               filename"]

def helpLines : List String :=
  usageLines ++
  ["",
    "Check the realizability of a SemGuS problem on a set of examples",
    "",
    "positional arguments:",
    "  filename              Path to the JSON event stream of the SemGuS problem",
    "",
    "options:",
    "  -h, --help            show this help message and exit",
    "  -x EXAMPLES, --examples EXAMPLES",
    "                        JSON file with example rows to use instead of the",
    "                        constraints",
    "  -e \x7bhorn,smt\x7d, --engine \x7bhorn,smt\x7d",
    "                        z3 engine used to check the encoding",
    "  -t TIMEOUT, --timeout TIMEOUT",
    "                        solver timeout in milliseconds",
    "  --dump-smt [FILE]     write smt encoding to file",
    "  --print-formulas      print the encoded formulas",
    "  -v, --verbose         increase output verbosity",
    "  -q, --quiet           decrease output verbosity",
    "  --debug               debug output",
    "  --no-stats            do not print timing statistics"]

def unlines (lines : List String) : String := String.join (lines.map (· ++ "\n"))

def Refusal.output : Refusal → String
  | help => unlines helpLines
  | usage _ | unnamedEngine => ""

def Refusal.complaint : Refusal → String
  | help => ""
  | usage e => unlines (usageLines ++ [programName ++ ": error: " ++ e.message])
  | unnamedEngine => unlines [programName ++ ": the engine has no name"]

end Realizability.CommandLine
