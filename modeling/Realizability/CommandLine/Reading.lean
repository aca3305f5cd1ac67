import Realizability.CommandLine.Basic
import Realizability.Text.Integer

/-!
# Reading a command line

Every argument is a switch, the marker `--` or plain text; behind the marker all is plain. Long
switches may be abbreviated, short ones joined, and a value may be attached to its switch. What
nothing asks for is collected and refused in the end.
-/

namespace Realizability.CommandLine

inductive Arg
  | marker
  | plain (text : String)
  | switch (s : Switch) (name : String) (attached : Option (List Char))
  | unknown (text : String)
  deriving DecidableEq, Repr

def Arg.text : Arg → String
  | marker => "--"
  | plain text => text
  | switch _ name _ => name
  | unknown text => text

/-! ## Telling arguments apart -/

def splitEquals (arg : List Char) : List Char × Option (List Char) :=
  let name := arg.takeWhile (· != '=')
  match arg.drop name.length with
  | _ :: text => (name, some text)
  | [] => (name, none)

/-- A minus sign and digits, with a point before the last of them at most; a line end may follow. -/
def isNegativeNumber (arg : List Char) : Bool :=
  match arg with
  | '-' :: cs =>
    let cs := if cs.getLast? = some '\n' then cs.dropLast else cs
    let whole := cs.takeWhile Text.isDigit
    match cs.drop whole.length with
    | [] => !whole.isEmpty
    | '.' :: places => !places.isEmpty && places.all Text.isDigit
    | _ => false
  | _ => false

def candidates (arg : List Char) : List (Switch × String × Option (List Char)) :=
  match arg with
  | '-' :: '-' :: _ =>
    let (name, attached) := splitEquals arg
    Switch.named.filterMap fun n =>
      if name.isPrefixOf n.1.toList then some (n.2, n.1, attached) else none
  | '-' :: c :: rest =>
    Switch.named.filterMap fun n =>
      if n.1.toList = ['-', c] then some (n.2, n.1, some rest)
      else if arg.isPrefixOf n.1.toList then some (n.2, n.1, none)
      else none
  | _ => []

def classify (arg : String) : Except UsageError Arg :=
  let cs := arg.toList
  match cs with
  | '-' :: _ :: _ =>
    let (name, attached) := splitEquals cs
    match Switch.ofName? arg, attached, Switch.ofName? (String.ofList name) with
    | some s, _, _ => .ok (.switch s arg none)
    | none, some text, some s => .ok (.switch s (String.ofList name) (some text))
    | none, _, _ =>
      match candidates cs with
      | [(s, name, attached)] => .ok (.switch s name attached)
      | [] =>
        if isNegativeNumber cs || cs.contains ' ' then .ok (.plain arg) else .ok (.unknown arg)
      | several => .error (.ambiguous arg (several.map (·.2.1)))
  | _ => .ok (.plain arg)

/-- All arguments in order; behind a marker they are plain. -/
def classifyAll : List String → Except UsageError (List Arg)
  | [] => .ok []
  | arg :: args =>
    if arg = "--" then .ok (.marker :: args.map .plain)
    else do return (← classify arg) :: (← classifyAll args)

/-! ## Joined switches -/

/-- The switches that one argument names: the last alone may take a value, and it may be attached
to it. -/
structure Joined where
  before : List Switch
  last : Switch
  attached : Option String
  deriving DecidableEq, Repr

def Joined.after (s : Switch) (j : Joined) : Joined := { j with before := s :: j.before }

/-- Take apart the text behind a short switch: its letters are switches, up to the first that takes
a value, and what is left is that value. An equals sign is a letter like any other. -/
def joinShort (s : Switch) : List Char → Except UsageError Joined
  | [] => .ok ⟨[], s, none⟩
  | c :: cs =>
    match s.takes with
    | .nothing =>
      match Switch.ofName? (String.ofList ['-', c]) with
      | some next => (joinShort next cs).map (·.after s)
      | none => .error (.ignoredArgument s (String.ofList (c :: cs)))
    | _ => .ok ⟨[], s, some (String.ofList (c :: cs))⟩

def isShort (name : String) : Bool :=
  match name.toList with
  | '-' :: '-' :: _ => false
  | _ => true

def join (s : Switch) (name : String) : Option (List Char) → Except UsageError Joined
  | none => .ok ⟨[], s, none⟩
  | some text =>
    match s.takes with
    | .nothing =>
      if isShort name && !text.isEmpty then joinShort s text
      else .error (.ignoredArgument s (String.ofList text))
    | _ => .ok ⟨[], s, some (String.ofList text)⟩

/-! ## Settings -/

/-- The options so far. The file and the name of the engine may still be missing. -/
structure State where
  options : Options := { file := "" }
  file : Option String := none
  engine : Option Engine := some .horn
  extras : List String := []
  deriving DecidableEq, Repr

def engineNames : List String := [Engine.horn.name, Engine.smt.name]

/-- The marker is no value, even where it is attached to a switch. -/
def valueOf (text : String) : Option String := if text = "--" then none else some text

def State.set (st : State) : Switch × Option String → Except Refusal State
  | (.help, _) => .error .help
  | (.examples, value) => .ok { st with options.examples := .ofOption value }
  | (.engine, none) => .ok { st with engine := none }
  | (.engine, some name) =>
    if name ∈ engineNames then .ok { st with engine := some (Engine.ofName name) }
    else .error (.usage (.badChoice .engine name engineNames))
  | (.timeout, none) => .ok { st with options.timeout := .bare }
  | (.timeout, some text) =>
    match Text.integer? text with
    | some n => .ok { st with options.timeout := .value n }
    | none => .error (.usage (.badInteger .timeout text))
  | (.dump, value) => .ok { st with options.dump := .ofOption value }
  | (.printFormulas, _) => .ok { st with options.printFormulas := true }
  | (.verbose, _) => .ok { st with options.verbose := true }
  | (.quiet, _) => .ok { st with options.quiet := true }
  | (.debug, _) => .ok { st with options.debug := true }
  | (.noStats, _) => .ok { st with options.noStats := true }
  | (.suppressResult, _) => .ok { st with options.suppressResult := true }

def State.setAll (st : State) (j : Joined) (value : Option String) : Except Refusal State :=
  (j.before.map (·, none) ++ [(j.last, value)]).foldlM State.set st

def State.addExtras (st : State) (texts : List String) : State :=
  { st with extras := st.extras ++ texts }

def isOption : Arg → Bool
  | .switch .. | .unknown _ => true
  | _ => false

/-- The last stretch of arguments, which holds no switch any more. The file may stand before or
behind the marker. -/
def State.close (st : State) (rest : List Arg) : State :=
  match st.file, rest with
  | none, .plain text :: .marker :: rest | none, .marker :: .plain text :: rest
  | none, .plain text :: rest => { st with file := some text }.addExtras (rest.map Arg.text)
  | _, rest => st.addExtras (rest.map Arg.text)

/-- No switch of an argument is set before all are known and the last has its value, so that a fault
in the form of an argument wins over a fault in the value. -/
def readArgs (st : State) : List Arg → Except Refusal State
  | [] => .ok st
  | .switch s name attached :: rest => do
    let j ← (join s name attached).mapError .usage
    match j.attached, j.last.takes, rest with
    | some text, _, rest => readArgs (← st.setAll j (valueOf text)) rest
    | none, .nothing, rest => readArgs (← st.setAll j none) rest
    | none, _, .plain text :: rest => readArgs (← st.setAll j (valueOf text)) rest
    | none, .atMostOne, rest => readArgs (← st.setAll j none) rest
    | none, .one, _ => .error (.usage (.missingArgument j.last))
  | .unknown text :: rest => readArgs (st.addExtras [text]) rest
  | arg :: rest =>
    if rest.any isOption then
      match st.file with
      | none => readArgs { st with file := some arg.text } rest
      | some _ => readArgs (st.addExtras [arg.text]) rest
    else .ok (st.close (arg :: rest))

def read (args : List String) : Except Refusal Options := do
  let st ← readArgs {} (← (classifyAll args).mapError .usage)
  match st.file, st.extras, st.engine with
  | none, _, _ => .error (.usage .missingFile)
  | some _, extra :: extras, _ => .error (.usage (.unrecognized (extra :: extras)))
  | some _, [], none => .error .unnamedEngine
  | some file, [], some engine => return { st.options with file := file, engine := engine }

end Realizability.CommandLine
