/-!
# Engines and verdicts

A solver is run with one of two engines and answers with a verdict. The formulas of an encoding
are unsatisfiable if the examples can be realized.
-/

namespace Realizability

inductive Engine
  | horn
  | smt
  deriving DecidableEq, Repr

namespace Engine

def name : Engine → String
  | horn => "horn"
  | smt => "smt"

/-- The engine of a name in any case; a name that is not known stands for the Horn engine. -/
def ofName (name : String) : Engine := if name.toLower = "smt" then smt else horn

def ofNumber? : Int → Option Engine
  | 0 => some horn
  | 1 => some smt
  | _ => none

def nameOf (e : Option Engine) : String := (e.map name).getD "UNKNOWN"

end Engine

inductive Verdict
  | sat
  | unsat
  | unknown
  | other (text : String)
  deriving DecidableEq, Repr

namespace Verdict

def ofText : String → Verdict
  | "sat" => sat
  | "unsat" => unsat
  | "unknown" => unknown
  | text => other text

def text : Verdict → String
  | sat => "sat"
  | unsat => "unsat"
  | unknown => "unknown"
  | other text => text

def meaning : Verdict → String
  | unsat => "realizable on the given examples"
  | sat => "unrealizable on the given examples"
  | unknown => "realizability unknown"
  | other _ => "unexpected solver result"

/-- Whether the examples can be realized, if the solver could decide it. -/
def realizable? : Verdict → Option Bool
  | unsat => some true
  | sat => some false
  | _ => none

def report (v : Verdict) : String := v.text ++ " (" ++ v.meaning ++ ")"

end Verdict

end Realizability
