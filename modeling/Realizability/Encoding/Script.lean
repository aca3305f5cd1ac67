import Realizability.Encoding.Basic
import Realizability.Formula.Written
import Realizability.Text.Lines

/-!
# Scripts and listings

A script declares the indicators and asserts the formulas of an encoding, for any solver that
reads SMT-LIB. A listing shows the formulas under the names of their functions. Both leave it to
the caller how a formula is written.
-/

namespace Realizability.Encoding

def declaration (e : Encoding) (name : String) (sort : SmtSort) : String :=
  "(declare-fun " ++ writtenSymbol name ++ " " ++
    writtenList (List.replicate e.examples.size sort.text) ++ " " ++ SmtSort.bool.text ++ ")"

def assertion (write : Expr → String) (formula : Expr) : String :=
  "(assert " ++ write formula ++ ")"

def defaultLogic : String := "HORN"

/-- The lines of a script; an empty logic is not set. -/
def scriptLines (write : Expr → String) (logic : String) (e : Encoding) : List String :=
  (if logic.isEmpty then [] else ["(set-logic " ++ logic ++ ")"]) ++
  e.indicators.map (fun i => e.declaration i.1 i.2) ++
  e.clauses.flatMap (fun c => ("; " ++ c.1) :: c.2.map (assertion write)) ++
  ["; query for " ++ e.target, assertion write e.query, "(check-sat)"]

def script (write : Expr → String) (logic : String) (e : Encoding) : String :=
  "\n".intercalate (e.scriptLines write logic) ++ "\n"

def listing (write : Expr → String) (e : Encoding) : String :=
  let shown (formula : Expr) := Text.indented 4 (write formula)
  "\n".intercalate (
    ["Encoding of " ++ e.target ++ " on " ++ toString e.examples.size ++ " example(s)"] ++
    e.clauses.flatMap (fun c => ("  " ++ c.1 ++ ":") :: c.2.map shown) ++
    ["  query:", shown e.query])

end Realizability.Encoding
