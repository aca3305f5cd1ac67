import Realizability.Formula.Sort
import Realizability.Proofs.Outcome
import Realizability.Proofs.Script.Expression
import Realizability.Proofs.Script.Symbol

/-!
# Commands of a script

The commands that declare predicates and assert formulas. A script is read as a list of commands if
and only if its tokens are those of the commands.
-/

namespace Realizability.Script

/-! ## Sorts -/

def sortExpr : SmtSort → SExpr
  | .bool => .atom (.symbol "Bool")
  | .int => .atom (.symbol "Int")
  | .real => .atom (.symbol "Real")
  | .string => .atom (.symbol "String")
  | .bitVec width =>
    .list [.atom (.reserved "_"), .atom (.symbol "BitVec"), .atom (.numeral width)]

def sortOf? : SExpr → Option SmtSort
  | .atom (.symbol "Bool") => some .bool
  | .atom (.symbol "Int") => some .int
  | .atom (.symbol "Real") => some .real
  | .atom (.symbol "String") => some .string
  | .list [.atom (.reserved "_"), .atom (.symbol "BitVec"), .atom (.numeral width)] =>
    some (.bitVec width)
  | _ => none

theorem sortOf?_eq_some {x : SExpr} {sort : SmtSort} : sortOf? x = some sort ↔ sortExpr sort = x := by
  constructor
  · intro h
    unfold sortOf? at h
    split at h <;> cases h <;> rfl
  · rintro rfl
    cases sort <;> rfl

theorem writes_sort (sort : SmtSort) : Writes sort.text (sortExpr sort) := by
  cases sort with
  | bitVec width =>
    have htext : (SmtSort.bitVec width).text = writtenList ["_", "BitVec", toString width] := by
      simp [SmtSort.text, writtenList, ← String.append_assoc]
    rw [htext]
    exact Writes.list (.cons (by decide) (.cons (by decide) (.cons (spells_numeral width) .nil)))
  | bool => decide
  | int => decide
  | real => decide
  | string => decide

/-! ## Commands -/

inductive Command
  | setLogic (logic : String)
  | declareFun (name : String) (args : List SmtSort) (result : SmtSort)
  | assert (formula : SExpr)
  | checkSat

namespace Command

def expr : Command → SExpr
  | .setLogic logic => .list [.atom (.reserved "set-logic"), .atom (.symbol logic)]
  | .declareFun name args result =>
    .list [.atom (.reserved "declare-fun"), .atom (.symbol name), .list (args.map sortExpr),
      sortExpr result]
  | .assert formula => .list [.atom (.reserved "assert"), formula]
  | .checkSat => .list [.atom (.reserved "check-sat")]

/-- The command that an expression is; other commands are not read. -/
def ofExpr : SExpr → Option Command
  | .list [.atom (.reserved "set-logic"), .atom (.symbol logic)] => some (.setLogic logic)
  | .list [.atom (.reserved "declare-fun"), .atom (.symbol name), .list args, result] => do
    return .declareFun name (← args.mapM sortOf?) (← sortOf? result)
  | .list [.atom (.reserved "assert"), formula] => some (.assert formula)
  | .list [.atom (.reserved "check-sat")] => some .checkSat
  | _ => none

end Command

theorem mapM_eq_some_iff {α β : Type} {f : α → Option β} {g : β → α}
    (h : ∀ {a b}, f a = some b ↔ g b = a) {as : List α} {bs : List β} :
    as.mapM f = some bs ↔ bs.map g = as := by
  rw [mapM_eq_some]
  constructor
  · intro hf
    induction hf with
    | nil => rfl
    | cons hab _ ih => rw [List.map_cons, h.mp hab, ih]
  · rintro rfl
    induction bs with
    | nil => exact .nil
    | cons b bs ih => exact .cons (h.mpr rfl) ih

theorem Command.ofExpr_eq_some {x : SExpr} {c : Command} : ofExpr x = some c ↔ c.expr = x := by
  constructor
  · intro h
    unfold ofExpr at h
    split at h
    · cases h; rfl
    · obtain ⟨sorts, hargs, h⟩ := Option.bind_eq_some_iff.mp h
      obtain ⟨sort, hresult, h⟩ := Option.bind_eq_some_iff.mp h
      cases h
      rw [expr, (mapM_eq_some_iff sortOf?_eq_some).mp hargs, sortOf?_eq_some.mp hresult]
    · cases h; rfl
    · cases h; rfl
    · cases h
  · rintro rfl
    cases c with
    | declareFun name args result =>
      have hargs := (mapM_eq_some_iff sortOf?_eq_some).mpr (rfl : args.map sortExpr = _)
      have hresult := sortOf?_eq_some.mpr (rfl : sortExpr result = _)
      simp [expr, ofExpr, hargs, hresult]
    | setLogic logic => rfl
    | assert formula => rfl
    | checkSat => rfl

def readScript (s : String) : Option (List Command) := (exprs s).bind (List.mapM Command.ofExpr)

theorem readScript_eq_some {s : String} {cs : List Command} :
    readScript s = some cs ↔ tokens s = some (SExpr.tokensOf (cs.map Command.expr)) := by
  rw [readScript, Option.bind_eq_some_iff, ← exprs_eq_some]
  simp only [mapM_eq_some_iff Command.ofExpr_eq_some]
  exact ⟨fun ⟨_, hs, he⟩ => he ▸ hs, fun hs => ⟨_, hs, rfl⟩⟩

end Realizability.Script
