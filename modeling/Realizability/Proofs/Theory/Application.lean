import Realizability.Proofs.Theory.Formation
import Realizability.Proofs.Theory.Value

/-!
# Applied symbols

Applying a symbol to operands that it admits succeeds, and the expression that comes out has the
standard value of the symbol whatever its constants stand for (`Symbol.apply_standard`): coercions
and the sides on which numerals are written do not show in it.
-/

namespace Realizability

/-- The values of an expression are of its sort. -/
def Expr.Typed (e : Expr) : Prop := ∀ M ν, (e.value M ν).sort = e.sort

namespace Expr

theorem typed_const (c : Const) : (const c).Typed := fun _ ν => ν.sort_value c

theorem typed_int (n : Int) : (int n).Typed := fun _ _ => rfl

theorem means_each {es : List Expr} (h : ∀ e ∈ es, e.Typed) (M : Model) (ν : Valuation) :
    MeanEach M ν es (es.map (·.value M ν)) :=
  List.forall₂_map_right_iff.mpr (List.forall₂_same.mpr fun e he => ⟨rfl, h e he M ν⟩)

end Expr

theorem Operator.ofName?_name (op : Operator) : ofName? op.name = some op := by
  cases op <;> decide

theorem IndexedOperator.ofName?_name (op : IndexedOperator) : ofName? op.name = some op := by
  cases op <;> decide

theorem IndexedOperator.Admits.indices_ne_nil {op : IndexedOperator} {indices : List Index}
    {sorts : List SmtSort} (h : op.Admits indices sorts) : indices ≠ [] := by
  cases op with
  | extract =>
    obtain ⟨high, low, n, rfl, -⟩ := h
    exact List.cons_ne_nil _ _
  | zeroExtend | signExtend =>
    obtain ⟨k, n, rfl, -⟩ := h
    exact List.cons_ne_nil _ _

theorem Symbol.ofIdentifier?_identifier {s : Symbol} {sorts : List SmtSort} (h : s.Admits sorts) :
    ofIdentifier? s.identifier = some s := by
  cases s with
  | plain op => exact congrArg (Option.map plain) op.ofName?_name
  | indexed op indices =>
    have hne : indices.isEmpty = false := by simpa using h.indices_ne_nil
    rw [ofIdentifier?, identifier, hne]
    exact congrArg (Option.map (indexed · indices)) op.ofName?_name

/-- An applied symbol has its standard value. -/
theorem Symbol.apply_standard {s : Symbol} {es : List Expr} (htyped : ∀ e ∈ es, e.Typed)
    (h : s.Admits (es.map Expr.sort)) :
    ofIdentifier? s.identifier = some s ∧ ∃ e, s.apply es = .ok e ∧ e.Typed ∧
      ∀ M ν, s.Regular (es.map (·.value M ν)) →
        e.value M ν = s.standard (es.map (·.value M ν)) := by
  obtain ⟨e, he⟩ := s.apply_admitted h
  have hmeans := fun M ν => s.apply_means (Expr.means_each htyped M ν) he
  refine ⟨ofIdentifier?_identifier h, e, he, fun M ν => ?_, fun M ν hr => ?_⟩
  · obtain ⟨u, -, hu⟩ := hmeans M ν
    rw [hu.value, hu.sort]
  · obtain ⟨u, hu, hm⟩ := hmeans M ν
    have hsorts : (es.map (·.value M ν)).map Value.sort = es.map Expr.sort :=
      (Expr.means_each htyped M ν).sorts.symm
    rw [s.value_standard M.zero (hsorts ▸ h) hr, Option.some_inj] at hu
    rw [hm.value, hu]

/-! ## A chain of mixed numbers -/

namespace MixedChain

def x : Const := ⟨"x", none, .int⟩

def y : Const := ⟨"y", none, .real⟩

/-- The numeral stands on the right of the first comparison and on the left of the second. -/
def operands : List Expr := [.const x, .int 3, .const y]

theorem operands_standard : ∃ e, (Symbol.plain .le).apply operands = .ok e ∧
    ∀ M ν, e.value M ν = .ordered (· ≤ ·) [ν.value x, .int 3, ν.value y] := by
  have htyped : ∀ e ∈ operands, e.Typed := by
    simp only [operands, List.forall_mem_cons]
    exact ⟨Expr.typed_const x, Expr.typed_int 3, Expr.typed_const y, by simp⟩
  have hadmits : (Symbol.plain .le).Admits (operands.map Expr.sort) := by
    refine ⟨by decide, ?_⟩
    decide
  obtain ⟨-, e, he, -, hvalue⟩ := Symbol.apply_standard htyped hadmits
  exact ⟨e, he, fun M ν => hvalue M ν trivial⟩

end MixedChain

end Realizability
