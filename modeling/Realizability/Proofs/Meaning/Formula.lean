import Realizability.Proofs.Meaning.Value

/-!
# Truth of formulas

A model says what the indicators hold of and what division by zero gives; a valuation gives every
constant a value of its sort. A closure holds if its body does however the constants of its list are
valued. Formulas are satisfiable relative to a choice for division by zero.
-/

namespace Realizability

/-- What functions with an indicator have as their values, one for each example. -/
abbrev Relations := String → List Value → Prop

structure Model where
  zero : ZeroDivision
  relations : Relations

structure Valuation where
  value : Const → Value
  sort_value : ∀ c, (value c).sort = c.sort

namespace Valuation

/-- Both valuations agree outside of a list of constants. -/
def AgreeOff (vars : List Const) (ν ν' : Valuation) : Prop := ∀ c, c ∉ vars → ν'.value c = ν.value c

def default : Valuation := ⟨fun c => .ofSort c.sort, fun c => Value.sort_ofSort c.sort⟩

def set (ν : Valuation) (c : Const) (v : Value) (h : v.sort = c.sort) : Valuation where
  value := fun d => if d = c then v else ν.value d
  sort_value := by
    intro d
    by_cases hd : d = c
    · subst hd; simp [h]
    · simp [hd, ν.sort_value]

end Valuation

mutual

noncomputable def Expr.value (M : Model) (ν : Valuation) : Expr → Value
  | .int n => .int n
  | .real q => .real q
  | .bits width n => .bits width (BitVec.ofNat width n)
  | .text codes => .text codes
  | .const c => ν.value c
  | .call name args => .ofProp (M.relations name (valuesOf M ν args))
  | .app op args => op.value M.zero (valuesOf M ν args)
  | .forAll vars body =>
    .ofProp (∀ ν' : Valuation, ν.AgreeOff vars ν' → body.value M ν' = .yes)

noncomputable def valuesOf (M : Model) (ν : Valuation) : List Expr → List Value
  | [] => []
  | e :: es => e.value M ν :: valuesOf M ν es

end

theorem valuesOf_eq_map (M : Model) (ν : Valuation) (es : List Expr) :
    valuesOf M ν es = es.map (·.value M ν) := by
  induction es with
  | nil => rfl
  | cons e es ih => rw [valuesOf, ih, List.map_cons]

theorem sortsOf_eq_map (es : List Expr) : sortsOf es = es.map Expr.sort := by
  induction es with
  | nil => rfl
  | cons e es ih => rw [sortsOf, ih, List.map_cons]

def Expr.Holds (M : Model) (ν : Valuation) (e : Expr) : Prop := e.value M ν = .yes

theorem Expr.holds_forAll {M : Model} {ν : Valuation} {vars : List Const} {body : Expr} :
    (forAll vars body).Holds M ν ↔ ∀ ν' : Valuation, ν.AgreeOff vars ν' → body.Holds M ν' := by
  simp [Holds, Expr.value]

/-- Some relations for the indicators make all formulas true. -/
def Satisfiable (zero : ZeroDivision) (formulas : List Expr) : Prop :=
  ∃ (R : Relations) (ν : Valuation), ∀ φ ∈ formulas, φ.Holds ⟨zero, R⟩ ν

/-! ## Expressions and their values -/

/-- An expression has a value, and has it at its own sort. -/
structure Expr.Means (M : Model) (ν : Valuation) (e : Expr) (v : Value) : Prop where
  value : e.value M ν = v
  sort : v.sort = e.sort

section
variable {M : Model} {ν : Valuation}

abbrev MeanEach (M : Model) (ν : Valuation) : List Expr → List Value → Prop :=
  List.Forall₂ (Expr.Means M ν)

theorem MeanEach.values {es : List Expr} {vs : List Value} (h : MeanEach M ν es vs) :
    es.map (·.value M ν) = vs := by
  induction h with
  | nil => rfl
  | cons h _ ih => rw [List.map_cons, h.value, ih]

theorem MeanEach.sorts {es : List Expr} {vs : List Value} (h : MeanEach M ν es vs) :
    es.map Expr.sort = vs.map Value.sort := by
  induction h with
  | nil => rfl
  | cons h _ ih => rw [List.map_cons, List.map_cons, h.sort, ih]

namespace Expr

theorem means_const (c : Const) : (const c).Means M ν (ν.value c) := ⟨rfl, ν.sort_value c⟩

theorem means_app (op : Op) {es : List Expr} {vs : List Value} (h : MeanEach M ν es vs)
    (hs : (op.value M.zero vs).sort = op.sort (vs.map Value.sort)) :
    (app op es).Means M ν (op.value M.zero vs) := by
  refine ⟨?_, ?_⟩
  · rw [value, valuesOf_eq_map, h.values]
  · rw [hs, sort, sortsOf_eq_map, h.sorts]

theorem means_call {name : String} {es : List Expr} {vs : List Value} (h : MeanEach M ν es vs) :
    (call name es).Means M ν (.ofProp (M.relations name vs)) := by
  refine ⟨?_, rfl⟩
  rw [value, valuesOf_eq_map, h.values]

theorem means_truth (b : Bool) : (truth b).Means M ν (.bool b) := by
  cases b <;> exact ⟨rfl, rfl⟩

theorem Means.holds_iff {e : Expr} {v : Value} (h : e.Means M ν v) : e.Holds M ν ↔ v = .yes := by
  rw [Holds, h.value]

end Expr

end

end Realizability
