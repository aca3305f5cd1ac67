import Realizability.Proofs.Meaning.Connective

/-!
# Meaning of applied symbols

An expression that applies a theory symbol stands for the value of the symbol on the values of its
operands (`Symbol.apply_means`): one lemma for each shape in which operands are taken, then one case
for each symbol.
-/

namespace Realizability

open Realizability.Expr

variable {M : Model} {ν : Valuation}

theorem ofBuild_eq_ok {α : Type} {x : Build α} {a : α} : ofBuild x = .ok a ↔ x = .ok a :=
  mapError_eq_ok

/-! ## Shapes -/

/-- Operands taken in a shape give a function of the values of the operands. -/
def Shape.Computes (M : Model) (ν : Valuation) (s : Shape) (φ : List Value → Option Value) : Prop :=
  ∀ ⦃name : String⦄ ⦃es : List Expr⦄ ⦃vs : List Value⦄ ⦃e : Expr⦄, MeanEach M ν es vs →
    s.apply name es = .ok e → ∃ u, φ vs = some u ∧ e.Means M ν u

namespace Shape

theorem constant_computes {e : Expr} {v : Value} (h : e.Means M ν v) :
    (constant e).Computes M ν fun _ => some v := by
  intro name es vs e' _ he
  cases he
  exact ⟨v, rfl, h⟩

theorem unary_computes {f : Expr → Build Expr} {φ : Value → Option Value}
    (hf : ∀ {a e : Expr} {v : Value}, a.Means M ν v → f a = .ok e →
      ∃ u, φ v = some u ∧ e.Means M ν u) : (unary f).Computes M ν (Value.unary φ) := by
  intro name es vs e h he
  cases h with
  | nil => cases he
  | cons h hs =>
    cases hs with
    | nil => exact hf h (ofBuild_eq_ok.mp he)
    | cons _ _ => cases he

theorem binary_computes {f : Expr → Expr → Build Expr} {φ : Value → Value → Option Value}
    (hf : Expr.Computes M ν f φ) : (binary f).Computes M ν (Value.binary φ) := by
  intro name es vs e h he
  rcases h with _ | ⟨ha, _ | ⟨hb, _ | ⟨_, _⟩⟩⟩
  · cases he
  · cases he
  · exact hf ha hb (ofBuild_eq_ok.mp he)
  · cases he

theorem ternary_computes {f : Expr → Expr → Expr → Build Expr}
    {φ : Value → Value → Value → Option Value}
    (hf : ∀ {a b c e : Expr} {u v w : Value}, a.Means M ν u → b.Means M ν v → c.Means M ν w →
      f a b c = .ok e → ∃ x, φ u v w = some x ∧ e.Means M ν x) :
    (ternary f).Computes M ν (Value.ternary φ) := by
  intro name es vs e h he
  rcases h with _ | ⟨ha, _ | ⟨hb, _ | ⟨hc, _ | ⟨_, _⟩⟩⟩⟩
  · cases he
  · cases he
  · cases he
  · exact hf ha hb hc (ofBuild_eq_ok.mp he)
  · cases he

theorem list_computes {f : List Expr → Build Expr} {φ : List Value → Option Value}
    (hf : ∀ {es : List Expr} {vs : List Value} {e : Expr}, MeanEach M ν es vs → f es = .ok e →
      ∃ u, φ vs = some u ∧ e.Means M ν u) : (list f).Computes M ν φ := by
  intro name es vs e h he
  exact hf h (ofBuild_eq_ok.mp he)

section
variable {f : Expr → Expr → Build Expr} {φ : Value → Value → Option Value}
  (hf : Expr.Computes M ν f φ)
include hf

theorem foldlM_means {es : List Expr} {vs : List Value} {a e : Expr} {v : Value}
    (h : MeanEach M ν es vs) (ha : a.Means M ν v) (he : es.foldlM f a = .ok e) :
    ∃ u, vs.foldlM φ v = some u ∧ e.Means M ν u := by
  induction h generalizing a v with
  | nil => cases he; exact ⟨v, rfl, ha⟩
  | cons h _ ih =>
    rw [List.foldlM_cons] at he ⊢
    obtain ⟨b, hb, he⟩ := bind_eq_ok.mp he
    obtain ⟨w, hw, hm⟩ := hf ha h hb
    obtain ⟨u, hu, hm⟩ := ih hm he
    exact ⟨u, by rw [hw]; exact hu, hm⟩

theorem applyLeft_means {name : String} {es : List Expr} {vs : List Value} {e : Expr}
    (h : MeanEach M ν es vs) (he : applyLeft name f es = .ok e) :
    ∃ u, Value.leftAssoc φ vs = some u ∧ e.Means M ν u := by
  cases h with
  | nil => cases he
  | cons h hs => exact foldlM_means hf hs h (ofBuild_eq_ok.mp he)

theorem leftAssoc_computes : (leftAssoc f).Computes M ν (Value.leftAssoc φ) := by
  intro name es vs e h he
  exact applyLeft_means hf h he

theorem foldRight_means {es : List Expr} {vs : List Value} {a e : Expr} {v : Value}
    (h : MeanEach M ν es vs) (ha : a.Means M ν v) (he : foldRight f a es = .ok e) :
    ∃ u, Value.foldRight φ v vs = some u ∧ e.Means M ν u := by
  induction h generalizing a v e with
  | nil => cases he; exact ⟨v, rfl, ha⟩
  | cons h _ ih =>
    rw [foldRight] at he
    obtain ⟨b, hb, he⟩ := bind_eq_ok.mp he
    obtain ⟨w, hw, hm⟩ := ih h hb
    obtain ⟨u, hu, hm⟩ := hf ha hm he
    exact ⟨u, by rw [Value.foldRight, hw]; exact hu, hm⟩

theorem rightAssoc_computes : (rightAssoc f).Computes M ν (Value.rightAssoc φ) := by
  intro name es vs e h he
  cases h with
  | nil => cases he
  | cons h hs =>
    cases hs with
    | nil => cases he
    | cons h' hs => exact foldRight_means hf (.cons h' hs) h (ofBuild_eq_ok.mp he)

theorem adjacent_means {es es' : List Expr} {vs : List Value} (h : MeanEach M ν es vs)
    (he : adjacent f es = .ok es') : ∃ vs', Value.adjacent φ vs = some vs' ∧ MeanEach M ν es' vs' := by
  induction h generalizing es' with
  | nil => cases he; exact ⟨[], rfl, .nil⟩
  | cons h hs ih =>
    cases hs with
    | nil => cases he; exact ⟨[], rfl, .nil⟩
    | cons h' hs =>
      rw [adjacent] at he
      obtain ⟨b, hb, he⟩ := bind_eq_ok.mp he
      obtain ⟨bs, hbs, he⟩ := bind_eq_ok.mp he
      cases he
      obtain ⟨w, hw, hm⟩ := hf h h' hb
      obtain ⟨ws, hws, hms⟩ := ih hbs
      exact ⟨w :: ws, by rw [Value.adjacent, hw, hws]; rfl, .cons hm hms⟩

theorem chainable_computes : (chainable f).Computes M ν (Value.chainable φ) := by
  intro name es vs e h he
  unfold Value.chainable
  change (if es.length < 2 then _ else _) = _ at he
  split at he
  · cases he
  · rename_i hl
    obtain ⟨bs, hbs, he⟩ := bind_eq_ok.mp (ofBuild_eq_ok.mp he)
    obtain ⟨ws, hws, hms⟩ := adjacent_means hf h hbs
    obtain ⟨u, hu, hm⟩ := conjoin_means hms he
    rw [h.length_eq] at hl
    exact ⟨u, by rw [if_neg hl, hws]; exact hu, hm⟩

end

theorem minus_computes : minus.Computes M ν Value.minus := by
  intro name es vs e h he
  have hsub : Expr.Computes M ν _ _ := mkArith_computes (sub_computes M.zero)
  cases h with
  | nil => cases he
  | cons h hs =>
    cases hs with
    | nil => exact mkNeg_means h (ofBuild_eq_ok.mp he)
    | cons h' hs =>
      change applyLeft name (mkArith .sub) (_ :: _ :: _) = .ok e at he
      exact applyLeft_means hsub (.cons h (.cons h' hs)) he

theorem division_computes : division.Computes M ν (Value.division M.zero) := by
  intro name es vs e h he
  unfold Value.division
  change (if es.length < 2 then _ else _) = _ at he
  split at he
  · cases he
  · rename_i hl
    have hreal : MeanEach M ν (es.map Expr.intToReal) (vs.map Value.intToReal) :=
      List.forall₂_map_left_iff.mpr (List.forall₂_map_right_iff.mpr
        (h.imp fun _ _ => intToReal_means))
    rw [h.length_eq] at hl
    rw [if_neg hl]
    exact applyLeft_means (mkArith_computes (div_computes M.zero)) hreal he

end Shape

/-! ## Symbols -/

section
open Value

theorem onBits_of_onVectors {op : Op} {f : (n : Nat) → BitVec n → BitVec n → BitVec n}
    {z : ZeroDivision} (hv : op.value z = onVectors f)
    (hs : ∀ n, op.sort [.bitVec n, .bitVec n] = .bitVec n) :
    OnBits z op fun n x y => .bits n (f n x y) where
  value n x y := by rw [hv, onVectors, BitVec.setWidth_eq]
  sort n _ _ := (hs n).symm

theorem onBits_of_relating {op : Op} {r : Nat → Nat → Prop} {z : ZeroDivision}
    (hv : op.value z = relatingUnsigned r) (hs : ∀ n, op.sort [.bitVec n, .bitVec n] = .bool) :
    OnBits z op fun _ x y => ofProp (r x.toNat y.toNat) where
  value n x y := by rw [hv, relatingUnsigned]
  sort n _ _ := (hs n).symm

end

open Shape in
theorem Operator.shape_computes (op : Operator) :
    op.shape.Computes M ν (op.value M.zero) := by
  cases op with
  | true => exact constant_computes (means_truth .true)
  | false => exact constant_computes (means_truth .false)
  | not => exact unary_computes mkNot_means
  | and => exact list_computes conjoin_means
  | or => exact list_computes disjoin_means
  | xor => exact leftAssoc_computes mkXor_computes
  | implies => exact rightAssoc_computes mkImplies_computes
  | eq => exact chainable_computes mkEq_computes
  | distinct => exact list_computes mkDistinct_means
  | ite => exact ternary_computes mkIte_means
  | add => exact leftAssoc_computes mkAdd_computes
  | sub => exact minus_computes
  | mul => exact leftAssoc_computes mkMul_computes
  | intDiv => exact leftAssoc_computes (mkArith_computes (div_computes M.zero))
  | realDiv => exact division_computes
  | mod => exact binary_computes (mkArith_computes (mod_computes M.zero))
  | abs => exact unary_computes mkAbs_means
  | lt => exact chainable_computes (mkCompare_computes .lt)
  | le => exact chainable_computes (mkCompare_computes .le)
  | gt => exact chainable_computes (mkCompare_computes .gt)
  | ge => exact chainable_computes (mkCompare_computes .ge)
  | bvnot => exact unary_computes mkBvnot_means
  | bvneg => exact unary_computes mkNeg_means
  | bvand =>
    refine leftAssoc_computes (mkBitwise_computes (onBits_of_onVectors rfl fun _ => rfl) ?_ rfl)
    rintro (_ | _) (_ | _) <;> simp [Op.value, Value.ofProp]
  | bvor =>
    refine leftAssoc_computes (mkBitwise_computes (onBits_of_onVectors rfl fun _ => rfl) ?_ rfl)
    rintro (_ | _) (_ | _) <;> simp [Op.value, Value.ofProp]
  | bvxor =>
    refine leftAssoc_computes (mkBitwise_computes (onBits_of_onVectors rfl fun _ => rfl) ?_ rfl)
    rintro (_ | _) (_ | _) <;> simp [Op.value, Value.ofProp]
  | bvadd => exact leftAssoc_computes mkAdd_computes
  | bvsub => exact binary_computes (mkArith_computes (sub_computes M.zero))
  | bvmul => exact leftAssoc_computes mkMul_computes
  | bvudiv => exact binary_computes (mkBits_computes (onBits_of_onVectors rfl fun _ => rfl))
  | bvurem => exact binary_computes (mkBits_computes (onBits_of_onVectors rfl fun _ => rfl))
  | bvsdiv => exact binary_computes (mkArith_computes (div_computes M.zero))
  | bvsrem => exact binary_computes (mkBits_computes (onBits_of_onVectors rfl fun _ => rfl))
  | bvshl => exact binary_computes (mkShift_computes (onBits_of_onVectors rfl fun _ => rfl))
  | bvlshr => exact binary_computes (mkBits_computes (onBits_of_onVectors rfl fun _ => rfl))
  | bvashr => exact binary_computes (mkShift_computes (onBits_of_onVectors rfl fun _ => rfl))
  | bvult => exact binary_computes (mkBits_computes (onBits_of_relating rfl fun _ => rfl))
  | bvule => exact binary_computes (mkBits_computes (onBits_of_relating rfl fun _ => rfl))
  | bvugt => exact binary_computes (mkBits_computes (onBits_of_relating rfl fun _ => rfl))
  | bvuge => exact binary_computes (mkBits_computes (onBits_of_relating rfl fun _ => rfl))
  | bvslt => exact binary_computes (mkCompare_computes .lt)
  | bvsle => exact binary_computes (mkCompare_computes .le)
  | bvsgt => exact binary_computes (mkCompare_computes .gt)
  | bvsge => exact binary_computes (mkCompare_computes .ge)
  | concat => exact list_computes mkConcat_means

theorem IndexedOperator.apply_means {op : IndexedOperator} {indices : List Index} {es : List Expr}
    {vs : List Value} {e : Expr} (h : MeanEach M ν es vs) (he : op.apply indices es = .ok e) :
    ∃ u, op.value indices vs = some u ∧ e.Means M ν u := by
  unfold apply at he
  split at he
  · rcases h with _ | ⟨h, _ | ⟨_, _⟩⟩
    exact mkExtract_means h (ofBuild_eq_ok.mp he)
  · cases he
  · rcases h with _ | ⟨h, _⟩
    exact mkExtend_means (fun _ _ _ => rfl) (fun _ _ => rfl) h (ofBuild_eq_ok.mp he)
  · rcases h with _ | ⟨h, _⟩
    exact mkExtend_means (fun _ _ _ => rfl) (fun _ _ => rfl) h (ofBuild_eq_ok.mp he)
  · cases he
  · cases he
  · cases he

/-- Applying a symbol forms an expression for the value of the symbol on its operands. -/
theorem Symbol.apply_means {s : Symbol} {es : List Expr} {vs : List Value} {e : Expr}
    (h : MeanEach M ν es vs) (he : s.apply es = .ok e) :
    ∃ u, s.value M.zero vs = some u ∧ e.Means M ν u := by
  cases s with
  | plain op => exact op.shape_computes h he
  | indexed op indices => exact IndexedOperator.apply_means h he

end Realizability
