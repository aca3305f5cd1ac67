import Realizability.Proofs.Encoding.Formation
import Realizability.Proofs.Theory.Standard

/-!
# Forming admitted applications

A symbol can be applied to operands of all sorts that it admits (`Symbol.apply_admitted`). An
operation that is folded over its operands gives a sort that it takes again.
-/

namespace Realizability

instance : Inhabited ZeroDivision := ⟨⟨id, id, id⟩⟩

namespace Expr

variable {a b c : Expr} {es : List Expr} {n : Nat}

/-! ## Coercions -/

theorem coerce_of_widens {r : SmtSort} (h : Widens a.sort r) : ∃ e, a.coerce r = .ok e := by
  rcases h with h | ⟨h, rfl⟩
  · exact ⟨a, if_pos h⟩
  · exact ⟨toReal a, by simp [coerce, h]⟩

theorem merge_comparable (h : Comparable [a.sort, b.sort]) :
    ∃ x y, merge a b = .ok (x, y) ∧ x.sort = y.sort ∧ a.sort.join? b.sort = some x.sort := by
  obtain ⟨r, hr, ha, hb, -⟩ := h.join?
  obtain ⟨x, hx⟩ := coerce_of_widens ha
  obtain ⟨y, hy⟩ := coerce_of_widens hb
  have hsort := sort_of_coerce hx
  refine ⟨x, y, ?_, hsort.trans (sort_of_coerce hy).symm, by rw [hsort, hr]⟩
  unfold merge
  rw [hr]
  exact bind_eq_ok.mpr ⟨x, hx, bind_eq_ok.mpr ⟨y, hy, rfl⟩⟩

theorem merge_same (h : a.sort = b.sort) : merge a b = .ok (a, b) := by
  unfold merge
  rw [h, join?_self]
  simp [coerce, h, pure, Except.pure, bind, Except.bind]

theorem mergeAll_comparable (hne : es ≠ []) (h : Comparable (es.map Expr.sort)) :
    ∃ es', mergeAll es = .ok es' := by
  obtain ⟨e, es, rfl⟩ := List.exists_cons_of_ne_nil hne
  obtain ⟨r, hr, hw⟩ := h.foldlM_join?
  rw [← List.map_cons, List.forall_mem_map] at hw
  obtain ⟨es', hes'⟩ := mapM_ok_iff.mpr fun x hx => coerce_of_widens (hw x hx)
  refine ⟨es', bind_eq_ok.mpr ⟨r, ?_, hes'⟩⟩
  clear h hw hes' hne
  generalize e.sort = s at hr
  induction es generalizing s with
  | nil => cases hr; rfl
  | cons x es ih =>
    rw [List.map_cons, List.foldlM_cons] at hr
    obtain ⟨t, ht, hr⟩ := Option.bind_eq_some_iff.mp hr
    rw [List.foldlM_cons, ht]
    exact ih t hr

/-! ## Operations on two operands -/

/-- An operation takes operands of the sorts of a kind, and gives a sort of another. -/
def Takes (f : Expr → Expr → Build Expr) (P Q : SmtSort → Prop) : Prop :=
  ∀ ⦃a b : Expr⦄, P a.sort → P b.sort → ∃ e, f a b = .ok e ∧ Q e.sort

abbrev Arith (s : SmtSort) : Prop := s.isArith = true

theorem arith_iff {s : SmtSort} : Arith s ↔ s = .int ∨ s = .real := by
  cases s <;> simp [Arith, SmtSort.isArith]

theorem merge_arith (ha : Arith a.sort) (hb : Arith b.sort) :
    ∃ x y, merge a b = .ok (x, y) ∧ x.sort = y.sort ∧ (x.sort = .int ∨ x.sort = .real) := by
  obtain ⟨x, y, hm, hs, hj⟩ := merge_comparable (.arith ha hb)
  rw [join?_arith ha hb, Option.some_inj] at hj
  refine ⟨x, y, hm, hs, ?_⟩
  rw [← hj]
  split
  · exact .inl rfl
  · exact .inr rfl

theorem mkXor_takes : Takes mkXor (· = .bool) (· = .bool) := by
  intro a b ha hb
  exact ⟨_, if_pos (by simp [isBool, ha, hb]), rfl⟩

theorem mkImplies_takes : Takes mkImplies (· = .bool) (· = .bool) := by
  intro a b ha hb
  exact ⟨_, if_pos (by simp [isBool, ha, hb]), rfl⟩

theorem mkEq_admitted (h : Comparable [a.sort, b.sort]) :
    ∃ e, mkEq a b = .ok e ∧ e.sort = .bool := by
  unfold mkEq
  split
  · obtain ⟨x, y, hm, -⟩ := merge_comparable h.symm
    exact ⟨_, bind_eq_ok.mpr ⟨_, hm, rfl⟩, rfl⟩
  · obtain ⟨x, y, hm, -⟩ := merge_comparable h
    exact ⟨_, bind_eq_ok.mpr ⟨_, hm, rfl⟩, rfl⟩

theorem compareMerged_of_merge {k : Comparison} {x y : Expr} (h : merge a b = .ok (x, y))
    (hx : x.sort = .int ∨ x.sort = .real ∨ x.sort = .bitVec n) :
    ∃ e, compareMerged k a b = .ok e ∧ e.sort = .bool := by
  obtain ⟨e, he⟩ : ∃ e, compareMerged k a b = .ok e := by
    rcases hx with hx | hx | hx <;>
      exact ⟨_, bind_eq_ok.mpr ⟨_, h, by dsimp only; rw [hx]; rfl⟩⟩
  exact ⟨e, he, compareMerged_sort he⟩

theorem mkCompare_takes {P : SmtSort → Prop}
    (h : ∀ {a b : Expr}, P a.sort → P b.sort → ∃ x y, merge a b = .ok (x, y) ∧
      (x.sort = .int ∨ x.sort = .real ∨ x.sort = .bitVec n)) (k : Comparison) :
    Takes (mkCompare k) P (· = .bool) := by
  intro a b ha hb
  unfold mkCompare
  split
  · obtain ⟨x, y, hm, hx⟩ := h hb ha
    exact compareMerged_of_merge hm hx
  · obtain ⟨x, y, hm, hx⟩ := h ha hb
    exact compareMerged_of_merge hm hx

theorem mkCompare_arith (k : Comparison) : Takes (mkCompare k) Arith (· = .bool) := by
  refine mkCompare_takes (n := 0) ?_ k
  intro a b ha hb
  obtain ⟨x, y, hm, hs⟩ := merge_arith ha hb
  exact ⟨x, y, hm, hs.2.imp_right .inl⟩

theorem mkCompare_bits (k : Comparison) : Takes (mkCompare k) (· = .bitVec n) (· = .bool) := by
  refine mkCompare_takes (n := n) ?_ k
  intro a b ha hb
  exact ⟨a, b, merge_same (ha.trans hb.symm), .inr (.inr ha)⟩

/-! ## Arithmetic -/

theorem sort_two (op : Op) (a b : Expr) : (app op [a, b]).sort = op.sort [a.sort, b.sort] := rfl

section
variable {z : ZeroDivision} {f : Family} {φ : Value.Arithmetic} (hf : f.Computes z φ)
include hf

theorem apply_arith {op : Op} (hr : f.real = some op) : Takes f.apply Arith Arith := by
  intro a b ha hb
  obtain ⟨x, y, hm, hs, hx | hx⟩ := merge_arith ha hb
  · refine ⟨app f.int [x, y], bind_eq_ok.mpr ⟨_, hm, by dsimp only; rw [hx]; rfl⟩, ?_⟩
    rw [sort_two, ← hs, hx, hf.sort_int]
    rfl
  · refine ⟨app op [x, y], bind_eq_ok.mpr ⟨_, hm, by dsimp only; rw [hx, hr]; rfl⟩, ?_⟩
    rw [sort_two, ← hs, hx, (hf.real op hr).1]
    rfl

theorem apply_int : Takes f.apply (· = .int) (· = .int) := by
  intro a b ha hb
  refine ⟨app f.int [a, b],
    bind_eq_ok.mpr ⟨_, merge_same (ha.trans hb.symm), by dsimp only; rw [ha]; rfl⟩, ?_⟩
  rw [sort_two, ha, hb, hf.sort_int]

theorem apply_real {op : Op} (hr : f.real = some op) : Takes f.apply (· = .real) (· = .real) := by
  intro a b ha hb
  refine ⟨app op [a, b],
    bind_eq_ok.mpr ⟨_, merge_same (ha.trans hb.symm), by dsimp only; rw [ha, hr]; rfl⟩, ?_⟩
  rw [sort_two, ha, hb, (hf.real op hr).1]

theorem apply_bits : Takes f.apply (· = .bitVec n) (· = .bitVec n) := by
  intro a b ha hb
  refine ⟨app f.bits [a, b],
    bind_eq_ok.mpr ⟨_, merge_same (ha.trans hb.symm), by dsimp only; rw [ha]; rfl⟩, ?_⟩
  rw [sort_two, ha, hb, hf.sort_bits]

end

/-- Neither truth values nor strings are of the kind. -/
def Numeric (P : SmtSort → Prop) : Prop := ∀ s, P s → lacksArith s = false

theorem numeric_arith : Numeric Arith := by
  rintro s h
  rcases arith_iff.mp h with rfl | rfl <;> rfl

theorem numeric_eq {s : SmtSort} (h : lacksArith s = false) : Numeric (· = s) := by
  rintro _ rfl
  exact h

section
variable {P Q : SmtSort → Prop} (hP : Numeric P)
include hP

theorem mkArith_takes {f : Family} (h : Takes f.apply P Q) : Takes (mkArith f) P Q := by
  intro a b ha hb
  rw [mkArith, hP _ ha, Bool.false_and]
  exact h ha hb

theorem mkAdd_takes (h : Takes Family.add.apply P Q) : Takes mkAdd P Q := by
  intro a b ha hb
  have hs := hP _ ha
  unfold mkAdd
  split
  · rename_i hc _
    rw [hc] at hs
    cases hs
  · rename_i hc
    rw [hc] at hs
    cases hs
  · exact h ha hb

theorem mkMul_takes (h : Takes Family.mul.apply P Q) : Takes mkMul P Q := by
  intro a b ha hb
  have hs := hP _ ha
  have ht := hP _ hb
  unfold mkMul
  split <;> first | exact h ha hb | simp_all [lacksArith]

end

theorem mkNeg_admitted (h : lacksArith a.sort = false) : ∃ e, mkNeg a = .ok e := by
  unfold mkNeg
  split
  · exact ⟨_, rfl⟩
  · exact ⟨_, rfl⟩
  · exact ⟨_, rfl⟩
  · exfalso
    cases hs : a.sort <;> simp_all [lacksArith]

theorem mkAbs_admitted (h : lacksArith a.sort = false) : ∃ e, mkAbs a = .ok e := by
  obtain ⟨e, he⟩ := mkNeg_admitted h
  exact ⟨_, bind_eq_ok.mpr ⟨e, he, rfl⟩⟩

theorem sort_intToReal (h : Arith a.sort) : (intToReal a).sort = .real := by
  unfold intToReal
  rcases arith_iff.mp h with hs | hs
  · rw [if_pos hs]
    rfl
  · rw [if_neg (by simp [hs]), hs]

/-! ## Bit-vectors -/

theorem same_bits (ha : a.sort = .bitVec n) (hb : b.sort = .bitVec n) :
    (a.sort.isBitVec && a.sort == b.sort) = true := by
  simp [ha, hb, SmtSort.isBitVec]

theorem mkBitwise_takes {op connective : Op} (hs : op.sort [.bitVec n, .bitVec n] = .bitVec n) :
    Takes (mkBitwise op connective) (· = .bitVec n) (· = .bitVec n) := by
  intro a b ha hb
  refine ⟨app op [a, b], if_pos (same_bits ha hb), ?_⟩
  rw [sort_two, ha, hb, hs]

theorem mkShift_takes {op : Op} : Takes (mkShift op) (· = .bitVec n) fun _ => True :=
  fun _ _ ha hb => ⟨_, if_pos (same_bits ha hb), trivial⟩

theorem mkBits_takes {op : Op} : Takes (mkBits op) (· = .bitVec n) fun _ => True :=
  fun _ _ ha hb => ⟨_, if_pos (same_bits ha hb), trivial⟩

theorem mkConcat_admitted (hlen : 2 ≤ es.length) (h : ∀ e ∈ es, e.sort.isBitVec = true) :
    ∃ e, mkConcat es = .ok e := by
  rcases es with _ | ⟨a, _ | ⟨b, es⟩⟩
  · simp at hlen
  · simp at hlen
  · exact ⟨_, if_pos (List.all_eq_true.mpr h)⟩

/-! ## Connectives -/

theorem disjoin_isBool (h : ∀ a ∈ es, a.isBool = true) : ∃ e, disjoin es = .ok e := by
  rcases es with _ | ⟨a, _ | ⟨b, es⟩⟩
  · exact ⟨_, rfl⟩
  · exact ⟨a, rfl⟩
  · exact ⟨.app .or (a :: b :: es), if_pos (List.all_eq_true.mpr h)⟩

theorem mkIte_admitted (hc : c.sort = .bool) (h : Comparable [a.sort, b.sort]) :
    ∃ e, mkIte c a b = .ok e := by
  obtain ⟨x, y, hm, -⟩ := merge_comparable h
  unfold mkIte
  rw [if_pos (by simp [isBool, hc])]
  exact ⟨_, bind_eq_ok.mpr ⟨_, hm, rfl⟩⟩

theorem mkDistinct_admitted (hne : es ≠ []) (h : Comparable (es.map Expr.sort)) :
    ∃ e, mkDistinct es = .ok e := by
  obtain ⟨es', hes'⟩ := mergeAll_comparable hne h
  exact ⟨_, bind_eq_ok.mpr ⟨es', hes', rfl⟩⟩

end Expr

/-! ## Shapes -/

open Realizability.Expr

namespace Shape

variable {name : String} {f : Expr → Expr → Build Expr} {P Q : SmtSort → Prop} {es : List Expr}

theorem ofBuild_ok {α : Type} {x : Build α} (h : ∃ a, x = .ok a) : ∃ a, ofBuild x = .ok a := by
  obtain ⟨a, ha⟩ := h
  exact ⟨a, ofBuild_eq_ok.mpr ha⟩

theorem foldlM_admitted (hf : Takes f P P) (h : ∀ e ∈ es, P e.sort) {a : Expr} (ha : P a.sort) :
    ∃ e, es.foldlM f a = .ok e := by
  induction es generalizing a with
  | nil => exact ⟨a, rfl⟩
  | cons e es ih =>
    rw [List.forall_mem_cons] at h
    obtain ⟨x, hx, hs⟩ := hf ha h.1
    obtain ⟨y, hy⟩ := ih h.2 hs
    exact ⟨y, bind_eq_ok.mpr ⟨x, hx, hy⟩⟩

theorem applyLeft_admitted (name : String) (hf : Takes f P P) (hne : es ≠ [])
    (h : ∀ e ∈ es, P e.sort) : ∃ e, applyLeft name f es = .ok e := by
  obtain ⟨a, es, rfl⟩ := List.exists_cons_of_ne_nil hne
  rw [List.forall_mem_cons] at h
  exact ofBuild_ok (foldlM_admitted hf h.2 h.1)

theorem foldRight_admitted (hf : Takes f P P) (h : ∀ e ∈ es, P e.sort) {a : Expr} (ha : P a.sort) :
    ∃ e, foldRight f a es = .ok e ∧ P e.sort := by
  induction es generalizing a with
  | nil => exact ⟨a, rfl, ha⟩
  | cons e es ih =>
    rw [List.forall_mem_cons] at h
    obtain ⟨x, hx, hs⟩ := ih h.2 h.1
    obtain ⟨y, hy, hys⟩ := hf ha hs
    exact ⟨y, bind_eq_ok.mpr ⟨x, hx, hy⟩, hys⟩

theorem rightAssoc_admitted (hf : Takes f P P) (hlen : 2 ≤ es.length) (h : ∀ e ∈ es, P e.sort) :
    ∃ e, (rightAssoc f).apply name es = .ok e := by
  rcases es with _ | ⟨a, _ | ⟨b, es⟩⟩
  · simp at hlen
  · simp at hlen
  · rw [List.forall_mem_cons] at h
    obtain ⟨e, he, -⟩ := foldRight_admitted hf h.2 h.1
    exact ⟨e, ofBuild_eq_ok.mpr he⟩

theorem adjacent_admitted (hf : ∀ a ∈ es, ∀ b ∈ es, ∃ e, f a b = .ok e ∧ e.sort = .bool) :
    ∃ es', adjacent f es = .ok es' ∧ ∀ e ∈ es', e.isBool = true := by
  induction es with
  | nil => exact ⟨[], rfl, by simp⟩
  | cons a es ih =>
    obtain ⟨es', hes', hs⟩ := ih fun x hx y hy =>
      hf x (List.mem_cons_of_mem _ hx) y (List.mem_cons_of_mem _ hy)
    cases es with
    | nil => exact ⟨[], rfl, by simp⟩
    | cons b es =>
      obtain ⟨e, he, hse⟩ := hf a (by simp) b (by simp)
      refine ⟨e :: es', bind_eq_ok.mpr ⟨e, he, bind_eq_ok.mpr ⟨es', hes', rfl⟩⟩, ?_⟩
      exact List.forall_mem_cons.mpr ⟨by simp [isBool, hse], hs⟩

theorem chainable_admitted (hlen : 2 ≤ es.length)
    (hf : ∀ a ∈ es, ∀ b ∈ es, ∃ e, f a b = .ok e ∧ e.sort = .bool) :
    ∃ e, (chainable f).apply name es = .ok e := by
  obtain ⟨es', hes', hs⟩ := adjacent_admitted hf
  obtain ⟨e, he, -⟩ := conjoin_isBool hs
  have hall : (adjacent f es >>= conjoin) = .ok e := bind_eq_ok.mpr ⟨es', hes', he⟩
  exact ⟨e, (if_neg (Nat.not_lt.mpr hlen)).trans (ofBuild_eq_ok.mpr hall)⟩

theorem chainable_of_takes (hf : Takes f P (· = .bool)) (hlen : 2 ≤ es.length)
    (h : ∀ e ∈ es, P e.sort) : ∃ e, (chainable f).apply name es = .ok e :=
  chainable_admitted hlen fun a ha b hb => hf (h a ha) (h b hb)

theorem minus_admitted (hne : es ≠ []) (h : ∀ e ∈ es, Arith e.sort) :
    ∃ e, minus.apply name es = .ok e := by
  rcases es with _ | ⟨a, _ | ⟨b, es⟩⟩
  · exact absurd rfl hne
  · exact ofBuild_ok (mkNeg_admitted (numeric_arith _ (h a (by simp))))
  · have hsub : Takes (mkArith .sub) Arith Arith :=
      mkArith_takes numeric_arith (apply_arith (sub_computes default) rfl)
    exact applyLeft_admitted name hsub hne h

theorem division_admitted (hlen : 2 ≤ es.length) (h : ∀ e ∈ es, Arith e.sort) :
    ∃ e, division.apply name es = .ok e := by
  have hdiv : Takes (mkArith .div) (· = .real) (· = .real) :=
    mkArith_takes (numeric_eq rfl) (apply_real (div_computes default) rfl)
  have hne : es.map intToReal ≠ [] := by
    rintro h
    simp_all
  obtain ⟨e, he⟩ := applyLeft_admitted name hdiv hne
    (List.forall_mem_map.mpr fun e he => sort_intToReal (h e he))
  exact ⟨e, (if_neg (Nat.not_lt.mpr hlen)).trans he⟩

end Shape

/-! ## Symbols -/

section
variable {es : List Expr}

theorem sorts_eq_one {s : SmtSort} (h : es.map Expr.sort = [s]) : ∃ a, es = [a] ∧ a.sort = s := by
  obtain ⟨a, rfl, hs⟩ := List.map_eq_singleton_iff.mp h
  exact ⟨a, rfl, hs⟩

theorem sorts_eq_two {s t : SmtSort} (h : es.map Expr.sort = [s, t]) :
    ∃ a b, es = [a, b] ∧ a.sort = s ∧ b.sort = t := by
  rcases es with _ | ⟨a, _ | ⟨b, _ | ⟨c, es⟩⟩⟩ <;> simp_all

theorem sorts_eq_three {s t u : SmtSort} (h : es.map Expr.sort = [s, t, u]) :
    ∃ a b c, es = [a, b, c] ∧ a.sort = s ∧ b.sort = t ∧ c.sort = u := by
  rcases es with _ | ⟨a, _ | ⟨b, _ | ⟨c, _ | ⟨d, es⟩⟩⟩⟩ <;> simp_all

end

section
variable {es : List Expr}

open Shape

theorem unary_admitted {name : String} {f : Expr → Build Expr} {s : SmtSort}
    (hf : ∀ {a : Expr}, a.sort = s → ∃ e, f a = .ok e) (h : es.map Expr.sort = [s]) :
    ∃ e, (unary f).apply name es = .ok e := by
  obtain ⟨a, rfl, ha⟩ := sorts_eq_one h
  exact ofBuild_ok (hf ha)

theorem binary_admitted {name : String} {f : Expr → Expr → Build Expr} {s : SmtSort}
    {Q : SmtSort → Prop} (hf : Takes f (· = s) Q) (h : es.map Expr.sort = [s, s]) :
    ∃ e, (binary f).apply name es = .ok e := by
  obtain ⟨a, b, rfl, ha, hb⟩ := sorts_eq_two h
  obtain ⟨e, he, -⟩ := hf ha hb
  exact ⟨e, ofBuild_eq_ok.mpr he⟩

theorem leftAssoc_admitted {name : String} {f : Expr → Expr → Build Expr} {P : SmtSort → Prop}
    (hf : Takes f P P) (hne : es.map Expr.sort ≠ []) (h : ∀ s ∈ es.map Expr.sort, P s) :
    ∃ e, (leftAssoc f).apply name es = .ok e :=
  applyLeft_admitted name hf (fun h => hne (by rw [h]; rfl)) (List.forall_mem_map.mp h)

theorem Operator.apply_admitted {op : Operator} (h : op.Admits (es.map Expr.sort)) :
    ∃ e, op.shape.apply op.name es = .ok e := by
  cases op with
  | true | false => exact ⟨_, rfl⟩
  | not => exact unary_admitted (fun ha => ⟨_, if_pos (by simp [isBool, ha])⟩) h
  | and =>
    obtain ⟨e, he, -⟩ := conjoin_isBool fun a ha => beq_iff_eq.mpr (List.forall_mem_map.mp h a ha)
    exact ⟨e, ofBuild_eq_ok.mpr he⟩
  | or =>
    exact ofBuild_ok (disjoin_isBool fun a ha => beq_iff_eq.mpr (List.forall_mem_map.mp h a ha))
  | xor => exact leftAssoc_admitted mkXor_takes h.1 h.2
  | implies =>
    exact rightAssoc_admitted mkImplies_takes (by simpa using h.1) (List.forall_mem_map.mp h.2)
  | eq =>
    refine chainable_admitted (by simpa using h.1) fun a ha b hb => mkEq_admitted ?_
    refine h.2.of_mem ?_
    simp only [List.forall_mem_cons]
    exact ⟨List.mem_map_of_mem ha, List.mem_map_of_mem hb, by simp⟩
  | distinct =>
    exact ofBuild_ok (mkDistinct_admitted (fun hes => h.1 (by rw [hes]; rfl)) h.2)
  | ite =>
    obtain ⟨s, t, hs, hc⟩ := h
    obtain ⟨c, a, b, rfl, hbool, rfl, rfl⟩ := sorts_eq_three hs
    exact ofBuild_ok (mkIte_admitted hbool hc)
  | add =>
    exact leftAssoc_admitted (mkAdd_takes numeric_arith (apply_arith (add_computes default) rfl))
      h.1 h.2
  | sub => exact minus_admitted (fun hes => h.1 (by rw [hes]; rfl)) (List.forall_mem_map.mp h.2)
  | mul =>
    exact leftAssoc_admitted (mkMul_takes numeric_arith (apply_arith (mul_computes default) rfl))
      h.1 h.2
  | intDiv =>
    exact leftAssoc_admitted (mkArith_takes (numeric_eq rfl) (apply_int (div_computes default)))
      h.1 h.2
  | realDiv => exact division_admitted (by simpa using h.1) (List.forall_mem_map.mp h.2)
  | mod =>
    exact binary_admitted (mkArith_takes (numeric_eq rfl) (apply_int (mod_computes default))) h
  | abs =>
    obtain ⟨s, hs, ha⟩ := h
    exact unary_admitted (fun ha' => mkAbs_admitted (ha' ▸ numeric_arith _ ha)) hs
  | lt | le | gt | ge =>
    exact chainable_of_takes (mkCompare_arith _) (by simpa using h.1) (List.forall_mem_map.mp h.2)
  | bvnot =>
    obtain ⟨n, hs⟩ := h
    exact unary_admitted (fun ha => ⟨_, by rw [mkBvnot, ha]⟩) hs
  | bvneg =>
    obtain ⟨n, hs⟩ := h
    exact unary_admitted (fun ha => mkNeg_admitted (ha ▸ rfl)) hs
  | bvand | bvor | bvxor =>
    obtain ⟨hne, n, hs⟩ := h
    exact leftAssoc_admitted (mkBitwise_takes rfl) hne hs
  | bvadd =>
    obtain ⟨hne, n, hs⟩ := h
    exact leftAssoc_admitted
      (mkAdd_takes (numeric_eq rfl) (apply_bits (add_computes default))) hne hs
  | bvmul =>
    obtain ⟨hne, n, hs⟩ := h
    exact leftAssoc_admitted
      (mkMul_takes (numeric_eq rfl) (apply_bits (mul_computes default))) hne hs
  | bvsub =>
    obtain ⟨n, hs⟩ := h
    exact binary_admitted (mkArith_takes (numeric_eq rfl) (apply_bits (sub_computes default))) hs
  | bvsdiv =>
    obtain ⟨n, hs⟩ := h
    exact binary_admitted (mkArith_takes (numeric_eq rfl) (apply_bits (div_computes default))) hs
  | bvshl | bvashr =>
    obtain ⟨n, hs⟩ := h
    exact binary_admitted mkShift_takes hs
  | bvudiv | bvurem | bvsrem | bvlshr | bvult | bvule | bvugt | bvuge =>
    obtain ⟨n, hs⟩ := h
    exact binary_admitted mkBits_takes hs
  | bvslt | bvsle | bvsgt | bvsge =>
    obtain ⟨n, hs⟩ := h
    exact binary_admitted (mkCompare_bits _) hs
  | concat => exact ofBuild_ok (mkConcat_admitted (by simpa using h.1) (List.forall_mem_map.mp h.2))

theorem IndexedOperator.apply_admitted {op : IndexedOperator} {indices : List Index}
    (h : op.Admits indices (es.map Expr.sort)) : ∃ e, op.apply indices es = .ok e := by
  cases op with
  | extract =>
    obtain ⟨high, low, n, rfl, hs, hle, hlt⟩ := h
    obtain ⟨a, rfl, ha⟩ := sorts_eq_one hs
    exact ofBuild_ok ⟨_, by simp only [mkExtract, ha]; exact if_pos ⟨hle, hlt⟩⟩
  | zeroExtend | signExtend =>
    obtain ⟨k, n, rfl, hs⟩ := h
    obtain ⟨a, rfl, ha⟩ := sorts_eq_one hs
    exact ofBuild_ok ⟨_, by simp only [mkExtend, ha]; rfl⟩

theorem Symbol.apply_admitted {s : Symbol} (h : s.Admits (es.map Expr.sort)) :
    ∃ e, s.apply es = .ok e := by
  cases s with
  | plain op => exact op.apply_admitted h
  | indexed op indices => exact op.apply_admitted h

end

end Realizability
