import Realizability.Proofs.Meaning.Formula
import Realizability.Proofs.Meaning.Symbol
import Realizability.Proofs.Outcome

/-!
# Meaning of formed expressions

Every function that forms an expression computes a function of the values of its operands, whatever
coercions it makes and on whichever side it writes them (`Computes`).
-/

namespace Realizability.Expr

variable {M : Model} {ν : Valuation}

/-! ## Coercions -/

theorem means_ite {c a b : Expr} {x : Bool} {v w : Value} (hc : c.Means M ν (.bool x))
    (ha : a.Means M ν v) (hb : b.Means M ν w) (hs : v.sort = w.sort) :
    (ite c a b).Means M ν (if x then v else w) := by
  have hargs : MeanEach M ν [c, a, b] [.bool x, v, w] := .cons hc (.cons ha (.cons hb .nil))
  refine means_app .ite hargs ?_
  cases x with
  | true => rfl
  | false => exact hs.symm

theorem means_toReal {a : Expr} {n : Int} (h : a.Means M ν (.int n)) :
    (toReal a).Means M ν (.real n) :=
  means_app .toReal (.cons h .nil) rfl

theorem means_boolToInt {a : Expr} {x : Bool} (h : a.Means M ν (.bool x)) :
    (boolToInt a).Means M ν (.int x.toInt) := by
  have := means_ite (M := M) (ν := ν) (a := int 1) (b := int 0) (v := .int 1) (w := .int 0) h
    ⟨rfl, rfl⟩ ⟨rfl, rfl⟩ rfl
  cases x <;> exact this

theorem means_boolToReal {a : Expr} {x : Bool} (h : a.Means M ν (.bool x)) :
    (boolToReal a).Means M ν (.real (if x then 1 else 0)) := by
  have := means_ite (M := M) (ν := ν) (a := real 1) (b := real 0) (v := .real 1) (w := .real 0) h
    ⟨by simp [value], rfl⟩ ⟨by simp [value], rfl⟩ rfl
  cases x <;> exact this

theorem sort_of_coerce {e e' : Expr} {s : SmtSort} (h : e.coerce s = .ok e') : e'.sort = s := by
  unfold coerce at h
  split at h
  · cases h; assumption
  · split at h <;> cases h <;> rfl

theorem coerce_means {e e' : Expr} {s : SmtSort} {v : Value} (h : e.Means M ν v)
    (hc : e.coerce s = .ok e') : ∃ v', v.coerce s = some v' ∧ e'.Means M ν v' := by
  unfold coerce at hc
  split at hc
  · rename_i hs
    cases hc
    exact ⟨v, by simp [Value.coerce, h.sort, hs], h⟩
  · rename_i hs
    have hne : ¬ v.sort = s := by rwa [h.sort]
    split at hc
    · rename_i hb
      obtain ⟨x, rfl⟩ := Value.exists_of_sort_bool (h.sort.trans hb)
      cases hc
      exact ⟨_, by simp [Value.coerce, Value.sort], means_boolToInt h⟩
    · rename_i hb
      obtain ⟨x, rfl⟩ := Value.exists_of_sort_bool (h.sort.trans hb)
      cases hc
      exact ⟨_, by simp [Value.coerce, Value.sort], means_boolToReal h⟩
    · rename_i hb
      obtain ⟨x, rfl⟩ := Value.exists_of_sort_int (h.sort.trans hb)
      cases hc
      exact ⟨_, by simp [Value.coerce, Value.sort], means_toReal h⟩
    · cases hc

theorem mapM_coerce_means {es es' : List Expr} {vs : List Value} {s : SmtSort}
    (h : MeanEach M ν es vs) (hc : es.mapM (·.coerce s) = .ok es') :
    ∃ vs', vs.mapM (Value.coerce s) = some vs' ∧ MeanEach M ν es' vs' := by
  induction h generalizing es' with
  | nil => cases hc; exact ⟨[], rfl, .nil⟩
  | cons h _ ih =>
    rw [List.mapM_cons] at hc
    obtain ⟨e', he', hc⟩ := bind_eq_ok.mp hc
    obtain ⟨es', hes', hc⟩ := bind_eq_ok.mp hc
    cases hc
    obtain ⟨v', hv', hm⟩ := coerce_means h he'
    obtain ⟨vs', hvs', hms⟩ := ih hes'
    exact ⟨v' :: vs', by simp [hv', hvs'], .cons hm hms⟩

theorem merge_means {a b : Expr} {p : Expr × Expr} {v w : Value} (ha : a.Means M ν v)
    (hb : b.Means M ν w) (h : merge a b = .ok p) :
    ∃ q, Value.merge v w = some q ∧ p.1.Means M ν q.1 ∧ p.2.Means M ν q.2 ∧ p.1.sort = p.2.sort := by
  unfold merge at h
  split at h
  · cases h
  · rename_i s hs
    obtain ⟨a', ha', h⟩ := bind_eq_ok.mp h
    obtain ⟨b', hb', h⟩ := bind_eq_ok.mp h
    cases h
    obtain ⟨v', hv', hm⟩ := coerce_means ha ha'
    obtain ⟨w', hw', hn⟩ := coerce_means hb hb'
    refine ⟨(v', w'), ?_, hm, hn, ?_⟩
    · unfold Value.merge
      rw [ha.sort, hb.sort, hs]
      simp [hv', hw']
    · rw [sort_of_coerce ha', sort_of_coerce hb']

theorem foldlM_join_means {es : List Expr} {vs : List Value} {s t : SmtSort} (h : MeanEach M ν es vs)
    (hj : es.foldlM (fun s x => match s.join? x.sort with
      | some t => .ok t
      | none => .error .illSorted) s = (.ok t : Build SmtSort)) :
    vs.foldlM (fun s x => s.join? x.sort) s = some t := by
  induction h generalizing s with
  | nil => cases hj; rfl
  | cons h _ ih =>
    rw [List.foldlM_cons] at hj ⊢
    obtain ⟨u, hu, hj⟩ := bind_eq_ok.mp hj
    rw [h.sort]
    split at hu
    · rename_i hu'
      cases hu
      rw [hu']
      exact ih hj
    · cases hu

theorem mergeAll_means {es es' : List Expr} {vs : List Value} (h : MeanEach M ν es vs)
    (hm : mergeAll es = .ok es') : ∃ vs', Value.mergeAll vs = some vs' ∧ MeanEach M ν es' vs' := by
  cases h with
  | nil => cases hm
  | @cons e v es vs h hs =>
    unfold mergeAll at hm
    obtain ⟨s, hj, hm⟩ := bind_eq_ok.mp hm
    obtain ⟨vs', hvs', hms⟩ := mapM_coerce_means (.cons h hs) hm
    refine ⟨vs', ?_, hms⟩
    have hjoin : vs.foldlM (fun s x => s.join? x.sort) v.sort = some s := by
      rw [h.sort]
      exact foldlM_join_means hs hj
    simp only [Value.mergeAll, hjoin, Option.bind_eq_bind, Option.bind_some]
    exact hvs'

/-! ## Connectives -/

theorem isBool_iff {e : Expr} {v : Value} (h : e.Means M ν v) :
    e.isBool = true ↔ ∃ b, v = .bool b := by
  rw [isBool, beq_iff_eq, ← h.sort]
  constructor
  · exact Value.exists_of_sort_bool
  · rintro ⟨b, rfl⟩; rfl

theorem logical_eq_ok {op : Op} {es : List Expr} {e : Expr} (h : logical op es = .ok e) :
    (∀ a ∈ es, a.isBool = true) ∧ e = app op es := by
  unfold logical at h
  split at h
  · rename_i hb
    cases h
    exact ⟨List.all_eq_true.mp hb, rfl⟩
  · cases h

theorem allBool_of_means {es : List Expr} {vs : List Value} (h : MeanEach M ν es vs)
    (hb : ∀ a ∈ es, a.isBool = true) : Value.allBool vs = true := by
  induction h with
  | nil => rfl
  | cons h _ ih =>
    obtain ⟨b, rfl⟩ := (isBool_iff h).mp (hb _ (List.mem_cons_self ..))
    have := ih fun a ha => hb a (List.mem_cons_of_mem _ ha)
    simpa [Value.allBool, Value.sort] using this

theorem mkNot_means {a e : Expr} {v : Value} (h : a.Means M ν v) (he : mkNot a = .ok e) :
    ∃ u, Value.negation v = some u ∧ e.Means M ν u := by
  obtain ⟨hb, rfl⟩ := logical_eq_ok he
  obtain ⟨x, rfl⟩ := (isBool_iff h).mp (hb a (List.mem_cons_self ..))
  have := means_app .not (.cons h .nil) rfl
  refine ⟨_, rfl, ?_⟩
  cases x <;> simpa [Op.value, Value.ofProp] using this

theorem conjoin_means {es : List Expr} {vs : List Value} {e : Expr} (h : MeanEach M ν es vs)
    (he : conjoin es = .ok e) : ∃ u, Value.conjunction vs = some u ∧ e.Means M ν u := by
  cases h with
  | nil => cases he; exact ⟨_, rfl, means_truth true⟩
  | cons h hs =>
    cases hs with
    | nil => cases he; exact ⟨_, rfl, h⟩
    | cons h' hs =>
      have hall : MeanEach M ν _ _ := .cons h (.cons h' hs)
      obtain ⟨hb, rfl⟩ := logical_eq_ok he
      refine ⟨_, ?_, means_app .and hall rfl⟩
      simp only [Value.conjunction, allBool_of_means hall hb, if_true]
      rfl

theorem disjoin_means {es : List Expr} {vs : List Value} {e : Expr} (h : MeanEach M ν es vs)
    (he : disjoin es = .ok e) : ∃ u, Value.disjunction vs = some u ∧ e.Means M ν u := by
  cases h with
  | nil => cases he; exact ⟨_, rfl, means_truth false⟩
  | cons h hs =>
    cases hs with
    | nil => cases he; exact ⟨_, rfl, h⟩
    | cons h' hs =>
      have hall : MeanEach M ν _ _ := .cons h (.cons h' hs)
      obtain ⟨hb, rfl⟩ := logical_eq_ok he
      refine ⟨_, ?_, means_app .or hall rfl⟩
      simp only [Value.disjunction, allBool_of_means hall hb, if_true]
      rfl

theorem conjoin_holds {es : List Expr} {e : Expr} (he : conjoin es = .ok e) :
    e.Holds M ν ↔ ∀ a ∈ es, a.Holds M ν := by
  rcases es with _ | ⟨a, _ | ⟨b, es⟩⟩
  · cases he
    simp [Holds, truth, value, Op.value]
  · cases he
    simp
  · obtain ⟨-, rfl⟩ := logical_eq_ok he
    rw [Holds, value, valuesOf_eq_map, Op.value, Value.ofProp_eq_yes, List.forall_mem_map]
    rfl

theorem mkNot_holds {a e : Expr} (he : mkNot a = .ok e) : e.Holds M ν ↔ ¬ a.Holds M ν := by
  obtain ⟨-, rfl⟩ := logical_eq_ok he
  rw [Holds, value, valuesOf_eq_map, Op.value, Value.ofProp_eq_yes]
  simp [Holds]

theorem mkImplies_holds {a b e : Expr} (he : mkImplies a b = .ok e) :
    e.Holds M ν ↔ (a.Holds M ν → b.Holds M ν) := by
  obtain ⟨-, rfl⟩ := logical_eq_ok he
  rw [Holds, value, valuesOf_eq_map, Op.value, Value.ofProp_eq_yes]
  simp [Holds]

/-- A function that forms an expression from two computes a function of their values. -/
def Computes (M : Model) (ν : Valuation) (f : Expr → Expr → Build Expr)
    (φ : Value → Value → Option Value) : Prop :=
  ∀ ⦃a b e : Expr⦄ ⦃v w : Value⦄, a.Means M ν v → b.Means M ν w → f a b = .ok e →
    ∃ u, φ v w = some u ∧ e.Means M ν u

theorem mkXor_computes : Computes M ν mkXor Value.exclusive := by
  intro a b e v w ha hb he
  obtain ⟨hs, rfl⟩ := logical_eq_ok he
  obtain ⟨x, rfl⟩ := (isBool_iff ha).mp (hs a (by simp))
  obtain ⟨y, rfl⟩ := (isBool_iff hb).mp (hs b (by simp))
  have := means_app .xor (.cons ha (.cons hb .nil)) rfl
  refine ⟨_, rfl, ?_⟩
  cases x <;> cases y <;> simpa [Op.value, Value.ofProp] using this

theorem mkImplies_computes : Computes M ν mkImplies Value.implication := by
  intro a b e v w ha hb he
  obtain ⟨hs, rfl⟩ := logical_eq_ok he
  obtain ⟨x, rfl⟩ := (isBool_iff ha).mp (hs a (by simp))
  obtain ⟨y, rfl⟩ := (isBool_iff hb).mp (hs b (by simp))
  have := means_app .implies (.cons ha (.cons hb .nil)) rfl
  refine ⟨_, rfl, ?_⟩
  cases x <;> cases y <;> simpa [Op.value, Value.ofProp] using this

theorem mkIte_means {c a b e : Expr} {x v w : Value} (hc : c.Means M ν x) (ha : a.Means M ν v)
    (hb : b.Means M ν w) (he : mkIte c a b = .ok e) :
    ∃ u, Value.choice x v w = some u ∧ e.Means M ν u := by
  unfold mkIte at he
  split at he
  · rename_i hbool
    obtain ⟨t, rfl⟩ := (isBool_iff hc).mp hbool
    obtain ⟨p, hp, he⟩ := bind_eq_ok.mp he
    cases he
    obtain ⟨q, hq, hm, hn, hs⟩ := merge_means ha hb hp
    refine ⟨_, by simp [Value.choice, hq], means_ite hc hm hn ?_⟩
    rw [hm.sort, hn.sort, hs]
  · cases he

/-! ## Equality and order -/

theorem join?_comm (s t : SmtSort) : s.join? t = t.join? s := by
  unfold SmtSort.join?
  by_cases h : s = t
  · rw [if_pos h, if_pos h.symm, h]
  · rw [if_neg h, if_neg (Ne.symm h)]
    cases s <;> cases t <;> rfl

theorem merge_comm {v w : Value} : Value.merge w v = (Value.merge v w).map Prod.swap := by
  unfold Value.merge
  rw [join?_comm]
  cases v.sort.join? w.sort with
  | none => rfl
  | some s =>
    dsimp only
    cases v.coerce s <;> cases w.coerce s <;> rfl

theorem means_eq {a b : Expr} {v w : Value} (ha : a.Means M ν v) (hb : b.Means M ν w) :
    (app .eq [a, b]).Means M ν (.ofProp (v = w)) := by
  have hv : Op.eq.value M.zero [v, w] = .ofProp (v = w) := Value.ofProp_congr (by simp [eq_comm])
  rw [← hv]
  exact means_app _ (.cons ha (.cons hb .nil)) rfl

theorem mkEq_computes : Computes M ν mkEq Value.equal := by
  intro a b e v w ha hb he
  unfold mkEq at he
  split at he
  · obtain ⟨p, hp, he⟩ := bind_eq_ok.mp he
    cases he
    obtain ⟨q, hq, hm, hn, -⟩ := merge_means hb ha hp
    rw [merge_comm, Option.map_eq_some_iff] at hq
    obtain ⟨q', hq', rfl⟩ := hq
    refine ⟨_, by rw [Value.equal, hq']; rfl, ?_⟩
    rw [Value.ofProp_congr eq_comm]
    exact means_eq hm hn
  · obtain ⟨p, hp, he⟩ := bind_eq_ok.mp he
    cases he
    obtain ⟨q, hq, hm, hn, -⟩ := merge_means ha hb hp
    exact ⟨_, by rw [Value.equal, hq]; rfl, means_eq hm hn⟩

theorem mkDistinct_means {es : List Expr} {vs : List Value} {e : Expr} (h : MeanEach M ν es vs)
    (he : mkDistinct es = .ok e) : ∃ u, Value.distinct vs = some u ∧ e.Means M ν u := by
  unfold mkDistinct at he
  obtain ⟨es', hes', he⟩ := bind_eq_ok.mp he
  cases he
  obtain ⟨vs', hvs', hm⟩ := mergeAll_means h hes'
  exact ⟨_, by rw [Value.distinct, hvs']; rfl, means_app .distinct hm rfl⟩

namespace Comparison

variable (c : Comparison) (z : ZeroDivision)

theorem holds_flip {α : Type} [LT α] [LE α] (x y : α) : c.flip.Holds y x ↔ c.Holds x y := by
  cases c <;> exact Iff.rfl

theorem value_arith_int (x y : Int) :
    c.arith.value z [.int x, .int y] = .ofProp (c.Holds x y) := by
  cases c <;> rfl

theorem value_arith_real (x y : ℝ) :
    c.arith.value z [.real x, .real y] = .ofProp (c.Holds x y) := by
  cases c <;> rfl

theorem value_signed {n m : Nat} (x : BitVec n) (y : BitVec m) :
    c.signed.value z [.bits n x, .bits m y] = .ofProp (c.Holds x.toInt y.toInt) := by
  cases c <;> rfl

end Comparison

theorem means_two {op : Op} {a b : Expr} {v w u : Value} (ha : a.Means M ν v) (hb : b.Means M ν w)
    (hu : op.value M.zero [v, w] = u) (hs : u.sort = op.sort [v.sort, w.sort]) :
    (app op [a, b]).Means M ν u := by
  rw [← hu] at hs ⊢
  exact means_app _ (.cons ha (.cons hb .nil)) hs

theorem lexical_means (c : Comparison) {a b : Expr} {x y : List Nat} (ha : a.Means M ν (.text x))
    (hb : b.Means M ν (.text y)) : (c.lexical a b).Means M ν (.ofProp (c.Holds x y)) := by
  cases c with
  | lt => exact means_two ha hb rfl rfl
  | le => exact means_two ha hb rfl rfl
  | gt => exact means_two hb ha rfl rfl
  | ge => exact means_two hb ha rfl rfl

theorem compare_flip (c : Comparison) (v w : Value) :
    Value.compare c.flip w v = Value.compare c v w := by
  unfold Value.compare
  rw [merge_comm]
  cases v.merge w with
  | none => rfl
  | some q =>
    obtain ⟨x, y⟩ := q
    cases x <;> cases y <;> first | rfl | exact congrArg some (Value.ofProp_congr (c.holds_flip _ _))

theorem compareMerged_computes (c : Comparison) :
    Computes M ν (compareMerged c) (Value.compare c) := by
  intro a b e v w ha hb he
  unfold compareMerged at he
  obtain ⟨⟨a', b'⟩, hp, he⟩ := bind_eq_ok.mp he
  obtain ⟨⟨x, y⟩, hq, hm, hn, hs⟩ := merge_means ha hb hp
  have hx : x.sort = a'.sort := hm.sort
  have hy : y.sort = a'.sort := hn.sort.trans hs.symm
  dsimp only at he
  rw [Value.compare, hq]
  split at he
  · rename_i hi
    obtain ⟨n, rfl⟩ := Value.exists_of_sort_int (hx.trans hi)
    obtain ⟨m, rfl⟩ := Value.exists_of_sort_int (hy.trans hi)
    cases he
    exact ⟨_, rfl, means_two hm hn (c.value_arith_int _ n m) (by cases c <;> rfl)⟩
  · rename_i hi
    obtain ⟨n, rfl⟩ := Value.exists_of_sort_real (hx.trans hi)
    obtain ⟨m, rfl⟩ := Value.exists_of_sort_real (hy.trans hi)
    cases he
    exact ⟨_, rfl, means_two hm hn (c.value_arith_real _ n m) (by cases c <;> rfl)⟩
  · rename_i k hi
    obtain ⟨n, rfl⟩ := Value.exists_of_sort_bitVec (hx.trans hi)
    obtain ⟨m, rfl⟩ := Value.exists_of_sort_bitVec (hy.trans hi)
    cases he
    exact ⟨_, rfl, means_two hm hn (c.value_signed _ n m) (by cases c <;> rfl)⟩
  · rename_i hi
    obtain ⟨n, rfl⟩ := Value.exists_of_sort_string (hx.trans hi)
    obtain ⟨m, rfl⟩ := Value.exists_of_sort_string (hy.trans hi)
    cases he
    exact ⟨_, rfl, lexical_means c hm hn⟩
  · cases he

theorem mkCompare_computes (c : Comparison) : Computes M ν (mkCompare c) (Value.compare c) := by
  intro a b e v w ha hb he
  unfold mkCompare at he
  split at he
  · rw [← compare_flip]
    exact compareMerged_computes c.flip hb ha he
  · exact compareMerged_computes c ha hb he

/-! ## Arithmetic -/

/-- The operators of a family compute an operation at each of its sorts. -/
structure Family.Computes (z : ZeroDivision) (f : Family) (φ : Value.Arithmetic) : Prop where
  int : ∀ x y, f.int.value z [.int x, .int y] = .int (φ.int x y)
  sort_int : f.int.sort [.int, .int] = .int
  real : ∀ op, f.real = some op → op.sort [.real, .real] = .real ∧
    ∃ g, φ.real = some g ∧ ∀ x y, op.value z [.real x, .real y] = .real (g x y)
  bits : ∀ n x y, f.bits.value z [.bits n x, .bits n y] = .bits n (φ.bits n x y)
  sort_bits : ∀ n, f.bits.sort [.bitVec n, .bitVec n] = .bitVec n

theorem add_computes (z : ZeroDivision) : Family.add.Computes z .add where
  int _ _ := rfl
  sort_int := rfl
  real _ h := by cases h; exact ⟨rfl, _, rfl, fun _ _ => rfl⟩
  bits n x y := by simp [Op.value, Value.onVectors, Family.add, Value.Arithmetic.add]
  sort_bits _ := rfl

theorem sub_computes (z : ZeroDivision) : Family.sub.Computes z .sub where
  int _ _ := rfl
  sort_int := rfl
  real _ h := by cases h; exact ⟨rfl, _, rfl, fun _ _ => rfl⟩
  bits n x y := by simp [Op.value, Value.onVectors, Family.sub, Value.Arithmetic.sub]
  sort_bits _ := rfl

theorem mul_computes (z : ZeroDivision) : Family.mul.Computes z .mul where
  int _ _ := rfl
  sort_int := rfl
  real _ h := by cases h; exact ⟨rfl, _, rfl, fun _ _ => rfl⟩
  bits n x y := by simp [Op.value, Value.onVectors, Family.mul, Value.Arithmetic.mul]
  sort_bits _ := rfl

theorem div_computes (z : ZeroDivision) : Family.div.Computes z (.div z) where
  int _ _ := rfl
  sort_int := rfl
  real _ h := by cases h; exact ⟨rfl, _, rfl, fun _ _ => rfl⟩
  bits n x y := by simp [Op.value, Value.onVectors, Family.div, Value.Arithmetic.div]
  sort_bits _ := rfl

theorem mod_computes (z : ZeroDivision) : Family.mod.Computes z (.mod z) where
  int _ _ := rfl
  sort_int := rfl
  real _ h := by cases h
  bits n x y := by simp [Op.value, Value.onVectors, Family.mod, Value.Arithmetic.mod]
  sort_bits _ := rfl

theorem apply_computes {f : Family} {φ : Value.Arithmetic} (hf : f.Computes M.zero φ) :
    Computes M ν f.apply φ.apply := by
  intro a b e v w ha hb he
  unfold Family.apply at he
  obtain ⟨⟨a', b'⟩, hp, he⟩ := bind_eq_ok.mp he
  obtain ⟨⟨x, y⟩, hq, hm, hn, hs⟩ := merge_means ha hb hp
  have hx : x.sort = a'.sort := hm.sort
  have hy : y.sort = a'.sort := hn.sort.trans hs.symm
  dsimp only at he
  rw [Value.Arithmetic.apply, hq]
  split at he
  · rename_i hi
    obtain ⟨n, rfl⟩ := Value.exists_of_sort_int (hx.trans hi)
    obtain ⟨m, rfl⟩ := Value.exists_of_sort_int (hy.trans hi)
    cases he
    exact ⟨_, rfl, means_two hm hn (hf.int n m) hf.sort_int.symm⟩
  · rename_i op hi hr
    obtain ⟨n, rfl⟩ := Value.exists_of_sort_real (hx.trans hi)
    obtain ⟨m, rfl⟩ := Value.exists_of_sort_real (hy.trans hi)
    cases he
    obtain ⟨hop, g, hg, hval⟩ := hf.real op hr
    exact ⟨.real (g n m), by simp [hg], means_two hm hn (hval n m) hop.symm⟩
  · rename_i k hi
    obtain ⟨n, rfl⟩ := Value.exists_of_sort_bitVec (hx.trans hi)
    obtain ⟨m, rfl⟩ := Value.exists_of_sort_bitVec (hy.trans hi)
    cases he
    refine ⟨_, rfl, means_two hm hn ?_ (hf.sort_bits k).symm⟩
    rw [hf.bits, BitVec.setWidth_eq]
  · cases he

theorem mkAdd_computes : Computes M ν mkAdd Value.add := by
  intro a b e v w ha hb he
  unfold mkAdd at he
  rw [← ha.sort, ← hb.sort] at he
  cases v with
  | bool x => exact apply_computes (add_computes _) (means_boolToInt ha) hb he
  | text x =>
    cases w with
    | text y =>
      cases he
      exact ⟨_, rfl, means_two ha hb (by simp [Op.value, Value.codes]) rfl⟩
    | _ => exact apply_computes (add_computes _) ha hb he
  | _ => exact apply_computes (add_computes _) ha hb he

theorem means_zeroOf_int : (zeroOf .int).Means M ν (.int 0) := ⟨rfl, rfl⟩

theorem means_zeroOf_real : (zeroOf .real).Means M ν (.real 0) := ⟨by simp [zeroOf, value], rfl⟩

theorem means_zeroOf_bits (n : Nat) : (zeroOf (.bitVec n)).Means M ν (.bits n 0) := ⟨rfl, rfl⟩

theorem means_choice {c a b : Expr} {x : Bool} {u v w : Value} (hc : c.Means M ν (.bool x))
    (ha : a.Means M ν v) (hb : b.Means M ν w) (hs : v.sort = w.sort)
    (hu : (if x then v else w) = u) : (ite c a b).Means M ν u :=
  hu ▸ means_ite hc ha hb hs

theorem mkMul_computes : Computes M ν mkMul Value.mul := by
  intro a b e v w ha hb he
  unfold mkMul at he
  rw [← ha.sort, ← hb.sort] at he
  cases v with
  | bool x =>
    cases w with
    | bool y =>
      cases he
      exact ⟨_, rfl, means_choice ha (means_boolToInt hb) means_zeroOf_int rfl
        (by cases x <;> rfl)⟩
    | int m =>
      cases he
      exact ⟨_, rfl, means_choice ha hb means_zeroOf_int rfl (by cases x <;> rfl)⟩
    | real r =>
      cases he
      exact ⟨_, rfl, means_choice ha hb means_zeroOf_real rfl (by cases x <;> rfl)⟩
    | bits n r =>
      cases he
      exact ⟨_, rfl, means_choice ha hb (means_zeroOf_bits n) rfl (by cases x <;> rfl)⟩
    | text cs => exact apply_computes (mul_computes _) ha hb he
  | int n =>
    cases w with
    | bool y =>
      cases he
      exact ⟨_, rfl, means_choice hb ha means_zeroOf_int rfl (by cases y <;> rfl)⟩
    | _ => exact apply_computes (mul_computes _) ha hb he
  | real r =>
    cases w with
    | bool y =>
      cases he
      exact ⟨_, rfl, means_choice hb ha means_zeroOf_real rfl (by cases y <;> rfl)⟩
    | _ => exact apply_computes (mul_computes _) ha hb he
  | bits n r => cases w <;> exact apply_computes (mul_computes _) ha hb he
  | text cs =>
    cases w with
    | text y => cases he
    | _ => exact apply_computes (mul_computes _) ha hb he

theorem mkArith_computes {f : Family} {φ : Value.Arithmetic} (hf : f.Computes M.zero φ) :
    Computes M ν (mkArith f) φ.apply := by
  intro a b e v w ha hb he
  unfold mkArith at he
  split at he
  · cases he
  · exact apply_computes hf ha hb he

theorem means_one {op : Op} {a : Expr} {v u : Value} (ha : a.Means M ν v)
    (hu : op.value M.zero [v] = u) (hs : u.sort = op.sort [v.sort]) :
    (app op [a]).Means M ν u := by
  rw [← hu] at hs ⊢
  exact means_app _ (.cons ha .nil) hs

theorem mkNeg_means {a e : Expr} {v : Value} (h : a.Means M ν v) (he : mkNeg a = .ok e) :
    ∃ u, Value.neg v = some u ∧ e.Means M ν u := by
  unfold mkNeg at he
  rw [← h.sort] at he
  cases v with
  | int n => cases he; exact ⟨_, rfl, means_one h rfl rfl⟩
  | real x => cases he; exact ⟨_, rfl, means_one h rfl rfl⟩
  | bits n x => cases he; exact ⟨_, rfl, means_one h rfl rfl⟩
  | _ => cases he

theorem mkAbs_means {a e : Expr} {v : Value} (h : a.Means M ν v) (he : mkAbs a = .ok e) :
    ∃ u, Value.abs v = some u ∧ e.Means M ν u := by
  unfold mkAbs at he
  obtain ⟨n, hn, he⟩ := bind_eq_ok.mp he
  obtain ⟨u, hu, hm⟩ := mkNeg_means h hn
  cases he
  rw [← h.sort]
  cases v with
  | int k =>
    cases hu
    have hpos : (app .gt [a, zeroOf .int]).Means M ν (.ofProp (k > 0)) :=
      means_two h means_zeroOf_int rfl rfl
    refine ⟨_, rfl, means_choice hpos h hm rfl ?_⟩
    by_cases hk : k > 0
    · simp [hk, abs_of_pos hk]
    · simp [hk, abs_of_nonpos (not_lt.mp hk)]
  | real x =>
    cases hu
    have hpos : (app .gt [a, zeroOf .real]).Means M ν (.ofProp (x > 0)) :=
      means_two h means_zeroOf_real rfl rfl
    refine ⟨_, rfl, means_choice hpos h hm rfl ?_⟩
    by_cases hk : x > 0
    · simp [hk, abs_of_pos hk]
    · simp [hk, abs_of_nonpos (not_lt.mp hk)]
  | bits n x =>
    cases hu
    have hpos : (app .bvsgt [a, zeroOf (.bitVec n)]).Means M ν (.ofProp (x.toInt > 0)) :=
      means_two h (means_zeroOf_bits n) (by simp [Op.value, Value.relatingSigned]) rfl
    refine ⟨_, rfl, means_choice hpos h hm rfl ?_⟩
    by_cases hk : 0 < x.toInt <;> simp [hk]
  | _ => cases hu

theorem intToReal_means {a : Expr} {v : Value} (h : a.Means M ν v) :
    (intToReal a).Means M ν (Value.intToReal v) := by
  unfold intToReal
  rw [← h.sort]
  cases v with
  | int n => exact means_toReal h
  | _ => exact h

/-! ## Bit-vectors and strings -/

theorem mkBvnot_means {a e : Expr} {v : Value} (h : a.Means M ν v) (he : mkBvnot a = .ok e) :
    ∃ u, Value.complement v = some u ∧ e.Means M ν u := by
  unfold mkBvnot at he
  rw [← h.sort] at he
  cases v with
  | bits n x => cases he; exact ⟨_, rfl, means_one h rfl rfl⟩
  | bool b =>
    cases he
    exact ⟨_, rfl, means_one h (by cases b <;> simp [Op.value, Value.ofProp]) rfl⟩
  | _ => cases he

theorem exists_sameWidth {a b : Expr} {v w : Value} (ha : a.Means M ν v) (hb : b.Means M ν w)
    (h : (a.sort.isBitVec && a.sort == b.sort) = true) :
    ∃ n x y, v = .bits n x ∧ w = .bits n y := by
  rw [Bool.and_eq_true, beq_iff_eq, ← ha.sort, ← hb.sort] at h
  obtain ⟨hv, hw⟩ := h
  cases v with
  | bits n x =>
    obtain ⟨y, rfl⟩ := Value.exists_of_sort_bitVec hw.symm
    exact ⟨n, x, y, rfl, rfl⟩
  | _ => cases hv

/-- An operator computes a function on bit-vectors of one width. -/
structure OnBits (z : ZeroDivision) (op : Op) (f : (n : Nat) → BitVec n → BitVec n → Value) :
    Prop where
  value : ∀ n x y, op.value z [.bits n x, .bits n y] = f n x y
  sort : ∀ n x y, (f n x y).sort = op.sort [.bitVec n, .bitVec n]

theorem means_onBits {op : Op} {f : (n : Nat) → BitVec n → BitVec n → Value} {a b : Expr}
    {v w : Value} (hf : OnBits M.zero op f) (ha : a.Means M ν v) (hb : b.Means M ν w)
    (h : (a.sort.isBitVec && a.sort == b.sort) = true) :
    ∃ u, Value.sameWidth f v w = some u ∧ (app op [a, b]).Means M ν u := by
  obtain ⟨n, x, y, rfl, rfl⟩ := exists_sameWidth ha hb h
  exact ⟨f n x y, by simp [Value.sameWidth], means_two ha hb (hf.value n x y) (hf.sort n x y)⟩

theorem mkBits_computes {op : Op} {f : (n : Nat) → BitVec n → BitVec n → Value}
    (hf : OnBits M.zero op f) : Computes M ν (mkBits op) (Value.sameWidth f) := by
  intro a b e v w ha hb he
  unfold mkBits at he
  split at he
  · rename_i h
    cases he
    exact means_onBits hf ha hb h
  · cases he

theorem mkShift_computes {op : Op} {f : (n : Nat) → BitVec n → BitVec n → Value}
    (hf : OnBits M.zero op f) : Computes M ν (mkShift op) (Value.sameWidth f) := by
  intro a b e v w ha hb he
  unfold mkShift at he
  split at he
  · rename_i h
    cases he
    exact means_onBits hf ha hb h
  · split at he <;> cases he

theorem mkBitwise_computes {op connective : Op} {f : (n : Nat) → BitVec n → BitVec n → BitVec n}
    {g : Bool → Bool → Bool} (hf : OnBits M.zero op fun n x y => .bits n (f n x y))
    (hg : ∀ x y, connective.value M.zero [.bool x, .bool y] = .bool (g x y))
    (hs : connective.sort [.bool, .bool] = .bool) :
    Computes M ν (mkBitwise op connective) (Value.bitwise f g) := by
  intro a b e v w ha hb he
  unfold mkBitwise at he
  split at he
  · rename_i h
    cases he
    obtain ⟨n, x, y, rfl, rfl⟩ := exists_sameWidth ha hb h
    exact means_onBits hf ha hb h
  · split at he
    · rename_i h
      cases he
      rw [Bool.and_eq_true] at h
      obtain ⟨x, rfl⟩ := (isBool_iff ha).mp h.1
      obtain ⟨y, rfl⟩ := (isBool_iff hb).mp h.2
      exact ⟨_, rfl, means_two ha hb (hg x y) hs.symm⟩
    · split at he <;> cases he

theorem foldl_concat_means {es : List Expr} {vs : List Value} {a : Expr} {v : Value}
    (h : MeanEach M ν es vs) (ha : a.Means M ν v) (hv : v.sort.isBitVec = true)
    (hs : ∀ w ∈ vs, w.sort.isBitVec = true) :
    (es.foldl (fun x y => app .concat [x, y]) a).Means M ν
      (vs.foldl (fun x y => Value.joined [x, y]) v) := by
  induction h generalizing a v with
  | nil => exact ha
  | @cons e w es vs h _ ih =>
    have hw := hs w (List.mem_cons_self ..)
    cases v with
    | bits n x =>
      cases w with
      | bits m y =>
        exact ih (means_two ha h rfl rfl) rfl fun w hw => hs w (List.mem_cons_of_mem _ hw)
      | _ => cases hw
    | _ => cases hv

theorem all_sort_means {es : List Expr} {vs : List Value} (h : MeanEach M ν es vs)
    (p : SmtSort → Bool) : es.all (fun e => p e.sort) = vs.all (fun v => p v.sort) := by
  induction h with
  | nil => rfl
  | cons h _ ih => rw [List.all_cons, List.all_cons, h.sort, ih]

theorem mkConcat_means {es : List Expr} {vs : List Value} {e : Expr} (h : MeanEach M ν es vs)
    (he : mkConcat es = .ok e) : ∃ u, Value.concat vs = some u ∧ e.Means M ν u := by
  cases h with
  | nil => cases he
  | @cons a v es vs ha hs =>
    cases hs with
    | nil => cases he
    | @cons b w es vs hb hs =>
      have hall : MeanEach M ν (a :: b :: es) (v :: w :: vs) := .cons ha (.cons hb hs)
      have hbits := all_sort_means hall SmtSort.isBitVec
      have htext := all_sort_means hall (· == .string)
      unfold mkConcat at he
      dsimp only at he
      rw [hbits, htext] at he
      unfold Value.concat
      split at he
      · rename_i hc
        cases he
        refine ⟨_, if_pos hc, ?_⟩
        rw [List.all_eq_true] at hc
        exact foldl_concat_means (.cons hb hs) ha (hc v (by simp)) fun w hw =>
          hc w (List.mem_cons_of_mem _ hw)
      · rename_i hc
        split at he
        · rename_i ht
          cases he
          exact ⟨_, (if_neg hc).trans (if_pos ht), means_app .strConcat hall rfl⟩
        · cases he

theorem mkExtract_means {high low : Index} {a e : Expr} {v : Value} (h : a.Means M ν v)
    (he : mkExtract high low a = .ok e) :
    ∃ u, Value.extract high low v = some u ∧ e.Means M ν u := by
  unfold mkExtract at he
  split at he
  · rename_i hi lo n hs
    obtain ⟨x, rfl⟩ := Value.exists_of_sort_bitVec (h.sort.trans hs)
    split at he
    · rename_i hc
      cases he
      exact ⟨_, if_pos hc, means_one h rfl rfl⟩
    · cases he
  · cases he
  · cases he

theorem mkExtend_means {op : Nat → Op} {f : (n k : Nat) → BitVec n → BitVec (n + k)} {k : Index}
    {a e : Expr} {v : Value}
    (hf : ∀ n k x, (op k).value M.zero [.bits n x] = .bits (n + k) (f n k x))
    (hs : ∀ n k, (op k).sort [.bitVec n] = .bitVec (n + k)) (h : a.Means M ν v)
    (he : mkExtend op k a = .ok e) : ∃ u, Value.extend f k v = some u ∧ e.Means M ν u := by
  unfold mkExtend at he
  split at he
  · rename_i k n hn
    obtain ⟨x, rfl⟩ := Value.exists_of_sort_bitVec (h.sort.trans hn)
    cases he
    exact ⟨_, rfl, means_one h (hf n k x) (hs n k).symm⟩
  · cases he

end Realizability.Expr
