import Mathlib.Data.List.Chain
import Mathlib.Data.Set.List
import Realizability.Proofs.Outcome
import Realizability.Proofs.Theory.Standard
import Realizability.Proofs.Theory.Word

/-!
# Values of admitted applications

On operands that a symbol admits, where no divisor is zero, what it computes is its standard value
(`Symbol.value_standard`).
-/

namespace Realizability

open Value

/-! ## Lists of values -/

theorem exists_eq_map {α : Type} {c : α → Value} {vs : List Value} (h : ∀ v ∈ vs, ∃ a, v = c a) :
    ∃ as : List α, vs = as.map c := by
  have hmem : vs ∈ Set.range (List.map c) := by
    rw [Set.range_list_map]
    exact fun v hv => (h v hv).imp fun _ ha => ha.symm
  obtain ⟨as, has⟩ := hmem
  exact ⟨as, has.symm⟩

section
variable {vs : List Value} {n : Nat}

theorem exists_bools (h : ∀ s ∈ vs.map Value.sort, s = .bool) :
    ∃ bs : List Bool, vs = bs.map bool :=
  exists_eq_map fun _ hv => exists_of_sort_bool (h _ (List.mem_map_of_mem hv))

theorem exists_ints (h : ∀ s ∈ vs.map Value.sort, s = .int) : ∃ ns : List Int, vs = ns.map int :=
  exists_eq_map fun _ hv => exists_of_sort_int (h _ (List.mem_map_of_mem hv))

theorem exists_words (h : ∀ s ∈ vs.map Value.sort, s = .bitVec n) :
    ∃ xs : List (BitVec n), vs = xs.map (bits n) :=
  exists_eq_map fun _ hv => exists_of_sort_bitVec (h _ (List.mem_map_of_mem hv))

@[simp] theorem map_truth_bool (bs : List Bool) : (bs.map bool).map truth = bs := by
  simp [truth, Function.comp_def]

@[simp] theorem map_integer_int (ns : List Int) : (ns.map int).map integer = ns := by
  simp [integer, Function.comp_def]

@[simp] theorem map_unsigned_bits (xs : List (BitVec n)) :
    (xs.map (bits n)).map unsigned = xs.map BitVec.toNat := by
  simp [unsigned, Function.comp_def]

theorem exists_word (h : vs.map Value.sort = [.bitVec n]) : ∃ x, vs = [bits n x] := by
  obtain ⟨v, rfl, hv⟩ := List.map_eq_singleton_iff.mp h
  obtain ⟨x, rfl⟩ := exists_of_sort_bitVec hv
  exact ⟨x, rfl⟩

theorem exists_two {s t : SmtSort} (h : vs.map Value.sort = [s, t]) :
    ∃ v w, vs = [v, w] ∧ v.sort = s ∧ w.sort = t := by
  rcases vs with _ | ⟨v, _ | ⟨w, _ | ⟨u, vs⟩⟩⟩ <;> simp_all

theorem exists_three {s t u : SmtSort} (h : vs.map Value.sort = [s, t, u]) :
    ∃ v w x, vs = [v, w, x] ∧ v.sort = s ∧ w.sort = t ∧ x.sort = u := by
  rcases vs with _ | ⟨v, _ | ⟨w, _ | ⟨x, _ | ⟨y, vs⟩⟩⟩⟩ <;> simp_all

theorem exists_two_words (h : vs.map Value.sort = [.bitVec n, .bitVec n]) :
    ∃ x y, vs = [bits n x, bits n y] := by
  obtain ⟨v, w, rfl, hv, hw⟩ := exists_two h
  obtain ⟨x, rfl⟩ := exists_of_sort_bitVec hv
  obtain ⟨y, rfl⟩ := exists_of_sort_bitVec hw
  exact ⟨x, y, rfl⟩

end

theorem foldlM_map {α : Type} {c : α → Value} {φ : Value → Value → Option Value} {f : α → α → α}
    (h : ∀ a b, φ (c a) (c b) = some (c (f a b))) (as : List α) (a : α) :
    (as.map c).foldlM φ (c a) = some (c (as.foldl f a)) := by
  induction as generalizing a with
  | nil => rfl
  | cons b as ih =>
    rw [List.map_cons, List.foldlM_cons, h]
    exact ih (f a b)

theorem leftAssoc_map {α : Type} [Inhabited α] {c : α → Value} {φ : Value → Value → Option Value}
    {f : α → α → α} (h : ∀ a b, φ (c a) (c b) = some (c (f a b))) {as : List α} (hne : as ≠ []) :
    leftAssoc φ (as.map c) = some (c (foldLeft f as)) := by
  obtain ⟨a, as, rfl⟩ := List.exists_cons_of_ne_nil hne
  exact foldlM_map h as a

/-! ## Truth values -/

theorem ofProp_eq_bool {p : Prop} {b : Bool} (h : p ↔ b = true) : ofProp p = bool b := by
  cases b <;> simp_all [ofProp]

theorem allBool_map (bs : List Bool) : allBool (bs.map bool) = true := by
  simp [allBool, Value.sort]

theorem and_iff (bs : List Bool) : bs.and = true ↔ ∀ b ∈ bs, b = true := List.all_eq_true

theorem or_iff (bs : List Bool) : bs.or = true ↔ ∃ b ∈ bs, b = true := List.any_eq_true

theorem conjunction_bools (bs : List Bool) : conjunction (bs.map bool) = some (bool bs.and) := by
  rcases bs with _ | ⟨b, _ | ⟨b', bs⟩⟩
  · rfl
  · simp [conjunction]
  · have hall := allBool_map (b :: b' :: bs)
    simp only [List.map_cons] at hall
    simp only [List.map_cons, conjunction, hall, if_true, Option.some_inj]
    rw [← List.map_cons, ← List.map_cons]
    exact ofProp_eq_bool (by simp only [and_iff, List.forall_mem_map, bool.injEq])

theorem disjunction_bools (bs : List Bool) : disjunction (bs.map bool) = some (bool bs.or) := by
  rcases bs with _ | ⟨b, _ | ⟨b', bs⟩⟩
  · rfl
  · simp [disjunction]
  · have hall := allBool_map (b :: b' :: bs)
    simp only [List.map_cons] at hall
    simp only [List.map_cons, disjunction, hall, if_true, Option.some_inj]
    rw [← List.map_cons, ← List.map_cons]
    exact ofProp_eq_bool (by simp only [or_iff, List.mem_map, exists_exists_and_eq_and, bool.injEq])

theorem foldRight_implication (b : Bool) (bs : List Bool) :
    Value.foldRight implication (bool b) (bs.map bool) = some (bool (implied (b :: bs))) := by
  induction bs generalizing b with
  | nil => rfl
  | cons b' bs ih =>
    rw [List.map_cons, Value.foldRight, ih]
    rfl

theorem rightAssoc_implication {bs : List Bool} (h : 2 ≤ bs.length) :
    rightAssoc implication (bs.map bool) = some (bool (implied bs)) := by
  rcases bs with _ | ⟨b, _ | ⟨b', bs⟩⟩
  · simp at h
  · simp at h
  · exact foldRight_implication b (b' :: bs)

/-! ## Chains -/

theorem adjacent_ofProp {φ : Value → Value → Option Value} {R : Value → Value → Prop}
    {vs : List Value} (h : ∀ v ∈ vs, ∀ w ∈ vs, φ v w = some (ofProp (R v w))) :
    ∃ bs : List Bool, Value.adjacent φ vs = some (bs.map bool) ∧
      (bs.and = true ↔ vs.IsChain R) := by
  induction vs with
  | nil => exact ⟨[], rfl, by simp⟩
  | cons v vs ih =>
    obtain ⟨bs, hbs, hand⟩ := ih fun x hx y hy =>
      h x (List.mem_cons_of_mem _ hx) y (List.mem_cons_of_mem _ hy)
    cases vs with
    | nil => exact ⟨[], rfl, by simp⟩
    | cons w vs =>
      refine ⟨@decide (R v w) (Classical.propDecidable _) :: bs, ?_, ?_⟩
      · rw [Value.adjacent, h v (by simp) w (by simp), hbs]
        rfl
      · rw [List.and_cons, Bool.and_eq_true, hand, List.isChain_cons_cons]
        simp

theorem chainable_ofProp {φ : Value → Value → Option Value} {R : Value → Value → Prop}
    {vs : List Value} (hlen : 2 ≤ vs.length)
    (h : ∀ v ∈ vs, ∀ w ∈ vs, φ v w = some (ofProp (R v w))) :
    chainable φ vs = some (ofProp (vs.IsChain R)) := by
  obtain ⟨bs, hbs, hand⟩ := adjacent_ofProp h
  rw [chainable, if_neg (by omega), hbs, ofProp_eq_bool hand.symm]
  exact conjunction_bools bs

/-! ## Numbers -/

theorem isArith_cases {v : Value} (h : v.sort.isArith = true) :
    (∃ n, v = int n) ∨ ∃ x, v = real x := by
  cases v <;> simp_all [Value.sort, SmtSort.isArith]

theorem intToReal_arith {v : Value} (h : v.sort.isArith = true) : v.intToReal = real v.number := by
  obtain ⟨n, rfl⟩ | ⟨x, rfl⟩ := isArith_cases h <;> rfl

theorem merge_comparable {v w : Value} (h : Comparable [v.sort, w.sort]) :
    Value.merge v w = some (v.beside w, w.beside v) := by
  unfold Value.merge beside
  by_cases hs : v.sort = w.sort
  · simp [hs, SmtSort.join?, coerce]
  · have ha : v.sort.isArith = true ∧ w.sort.isArith = true := by
      rcases h with ⟨s, h⟩ | h
      · exact absurd ((h _ (by simp)).trans (h _ (by simp)).symm) hs
      · exact ⟨h _ (by simp), h _ (by simp)⟩
    obtain ⟨n, rfl⟩ | ⟨x, rfl⟩ := isArith_cases ha.1 <;>
      obtain ⟨m, rfl⟩ | ⟨y, rfl⟩ := isArith_cases ha.2 <;>
      simp_all [Value.sort, SmtSort.join?, coerce, intToReal]

theorem merge_same_sort {v w : Value} (h : v.sort = w.sort) : Value.merge v w = some (v, w) := by
  rw [merge_comparable (.same h), beside, beside, if_pos h, if_pos h.symm]

theorem intToReal_eq_iff {v w : Value} :
    v.intToReal = w.intToReal ↔ v.beside w = w.beside v := by
  cases v <;> cases w <;> simp [beside, intToReal, Value.sort]

theorem equal_comparable {v w : Value} (h : Comparable [v.sort, w.sort]) :
    equal v w = some (ofProp (v.intToReal = w.intToReal)) := by
  rw [equal, merge_comparable h, ofProp_congr intToReal_eq_iff]
  rfl

theorem choice_comparable {c v w : Value} (hc : c.sort = .bool) (h : Comparable [v.sort, w.sort]) :
    choice c v w = some (if c.truth then v.beside w else w.beside v) := by
  obtain ⟨b, rfl⟩ := exists_of_sort_bool hc
  rw [choice, merge_comparable h]
  rfl

theorem compare_numbers (k : Expr.Comparison) {v w : Value} (hv : v.sort.isArith = true)
    (hw : w.sort.isArith = true) :
    Value.compare k v w = some (ofProp (k.Holds v.number w.number)) := by
  rw [Value.compare, merge_comparable (.arith hv hw)]
  obtain ⟨n, rfl⟩ | ⟨x, rfl⟩ := isArith_cases hv <;> obtain ⟨m, rfl⟩ | ⟨y, rfl⟩ := isArith_cases hw
  · refine congrArg some (ofProp_congr ?_)
    cases k <;> simp [Expr.Comparison.Holds, number]
  all_goals rfl

theorem compare_words (k : Expr.Comparison) {n : Nat} (x y : BitVec n) :
    Value.compare k (bits n x) (bits n y) = some (ofProp (k.Holds x.toInt y.toInt)) := by
  rw [Value.compare, merge_same_sort (v := bits n x) (w := bits n y) rfl]
  rfl

theorem coerce_of_widens {v : Value} {r : SmtSort} (h : Widens v.sort r) :
    v.coerce r = some (if r = .real then v.intToReal else v) := by
  rcases h with rfl | ⟨h, rfl⟩
  · cases v <;> simp [coerce, intToReal, Value.sort]
  · obtain ⟨n, rfl⟩ := exists_of_sort_int h
    rfl

theorem distinct_comparable {vs : List Value} (hne : vs ≠ [])
    (h : Comparable (vs.map Value.sort)) :
    Value.distinct vs = some (ofProp (vs.map intToReal).Nodup) := by
  obtain ⟨v, vs, rfl⟩ := List.exists_cons_of_ne_nil hne
  obtain ⟨r, hr, hw⟩ := h.foldlM_join?
  rw [← List.map_cons, List.forall_mem_map] at hw
  have hmerge : Value.mergeAll (v :: vs) =
      some ((v :: vs).map fun w => if r = .real then w.intToReal else w) := by
    rw [List.foldlM_map] at hr
    rw [Value.mergeAll, hr]
    exact mapM_eq_some.mpr (List.forall₂_map_right_iff.mpr
      (List.forall₂_same.mpr fun w hw' => coerce_of_widens (hw w hw')))
  rw [Value.distinct, hmerge]
  refine congrArg some (ofProp_congr ?_)
  by_cases hreal : r = .real
  · simp [hreal]
  · -- the operands are of one sort and stay as they are
    have hsort : ∀ w ∈ v :: vs, w.sort = r := fun w hw' =>
      (hw w hw').resolve_right fun h => hreal h.2
    simp only [if_neg hreal, List.map_id_fun', id_eq]
    unfold List.Nodup
    rw [List.pairwise_map]
    refine List.Pairwise.iff_of_mem fun {x y} hx hy => not_congr ?_
    have hxy : x.sort = y.sort := (hsort x hx).trans (hsort y hy).symm
    rw [intToReal_eq_iff, beside, beside, if_pos hxy, if_pos hxy.symm]

/-! ## Arithmetic -/

/-- An operation on numbers that is the same on integers as on the reals that they are. -/
structure Exact (φ : Value → Value → Option Value) (f : Int → Int → Int) (g : ℝ → ℝ → ℝ) :
    Prop where
  ints : ∀ a b, φ (int a) (int b) = some (int (f a b))
  cast : ∀ a b : Int, ((f a b : Int) : ℝ) = g a b
  mixed : ∀ {v w : Value}, v.sort.isArith = true → w.sort.isArith = true →
    ¬ (v.sort = .int ∧ w.sort = .int) → φ v w = some (real (g v.number w.number))

section
variable {φ : Value → Value → Option Value} {f : Int → Int → Int} {g : ℝ → ℝ → ℝ}

theorem Exact.foldlM (h : Exact φ f g) {vs : List Value} (hvs : ∀ v ∈ vs, v.sort.isArith = true)
    {v : Value} (hv : v.sort.isArith = true) :
    vs.foldlM φ v = some (numeric (foldLeft f) (foldLeft g) (v :: vs)) := by
  induction vs generalizing v with
  | nil => obtain ⟨n, rfl⟩ | ⟨x, rfl⟩ := isArith_cases hv <;> rfl
  | cons w vs ih =>
    rw [List.forall_mem_cons] at hvs
    rw [List.foldlM_cons]
    by_cases hint : v.sort = .int ∧ w.sort = .int
    · obtain ⟨n, rfl⟩ := exists_of_sort_int hint.1
      obtain ⟨m, rfl⟩ := exists_of_sort_int hint.2
      rw [h.ints, Option.bind_eq_bind, Option.bind_some, ih hvs.2 rfl]
      simp [numeric, Value.sort, foldLeft, integer, number, h.cast]
    · rw [h.mixed hv hvs.1 hint, Option.bind_eq_bind, Option.bind_some, ih hvs.2 rfl]
      have hany : (v :: w :: vs).all (·.sort == .int) = false := by
        simp only [List.all_cons, Bool.and_eq_false_iff]
        by_cases hv : v.sort = .int
        · simp [show w.sort ≠ .int from fun hw => hint ⟨hv, hw⟩]
        · simp [hv]
      simp only [numeric, hany]
      rfl

theorem Exact.leftAssoc (h : Exact φ f g) {vs : List Value} (hne : vs ≠ [])
    (hvs : ∀ s ∈ vs.map Value.sort, s.isArith = true) :
    leftAssoc φ vs = some (numeric (foldLeft f) (foldLeft g) vs) := by
  obtain ⟨v, vs, rfl⟩ := List.exists_cons_of_ne_nil hne
  rw [List.forall_mem_map, List.forall_mem_cons] at hvs
  exact h.foldlM hvs.2 hvs.1

end

theorem apply_mixed {φ : Arithmetic} {g : ℝ → ℝ → ℝ} (hg : φ.real = some g) {v w : Value}
    (hv : v.sort.isArith = true) (hw : w.sort.isArith = true)
    (h : ¬ (v.sort = .int ∧ w.sort = .int)) : φ.apply v w = some (real (g v.number w.number)) := by
  rw [Arithmetic.apply, merge_comparable (.arith hv hw)]
  obtain ⟨n, rfl⟩ | ⟨x, rfl⟩ := isArith_cases hv <;> obtain ⟨m, rfl⟩ | ⟨y, rfl⟩ := isArith_cases hw
  · exact absurd ⟨rfl, rfl⟩ h
  all_goals simp [beside, Value.sort, intToReal, hg, number]

theorem apply_ints (φ : Arithmetic) (a b : Int) :
    φ.apply (int a) (int b) = some (int (φ.int a b)) := by
  rw [Arithmetic.apply, merge_same_sort (v := int a) (w := int b) rfl]
  rfl

theorem apply_words (φ : Arithmetic) {n : Nat} (x y : BitVec n) :
    φ.apply (bits n x) (bits n y) = some (bits n (φ.bits n x y)) := by
  rw [Arithmetic.apply, merge_same_sort (v := bits n x) (w := bits n y) rfl, Option.bind_eq_bind,
    Option.bind_some]
  simp only [BitVec.setWidth_eq]

theorem add_arith {v w : Value} (hv : v.sort.isArith = true) :
    Value.add v w = Arithmetic.add.apply v w := by
  obtain ⟨n, rfl⟩ | ⟨x, rfl⟩ := isArith_cases hv <;> rfl

theorem mul_arith {v w : Value} (hv : v.sort.isArith = true) (hw : w.sort.isArith = true) :
    Value.mul v w = Arithmetic.mul.apply v w := by
  obtain ⟨n, rfl⟩ | ⟨x, rfl⟩ := isArith_cases hv <;>
    obtain ⟨m, rfl⟩ | ⟨y, rfl⟩ := isArith_cases hw <;> rfl

theorem add_exact : Exact Value.add (· + ·) (· + ·) where
  ints a b := apply_ints .add a b
  cast a b := Int.cast_add a b
  mixed hv hw h := (add_arith hv).trans (apply_mixed rfl hv hw h)

theorem sub_exact : Exact Arithmetic.sub.apply (· - ·) (· - ·) where
  ints a b := apply_ints .sub a b
  cast a b := Int.cast_sub a b
  mixed hv hw h := apply_mixed rfl hv hw h

theorem mul_exact : Exact Value.mul (· * ·) (· * ·) where
  ints a b := apply_ints .mul a b
  cast a b := Int.cast_mul a b
  mixed hv hw h := (mul_arith hv hw).trans (apply_mixed rfl hv hw h)

theorem minus_arith {vs : List Value} (hne : vs ≠ [])
    (h : ∀ s ∈ vs.map Value.sort, s.isArith = true) :
    minus vs = some (numeric difference difference vs) := by
  rcases vs with _ | ⟨v, _ | ⟨w, vs⟩⟩
  · exact absurd rfl hne
  · obtain ⟨n, rfl⟩ | ⟨x, rfl⟩ := isArith_cases (h _ (List.mem_singleton_self _)) <;> rfl
  · exact sub_exact.leftAssoc hne h

section
variable (z : ZeroDivision)

theorem foldLeft_div {ns : List Int} (h : ∀ n ∈ ns.tail, n ≠ 0) :
    foldLeft z.div ns = foldLeft (· / ·) ns := by
  cases ns with
  | nil => rfl
  | cons n ns => exact List.foldl_ext _ _ _ fun a b hb => if_neg (h b hb)

theorem foldLeft_divReal {xs : List ℝ} (h : ∀ x ∈ xs.tail, x ≠ 0) :
    foldLeft z.divReal xs = foldLeft (· / ·) xs := by
  cases xs with
  | nil => rfl
  | cons x xs => exact List.foldl_ext _ _ _ fun a b hb => if_neg (h b hb)

theorem intDiv_value {vs : List Value} (hne : vs ≠ []) (h : ∀ s ∈ vs.map Value.sort, s = .int)
    (hz : ∀ v ∈ vs.tail, v.number ≠ 0) :
    leftAssoc (Arithmetic.div z).apply vs = some (int (foldLeft (· / ·) (vs.map integer))) := by
  obtain ⟨ns, rfl⟩ := exists_ints h
  have hns : ∀ n ∈ ns.tail, n ≠ 0 := by
    intro n hn
    rw [← List.map_tail, List.forall_mem_map] at hz
    exact fun h => hz n hn (by rw [h, number, Int.cast_zero])
  rw [leftAssoc_map (fun a b => apply_ints (.div z) a b) (by simpa using hne), map_integer_int,
    ← foldLeft_div z hns]
  rfl

theorem division_value {vs : List Value} (hlen : 2 ≤ vs.length)
    (h : ∀ s ∈ vs.map Value.sort, s.isArith = true) (hz : ∀ v ∈ vs.tail, v.number ≠ 0) :
    division z vs = some (real (foldLeft (· / ·) (vs.map number))) := by
  have hreal : vs.map intToReal = (vs.map number).map real := by
    rw [List.map_map]
    exact List.map_congr_left fun v hv => intToReal_arith (h _ (List.mem_map_of_mem hv))
  have hdiv : ∀ x y, (Arithmetic.div z).apply (real x) (real y) = some (real (z.divReal x y)) := by
    intro x y
    exact apply_mixed rfl rfl rfl (by simp [Value.sort])
  have hne : vs.map number ≠ [] := by
    rintro h
    simp_all
  rw [division, if_neg (by omega), hreal, leftAssoc_map hdiv hne, foldLeft_divReal]
  rw [← List.map_tail, List.forall_mem_map]
  exact hz

end

/-! ## Bit-vectors -/

section
variable {vs : List Value} {n : Nat}

theorem words_value {φ : Value → Value → Option Value} {op : BitVec n → BitVec n → BitVec n}
    {f : Nat → Nat → Nat} (hφ : ∀ x y, φ (bits n x) (bits n y) = some (bits n (op x y)))
    (hf : ∀ (k : Nat) (y : BitVec n), op (BitVec.ofNat n k) y = BitVec.ofNat n (f k y.toNat))
    (hne : vs ≠ []) (h : ∀ s ∈ vs.map Value.sort, s = .bitVec n) :
    leftAssoc φ vs = some (words f vs) := by
  obtain ⟨xs, rfl⟩ := exists_words h
  obtain ⟨x, xs, rfl⟩ := List.exists_cons_of_ne_nil (by simpa using hne : xs ≠ [])
  rw [leftAssoc_map hφ (List.cons_ne_nil _ _), words, map_unsigned_bits, foldLeft,
    foldl_eq_word x hf]
  rfl

theorem sameWidth_bits (f : (n : Nat) → BitVec n → BitVec n → Value) (x y : BitVec n) :
    sameWidth f (bits n x) (bits n y) = some (f n x y) := by
  rw [sameWidth, if_pos rfl, BitVec.setWidth_eq]

theorem bitwise_bits (f : (n : Nat) → BitVec n → BitVec n → BitVec n) (g : Bool → Bool → Bool)
    (x y : BitVec n) : bitwise f g (bits n x) (bits n y) = some (bits n (f n x y)) :=
  sameWidth_bits (fun n x y => bits n (f n x y)) x y

theorem binary_value {φ : Value → Value → Option Value} {f : Value → Value → Value}
    (hφ : ∀ x y : BitVec n, φ (bits n x) (bits n y) = some (f (bits n x) (bits n y)))
    (h : vs.map Value.sort = [.bitVec n, .bitVec n]) : binary φ vs = some (two f vs) := by
  obtain ⟨x, y, rfl⟩ := exists_two_words h
  exact hφ x y

theorem binary_words {φ : Value → Value → Option Value} {g : BitVec n → BitVec n → BitVec n}
    {f : Value → Value → Int} (hφ : ∀ x y, φ (bits n x) (bits n y) = some (bits n (g x y)))
    (hg : ∀ x y, g x y = BitVec.ofInt n (f (bits n x) (bits n y)))
    (h : vs.map Value.sort = [.bitVec n, .bitVec n]) :
    binary φ vs = some (two (fun v w => word v.width (f v w)) vs) :=
  binary_value (fun x y => (hφ x y).trans (congrArg (some ∘ bits n) (hg x y))) h

theorem foldl_joined (x : BitVec n) (h : ∀ v ∈ vs, v.sort.isBitVec = true) :
    vs.foldl (fun v w => joined [v, w]) (bits n x) = word (n + (vs.map width).sum)
      (vs.foldl (fun k w => k * 2 ^ w.width + w.unsigned) x.toNat : Nat) := by
  induction vs generalizing n with
  | nil => exact congrArg (bits n) (ofInt_toNat x).symm
  | cons w vs ih =>
    rw [List.forall_mem_cons] at h
    cases w with
    | bits m y =>
      rw [List.foldl_cons, joined, ih _ h.2, toNat_append_eq, List.map_cons, List.sum_cons,
        ← Nat.add_assoc]
      rfl
    | _ => cases h.1

theorem concat_value (hlen : 2 ≤ vs.length) (h : ∀ s ∈ vs.map Value.sort, s.isBitVec = true) :
    Value.concat vs = some (Operator.concat.standard vs) := by
  rw [List.forall_mem_map] at h
  rcases vs with _ | ⟨v, _ | ⟨w, vs⟩⟩
  · simp at hlen
  · simp at hlen
  · rw [Value.concat, if_pos (List.all_eq_true.mpr h)]
    rw [List.forall_mem_cons] at h
    cases v with
    | bits n x =>
      rw [foldl_joined x h.2]
      simp only [Operator.standard, List.map_cons, List.sum_cons, List.foldl_cons, Nat.zero_mul,
        Nat.zero_add]
      rfl
    | _ => cases h.1

end

/-! ## Symbols -/

theorem ordered_value (k : Expr.Comparison) {vs : List Value} (hlen : 2 ≤ vs.length)
    (h : ∀ s ∈ vs.map Value.sort, s.isArith = true) :
    chainable (Value.compare k) vs = some (ordered k.Holds vs) := by
  rw [List.forall_mem_map] at h
  rw [chainable_ofProp hlen fun v hv w hw => compare_numbers k (h v hv) (h w hw), ordered,
    List.isChain_map]

theorem Operator.value_standard {op : Operator} {vs : List Value} (z : ZeroDivision)
    (h : op.Admits (vs.map Value.sort)) (hr : op.Regular vs) :
    op.value z vs = some (op.standard vs) := by
  cases op with
  | true | false => rfl
  | not =>
    obtain ⟨v, rfl, hv⟩ := List.map_eq_singleton_iff.mp h
    obtain ⟨b, rfl⟩ := exists_of_sort_bool hv
    rfl
  | and =>
    obtain ⟨bs, rfl⟩ := exists_bools h
    simp only [Operator.value, conjunction_bools, standard, map_truth_bool]
  | or =>
    obtain ⟨bs, rfl⟩ := exists_bools h
    simp only [Operator.value, disjunction_bools, standard, map_truth_bool]
  | xor =>
    obtain ⟨bs, rfl⟩ := exists_bools h.2
    simp only [standard, map_truth_bool]
    exact leftAssoc_map (fun a b => rfl) (by simpa using h.1)
  | implies =>
    obtain ⟨bs, rfl⟩ := exists_bools h.2
    simp only [standard, map_truth_bool]
    exact rightAssoc_implication (by simpa using h.1)
  | eq =>
    have hpair : ∀ v ∈ vs, ∀ w ∈ vs, equal v w = some (ofProp (v.intToReal = w.intToReal)) := by
      intro v hv w hw
      refine equal_comparable (h.2.of_mem ?_)
      simp only [List.forall_mem_cons]
      exact ⟨List.mem_map_of_mem hv, List.mem_map_of_mem hw, by simp⟩
    simp only [standard, List.isChain_map]
    exact chainable_ofProp (by simpa using h.1) hpair
  | distinct => exact distinct_comparable (by simpa using h.1) h.2
  | ite =>
    obtain ⟨s, t, hs, hc⟩ := h
    obtain ⟨c, v, w, rfl, hbool, rfl, rfl⟩ := exists_three hs
    exact choice_comparable hbool hc
  | add => exact add_exact.leftAssoc (by simpa using h.1) h.2
  | sub => exact minus_arith (by simpa using h.1) h.2
  | mul => exact mul_exact.leftAssoc (by simpa using h.1) h.2
  | intDiv => exact intDiv_value z (by simpa using h.1) h.2 hr
  | realDiv => exact division_value z (by simpa using h.1) h.2 hr
  | mod =>
    obtain ⟨v, w, rfl, hv, hw⟩ := exists_two h
    obtain ⟨n, rfl⟩ := exists_of_sort_int hv
    obtain ⟨m, rfl⟩ := exists_of_sort_int hw
    have hm : m ≠ 0 := by simpa [number] using hr (int m) (List.mem_singleton_self _)
    refine (apply_ints (.mod z) n m).trans (congrArg (some ∘ int) ?_)
    exact if_neg hm
  | abs =>
    obtain ⟨s, hs, ha⟩ := h
    obtain ⟨v, rfl, rfl⟩ := List.map_eq_singleton_iff.mp hs
    obtain ⟨n, rfl⟩ | ⟨x, rfl⟩ := isArith_cases ha <;> rfl
  | lt => exact ordered_value .lt (by simpa using h.1) h.2
  | le => exact ordered_value .le (by simpa using h.1) h.2
  | gt => exact ordered_value .gt (by simpa using h.1) h.2
  | ge => exact ordered_value .ge (by simpa using h.1) h.2
  | bvnot =>
    obtain ⟨n, hs⟩ := h
    obtain ⟨x, rfl⟩ := exists_word hs
    exact congrArg (some ∘ bits n) (not_eq_word x)
  | bvneg =>
    obtain ⟨n, hs⟩ := h
    obtain ⟨x, rfl⟩ := exists_word hs
    exact congrArg (some ∘ bits n) (neg_eq_word x)
  | bvand =>
    obtain ⟨hne, n, hs⟩ := h
    exact words_value (fun x y => bitwise_bits _ _ x y) and_ofNat (by simpa using hne) hs
  | bvor =>
    obtain ⟨hne, n, hs⟩ := h
    exact words_value (fun x y => bitwise_bits _ _ x y) or_ofNat (by simpa using hne) hs
  | bvxor =>
    obtain ⟨hne, n, hs⟩ := h
    exact words_value (fun x y => bitwise_bits _ _ x y) xor_ofNat (by simpa using hne) hs
  | bvadd =>
    obtain ⟨hne, n, hs⟩ := h
    exact words_value (fun x y => apply_words .add x y) add_ofNat (by simpa using hne) hs
  | bvmul =>
    obtain ⟨hne, n, hs⟩ := h
    exact words_value (fun x y => apply_words .mul x y) mul_ofNat (by simpa using hne) hs
  | bvsub =>
    obtain ⟨n, hs⟩ := h
    exact binary_words (fun x y => apply_words .sub x y) sub_eq_word hs
  | bvsdiv =>
    obtain ⟨n, hs⟩ := h
    exact binary_words (fun x y => apply_words (.div z) x y) sdiv_eq_word hs
  | bvudiv =>
    obtain ⟨n, hs⟩ := h
    exact binary_words (fun x y => sameWidth_bits _ x y) udiv_eq_word hs
  | bvurem =>
    obtain ⟨n, hs⟩ := h
    exact binary_words (fun x y => sameWidth_bits _ x y) umod_eq_word hs
  | bvsrem =>
    obtain ⟨n, hs⟩ := h
    exact binary_words (fun x y => sameWidth_bits _ x y) srem_eq_word hs
  | bvshl =>
    obtain ⟨n, hs⟩ := h
    exact binary_words (fun x y => sameWidth_bits _ x y) shl_eq_word hs
  | bvlshr =>
    obtain ⟨n, hs⟩ := h
    exact binary_words (fun x y => sameWidth_bits _ x y) lshr_eq_word hs
  | bvashr =>
    obtain ⟨n, hs⟩ := h
    exact binary_words (fun x y => sameWidth_bits _ x y) ashr_eq_word hs
  | bvult | bvule | bvugt | bvuge =>
    obtain ⟨n, hs⟩ := h
    exact binary_value (fun x y => sameWidth_bits _ x y) hs
  | bvslt | bvsle | bvsgt | bvsge =>
    obtain ⟨n, hs⟩ := h
    exact binary_value (fun x y => compare_words _ x y) hs
  | concat => exact concat_value (by simpa using h.1) h.2

theorem IndexedOperator.value_standard {op : IndexedOperator} {indices : List Index}
    {vs : List Value} (h : op.Admits indices (vs.map Value.sort)) :
    op.value indices vs = some (op.standard indices vs) := by
  cases op with
  | extract =>
    obtain ⟨high, low, n, rfl, hs, hle, hlt⟩ := h
    obtain ⟨x, rfl⟩ := exists_word hs
    refine (if_pos ⟨hle, hlt⟩).trans (congrArg (some ∘ bits (high + 1 - low)) ?_)
    exact extract_eq_word x low _
  | zeroExtend =>
    obtain ⟨k, n, rfl, hs⟩ := h
    obtain ⟨x, rfl⟩ := exists_word hs
    exact congrArg (some ∘ bits (n + k)) (zeroExtend_eq_word x (n + k))
  | signExtend =>
    obtain ⟨k, n, rfl, hs⟩ := h
    obtain ⟨x, rfl⟩ := exists_word hs
    rfl

/-- A symbol has its standard value wherever it admits the operands and no divisor is zero. -/
theorem Symbol.value_standard {s : Symbol} {vs : List Value} (z : ZeroDivision)
    (h : s.Admits (vs.map Value.sort)) (hr : s.Regular vs) :
    s.value z vs = some (s.standard vs) := by
  cases s with
  | plain op => exact op.value_standard z h hr
  | indexed op indices => exact op.value_standard h

end Realizability
