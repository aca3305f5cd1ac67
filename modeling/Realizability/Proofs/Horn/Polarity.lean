import Realizability.Proofs.Horn.Position

/-!
# What symbols do to positive positions

Most operators have no positive position among their arguments. The others leave some of them open,
so each symbol makes demands on its arguments; what it forms of them has its calls in positive
positions only if they meet these demands (`Symbol.positive_apply`).
-/

namespace Realizability

open Realizability.Expr

/-! ## Results that are closed to calls -/

/-- No argument of the operator is a positive position. -/
def Op.guards : Op → Bool
  | .and | .or | .implies | .ite => Bool.false
  | _ => Bool.true

def Expr.Family.guards (f : Family) : Bool := f.int.guards && f.real.all Op.guards && f.bits.guards

namespace Expr

variable {a b c e : Expr} {es es' : List Expr}

/-- A truth value of this kind has calls in positive positions only if it has none at all. -/
def Guards (e : Expr) : Prop := e.sort = .bool → e.positive = e.callFree

theorem guards_app {op : Op} (h : op.guards = true) : (app op es).Guards := by
  intro _
  cases op <;> simp_all [positive, Op.guards]

theorem guards_of_sort (h : e.sort ≠ .bool) : e.Guards := fun hs => absurd hs h

theorem guards_truth (t : Bool) : (truth t).Guards := by
  cases t <;> exact guards_app rfl

theorem sort_of_isBool (h : a.isBool = true) : a.sort = .bool := by simpa [isBool] using h

theorem all_congr {p q : Expr → Bool} (h : ∀ a ∈ es, p a = q a) : es.all p = es.all q := by
  induction es with
  | nil => rfl
  | cons a es ih => simp_all

theorem conjoin_guards (h : ∀ a ∈ es, a.Guards) : Yields Guards (conjoin es) := by
  intro e he
  unfold conjoin at he
  split at he
  · cases he
    exact guards_truth _
  · cases he
    exact h _ (by simp)
  · obtain ⟨hbool, rfl⟩ := logical_eq_ok he
    intro _
    rw [positive, positiveEach_eq_all, callFree_app]
    exact all_congr fun a ha => h a ha (sort_of_isBool (hbool a ha))

theorem logical_guards {op : Op} (h : op.guards = true) : Yields Guards (logical op es) := by
  intro e he
  obtain ⟨-, rfl⟩ := logical_eq_ok he
  exact guards_app h

theorem mkDistinct_guards : Yields Guards (mkDistinct es) :=
  .bind_any fun _ => .ok (guards_app rfl)

theorem mkEq_guards : Yields Guards (mkEq a b) := by
  unfold mkEq
  split
  · exact .bind_any fun _ => .ok (guards_app rfl)
  · exact .bind_any fun _ => .ok (guards_app rfl)

theorem compareMerged_guards {k : Comparison} : Yields Guards (compareMerged k a b) := by
  refine .bind_any fun p => ?_
  dsimp only
  split
  · cases k <;> exact .ok (guards_app rfl)
  · cases k <;> exact .ok (guards_app rfl)
  · cases k <;> exact .ok (guards_app rfl)
  · cases k <;> exact .ok (guards_app rfl)
  · exact .error

theorem mkCompare_guards {k : Comparison} : Yields Guards (mkCompare k a b) := by
  unfold mkCompare
  split
  · exact compareMerged_guards
  · exact compareMerged_guards

theorem family_guards {f : Family} (h : f.guards = true) : Yields Guards (f.apply a b) := by
  simp only [Family.guards, Bool.and_eq_true] at h
  refine .bind_any fun p => ?_
  dsimp only
  split
  · exact .ok (guards_app h.1.1)
  · rename_i hreal
    exact .ok (guards_app (by simpa [hreal] using h.1.2))
  · exact .ok (guards_app h.2)
  · exact .error

theorem mkAdd_guards : Yields Guards (mkAdd a b) := by
  unfold mkAdd
  split
  · exact .ok (guards_app rfl)
  · exact family_guards rfl
  · exact family_guards rfl

theorem coerce_bool (h : a.coerce .bool = .ok e) : a.sort = .bool ∧ e = a := by
  unfold coerce at h
  split at h
  · rename_i hs
    cases h
    exact ⟨hs, rfl⟩
  · cases h

theorem merge_bool {p : Expr × Expr} (h : merge a b = .ok p) (hs : p.1.sort = .bool) :
    a.sort = .bool ∧ b.sort = .bool ∧ p = (a, b) := by
  unfold merge at h
  split at h
  · cases h
  · obtain ⟨x, hx, h⟩ := bind_eq_ok.mp h
    obtain ⟨y, hy, h⟩ := bind_eq_ok.mp h
    cases h
    obtain rfl : SmtSort.bool = _ := hs.symm.trans (sort_of_coerce hx)
    obtain ⟨ha, rfl⟩ := coerce_bool hx
    obtain ⟨hb, rfl⟩ := coerce_bool hy
    exact ⟨ha, hb, rfl⟩

theorem sort_ite : (ite c a b).sort = a.sort := by
  simp [ite, sort, sortsOf, Op.sort, firstSort]

theorem mkMul_guards : Yields Guards (mkMul a b) := by
  unfold mkMul
  split
  · exact .ok (guards_of_sort (by simp [sort_ite, boolToInt, sort]))
  · rename_i hb
    exact .ok (guards_of_sort (by simp [sort_ite, hb]))
  · rename_i hb
    exact .ok (guards_of_sort (by simp [sort_ite, hb]))
  · rename_i hb
    exact .ok (guards_of_sort (by simp [sort_ite, hb]))
  · rename_i ha _
    exact .ok (guards_of_sort (by simp [sort_ite, ha]))
  · rename_i ha _
    exact .ok (guards_of_sort (by simp [sort_ite, ha]))
  · exact .error
  · exact family_guards rfl

theorem mkArith_guards {f : Family} (h : f.guards = true) : Yields Guards (mkArith f a b) := by
  unfold mkArith
  split
  · exact .error
  · exact family_guards h

theorem mkNeg_guards : Yields Guards (mkNeg a) := by
  unfold mkNeg
  split
  · exact .ok (guards_app rfl)
  · exact .ok (guards_app rfl)
  · exact .ok (guards_app rfl)
  · exact .error

theorem mkAbs_guards : Yields Guards (mkAbs a) := by
  intro e he
  obtain ⟨negated, hn, he⟩ := bind_eq_ok.mp he
  cases he
  refine guards_of_sort ?_
  rw [sort_ite]
  intro hs
  -- truth values are not negated
  simp [mkNeg, hs] at hn

theorem mkBvnot_guards : Yields Guards (mkBvnot a) := by
  unfold mkBvnot
  split
  · exact .ok (guards_app rfl)
  · exact .ok (guards_app rfl)
  · exact .error

theorem mkBitwise_guards {op connective : Op} (h : op.guards = true)
    (h' : connective.guards = true) : Yields Guards (mkBitwise op connective a b) := by
  unfold mkBitwise
  split
  · exact .ok (guards_app h)
  · split
    · exact .ok (guards_app h')
    · split <;> exact .error

theorem mkShift_guards {op : Op} (h : op.guards = true) : Yields Guards (mkShift op a b) := by
  unfold mkShift
  split
  · exact .ok (guards_app h)
  · split <;> exact .error

theorem mkBits_guards {op : Op} (h : op.guards = true) : Yields Guards (mkBits op a b) := by
  unfold mkBits
  split
  · exact .ok (guards_app h)
  · exact .error

theorem foldl_concat_guards (h : a.Guards) :
    (es.foldl (fun x y => app .concat [x, y]) a).Guards := by
  induction es generalizing a with
  | nil => exact h
  | cons b es ih => exact ih (guards_app rfl)

theorem mkConcat_guards : Yields Guards (mkConcat es) := by
  unfold mkConcat
  split
  · rename_i a b rest
    split
    · have hfold : (rest.foldl (fun x y => app .concat [x, y]) (app .concat [a, b])).Guards :=
        foldl_concat_guards (guards_app rfl)
      exact .ok hfold
    · split
      · exact .ok (guards_app rfl)
      · exact .error
  · exact .error

/-! ## Sorts of results -/

theorem mkExtract_sort {high low : Index} :
    Yields (fun e => e.sort ≠ .bool) (mkExtract high low a) := by
  unfold mkExtract
  split
  · split
    · exact .ok (by simp [sort, Op.sort])
    · exact .error
  · exact .error
  · exact .error

theorem mkExtend_sort {op : Nat → Op} (h : ∀ n sorts, (op n).sort sorts = widen n sorts)
    {n : Index} : Yields (fun e => e.sort ≠ .bool) (mkExtend op n a) := by
  unfold mkExtend
  split
  · exact .ok (by simp [sort, h, widen])
  · exact .error

end Expr

/-! ## Shapes -/

namespace Shape

/-- What is formed from arguments in this shape is closed to calls. -/
def Guards (s : Shape) : Prop :=
  ∀ ⦃name : String⦄ ⦃es : List Expr⦄, Yields Expr.Guards (s.apply name es)

theorem unary_guards {f : Expr → Build Expr} (hf : ∀ {a : Expr}, Yields Expr.Guards (f a)) :
    (unary f).Guards := by
  intro name es
  match es with
  | [] => exact .error
  | [_] => exact hf.mapError
  | _ :: _ :: _ => exact .error

theorem list_guards {f : List Expr → Build Expr}
    (hf : ∀ {es : List Expr}, Yields Expr.Guards (f es)) : (list f).Guards :=
  fun _ _ => hf.mapError

section
variable {f : Expr → Expr → Build Expr} (hf : ∀ {a b : Expr}, Yields Expr.Guards (f a b))
include hf

theorem binary_guards : (binary f).Guards := by
  intro name es
  match es with
  | [] => exact .error
  | [_] => exact .error
  | [_, _] => exact hf.mapError
  | _ :: _ :: _ :: _ => exact .error

theorem guards_of_foldlM {es : List Expr} {a b : Expr} :
    Yields Expr.Guards ((b :: es).foldlM f a) := by
  rw [List.foldlM_cons]
  exact hf.bind fun _ ha => .foldlM (fun _ _ _ _ => hf) ha

theorem leftAssoc_guards {name : String} {es : List Expr} (h : es.length ≠ 1) :
    Yields Expr.Guards ((leftAssoc f).apply name es) := by
  match es with
  | [] => exact .error
  | [_] => exact absurd rfl h
  | a :: b :: es => exact (guards_of_foldlM hf).mapError

theorem adjacent_guards (es : List Expr) :
    Yields (fun rs => ∀ r ∈ rs, r.Guards) (adjacent f es) := by
  match es with
  | [] => exact .ok (by simp)
  | [_] => exact .ok (by simp)
  | a :: b :: es =>
    refine hf.bind fun r hr => (adjacent_guards (b :: es)).bind fun rs hrs => .ok ?_
    exact List.forall_mem_cons.mpr ⟨hr, hrs⟩

theorem chainable_guards : (chainable f).Guards := by
  intro name es
  match es with
  | [] => exact .error
  | [_] => exact .error
  | a :: b :: es =>
    exact ((adjacent_guards hf (a :: b :: es)).bind fun rs hrs => conjoin_guards hrs).mapError

end

theorem minus_guards : minus.Guards := by
  intro name es
  match es with
  | [] => exact .error
  | [a] => exact mkNeg_guards.mapError
  | a :: b :: es => exact (guards_of_foldlM (mkArith_guards rfl)).mapError

theorem division_guards : division.Guards := by
  intro name es
  match es with
  | [] => exact .error
  | [_] => exact .error
  | a :: b :: es => exact (guards_of_foldlM (mkArith_guards rfl)).mapError

end Shape

/-! ## Demands -/

/-- What a symbol asks of an argument: to have its calls in positive positions, or to have none. -/
inductive Demand
  | positive
  | free

/-- Arguments beyond the list of demands do not count. -/
def demandsMet (free positive : Expr → Bool) : List Demand → List Expr → Bool
  | .free :: ds, e :: es => free e && demandsMet free positive ds es
  | .positive :: ds, e :: es => positive e && demandsMet free positive ds es
  | _, _ => true

/-- Conjunctions and disjunctions leave all arguments open, implications their conclusion, choices
their branches. A left-associative operator leaves a single argument as it is. -/
def Operator.demands : Operator → Nat → List Demand
  | .true, _ | .false, _ => []
  | .and, n | .or, n | .bvand, n | .bvor, n => List.replicate n .positive
  | .implies, n => List.replicate (n - 1) .free ++ [.positive]
  | .ite, n => .free :: List.replicate (n - 1) .positive
  | .xor, n | .add, n | .mul, n | .intDiv, n | .bvxor, n | .bvadd, n | .bvmul, n =>
    if n = 1 then [.positive] else List.replicate n .free
  | _, n => List.replicate n .free

/-- Extensions ignore all arguments but the first. -/
def Symbol.demands : Symbol → Nat → List Demand
  | .plain op, n => op.demands n
  | .indexed _ _, _ => [.free]

section
variable {p q : Expr → Bool} {e : Expr} {es : List Expr} {ds : List Demand}

@[simp] theorem demandsMet_free :
    demandsMet p q (List.replicate es.length .free) es = es.all p := by
  induction es with
  | nil => rfl
  | cons e es ih => simp [List.replicate_succ, demandsMet, ih]

@[simp] theorem demandsMet_positive :
    demandsMet p q (List.replicate es.length .positive) es = es.all q := by
  induction es with
  | nil => rfl
  | cons e es ih => simp [List.replicate_succ, demandsMet, ih]

theorem demandsMet_same (h : es.length ≤ ds.length) : demandsMet p p ds es = es.all p := by
  induction es generalizing ds with
  | nil => rcases ds with _ | ⟨⟨⟩, ds⟩ <;> rfl
  | cons e es ih =>
    cases ds with
    | nil => simp at h
    | cons d ds => cases d <;> simp [demandsMet, ih (by simpa using h)]

end

theorem Operator.le_demands {op : Operator} (ht : op ≠ .true) (hf : op ≠ .false) (n : Nat) :
    n ≤ (op.demands n).length := by
  cases op with
  | true => exact absurd rfl ht
  | false => exact absurd rfl hf
  | implies => simpa [demands] using by omega
  | ite => simpa [demands] using by omega
  | xor | add | mul | intDiv | bvxor | bvadd | bvmul =>
    by_cases hn : n = 1
    · simp [demands, hn]
    · simp [demands, hn]
  | _ => simp [demands]

theorem Operator.callFree_apply {op : Operator} {es : List Expr} {e : Expr}
    (h : op.shape.apply op.name es = .ok e) :
    e.callFree = demandsMet callFree callFree (op.demands es.length) es := by
  by_cases ht : op = .true
  · subst ht
    cases h
    simp [demands, demandsMet]
  by_cases hf : op = .false
  · subst hf
    cases h
    simp [demands, demandsMet]
  rw [demandsMet_same (le_demands ht hf _), op.shape_keeps ht hf h]

theorem IndexedOperator.callFree_apply {op : IndexedOperator} {indices : List Index}
    {es : List Expr} {e : Expr} (h : op.apply indices es = .ok e) :
    e.callFree = demandsMet callFree callFree [.free] es := by
  unfold apply at h
  split at h
  · simp [demandsMet, callFree_of_mkExtract (mapError_eq_ok.mp h)]
  · cases h
  · simp [demandsMet, callFree_of_mkExtend (mapError_eq_ok.mp h)]
  · simp [demandsMet, callFree_of_mkExtend (mapError_eq_ok.mp h)]
  · cases h
  · cases h
  · cases h

theorem Symbol.callFree_apply {s : Symbol} {es : List Expr} {e : Expr} (h : s.apply es = .ok e) :
    e.callFree = demandsMet callFree callFree (s.demands es.length) es := by
  cases s with
  | plain op => exact Operator.callFree_apply h
  | indexed op indices => exact IndexedOperator.callFree_apply h

/-! ## Open positions -/

def Opens : List Demand → List Expr → Prop
  | .positive :: ds, e :: es => e.sort = .bool ∧ Opens ds es
  | .free :: ds, _ :: es => Opens ds es
  | _, _ => True

/-- A truth value has its calls in positive positions iff the arguments meet the demands. -/
structure Meets (ds : List Demand) (es : List Expr) (e : Expr) : Prop where
  opens : Opens ds es
  positive : e.positive = demandsMet callFree Expr.positive ds es

section
variable {p q : Expr → Bool} {a b c e : Expr} {es : List Expr} {ds : List Demand}

theorem opens_free (n : Nat) (es : List Expr) : Opens (List.replicate n .free) es := by
  induction n generalizing es with
  | zero => trivial
  | succ n ih =>
    cases es with
    | nil => trivial
    | cons e es => exact ih es

theorem opens_positive :
    Opens (List.replicate es.length .positive) es ↔ ∀ a ∈ es, a.sort = .bool := by
  induction es with
  | nil => simp [Opens]
  | cons e es ih => simp [List.replicate_succ, Opens, ih]

theorem meets_free (h : e.positive = es.all callFree) :
    Meets (List.replicate es.length .free) es e := ⟨opens_free _ _, by simpa using h⟩

theorem meets_positive (h : ∀ a ∈ es, a.sort = .bool) (he : e.positive = es.all Expr.positive) :
    Meets (List.replicate es.length .positive) es e := ⟨opens_positive.mpr h, by simpa using he⟩

theorem meets_single (h : e.sort = .bool) : Meets [.positive] [e] e :=
  ⟨⟨h, trivial⟩, by simp [demandsMet]⟩

theorem conjoin_meets (h : conjoin es = .ok e) (hs : e.sort = .bool) :
    Meets (List.replicate es.length .positive) es e := by
  unfold conjoin at h
  split at h
  · cases h
    exact meets_positive (by simp) (by simp [truth, Expr.positive])
  · cases h
    exact meets_single hs
  · obtain ⟨hbool, rfl⟩ := logical_eq_ok h
    exact meets_positive (fun a ha => sort_of_isBool (hbool a ha)) (by simp [Expr.positive])

theorem disjoin_meets (h : disjoin es = .ok e) (hs : e.sort = .bool) :
    Meets (List.replicate es.length .positive) es e := by
  unfold disjoin at h
  split at h
  · cases h
    exact meets_positive (by simp) (by simp [truth, Expr.positive])
  · cases h
    exact meets_single hs
  · obtain ⟨hbool, rfl⟩ := logical_eq_ok h
    exact meets_positive (fun a ha => sort_of_isBool (hbool a ha)) (by simp [Expr.positive])

theorem mkIte_meets (h : mkIte c a b = .ok e) (hs : e.sort = .bool) :
    Meets [.free, .positive, .positive] [c, a, b] e := by
  unfold mkIte at h
  split at h
  · obtain ⟨p, hp, h⟩ := bind_eq_ok.mp h
    cases h
    rw [sort_ite] at hs
    obtain ⟨ha, hb, rfl⟩ := merge_bool hp hs
    exact ⟨⟨ha, hb, trivial⟩, by simp [Expr.ite, Expr.positive, demandsMet]⟩
  · cases h

theorem foldRight_meets (h : foldRight mkImplies a es = .ok e) (hs : e.sort = .bool) :
    Meets (List.replicate es.length .free ++ [.positive]) (a :: es) e := by
  induction es generalizing a e with
  | nil =>
    cases h
    exact meets_single hs
  | cons b es ih =>
    obtain ⟨x, hx, h⟩ := bind_eq_ok.mp h
    obtain ⟨hbool, rfl⟩ := logical_eq_ok h
    have hxs := ih hx (sort_of_isBool (hbool x (by simp)))
    refine ⟨hxs.opens, ?_⟩
    rw [List.length_cons, List.replicate_succ, List.cons_append, demandsMet, ← hxs.positive]
    simp [Expr.positive]

section
variable {op connective : Op} (hop : ∀ a b, (app op [a, b]).sort = a.sort)
  (hc : ∀ a b, (app connective [a, b]).positive = (a.positive && b.positive))
include hop hc

theorem mkBitwise_bool (h : mkBitwise op connective a b = .ok e) (hs : e.sort = .bool) :
    a.sort = .bool ∧ b.sort = .bool ∧ e.positive = (a.positive && b.positive) := by
  unfold mkBitwise at h
  split at h
  · -- the result is a bit-vector
    rename_i hwidth
    cases h
    rw [hop] at hs
    simp [hs, SmtSort.isBitVec] at hwidth
  · split at h
    · rename_i hbool
      cases h
      simp only [isBool, Bool.and_eq_true, beq_iff_eq] at hbool
      exact ⟨hbool.1, hbool.2, hc a b⟩
    · split at h <;> cases h

theorem foldlM_bitwise (h : es.foldlM (mkBitwise op connective) a = .ok e) (hs : e.sort = .bool) :
    (∀ b ∈ a :: es, b.sort = .bool) ∧ e.positive = (a :: es).all Expr.positive := by
  induction es generalizing a with
  | nil =>
    cases h
    simp [hs]
  | cons b es ih =>
    rw [List.foldlM_cons] at h
    obtain ⟨x, hx, h⟩ := bind_eq_ok.mp h
    obtain ⟨hsorts, he⟩ := ih h
    obtain ⟨hxs, hes⟩ := List.forall_mem_cons.mp hsorts
    obtain ⟨ha, hb, hpos⟩ := mkBitwise_bool hop hc hx hxs
    refine ⟨by simpa [ha, hb] using hes, ?_⟩
    rw [he, List.all_cons, hpos, List.all_cons, List.all_cons, Bool.and_assoc]

theorem bitwise_meets {name : String}
    (h : (Shape.leftAssoc (mkBitwise op connective)).apply name es = .ok e) (hs : e.sort = .bool) :
    Meets (List.replicate es.length .positive) es e := by
  match es with
  | [] => cases h
  | a :: es =>
    obtain ⟨hsorts, he⟩ := foldlM_bitwise hop hc (mapError_eq_ok.mp h) hs
    exact meets_positive hsorts he

end

theorem guards_meets {s : Shape} {name : String} (hk : s.Keeps) (hg : s.Guards)
    (h : s.apply name es = .ok e) (hs : e.sort = .bool) :
    Meets (List.replicate es.length .free) es e := by
  apply meets_free
  rw [hg e h hs, hk h]

theorem leftAssoc_meets {f : Expr → Expr → Build Expr} {name : String} (hk : Expr.Keeps f)
    (hg : ∀ {a b : Expr}, Yields Expr.Guards (f a b))
    (h : (Shape.leftAssoc f).apply name es = .ok e) (hs : e.sort = .bool) :
    Meets (if es.length = 1 then [.positive] else List.replicate es.length .free) es e := by
  by_cases hlen : es.length = 1
  · obtain ⟨a, rfl⟩ := List.length_eq_one_iff.mp hlen
    cases h
    exact meets_single hs
  · rw [if_neg hlen]
    apply meets_free
    rw [Shape.leftAssoc_guards hg hlen e h hs, Shape.leftAssoc_keeps hk h]

end

open Shape in
/-- What an operator forms has its calls in positive positions iff its arguments meet the demands. -/
theorem Operator.positive_apply {op : Operator} {es : List Expr} {e : Expr}
    (h : op.shape.apply op.name es = .ok e) (hs : e.sort = .bool) :
    Meets (op.demands es.length) es e := by
  have hclosed : op.shape.Keeps → op.shape.Guards → Meets (List.replicate es.length .free) es e :=
    fun hk hg => guards_meets hk hg h hs
  cases op with
  | true | false =>
    cases h
    exact ⟨trivial, by simp [truth, Expr.positive, demands, demandsMet]⟩
  | and => exact conjoin_meets (mapError_eq_ok.mp h) hs
  | or => exact disjoin_meets (mapError_eq_ok.mp h) hs
  | implies =>
    obtain _ | ⟨a, _ | ⟨b, es⟩⟩ := es
    · cases h
    · cases h
    · exact foldRight_meets (mapError_eq_ok.mp h) hs
  | ite =>
    obtain _ | ⟨c, _ | ⟨a, _ | ⟨b, _ | ⟨d, es⟩⟩⟩⟩ := es
    · cases h
    · cases h
    · cases h
    · exact mkIte_meets (mapError_eq_ok.mp h) hs
    · cases h
  | xor => exact leftAssoc_meets mkXor_keeps (logical_guards rfl) h hs
  | add | bvadd => exact leftAssoc_meets mkAdd_keeps mkAdd_guards h hs
  | mul | bvmul => exact leftAssoc_meets mkMul_keeps mkMul_guards h hs
  | intDiv => exact leftAssoc_meets (mkArith_keeps .div) (mkArith_guards rfl) h hs
  | bvxor => exact leftAssoc_meets (mkBitwise_keeps _ _) (mkBitwise_guards rfl rfl) h hs
  | bvand => exact bitwise_meets (fun _ _ => rfl) (fun _ _ => by simp [Expr.positive]) h hs
  | bvor => exact bitwise_meets (fun _ _ => rfl) (fun _ _ => by simp [Expr.positive]) h hs
  | not => exact hclosed (unary_keeps callFree_of_mkNot) (unary_guards (logical_guards rfl))
  | eq => exact hclosed (chainable_keeps mkEq_keeps) (chainable_guards mkEq_guards)
  | distinct => exact hclosed (list_keeps callFree_of_mkDistinct) (list_guards mkDistinct_guards)
  | sub => exact hclosed minus_keeps minus_guards
  | realDiv => exact hclosed division_keeps division_guards
  | mod => exact hclosed (binary_keeps (mkArith_keeps .mod)) (binary_guards (mkArith_guards rfl))
  | abs => exact hclosed (unary_keeps callFree_of_mkAbs) (unary_guards mkAbs_guards)
  | bvnot => exact hclosed (unary_keeps callFree_of_mkBvnot) (unary_guards mkBvnot_guards)
  | bvneg => exact hclosed (unary_keeps callFree_of_mkNeg) (unary_guards mkNeg_guards)
  | concat => exact hclosed (list_keeps callFree_of_mkConcat) (list_guards mkConcat_guards)
  | lt | le | gt | ge =>
    exact hclosed (chainable_keeps (mkCompare_keeps _)) (chainable_guards mkCompare_guards)
  | bvsub | bvsdiv =>
    exact hclosed (binary_keeps (mkArith_keeps _)) (binary_guards (mkArith_guards rfl))
  | bvshl | bvashr =>
    exact hclosed (binary_keeps (mkShift_keeps _)) (binary_guards (mkShift_guards rfl))
  | bvslt | bvsle | bvsgt | bvsge =>
    exact hclosed (binary_keeps (mkCompare_keeps _)) (binary_guards mkCompare_guards)
  | bvudiv | bvurem | bvsrem | bvlshr | bvult | bvule | bvugt | bvuge =>
    exact hclosed (binary_keeps (mkBits_keeps _)) (binary_guards (mkBits_guards rfl))

theorem IndexedOperator.sort_apply {op : IndexedOperator} {indices : List Index} {es : List Expr} :
    Yields (fun e => e.sort ≠ .bool) (op.apply indices es) := by
  unfold apply
  split
  · exact mkExtract_sort.mapError
  · exact .error
  · exact (mkExtend_sort fun _ _ => rfl).mapError
  · exact (mkExtend_sort fun _ _ => rfl).mapError
  · exact .error
  · exact .error
  · exact .error

theorem Symbol.positive_apply {s : Symbol} {es : List Expr} {e : Expr} (h : s.apply es = .ok e)
    (hs : e.sort = .bool) : Meets (s.demands es.length) es e := by
  cases s with
  | plain op => exact Operator.positive_apply h hs
  | indexed op indices => exact absurd hs (IndexedOperator.sort_apply e h)

end Realizability
