import Realizability.Proofs.Shape.Expression

/-!
# Where indicators are applied

A call stands in a positive position if nothing stands above it but conjunctions, disjunctions,
conclusions of implications and branches of choices. No operation but the constants drops an
operand, so what is formed from operands has a call if one of them has (`Operator.shape_keeps`).
-/

namespace Realizability

namespace Expr

mutual

def callFree : Expr → Bool
  | call .. => false
  | app _ args => callFreeEach args
  | forAll _ body => body.callFree
  | int _ | real _ | bits .. | text _ | const _ => true

def callFreeEach : List Expr → Bool
  | [] => true
  | e :: es => e.callFree && callFreeEach es

end

mutual

/-- All calls stand in positive positions. -/
def positive : Expr → Bool
  | call _ args => callFreeEach args
  | app .and args => positiveEach args
  | app .or args => positiveEach args
  | app .implies [a, b] => a.callFree && b.positive
  | app .ite [c, a, b] => c.callFree && (a.positive && b.positive)
  | app _ args => callFreeEach args
  | forAll _ body => body.positive
  | int _ | real _ | bits .. | text _ | const _ => true

def positiveEach : List Expr → Bool
  | [] => true
  | e :: es => e.positive && positiveEach es

end

@[simp] theorem callFreeEach_eq_all (es : List Expr) : callFreeEach es = es.all callFree := by
  induction es with
  | nil => rfl
  | cons e es ih => simp [callFreeEach, ih]

@[simp] theorem positiveEach_eq_all (es : List Expr) : positiveEach es = es.all positive := by
  induction es with
  | nil => rfl
  | cons e es ih => simp [positiveEach, ih]

@[simp] theorem callFree_app (op : Op) (es : List Expr) :
    (app op es).callFree = es.all callFree := by simp [callFree]

@[simp] theorem callFree_int (n : Int) : (int n).callFree = true := by simp [callFree]

@[simp] theorem callFree_real (q : Rat) : (real q).callFree = true := by simp [callFree]

@[simp] theorem callFree_truth (b : Bool) : (truth b).callFree = true := by
  cases b <;> simp [truth]

@[simp] theorem callFree_ite (c a b : Expr) :
    (ite c a b).callFree = (c.callFree && (a.callFree && b.callFree)) := by simp [ite]

@[simp] theorem callFree_boolToInt (a : Expr) : (boolToInt a).callFree = a.callFree := by
  simp [boolToInt]

@[simp] theorem callFree_boolToReal (a : Expr) : (boolToReal a).callFree = a.callFree := by
  simp [boolToReal]

@[simp] theorem callFree_toReal (a : Expr) : (toReal a).callFree = a.callFree := by
  simp [toReal]

@[simp] theorem callFree_zeroOf (s : SmtSort) : (zeroOf s).callFree = true := by
  cases s <;> simp [zeroOf, callFree]

/-! ## Calls in operands -/

variable {a b c e : Expr} {es es' : List Expr}

/-- The result has calls where an operand has. -/
def Keeps (f : Expr → Expr → Build Expr) : Prop :=
  ∀ ⦃a b e : Expr⦄, f a b = .ok e → e.callFree = (a.callFree && b.callFree)

theorem callFree_of_coerce {s : SmtSort} (h : a.coerce s = .ok e) : e.callFree = a.callFree := by
  unfold coerce at h
  split at h
  · cases h
    rfl
  · split at h
    · cases h
      simp
    · cases h
      simp
    · cases h
      simp
    · cases h

theorem callFree_of_merge {p : Expr × Expr} (h : merge a b = .ok p) :
    p.1.callFree = a.callFree ∧ p.2.callFree = b.callFree := by
  unfold merge at h
  split at h
  · cases h
  · obtain ⟨x, hx, h⟩ := bind_eq_ok.mp h
    obtain ⟨y, hy, h⟩ := bind_eq_ok.mp h
    cases h
    exact ⟨callFree_of_coerce hx, callFree_of_coerce hy⟩

theorem all_callFree_of_forall₂ (h : List.Forall₂ (fun a b => b.callFree = a.callFree) es es') :
    es'.all callFree = es.all callFree := by
  induction h with
  | nil => rfl
  | cons h _ ih => rw [List.all_cons, List.all_cons, h, ih]

theorem callFree_of_mergeAll (h : mergeAll es = .ok es') :
    es'.all callFree = es.all callFree := by
  cases es with
  | nil => cases h
  | cons e es =>
    obtain ⟨s, -, h⟩ := bind_eq_ok.mp h
    have hall := (mapM_eq_ok.mp h).imp fun _ _ ha => callFree_of_coerce ha
    exact all_callFree_of_forall₂ hall

theorem callFree_of_logical {op : Op} (h : logical op es = .ok e) :
    e.callFree = es.all callFree := by
  obtain ⟨-, rfl⟩ := logical_eq_ok h
  simp

theorem callFree_of_conjoin (h : conjoin es = .ok e) : e.callFree = es.all callFree := by
  unfold conjoin at h
  split at h
  · cases h
    simp
  · cases h
    simp
  · exact callFree_of_logical h

theorem callFree_of_disjoin (h : disjoin es = .ok e) : e.callFree = es.all callFree := by
  unfold disjoin at h
  split at h
  · cases h
    simp
  · cases h
    simp
  · exact callFree_of_logical h

theorem callFree_of_mkNot (h : mkNot a = .ok e) : e.callFree = a.callFree := by
  simpa using callFree_of_logical h

theorem mkXor_keeps : Keeps mkXor := by
  intro a b e h
  simpa using callFree_of_logical h

theorem mkImplies_keeps : Keeps mkImplies := by
  intro a b e h
  simpa using callFree_of_logical h

theorem callFree_of_mkIte (h : mkIte c a b = .ok e) :
    e.callFree = (c.callFree && (a.callFree && b.callFree)) := by
  unfold mkIte at h
  split at h
  · obtain ⟨p, hp, h⟩ := bind_eq_ok.mp h
    cases h
    simp [callFree_of_merge hp]
  · cases h

theorem callFree_of_mkDistinct (h : mkDistinct es = .ok e) : e.callFree = es.all callFree := by
  obtain ⟨es', hes, h⟩ := bind_eq_ok.mp h
  cases h
  rw [callFree_app, callFree_of_mergeAll hes]

theorem mkEq_keeps : Keeps mkEq := by
  intro a b e h
  unfold mkEq at h
  split at h
  · obtain ⟨p, hp, h⟩ := bind_eq_ok.mp h
    cases h
    simp [callFree_of_merge hp, Bool.and_comm]
  · obtain ⟨p, hp, h⟩ := bind_eq_ok.mp h
    cases h
    simp [callFree_of_merge hp]

theorem compareMerged_keeps (k : Comparison) : Keeps (compareMerged k) := by
  intro a b e h
  obtain ⟨p, hp, h⟩ := bind_eq_ok.mp h
  have hmerge := callFree_of_merge hp
  dsimp only at h
  split at h
  · cases h
    simp [hmerge]
  · cases h
    simp [hmerge]
  · cases h
    simp [hmerge]
  · cases h
    cases k <;> simp [Comparison.lexical, hmerge, Bool.and_comm]
  · cases h

theorem mkCompare_keeps (k : Comparison) : Keeps (mkCompare k) := by
  intro a b e h
  unfold mkCompare at h
  split at h
  · rw [compareMerged_keeps _ h, Bool.and_comm]
  · exact compareMerged_keeps _ h

theorem family_keeps (f : Family) : Keeps f.apply := by
  intro a b e h
  obtain ⟨p, hp, h⟩ := bind_eq_ok.mp h
  have hmerge := callFree_of_merge hp
  dsimp only at h
  split at h
  · cases h
    simp [hmerge]
  · cases h
    simp [hmerge]
  · cases h
    simp [hmerge]
  · cases h

theorem mkAdd_keeps : Keeps mkAdd := by
  intro a b e h
  unfold mkAdd at h
  split at h
  · cases h
    simp
  · simpa using family_keeps _ h
  · exact family_keeps _ h

theorem mkMul_keeps : Keeps mkMul := by
  intro a b e h
  unfold mkMul at h
  split at h
  · cases h
    simp
  · cases h
    simp
  · cases h
    simp
  · cases h
    simp
  · cases h
    simp [Bool.and_comm]
  · cases h
    simp [Bool.and_comm]
  · cases h
  · exact family_keeps _ h

theorem mkArith_keeps (f : Family) : Keeps (mkArith f) := by
  intro a b e h
  unfold mkArith at h
  split at h
  · cases h
  · exact family_keeps f h

theorem callFree_of_mkNeg (h : mkNeg a = .ok e) : e.callFree = a.callFree := by
  unfold mkNeg at h
  split at h
  · cases h
    simp
  · cases h
    simp
  · cases h
    simp
  · cases h

theorem callFree_of_mkAbs (h : mkAbs a = .ok e) : e.callFree = a.callFree := by
  obtain ⟨negated, hn, h⟩ := bind_eq_ok.mp h
  cases h
  simp [callFree_of_mkNeg hn]

@[simp] theorem callFree_intToReal (a : Expr) : (intToReal a).callFree = a.callFree := by
  unfold intToReal
  split <;> simp

theorem callFree_of_mkBvnot (h : mkBvnot a = .ok e) : e.callFree = a.callFree := by
  unfold mkBvnot at h
  split at h
  · cases h
    simp
  · cases h
    simp
  · cases h

theorem mkBitwise_keeps (op connective : Op) : Keeps (mkBitwise op connective) := by
  intro a b e h
  unfold mkBitwise at h
  split at h
  · cases h
    simp
  · split at h
    · cases h
      simp
    · split at h <;> cases h

theorem mkShift_keeps (op : Op) : Keeps (mkShift op) := by
  intro a b e h
  unfold mkShift at h
  split at h
  · cases h
    simp
  · split at h <;> cases h

theorem mkBits_keeps (op : Op) : Keeps (mkBits op) := by
  intro a b e h
  unfold mkBits at h
  split at h
  · cases h
    simp
  · cases h

theorem callFree_foldl_concat (es : List Expr) (a : Expr) :
    (es.foldl (fun x y => app .concat [x, y]) a).callFree = (a.callFree && es.all callFree) := by
  induction es generalizing a with
  | nil => simp
  | cons e es ih => simp [ih, Bool.and_assoc]

theorem callFree_of_mkConcat (h : mkConcat es = .ok e) : e.callFree = es.all callFree := by
  unfold mkConcat at h
  split at h
  · split at h
    · cases h
      simp [callFree_foldl_concat, Bool.and_assoc]
    · split at h
      · cases h
        simp
      · cases h
  · cases h

theorem callFree_of_mkExtract {high low : Index} (h : mkExtract high low a = .ok e) :
    e.callFree = a.callFree := by
  unfold mkExtract at h
  split at h
  · split at h
    · cases h
      simp
    · cases h
  · cases h
  · cases h

theorem callFree_of_mkExtend {op : Nat → Op} {n : Index} (h : mkExtend op n a = .ok e) :
    e.callFree = a.callFree := by
  unfold mkExtend at h
  split at h
  · cases h
    simp
  · cases h

end Expr

/-! ## Calls in arguments -/

open Realizability.Expr

namespace Shape

/-- The result has calls where an argument has. -/
def Keeps (s : Shape) : Prop :=
  ∀ ⦃name : String⦄ ⦃es : List Expr⦄ ⦃e : Expr⦄,
    s.apply name es = .ok e → e.callFree = es.all callFree

theorem unary_keeps {f : Expr → Build Expr}
    (hf : ∀ {a e : Expr}, f a = .ok e → e.callFree = a.callFree) : (unary f).Keeps := by
  intro name es e h
  match es with
  | [] => cases h
  | [a] => simp [hf (mapError_eq_ok.mp h)]
  | _ :: _ :: _ => cases h

theorem ternary_keeps {f : Expr → Expr → Expr → Build Expr}
    (hf : ∀ {a b c e : Expr}, f a b c = .ok e →
      e.callFree = (a.callFree && (b.callFree && c.callFree))) : (ternary f).Keeps := by
  intro name es e h
  match es with
  | [] => cases h
  | [_] => cases h
  | [_, _] => cases h
  | [a, b, c] => simp [hf (mapError_eq_ok.mp h)]
  | _ :: _ :: _ :: _ :: _ => cases h

theorem list_keeps {f : List Expr → Build Expr}
    (hf : ∀ {es : List Expr} {e : Expr}, f es = .ok e → e.callFree = es.all callFree) :
    (list f).Keeps := fun _ _ _ h => hf (mapError_eq_ok.mp h)

section
variable {f : Expr → Expr → Build Expr} (hf : Expr.Keeps f)
include hf

theorem binary_keeps : (binary f).Keeps := by
  intro name es e h
  match es with
  | [] => cases h
  | [_] => cases h
  | [a, b] => simp [hf (mapError_eq_ok.mp h)]
  | _ :: _ :: _ :: _ => cases h

theorem callFree_of_foldlM {es : List Expr} {a e : Expr} (h : es.foldlM f a = .ok e) :
    e.callFree = (a.callFree && es.all callFree) := by
  induction es generalizing a with
  | nil =>
    cases h
    simp
  | cons b es ih =>
    rw [List.foldlM_cons] at h
    obtain ⟨x, hx, h⟩ := bind_eq_ok.mp h
    rw [ih h, hf hx, List.all_cons, Bool.and_assoc]

theorem leftAssoc_keeps : (leftAssoc f).Keeps := by
  intro name es e h
  match es with
  | [] => cases h
  | a :: es => exact callFree_of_foldlM hf (mapError_eq_ok.mp h)

theorem callFree_of_foldRight {es : List Expr} {a e : Expr} (h : foldRight f a es = .ok e) :
    e.callFree = (a.callFree && es.all callFree) := by
  induction es generalizing a e with
  | nil =>
    cases h
    simp
  | cons b es ih =>
    obtain ⟨x, hx, h⟩ := bind_eq_ok.mp h
    rw [hf h, ih hx, List.all_cons]

theorem rightAssoc_keeps : (rightAssoc f).Keeps := by
  intro name es e h
  match es with
  | [] => cases h
  | [_] => cases h
  | a :: b :: es => exact callFree_of_foldRight hf (mapError_eq_ok.mp h)

theorem callFree_of_adjacent {es rs : List Expr} {a b : Expr}
    (h : adjacent f (a :: b :: es) = .ok rs) :
    rs.all callFree = (a :: b :: es).all callFree := by
  induction es generalizing a b rs with
  | nil =>
    obtain ⟨r, hr, h⟩ := bind_eq_ok.mp h
    cases h
    simp [hf hr]
  | cons c es ih =>
    obtain ⟨r, hr, h⟩ := bind_eq_ok.mp h
    obtain ⟨rs', hrs, h⟩ := bind_eq_ok.mp h
    cases h
    rw [List.all_cons, ih hrs, hf hr]
    cases hb : b.callFree <;> simp [hb]

theorem chainable_keeps : (chainable f).Keeps := by
  intro name es e h
  match es with
  | [] => cases h
  | [_] => cases h
  | a :: b :: es =>
    obtain ⟨rs, hrs, h⟩ := bind_eq_ok.mp (mapError_eq_ok.mp h)
    rw [callFree_of_conjoin h, callFree_of_adjacent hf hrs]

end

theorem minus_keeps : minus.Keeps := by
  intro name es e h
  match es with
  | [] => cases h
  | [a] => simp [callFree_of_mkNeg (mapError_eq_ok.mp h)]
  | a :: b :: es =>
    have hfold : (leftAssoc (mkArith .sub)).apply name (a :: b :: es) = .ok e := h
    exact leftAssoc_keeps (mkArith_keeps .sub) hfold

theorem division_keeps : division.Keeps := by
  intro name es e h
  have hall : (es.map intToReal).all callFree = es.all callFree := by
    simp [List.all_map, Function.comp_def]
  simp only [apply] at h
  split at h
  · cases h
  · rw [← hall]
    exact leftAssoc_keeps (mkArith_keeps .div) h

end Shape

open Shape in
theorem Operator.shape_keeps (op : Operator) (ht : op ≠ .true) (hf : op ≠ .false) :
    op.shape.Keeps := by
  cases op with
  | true => exact absurd rfl ht
  | false => exact absurd rfl hf
  | not => exact unary_keeps callFree_of_mkNot
  | and => exact list_keeps callFree_of_conjoin
  | or => exact list_keeps callFree_of_disjoin
  | xor => exact leftAssoc_keeps mkXor_keeps
  | implies => exact rightAssoc_keeps mkImplies_keeps
  | eq => exact chainable_keeps mkEq_keeps
  | distinct => exact list_keeps callFree_of_mkDistinct
  | ite => exact ternary_keeps callFree_of_mkIte
  | sub => exact minus_keeps
  | realDiv => exact division_keeps
  | mod => exact binary_keeps (mkArith_keeps .mod)
  | abs => exact unary_keeps callFree_of_mkAbs
  | bvnot => exact unary_keeps callFree_of_mkBvnot
  | bvneg => exact unary_keeps callFree_of_mkNeg
  | concat => exact list_keeps callFree_of_mkConcat
  | add | bvadd => exact leftAssoc_keeps mkAdd_keeps
  | mul | bvmul => exact leftAssoc_keeps mkMul_keeps
  | intDiv => exact leftAssoc_keeps (mkArith_keeps .div)
  | lt | le | gt | ge => exact chainable_keeps (mkCompare_keeps _)
  | bvand | bvor | bvxor => exact leftAssoc_keeps (mkBitwise_keeps _ _)
  | bvsub | bvsdiv => exact binary_keeps (mkArith_keeps _)
  | bvshl | bvashr => exact binary_keeps (mkShift_keeps _)
  | bvslt | bvsle | bvsgt | bvsge => exact binary_keeps (mkCompare_keeps _)
  | bvudiv | bvurem | bvsrem | bvlshr | bvult | bvule | bvugt | bvuge =>
    exact binary_keeps (mkBits_keeps _)

end Realizability
