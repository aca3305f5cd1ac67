import Realizability.Formula.Theory
import Realizability.Proofs.Outcome

/-!
# Renaming of constants

Constants are told apart by their names only where they are bound. Every operation on expressions
commutes with a renaming that keeps the sorts of constants (`Symbol.apply_rename`).
-/

namespace Realizability

structure Renaming where
  const : Const → Const
  sort_const : ∀ c, (const c).sort = c.sort

mutual

def Expr.rename (σ : Renaming) : Expr → Expr
  | .const c => .const (σ.const c)
  | .call name args => .call name (renameEach σ args)
  | .app op args => .app op (renameEach σ args)
  | .forAll vars body => .forAll (vars.map σ.const) (body.rename σ)
  | .int n => .int n
  | .real q => .real q
  | .bits width n => .bits width n
  | .text codes => .text codes

def renameEach (σ : Renaming) : List Expr → List Expr
  | [] => []
  | e :: es => e.rename σ :: renameEach σ es

end

namespace Expr

variable {σ : Renaming}

@[simp] theorem renameEach_eq_map (es : List Expr) : renameEach σ es = es.map (rename σ) := by
  induction es with
  | nil => rfl
  | cons e es ih => simp [renameEach, ih]

@[simp] theorem rename_const (c : Const) : (const c).rename σ = const (σ.const c) := by
  simp [rename]

@[simp] theorem rename_call (name : String) (es : List Expr) :
    (call name es).rename σ = call name (es.map (rename σ)) := by simp [rename]

@[simp] theorem rename_app (op : Op) (es : List Expr) :
    (app op es).rename σ = app op (es.map (rename σ)) := by simp [rename]

@[simp] theorem rename_forAll (vars : List Const) (body : Expr) :
    (forAll vars body).rename σ = forAll (vars.map σ.const) (body.rename σ) := by simp [rename]

@[simp] theorem rename_int (n : Int) : (int n).rename σ = int n := by simp [rename]

@[simp] theorem rename_real (q : Rat) : (real q).rename σ = real q := by simp [rename]

@[simp] theorem rename_bits (width n : Nat) : (bits width n).rename σ = bits width n := by
  simp [rename]

@[simp] theorem rename_text (codes : List Nat) : (text codes).rename σ = text codes := by
  simp [rename]

@[simp] theorem rename_truth (b : Bool) : (truth b).rename σ = truth b := by
  cases b <;> simp [truth]

@[simp] theorem rename_ite (c a b : Expr) :
    (ite c a b).rename σ = ite (c.rename σ) (a.rename σ) (b.rename σ) := by simp [ite]

@[simp] theorem rename_boolToInt (a : Expr) : (boolToInt a).rename σ = boolToInt (a.rename σ) := by
  simp [boolToInt]

@[simp] theorem rename_boolToReal (a : Expr) :
    (boolToReal a).rename σ = boolToReal (a.rename σ) := by simp [boolToReal]

@[simp] theorem rename_toReal (a : Expr) : (toReal a).rename σ = toReal (a.rename σ) := by
  simp [toReal]

@[simp] theorem rename_zeroOf (s : SmtSort) : (zeroOf s).rename σ = zeroOf s := by
  cases s <;> simp [zeroOf]

mutual

@[simp] theorem sort_rename : ∀ e : Expr, (e.rename σ).sort = e.sort
  | .const c => by simp [sort, σ.sort_const]
  | .call .. => by simp [sort]
  | .app op es => by rw [rename_app, sort, sort, sortsOf_rename es]
  | .forAll .. => by simp [sort]
  | .int _ | .real _ | .bits .. | .text _ => by simp

theorem sortsOf_rename : ∀ es : List Expr, sortsOf (es.map (rename σ)) = sortsOf es
  | [] => rfl
  | e :: es => by rw [List.map_cons, sortsOf, sortsOf, sort_rename e, sortsOf_rename es]

end

@[simp] theorem isBool_rename (e : Expr) : (e.rename σ).isBool = e.isBool := by
  simp [isBool]

@[simp] theorem isNumeral_rename (e : Expr) : (e.rename σ).isNumeral = e.isNumeral := by
  cases e <;> simp [isNumeral]

@[simp] theorem reflects_rename (a b : Expr) :
    reflects (a.rename σ) (b.rename σ) = reflects a b := by
  simp [reflects]

/-! ## Coercions -/

/-- An operation on two expressions that commutes with the renaming. -/
def Natural (σ : Renaming) (f : Expr → Expr → Build Expr) : Prop :=
  ∀ a b, f (a.rename σ) (b.rename σ) = (f a b).map (rename σ)

theorem coerce_rename (s : SmtSort) (a : Expr) :
    (a.rename σ).coerce s = (a.coerce s).map (rename σ) := by
  unfold coerce
  rw [sort_rename]
  split
  · rfl
  · split <;> simp [Except.map]

theorem merge_rename (a b : Expr) : merge (a.rename σ) (b.rename σ) =
    (merge a b).map fun p => (p.1.rename σ, p.2.rename σ) := by
  unfold merge
  rw [sort_rename, sort_rename]
  split
  · rfl
  · rw [coerce_rename, coerce_rename, bind_map, map_bind]
    simp only [bind_map, map_bind]
    rfl

theorem mergeAll_rename (es : List Expr) :
    mergeAll (es.map (rename σ)) = (mergeAll es).map (List.map (rename σ)) := by
  cases es with
  | nil => rfl
  | cons e es =>
    rw [List.map_cons, mergeAll, mergeAll, sort_rename, map_bind, List.foldlM_map]
    simp only [sort_rename]
    congr 1
    funext s
    rw [← List.map_cons, List.mapM_map]
    exact mapM_comm (coerce_rename s) (e :: es)

/-! ## Connectives -/

theorem logical_rename (op : Op) (es : List Expr) :
    logical op (es.map (rename σ)) = (logical op es).map (rename σ) := by
  have hall : (es.map (rename σ)).all isBool = es.all isBool := by
    simp [List.all_map, Function.comp_def]
  unfold logical
  rw [hall]
  split <;> simp [Except.map]

theorem conjoin_rename (es : List Expr) :
    conjoin (es.map (rename σ)) = (conjoin es).map (rename σ) := by
  match es with
  | [] => simp [conjoin, Except.map]
  | [_] => rfl
  | a :: b :: es => exact logical_rename .and (a :: b :: es)

theorem disjoin_rename (es : List Expr) :
    disjoin (es.map (rename σ)) = (disjoin es).map (rename σ) := by
  match es with
  | [] => simp [disjoin, Except.map]
  | [_] => rfl
  | a :: b :: es => exact logical_rename .or (a :: b :: es)

theorem mkNot_rename (a : Expr) : mkNot (a.rename σ) = (mkNot a).map (rename σ) :=
  logical_rename .not [a]

theorem mkXor_natural : Natural σ mkXor := fun a b => logical_rename .xor [a, b]

theorem mkImplies_natural : Natural σ mkImplies := fun a b => logical_rename .implies [a, b]

theorem mkIte_rename (c a b : Expr) :
    mkIte (c.rename σ) (a.rename σ) (b.rename σ) = (mkIte c a b).map (rename σ) := by
  unfold mkIte
  rw [isBool_rename]
  split
  · rw [merge_rename, bind_map, map_bind]
    simp [pure, Except.pure, Except.map]
  · rfl

theorem mkDistinct_rename (es : List Expr) :
    mkDistinct (es.map (rename σ)) = (mkDistinct es).map (rename σ) := by
  unfold mkDistinct
  rw [mergeAll_rename, bind_map, map_bind]
  simp [pure, Except.pure, Except.map]

/-! ## Equality and order -/

theorem mkEq_natural : Natural σ mkEq := by
  intro a b
  unfold mkEq
  rw [reflects_rename]
  split
  · rw [merge_rename, bind_map, map_bind]
    simp [pure, Except.pure, Except.map]
  · rw [merge_rename, bind_map, map_bind]
    simp [pure, Except.pure, Except.map]

theorem lexical_rename (k : Comparison) (a b : Expr) :
    k.lexical (a.rename σ) (b.rename σ) = (k.lexical a b).rename σ := by
  cases k <;> simp [Comparison.lexical]

theorem compareMerged_natural (k : Comparison) : Natural σ (compareMerged k) := by
  intro a b
  unfold compareMerged
  rw [merge_rename, bind_map, map_bind]
  congr 1
  funext p
  dsimp only
  rw [sort_rename]
  split <;> simp [pure, Except.pure, Except.map, lexical_rename]

theorem mkCompare_natural (k : Comparison) : Natural σ (mkCompare k) := by
  intro a b
  unfold mkCompare
  rw [reflects_rename, isBool_rename, sort_rename]
  split
  · exact compareMerged_natural _ b a
  · exact compareMerged_natural _ a b

/-! ## Arithmetic -/

theorem family_natural (f : Family) : Natural σ f.apply := by
  intro a b
  unfold Family.apply
  rw [merge_rename, bind_map, map_bind]
  congr 1
  funext p
  dsimp only
  rw [sort_rename]
  split <;> simp [pure, Except.pure, Except.map]

theorem mkAdd_natural : Natural σ mkAdd := by
  intro a b
  unfold mkAdd
  rw [sort_rename, sort_rename]
  split
  · simp [Except.map]
  · rw [← rename_boolToInt]
    exact family_natural _ (boolToInt a) b
  · exact family_natural _ a b

theorem mkMul_natural : Natural σ mkMul := by
  intro a b
  unfold mkMul
  rw [sort_rename, sort_rename]
  split
  · simp [Except.map]
  · simp [Except.map]
  · simp [Except.map]
  · simp [Except.map]
  · simp [Except.map]
  · simp [Except.map]
  · rfl
  · exact family_natural _ a b

theorem mkArith_natural (f : Family) : Natural σ (mkArith f) := by
  intro a b
  unfold mkArith
  rw [sort_rename, sort_rename]
  split
  · rfl
  · exact family_natural f a b

theorem mkNeg_rename (a : Expr) : mkNeg (a.rename σ) = (mkNeg a).map (rename σ) := by
  unfold mkNeg
  rw [sort_rename]
  split <;> simp [Except.map]

theorem mkAbs_rename (a : Expr) : mkAbs (a.rename σ) = (mkAbs a).map (rename σ) := by
  unfold mkAbs
  rw [mkNeg_rename, bind_map, map_bind]
  simp [pure, Except.pure, Except.map]

theorem intToReal_rename (a : Expr) : intToReal (a.rename σ) = (intToReal a).rename σ := by
  unfold intToReal
  rw [sort_rename]
  split <;> simp

/-! ## Bit-vectors -/

theorem mkBvnot_rename (a : Expr) : mkBvnot (a.rename σ) = (mkBvnot a).map (rename σ) := by
  unfold mkBvnot
  rw [sort_rename]
  split <;> simp [Except.map]

theorem mkBitwise_natural (op connective : Op) : Natural σ (mkBitwise op connective) := by
  intro a b
  unfold mkBitwise
  rw [sort_rename, sort_rename, isBool_rename, isBool_rename]
  split
  · simp [Except.map]
  · split
    · simp [Except.map]
    · split <;> rfl

theorem mkShift_natural (op : Op) : Natural σ (mkShift op) := by
  intro a b
  unfold mkShift
  rw [sort_rename, sort_rename]
  split
  · simp [Except.map]
  · split <;> rfl

theorem mkBits_natural (op : Op) : Natural σ (mkBits op) := by
  intro a b
  unfold mkBits
  rw [sort_rename, sort_rename]
  split <;> simp [Except.map]

theorem foldl_concat_rename (es : List Expr) (a : Expr) :
    (es.map (rename σ)).foldl (fun x y => app .concat [x, y]) (a.rename σ) =
      (es.foldl (fun x y => app .concat [x, y]) a).rename σ := by
  induction es generalizing a with
  | nil => rfl
  | cons e es ih =>
    have hstep : app .concat [a.rename σ, e.rename σ] = (app .concat [a, e]).rename σ := by simp
    rw [List.map_cons, List.foldl_cons, List.foldl_cons, hstep, ih]

theorem mkConcat_rename (es : List Expr) :
    mkConcat (es.map (rename σ)) = (mkConcat es).map (rename σ) := by
  have hall : ∀ p : SmtSort → Bool,
      (es.map (rename σ)).all (fun e => p e.sort) = es.all fun e => p e.sort := by
    intro p
    simp [List.all_map, Function.comp_def]
  match es with
  | [] => rfl
  | [_] => rfl
  | a :: b :: es =>
    have hbits := hall SmtSort.isBitVec
    have htext := hall (· == .string)
    simp only [List.map_cons] at hbits htext
    simp only [mkConcat, List.map_cons]
    rw [hbits, htext]
    split
    · exact congrArg Except.ok (foldl_concat_rename (b :: es) a)
    · split <;> simp [Except.map]

theorem mkExtract_rename (high low : Index) (a : Expr) :
    mkExtract high low (a.rename σ) = (mkExtract high low a).map (rename σ) := by
  unfold mkExtract
  rw [sort_rename]
  split
  · split <;> simp [Except.map]
  · rfl
  · rfl

theorem mkExtend_rename (op : Nat → Op) (n : Index) (a : Expr) :
    mkExtend op n (a.rename σ) = (mkExtend op n a).map (rename σ) := by
  unfold mkExtend
  rw [sort_rename]
  split <;> simp [Except.map]

theorem close_rename (vars : List Const) (body : Expr) :
    close (vars.map σ.const) (body.rename σ) = (close vars body).map (rename σ) := by
  unfold close
  rw [List.isEmpty_map, isBool_rename]
  split
  · rfl
  · split <;> simp [Except.map]

end Expr

/-! ## Shapes -/

open Realizability.Expr

variable {σ : Renaming}

def Shape.Natural (σ : Renaming) (s : Shape) : Prop :=
  ∀ name es, s.apply name (es.map (rename σ)) = (s.apply name es).map (rename σ)

namespace Shape

theorem ofBuild_map {x y : Build Expr} (h : x = y.map (rename σ)) :
    ofBuild x = (ofBuild y).map (rename σ) := by
  rw [h]
  exact (map_mapError y _ _).symm

theorem unary_natural {f : Expr → Build Expr}
    (hf : ∀ a, f (a.rename σ) = (f a).map (rename σ)) : (unary f).Natural σ := by
  intro name es
  match es with
  | [] => rfl
  | [a] => exact ofBuild_map (hf a)
  | _ :: _ :: _ => simp [apply, Except.map]

theorem ternary_natural {f : Expr → Expr → Expr → Build Expr}
    (hf : ∀ a b c, f (a.rename σ) (b.rename σ) (c.rename σ) = (f a b c).map (rename σ)) :
    (ternary f).Natural σ := by
  intro name es
  match es with
  | [] => rfl
  | [_] => rfl
  | [_, _] => rfl
  | [a, b, c] => exact ofBuild_map (hf a b c)
  | _ :: _ :: _ :: _ :: _ => simp [apply, Except.map]

theorem list_natural {f : List Expr → Build Expr}
    (hf : ∀ es, f (es.map (rename σ)) = (f es).map (rename σ)) : (list f).Natural σ :=
  fun _ es => ofBuild_map (hf es)

section
variable {f : Expr → Expr → Build Expr} (hf : Expr.Natural σ f)
include hf

theorem binary_natural : (binary f).Natural σ := by
  intro name es
  match es with
  | [] => rfl
  | [_] => rfl
  | [a, b] => exact ofBuild_map (hf a b)
  | _ :: _ :: _ :: _ => simp [apply, Except.map]

theorem leftAssoc_natural : (leftAssoc f).Natural σ := by
  intro name es
  match es with
  | [] => rfl
  | a :: es => exact ofBuild_map (foldlM_comm hf es a)

theorem foldRight_rename (es : List Expr) (a : Expr) :
    foldRight f (a.rename σ) (es.map (rename σ)) = (foldRight f a es).map (rename σ) := by
  induction es generalizing a with
  | nil => rfl
  | cons b es ih =>
    rw [List.map_cons, foldRight, foldRight, ih, bind_map, map_bind]
    simp only [hf a]

theorem rightAssoc_natural : (rightAssoc f).Natural σ := by
  intro name es
  match es with
  | [] => rfl
  | [_] => rfl
  | a :: b :: es => exact ofBuild_map (foldRight_rename hf (b :: es) a)

theorem adjacent_rename (es : List Expr) :
    adjacent f (es.map (rename σ)) = (adjacent f es).map (List.map (rename σ)) := by
  match es with
  | [] => rfl
  | [_] => rfl
  | a :: b :: es =>
    have hrest := adjacent_rename (b :: es)
    rw [List.map_cons] at hrest
    rw [List.map_cons, List.map_cons, adjacent, adjacent, hf, hrest]
    cases f a b with
    | error e => rfl
    | ok e => cases adjacent f (b :: es) <;> rfl

theorem chainable_natural : (chainable f).Natural σ := by
  intro name es
  simp only [apply, List.length_map]
  split
  · rfl
  · refine ofBuild_map ?_
    rw [adjacent_rename hf, bind_map, map_bind]
    simp only [conjoin_rename]

end

theorem minus_natural : minus.Natural σ := by
  intro name es
  match es with
  | [] => rfl
  | [a] => exact ofBuild_map (mkNeg_rename a)
  | a :: b :: es => exact leftAssoc_natural (mkArith_natural .sub) name (a :: b :: es)

theorem division_natural : division.Natural σ := by
  intro name es
  have hreal : (es.map (rename σ)).map intToReal = (es.map intToReal).map (rename σ) := by
    simp [Function.comp_def, intToReal_rename]
  simp only [apply, List.length_map]
  split
  · rfl
  · rw [hreal]
    exact leftAssoc_natural (mkArith_natural .div) name (es.map intToReal)

end Shape

/-! ## Symbols -/

open Shape in
theorem Operator.shape_natural (op : Operator) : op.shape.Natural σ := by
  cases op with
  | true => exact fun _ _ => congrArg Except.ok (rename_truth _).symm
  | false => exact fun _ _ => congrArg Except.ok (rename_truth _).symm
  | not => exact unary_natural mkNot_rename
  | and => exact list_natural conjoin_rename
  | or => exact list_natural disjoin_rename
  | xor => exact leftAssoc_natural mkXor_natural
  | implies => exact rightAssoc_natural mkImplies_natural
  | eq => exact chainable_natural mkEq_natural
  | distinct => exact list_natural mkDistinct_rename
  | ite => exact ternary_natural mkIte_rename
  | sub => exact minus_natural
  | realDiv => exact division_natural
  | mod => exact binary_natural (mkArith_natural .mod)
  | abs => exact unary_natural mkAbs_rename
  | bvnot => exact unary_natural mkBvnot_rename
  | bvneg => exact unary_natural mkNeg_rename
  | concat => exact list_natural mkConcat_rename
  | add | bvadd => exact leftAssoc_natural mkAdd_natural
  | mul | bvmul => exact leftAssoc_natural mkMul_natural
  | intDiv => exact leftAssoc_natural (mkArith_natural .div)
  | lt | le | gt | ge => exact chainable_natural (mkCompare_natural _)
  | bvand | bvor | bvxor => exact leftAssoc_natural (mkBitwise_natural _ _)
  | bvsub | bvsdiv => exact binary_natural (mkArith_natural _)
  | bvshl | bvashr => exact binary_natural (mkShift_natural _)
  | bvslt | bvsle | bvsgt | bvsge => exact binary_natural (mkCompare_natural _)
  | bvudiv | bvurem | bvsrem | bvlshr | bvult | bvule | bvugt | bvuge =>
    exact binary_natural (mkBits_natural _)

theorem IndexedOperator.apply_rename (op : IndexedOperator) (indices : List Index)
    (es : List Expr) : op.apply indices (es.map (rename σ)) =
      (op.apply indices es).map (rename σ) := by
  cases op with
  | extract =>
    match indices, es with
    | [high, low], [a] => exact Shape.ofBuild_map (mkExtract_rename high low a)
    | [_, _], [] => rfl
    | [_, _], _ :: _ :: _ => simp [apply, Except.map]
    | [], _ | [_], _ | _ :: _ :: _ :: _, _ => rfl
  | zeroExtend =>
    match indices, es with
    | [n], a :: _ => exact Shape.ofBuild_map (mkExtend_rename .zeroExtend n a)
    | [_], [] => rfl
    | [], _ | _ :: _ :: _, _ => rfl
  | signExtend =>
    match indices, es with
    | [n], a :: _ => exact Shape.ofBuild_map (mkExtend_rename .signExtend n a)
    | [_], [] => rfl
    | [], _ | _ :: _ :: _, _ => rfl

theorem Symbol.apply_rename (s : Symbol) (es : List Expr) :
    s.apply (es.map (rename σ)) = (s.apply es).map (rename σ) := by
  cases s with
  | plain op => exact op.shape_natural op.name es
  | indexed op indices => exact op.apply_rename indices es

end Realizability
