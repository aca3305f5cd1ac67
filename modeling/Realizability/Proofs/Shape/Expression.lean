import Realizability.Encoding.Premise
import Realizability.Proofs.Meaning.Applied

/-!
# What expressions are made of

Every operation on expressions adds operators and numerals only. So what is formed from formulas
over some constants is a formula over these constants: it has no quantifiers and no other constants,
and indicators are applied to whole vectors of their sort (`Symbol.apply_over`).
-/

namespace Realizability

/-! ## Parts -/

namespace Expr

mutual

def parts : Expr → List Expr
  | call name args => call name args :: partsOf args
  | app op args => app op args :: partsOf args
  | forAll vars body => forAll vars body :: body.parts
  | int n => [int n]
  | real q => [real q]
  | bits width n => [bits width n]
  | text codes => [text codes]
  | const c => [const c]

def partsOf : List Expr → List Expr
  | [] => []
  | e :: es => e.parts ++ partsOf es

end

mutual

def freeConsts : Expr → List Const
  | const c => [c]
  | call _ args => freeConstsOf args
  | app _ args => freeConstsOf args
  | forAll vars body => body.freeConsts.filter (· ∉ vars)
  | int _ => []
  | real _ => []
  | bits .. => []
  | text _ => []

def freeConstsOf : List Expr → List Const
  | [] => []
  | e :: es => e.freeConsts ++ freeConstsOf es

end

def QuantifierFree (e : Expr) : Prop := ∀ vars body, forAll vars body ∉ e.parts

/-- Indicators are applied to one argument of their sort per example. -/
def Applies (g : Signature) (e : Expr) : Prop :=
  ∀ name args, call name args ∈ e.parts →
    ∃ s, (name, s) ∈ g.indicators ∧ args.map Expr.sort = List.replicate g.count s

theorem mem_partsOf {e : Expr} {es : List Expr} : e ∈ partsOf es ↔ ∃ a ∈ es, e ∈ a.parts := by
  induction es with
  | nil => simp [partsOf]
  | cons a es ih => simp [partsOf, ih]

theorem mem_freeConstsOf {c : Const} {es : List Expr} :
    c ∈ freeConstsOf es ↔ ∃ a ∈ es, c ∈ a.freeConsts := by
  induction es with
  | nil => simp [freeConstsOf]
  | cons a es ih => simp [freeConstsOf, ih]

/-- A formula without quantifiers over constants and indicators. -/
inductive Over (g : Signature) (cs : List Const) : Expr → Prop
  | int (n : Int) : Over g cs (int n)
  | real (q : Rat) : Over g cs (real q)
  | bits (width n : Nat) : Over g cs (bits width n)
  | text (codes : List Nat) : Over g cs (text codes)
  | const {c : Const} (h : c ∈ cs) : Over g cs (const c)
  | call {name : String} {s : SmtSort} {args : List Expr} (hname : (name, s) ∈ g.indicators)
    (hsorts : args.map Expr.sort = List.replicate g.count s) (hargs : ∀ a ∈ args, Over g cs a) :
    Over g cs (call name args)
  | app (op : Op) {args : List Expr} (hargs : ∀ a ∈ args, Over g cs a) : Over g cs (app op args)

namespace Over

variable {g : Signature} {cs ds : List Const} {e : Expr}

theorem mono (h : e.Over g cs) (hs : cs ⊆ ds) : e.Over g ds := by
  induction h with
  | int n => exact .int n
  | real q => exact .real q
  | bits width n => exact .bits width n
  | text codes => exact .text codes
  | const h => exact .const (hs h)
  | call hname hsorts _ ih => exact .call hname hsorts ih
  | app op _ ih => exact .app op ih

theorem quantifierFree (h : e.Over g cs) : e.QuantifierFree := by
  intro vars body hmem
  induction h with
  | call _ _ _ ih =>
    simp only [parts, List.mem_cons, reduceCtorEq, false_or, mem_partsOf] at hmem
    obtain ⟨a, ha, hmem⟩ := hmem
    exact ih a ha hmem
  | app _ _ ih =>
    simp only [parts, List.mem_cons, reduceCtorEq, false_or, mem_partsOf] at hmem
    obtain ⟨a, ha, hmem⟩ := hmem
    exact ih a ha hmem
  | _ => simp [parts] at hmem

theorem applies (h : e.Over g cs) : e.Applies g := by
  intro name args hmem
  induction h with
  | @call name' s args' hname hsorts _ ih =>
    simp only [parts, List.mem_cons, mem_partsOf] at hmem
    rcases hmem with heq | ⟨a, ha, hmem⟩
    · cases heq
      exact ⟨s, hname, hsorts⟩
    · exact ih a ha hmem
  | app _ _ ih =>
    simp only [parts, List.mem_cons, reduceCtorEq, false_or, mem_partsOf] at hmem
    obtain ⟨a, ha, hmem⟩ := hmem
    exact ih a ha hmem
  | _ => simp [parts] at hmem

theorem mem_of_mem_freeConsts (h : e.Over g cs) {c : Const} (hc : c ∈ e.freeConsts) : c ∈ cs := by
  induction h with
  | const h =>
    simp only [freeConsts, List.mem_singleton] at hc
    exact hc ▸ h
  | call _ _ _ ih =>
    rw [freeConsts, mem_freeConstsOf] at hc
    obtain ⟨a, ha, hc⟩ := hc
    exact ih a ha hc
  | app _ _ ih =>
    rw [freeConsts, mem_freeConstsOf] at hc
    obtain ⟨a, ha, hc⟩ := hc
    exact ih a ha hc
  | _ => simp [freeConsts] at hc

end Over

end Expr

/-! ## Results -/

/-- Whatever the computation gives has the property. -/
def Yields {ε α : Type} (P : α → Prop) (x : Except ε α) : Prop := ∀ a, x = .ok a → P a

namespace Yields

variable {ε ε' α β : Type} {P : α → Prop} {Q : β → Prop}

theorem ok {a : α} (h : P a) : Yields P (.ok a : Except ε α) := by
  intro b hb
  cases hb
  exact h

theorem error {e : ε} : Yields P (.error e : Except ε α) := by
  intro b hb
  cases hb

theorem bind {x : Except ε α} {f : α → Except ε β} (h : Yields P x)
    (hf : ∀ a, P a → Yields Q (f a)) : Yields Q (x >>= f) := by
  intro b hb
  obtain ⟨a, ha, hb⟩ := bind_eq_ok.mp hb
  exact hf a (h a ha) b hb

theorem bind_any {x : Except ε α} {f : α → Except ε β} (hf : ∀ a, Yields Q (f a)) :
    Yields Q (x >>= f) := by
  have hx : Yields (fun _ => True) x := fun _ _ => trivial
  exact hx.bind fun a _ => hf a

theorem mapError {x : Except ε α} {f : ε → ε'} (h : Yields P x) : Yields P (x.mapError f) :=
  fun a ha => h a (mapError_eq_ok.mp ha)

theorem mapM {f : α → Except ε β} {as : List α} (h : ∀ a ∈ as, Yields Q (f a)) :
    Yields (fun bs => ∀ b ∈ bs, Q b) (as.mapM f) := by
  intro bs hbs b hb
  obtain ⟨a, ha, hab⟩ := exists_of_forall₂ (mapM_eq_ok.mp hbs) hb
  exact h a ha b hab

theorem foldlM {f : β → α → Except ε β} {as : List α} (hf : ∀ b, Q b → ∀ a ∈ as, Yields Q (f b a))
    {b : β} (hb : Q b) : Yields Q (as.foldlM f b) := by
  induction as generalizing b with
  | nil => exact ok hb
  | cons a as ih =>
    rw [List.foldlM_cons]
    refine (hf b hb a (List.mem_cons_self ..)).bind fun b' hb' => ?_
    exact ih (fun b hb a ha => hf b hb a (List.mem_cons_of_mem _ ha)) hb'

end Yields

namespace Expr

section
variable {g : Signature} {cs : List Const} {a b c : Expr} {es : List Expr}

abbrev OverEach (g : Signature) (cs : List Const) (es : List Expr) : Prop := ∀ e ∈ es, Over g cs e

theorem each_cons (ha : a.Over g cs) (hs : OverEach g cs es) : OverEach g cs (a :: es) :=
  List.forall_mem_cons.mpr ⟨ha, hs⟩

theorem each_nil : OverEach g cs [] := fun _ h => absurd h List.not_mem_nil

theorem each_one (ha : a.Over g cs) : OverEach g cs [a] := each_cons ha each_nil

theorem each_two (ha : a.Over g cs) (hb : b.Over g cs) : OverEach g cs [a, b] :=
  each_cons ha (each_one hb)

theorem over_one (op : Op) (ha : a.Over g cs) : (app op [a]).Over g cs := .app op (each_one ha)

theorem over_two (op : Op) (ha : a.Over g cs) (hb : b.Over g cs) : (app op [a, b]).Over g cs :=
  .app op (each_two ha hb)

theorem over_ite (hc : c.Over g cs) (ha : a.Over g cs) (hb : b.Over g cs) :
    (ite c a b).Over g cs := .app _ (each_cons hc (each_two ha hb))

/-! ## Coercions -/

theorem truth_over (t : Bool) : (truth t).Over g cs := by
  cases t <;> exact .app _ each_nil

theorem boolToInt_over (h : a.Over g cs) : (boolToInt a).Over g cs := over_ite h (.int 1) (.int 0)

theorem zeroOf_over (s : SmtSort) : (zeroOf s).Over g cs := by
  cases s with
  | real => exact .real 0
  | bitVec width => exact .bits width 0
  | _ => exact .int 0

theorem coerce_over {s : SmtSort} (h : a.Over g cs) : Yields (Over g cs) (a.coerce s) := by
  unfold coerce
  split
  · exact .ok h
  · split
    · exact .ok (boolToInt_over h)
    · exact .ok (over_ite h (.real 1) (.real 0))
    · exact .ok (over_one _ h)
    · exact .error

def OverPair (g : Signature) (cs : List Const) (p : Expr × Expr) : Prop :=
  p.1.Over g cs ∧ p.2.Over g cs

theorem merge_over (ha : a.Over g cs) (hb : b.Over g cs) : Yields (OverPair g cs) (merge a b) := by
  unfold merge
  split
  · exact .error
  · exact (coerce_over ha).bind fun _ ha => (coerce_over hb).bind fun _ hb => .ok ⟨ha, hb⟩

theorem mergeAll_over (h : OverEach g cs es) : Yields (OverEach g cs) (mergeAll es) := by
  cases es with
  | nil => exact .error
  | cons e es =>
    refine Yields.bind_any fun s => ?_
    exact .mapM fun x hx => coerce_over (h x hx)

/-! ## Connectives -/

theorem logical_over {op : Op} (h : OverEach g cs es) : Yields (Over g cs) (logical op es) := by
  unfold logical
  split
  · exact .ok (.app op h)
  · exact .error

theorem conjoin_over (h : OverEach g cs es) : Yields (Over g cs) (conjoin es) := by
  unfold conjoin
  split
  · exact .ok (truth_over _)
  · exact .ok (h _ (by simp))
  · exact logical_over h

theorem disjoin_over (h : OverEach g cs es) : Yields (Over g cs) (disjoin es) := by
  unfold disjoin
  split
  · exact .ok (truth_over _)
  · exact .ok (h _ (by simp))
  · exact logical_over h

def Builds (g : Signature) (cs : List Const) (f : Expr → Expr → Build Expr) : Prop :=
  ∀ ⦃a b : Expr⦄, a.Over g cs → b.Over g cs → Yields (Over g cs) (f a b)

theorem mkNot_over (h : a.Over g cs) : Yields (Over g cs) (mkNot a) :=
  logical_over (each_one h)

theorem mkXor_builds : Builds g cs mkXor := fun _ _ ha hb => logical_over (each_two ha hb)

theorem mkImplies_builds : Builds g cs mkImplies :=
  fun _ _ ha hb => logical_over (each_two ha hb)

theorem mkIte_over (hc : c.Over g cs) (ha : a.Over g cs) (hb : b.Over g cs) :
    Yields (Over g cs) (mkIte c a b) := by
  unfold mkIte
  split
  · exact (merge_over ha hb).bind fun p h => .ok (over_ite hc h.1 h.2)
  · exact .error

theorem mkDistinct_over (h : OverEach g cs es) : Yields (Over g cs) (mkDistinct es) :=
  (mergeAll_over h).bind fun _ hs => .ok (.app _ hs)

/-! ## Equality and order -/

theorem mkEq_builds : Builds g cs mkEq := by
  intro a b ha hb
  unfold mkEq
  split
  · exact (merge_over hb ha).bind fun _ h => .ok (over_two _ h.1 h.2)
  · exact (merge_over ha hb).bind fun _ h => .ok (over_two _ h.1 h.2)

theorem compareMerged_over {k : Comparison} (ha : a.Over g cs) (hb : b.Over g cs) :
    Yields (Over g cs) (compareMerged k a b) := by
  refine (merge_over ha hb).bind fun p h => ?_
  dsimp only
  split
  · exact .ok (over_two _ h.1 h.2)
  · exact .ok (over_two _ h.1 h.2)
  · exact .ok (over_two _ h.1 h.2)
  · cases k with
    | lt => exact .ok (over_two _ h.1 h.2)
    | le => exact .ok (over_two _ h.1 h.2)
    | gt => exact .ok (over_two _ h.2 h.1)
    | ge => exact .ok (over_two _ h.2 h.1)
  · exact .error

theorem mkCompare_builds (k : Comparison) : Builds g cs (mkCompare k) := by
  intro a b ha hb
  unfold mkCompare
  split
  · exact compareMerged_over hb ha
  · exact compareMerged_over ha hb

/-! ## Arithmetic -/

theorem family_builds (f : Family) : Builds g cs f.apply := by
  intro a b ha hb
  refine (merge_over ha hb).bind fun p h => ?_
  dsimp only
  split
  · exact .ok (over_two _ h.1 h.2)
  · exact .ok (over_two _ h.1 h.2)
  · exact .ok (over_two _ h.1 h.2)
  · exact .error

theorem mkAdd_builds : Builds g cs mkAdd := by
  intro a b ha hb
  unfold mkAdd
  split
  · exact .ok (over_two _ ha hb)
  · exact family_builds _ (boolToInt_over ha) hb
  · exact family_builds _ ha hb

theorem mkMul_builds : Builds g cs mkMul := by
  intro a b ha hb
  unfold mkMul
  split
  · exact .ok (over_ite ha (boolToInt_over hb) (.int 0))
  · exact .ok (over_ite ha hb (zeroOf_over _))
  · exact .ok (over_ite ha hb (zeroOf_over _))
  · exact .ok (over_ite ha hb (zeroOf_over _))
  · exact .ok (over_ite hb ha (zeroOf_over _))
  · exact .ok (over_ite hb ha (zeroOf_over _))
  · exact .error
  · exact family_builds _ ha hb

theorem mkArith_builds (f : Family) : Builds g cs (mkArith f) := by
  intro a b ha hb
  unfold mkArith
  split
  · exact .error
  · exact family_builds f ha hb

theorem mkNeg_over (h : a.Over g cs) : Yields (Over g cs) (mkNeg a) := by
  unfold mkNeg
  split
  · exact .ok (over_one _ h)
  · exact .ok (over_one _ h)
  · exact .ok (over_one _ h)
  · exact .error

theorem mkAbs_over (h : a.Over g cs) : Yields (Over g cs) (mkAbs a) :=
  (mkNeg_over h).bind fun _ hn => .ok (over_ite (over_two _ h (zeroOf_over _)) h hn)

theorem intToReal_over (h : a.Over g cs) : (intToReal a).Over g cs := by
  unfold intToReal
  split
  · exact over_one _ h
  · exact h

/-! ## Bit-vectors -/

theorem mkBvnot_over (h : a.Over g cs) : Yields (Over g cs) (mkBvnot a) := by
  unfold mkBvnot
  split
  · exact .ok (over_one _ h)
  · exact .ok (over_one _ h)
  · exact .error

theorem mkBitwise_builds (op connective : Op) : Builds g cs (mkBitwise op connective) := by
  intro a b ha hb
  unfold mkBitwise
  split
  · exact .ok (over_two _ ha hb)
  · split
    · exact .ok (over_two _ ha hb)
    · split <;> exact .error

theorem mkShift_builds (op : Op) : Builds g cs (mkShift op) := by
  intro a b ha hb
  unfold mkShift
  split
  · exact .ok (over_two _ ha hb)
  · split <;> exact .error

theorem mkBits_builds (op : Op) : Builds g cs (mkBits op) := by
  intro a b ha hb
  unfold mkBits
  split
  · exact .ok (over_two _ ha hb)
  · exact .error

theorem foldl_concat_over (ha : a.Over g cs) (hs : OverEach g cs es) :
    (es.foldl (fun x y => app .concat [x, y]) a).Over g cs := by
  induction es generalizing a with
  | nil => exact ha
  | cons e es ih =>
    obtain ⟨he, hs⟩ := List.forall_mem_cons.mp hs
    exact ih (over_two _ ha he) hs

theorem mkConcat_over (h : OverEach g cs es) : Yields (Over g cs) (mkConcat es) := by
  unfold mkConcat
  split
  · obtain ⟨ha, hs⟩ := List.forall_mem_cons.mp h
    split
    · exact .ok (foldl_concat_over ha hs)
    · split
      · exact .ok (.app _ h)
      · exact .error
  · exact .error

theorem mkExtract_over {high low : Index} (h : a.Over g cs) :
    Yields (Over g cs) (mkExtract high low a) := by
  unfold mkExtract
  split
  · split
    · exact .ok (over_one _ h)
    · exact .error
  · exact .error
  · exact .error

theorem mkExtend_over {op : Nat → Op} {n : Index} (h : a.Over g cs) :
    Yields (Over g cs) (mkExtend op n a) := by
  unfold mkExtend
  split
  · exact .ok (over_one _ h)
  · exact .error

end

end Expr

/-! ## Shapes -/

open Realizability.Expr

/-- Operands taken in a shape are put together with operators and numerals only. -/
def Shape.Builds (g : Signature) (cs : List Const) (s : Shape) : Prop :=
  ∀ ⦃name : String⦄ ⦃es : List Expr⦄, OverEach g cs es → Yields (Over g cs) (s.apply name es)

namespace Shape

variable {g : Signature} {cs : List Const}

theorem constant_builds {e : Expr} (h : e.Over g cs) : (constant e).Builds g cs :=
  fun _ _ _ => .ok h

theorem unary_builds {f : Expr → Build Expr}
    (hf : ∀ {a : Expr}, a.Over g cs → Yields (Over g cs) (f a)) : (unary f).Builds g cs := by
  intro name es h
  rcases es with _ | ⟨a, _ | ⟨b, es⟩⟩
  · exact .error
  · exact (hf (h a (by simp))).mapError
  · exact .error

theorem ternary_builds {f : Expr → Expr → Expr → Build Expr}
    (hf : ∀ {a b c : Expr}, a.Over g cs → b.Over g cs → c.Over g cs →
      Yields (Over g cs) (f a b c)) : (ternary f).Builds g cs := by
  intro name es h
  rcases es with _ | ⟨a, _ | ⟨b, _ | ⟨c, _ | ⟨d, es⟩⟩⟩⟩
  · exact .error
  · exact .error
  · exact .error
  · exact (hf (h a (by simp)) (h b (by simp)) (h c (by simp))).mapError
  · exact .error

theorem list_builds {f : List Expr → Build Expr}
    (hf : ∀ {es : List Expr}, OverEach g cs es → Yields (Over g cs) (f es)) :
    (list f).Builds g cs := fun _ _ h => (hf h).mapError

section
variable {f : Expr → Expr → Build Expr} (hf : Expr.Builds g cs f)
include hf

theorem binary_builds : (binary f).Builds g cs := by
  intro name es h
  rcases es with _ | ⟨a, _ | ⟨b, _ | ⟨c, es⟩⟩⟩
  · exact .error
  · exact .error
  · exact (hf (h a (by simp)) (h b (by simp))).mapError
  · exact .error

theorem applyLeft_over {name : String} {es : List Expr} (h : OverEach g cs es) :
    Yields (Over g cs) (applyLeft name f es) := by
  cases es with
  | nil => exact .error
  | cons e es =>
    obtain ⟨he, hs⟩ := List.forall_mem_cons.mp h
    exact (Yields.foldlM (fun a ha b hb => hf ha (hs b hb)) he).mapError

theorem leftAssoc_builds : (leftAssoc f).Builds g cs := fun _ _ h => applyLeft_over hf h

theorem foldRight_over {a : Expr} {es : List Expr} (ha : a.Over g cs) (h : OverEach g cs es) :
    Yields (Over g cs) (foldRight f a es) := by
  induction es generalizing a with
  | nil => exact .ok ha
  | cons e es ih =>
    obtain ⟨he, hs⟩ := List.forall_mem_cons.mp h
    exact (ih he hs).bind fun _ hr => hf ha hr

theorem rightAssoc_builds : (rightAssoc f).Builds g cs := by
  intro name es h
  rcases es with _ | ⟨a, _ | ⟨b, es⟩⟩
  · exact .error
  · exact .error
  · obtain ⟨ha, hs⟩ := List.forall_mem_cons.mp h
    exact (foldRight_over hf ha hs).mapError

theorem adjacent_over {es : List Expr} (h : OverEach g cs es) :
    Yields (OverEach g cs) (adjacent f es) := by
  induction es with
  | nil => exact .ok each_nil
  | cons a es ih =>
    cases es with
    | nil => exact .ok each_nil
    | cons b es =>
      obtain ⟨ha, hs⟩ := List.forall_mem_cons.mp h
      exact (hf ha (hs b (by simp))).bind fun _ hr => (ih hs).bind fun _ hrs =>
        .ok (each_cons hr hrs)

theorem chainable_builds : (chainable f).Builds g cs := by
  intro name es h
  change Yields _ (if es.length < 2 then _ else _)
  split
  · exact .error
  · exact ((adjacent_over hf h).bind fun _ hs => conjoin_over hs).mapError

end

theorem minus_builds : minus.Builds g cs := by
  intro name es h
  rcases es with _ | ⟨a, _ | ⟨b, es⟩⟩
  · exact .error
  · exact (mkNeg_over (h a (by simp))).mapError
  · change Yields _ (applyLeft name (mkArith .sub) (a :: b :: es))
    exact applyLeft_over (mkArith_builds .sub) h

theorem division_builds : division.Builds g cs := by
  intro name es h
  have hreal : OverEach g cs (es.map intToReal) := by
    intro e he
    obtain ⟨a, ha, rfl⟩ := List.mem_map.mp he
    exact intToReal_over (h a ha)
  change Yields _ (if es.length < 2 then _ else _)
  split
  · exact .error
  · exact applyLeft_over (mkArith_builds .div) hreal

end Shape

/-! ## Symbols -/

section
variable {g : Signature} {cs : List Const}

open Shape in
theorem Operator.shape_builds (op : Operator) : op.shape.Builds g cs := by
  cases op with
  | true | false => exact constant_builds (truth_over _)
  | not => exact unary_builds mkNot_over
  | and => exact list_builds conjoin_over
  | or => exact list_builds disjoin_over
  | xor => exact leftAssoc_builds mkXor_builds
  | implies => exact rightAssoc_builds mkImplies_builds
  | eq => exact chainable_builds mkEq_builds
  | distinct => exact list_builds mkDistinct_over
  | ite => exact ternary_builds mkIte_over
  | sub => exact minus_builds
  | realDiv => exact division_builds
  | mod => exact binary_builds (mkArith_builds .mod)
  | abs => exact unary_builds mkAbs_over
  | bvnot => exact unary_builds mkBvnot_over
  | bvneg => exact unary_builds mkNeg_over
  | concat => exact list_builds mkConcat_over
  | add | bvadd => exact leftAssoc_builds mkAdd_builds
  | mul | bvmul => exact leftAssoc_builds mkMul_builds
  | intDiv => exact leftAssoc_builds (mkArith_builds .div)
  | lt | le | gt | ge => exact chainable_builds (mkCompare_builds _)
  | bvand | bvor | bvxor => exact leftAssoc_builds (mkBitwise_builds _ _)
  | bvsub | bvsdiv => exact binary_builds (mkArith_builds _)
  | bvshl | bvashr => exact binary_builds (mkShift_builds _)
  | bvslt | bvsle | bvsgt | bvsge => exact binary_builds (mkCompare_builds _)
  | bvudiv | bvurem | bvsrem | bvlshr | bvult | bvule | bvugt | bvuge =>
    exact binary_builds (mkBits_builds _)

theorem IndexedOperator.apply_over {op : IndexedOperator} {indices : List Index} {es : List Expr}
    (h : OverEach g cs es) : Yields (Over g cs) (op.apply indices es) := by
  unfold apply
  split
  · exact (mkExtract_over (h _ (by simp))).mapError
  · exact .error
  · exact (mkExtend_over (h _ (by simp))).mapError
  · exact (mkExtend_over (h _ (by simp))).mapError
  · exact .error
  · exact .error
  · exact .error

theorem Symbol.apply_over {s : Symbol} {es : List Expr} (h : OverEach g cs es) :
    Yields (Over g cs) (s.apply es) := by
  cases s with
  | plain op => exact op.shape_builds h
  | indexed op indices => exact IndexedOperator.apply_over h

end

end Realizability
