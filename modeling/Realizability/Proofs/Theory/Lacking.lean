import Realizability.Proofs.Encoding.Formation

/-!
# Operations that are not there

Some operators have no operation at all for operands of certain sorts: there is no difference of two
truth values, and no order among them. Where that is so can be read off the sorts of the operands
(`Symbol.apply_undefined_iff`). All other operands that do not fit are merely ill sorted.
-/

namespace Realizability

open Realizability.Expr

/-! ## Operands without an operation -/

/-- The sort of a single operand. -/
def lacksOne (p : SmtSort → Bool) : List SmtSort → Bool
  | [s] => p s
  | _ => false

/-- The sorts of two operands and no more. -/
def lacksTwo (p : SmtSort → SmtSort → Bool) : List SmtSort → Bool
  | [s, t] => p s t
  | _ => false

/-- The sorts of the first two operands. -/
def lacksFirst (p : SmtSort → SmtSort → Bool) : List SmtSort → Bool
  | s :: t :: _ => p s t
  | _ => false

def lackArith (s t : SmtSort) : Bool := lacksArith s && lacksArith t

def lackString (s t : SmtSort) : Bool := s == .string && t == .string

def lackComplement (s : SmtSort) : Bool := !(s == .bool || s.isBitVec)

def lackBitwise (s t : SmtSort) : Bool := !(s == .bool || s.isBitVec || t.isBitVec)

def lackShift (s t : SmtSort) : Bool := !(s.isBitVec || t.isBitVec)

def lackOrder (s t : SmtSort) : Bool := s == .bool && t == .bool

/-- Two adjacent truth values behind operands that can be compared. -/
def lacksChain : List SmtSort → Bool
  | s :: t :: rest => lackOrder s t || ((s.join? t).isSome && lacksChain (t :: rest))
  | _ => false

theorem lacksFirst_of_length {p : SmtSort → SmtSort → Bool} {ss : List SmtSort}
    (h : ss.length < 2) : lacksFirst p ss = false := by
  rcases ss with _ | ⟨s, _ | ⟨t, ss⟩⟩
  · rfl
  · rfl
  · exact absurd h (by simp)

theorem lacksChain_of_length {ss : List SmtSort} (h : ss.length < 2) : lacksChain ss = false := by
  rcases ss with _ | ⟨s, _ | ⟨t, ss⟩⟩
  · rfl
  · rfl
  · exact absurd h (by simp)

/-- Whether the operator has no operation for operands of these sorts. -/
def Operator.lacks : Operator → List SmtSort → Bool
  | sub => fun ss => lacksOne lacksArith ss || lacksFirst lackArith ss
  | intDiv | realDiv => lacksFirst lackArith
  | mod | bvsub | bvsdiv => lacksTwo lackArith
  | abs | bvneg => lacksOne lacksArith
  | mul | bvmul => lacksFirst lackString
  | bvnot => lacksOne lackComplement
  | bvand | bvor | bvxor => lacksFirst lackBitwise
  | bvshl | bvashr => lacksTwo lackShift
  | lt | le | gt | ge => lacksChain
  | bvslt | bvsle | bvsgt | bvsge => lacksTwo lackOrder
  | true | false | not | and | or | xor | implies | eq | distinct | ite | add | bvadd | bvudiv
  | bvurem | bvsrem | bvlshr | bvult | bvule | bvugt | bvuge | concat => fun _ => Bool.false

/-- An extension without an operand lacks it, and so does an extraction from a number to a name. -/
def Symbol.lacks : Symbol → List SmtSort → Bool
  | .plain op, ss => op.lacks ss
  | .indexed .extract [.number _, .name _], [_] => true
  | .indexed .zeroExtend [_], [] | .indexed .signExtend [_], [] => true
  | _, _ => false

/-! ## Operations that are always there -/

/-- The operation is there, if only to be refused. -/
def Defined {α : Type} (x : Build α) : Prop := x ≠ .error .undefined

namespace Defined

variable {α β : Type}

theorem ok {a : α} : Defined (.ok a) := nofun

theorem illSorted : Defined (.error .illSorted : Build α) := nofun

theorem bind {x : Build α} {f : α → Build β} (hx : Defined x) (hf : ∀ a, Defined (f a)) :
    Defined (x >>= f) := by
  intro h
  rcases bind_eq_error.mp h with h | ⟨a, -, h⟩
  · exact hx h
  · exact hf a h

theorem mapM {f : α → Build β} (hf : ∀ a, Defined (f a)) (as : List α) : Defined (as.mapM f) := by
  intro h
  obtain ⟨a, -, ha⟩ := exists_of_mapM_eq_error h
  exact hf a ha

theorem foldlM {f : β → α → Build β} (hf : ∀ b a, Defined (f b a)) (as : List α) (b : β) :
    Defined (as.foldlM f b) := by
  induction as generalizing b with
  | nil => exact ok
  | cons a as ih => exact (hf b a).bind fun b' => ih b'

end Defined

namespace Expr

variable {a b : Expr} {es : List Expr}

theorem coerce_defined (s : SmtSort) (a : Expr) : Defined (a.coerce s) := by
  unfold coerce
  split
  · exact .ok
  · split
    · exact .ok
    · exact .ok
    · exact .ok
    · exact .illSorted

theorem merge_defined (a b : Expr) : Defined (merge a b) := by
  unfold merge
  split
  · exact .illSorted
  · exact (coerce_defined _ _).bind fun _ => (coerce_defined _ _).bind fun _ => .ok

theorem mergeAll_defined (es : List Expr) : Defined (mergeAll es) := by
  cases es with
  | nil => exact .illSorted
  | cons e es =>
    refine Defined.bind (.foldlM (fun s x => ?_) es _) fun s => .mapM (coerce_defined s) _
    split
    · exact .ok
    · exact .illSorted

theorem logical_defined (op : Op) (es : List Expr) : Defined (logical op es) := by
  unfold logical
  split
  · exact .ok
  · exact .illSorted

theorem conjoin_defined (es : List Expr) : Defined (conjoin es) := by
  rcases es with _ | ⟨a, _ | ⟨b, es⟩⟩
  · exact .ok
  · exact .ok
  · exact logical_defined _ _

theorem disjoin_defined (es : List Expr) : Defined (disjoin es) := by
  rcases es with _ | ⟨a, _ | ⟨b, es⟩⟩
  · exact .ok
  · exact .ok
  · exact logical_defined _ _

theorem mkIte_defined (c a b : Expr) : Defined (mkIte c a b) := by
  unfold mkIte
  split
  · exact (merge_defined a b).bind fun _ => .ok
  · exact .illSorted

theorem mkEq_defined (a b : Expr) : Defined (mkEq a b) := by
  unfold mkEq
  split
  · exact (merge_defined b a).bind fun _ => .ok
  · exact (merge_defined a b).bind fun _ => .ok

theorem mkDistinct_defined (es : List Expr) : Defined (mkDistinct es) :=
  (mergeAll_defined es).bind fun _ => .ok

theorem family_defined (f : Family) (a b : Expr) : Defined (f.apply a b) := by
  refine (merge_defined a b).bind ?_
  rintro ⟨x, y⟩
  dsimp only
  split
  · exact .ok
  · exact .ok
  · exact .ok
  · exact .illSorted

theorem mkAdd_defined (a b : Expr) : Defined (mkAdd a b) := by
  unfold mkAdd
  split
  · exact .ok
  · exact family_defined _ _ _
  · exact family_defined _ _ _

theorem mkBits_defined (op : Op) (a b : Expr) : Defined (mkBits op a b) := by
  unfold mkBits
  split
  · exact .ok
  · exact .illSorted

theorem mkConcat_defined (es : List Expr) : Defined (mkConcat es) := by
  unfold mkConcat
  split
  · split
    · exact .ok
    · split
      · exact .ok
      · exact .illSorted
  · exact .illSorted

theorem mkExtract_undefined {high low : Index} : mkExtract high low a = .error .undefined ↔
    (Symbol.indexed .extract [high, low]).lacks [a.sort] = true := by
  cases high with
  | name s => simp [mkExtract, Symbol.lacks]
  | number n =>
    cases low with
    | name s => simp [mkExtract, Symbol.lacks]
    | number k =>
      simp only [mkExtract, Symbol.lacks]
      split
      · split <;> simp
      · contradiction
      · simp

theorem mkExtend_defined (op : Nat → Op) (n : Index) (a : Expr) : Defined (mkExtend op n a) := by
  unfold mkExtend
  split
  · exact .ok
  · exact .illSorted

/-! ## Operations that can be missing -/

theorem mkNeg_undefined : mkNeg a = .error .undefined ↔ lacksArith a.sort = true := by
  unfold mkNeg
  cases a.sort <;> simp [lacksArith]

theorem mkAbs_undefined : mkAbs a = .error .undefined ↔ lacksArith a.sort = true := by
  unfold mkAbs
  rw [bind_eq_error, mkNeg_undefined]
  simp [pure, Except.pure]

theorem mkBvnot_undefined :
    mkBvnot a = .error .undefined ↔ lackComplement a.sort = true := by
  unfold mkBvnot lackComplement
  cases a.sort <;> simp [SmtSort.isBitVec]

theorem mkArith_undefined (f : Family) :
    mkArith f a b = .error .undefined ↔ lackArith a.sort b.sort = true := by
  unfold mkArith lackArith
  by_cases h : (lacksArith a.sort && lacksArith b.sort) = true
  · simp [h]
  · rw [if_neg h]
    exact iff_of_false (family_defined f a b) h

theorem mkMul_undefined :
    mkMul a b = .error .undefined ↔ lackString a.sort b.sort = true := by
  have hfamily := family_defined .mul a b
  unfold mkMul lackString
  cases a.sort <;> cases b.sort <;> simp <;> exact hfamily

theorem mkBitwise_undefined (op connective : Op) :
    mkBitwise op connective a b = .error .undefined ↔ lackBitwise a.sort b.sort = true := by
  unfold mkBitwise lackBitwise isBool
  cases a.sort <;> cases b.sort <;> simp [SmtSort.isBitVec]
  split <;> simp

theorem mkShift_undefined (op : Op) :
    mkShift op a b = .error .undefined ↔ lackShift a.sort b.sort = true := by
  unfold mkShift lackShift
  cases a.sort <;> cases b.sort <;> simp [SmtSort.isBitVec]
  split <;> simp

/-! ## Comparisons -/

theorem join?_eq_bool {s t : SmtSort} :
    s.join? t = some .bool ↔ lackOrder s t = true := by
  cases s <;> cases t <;> simp [SmtSort.join?, lackOrder]

theorem merge_eq_ok {p : Expr × Expr} (h : merge a b = .ok p) :
    a.sort.join? b.sort = some p.1.sort := by
  unfold merge at h
  split at h
  · cases h
  · rename_i s hs
    obtain ⟨x, hx, h⟩ := bind_eq_ok.mp h
    obtain ⟨y, -, h⟩ := bind_eq_ok.mp h
    cases h
    rw [hs, sort_of_coerce hx]

theorem merge_ok_iff : (∃ p, merge a b = .ok p) ↔ (a.sort.join? b.sort).isSome = true := by
  constructor
  · rintro ⟨p, hp⟩
    rw [merge_eq_ok hp]
    rfl
  · intro h
    unfold merge
    cases ha : a.sort <;> cases hb : b.sort <;>
      simp_all [SmtSort.join?, coerce, pure, Except.pure, bind, Except.bind]

theorem compareMerged_undefined (k : Comparison) :
    compareMerged k a b = .error .undefined ↔ lackOrder a.sort b.sort = true := by
  rw [← join?_eq_bool, compareMerged, bind_eq_error]
  constructor
  · rintro (h | ⟨⟨x, y⟩, hp, h⟩)
    · exact absurd h (merge_defined a b)
    · rw [merge_eq_ok hp]
      dsimp only at h ⊢
      cases hx : x.sort <;> simp_all [pure, Except.pure]
  · intro h
    obtain ⟨⟨x, y⟩, hp⟩ := merge_ok_iff.mpr (by rw [h]; rfl)
    have hx : x.sort = .bool := Option.some.inj ((merge_eq_ok hp).symm.trans h)
    refine .inr ⟨_, hp, ?_⟩
    dsimp only
    rw [hx]

theorem compareMerged_ok_iff (k : Comparison) : (∃ e, compareMerged k a b = .ok e) ↔
    (a.sort.join? b.sort).isSome = true ∧ lackOrder a.sort b.sort = false := by
  constructor
  · rintro ⟨e, he⟩
    obtain ⟨p, hp, -⟩ := bind_eq_ok.mp he
    refine ⟨merge_ok_iff.mp ⟨p, hp⟩, Bool.eq_false_iff.mpr fun hlack => ?_⟩
    rw [(compareMerged_undefined k).mpr hlack] at he
    cases he
  · rintro ⟨hjoin, hlack⟩
    obtain ⟨⟨x, y⟩, hp⟩ := merge_ok_iff.mpr hjoin
    have hx : x.sort ≠ .bool := by
      intro hx
      have hbool := join?_eq_bool.mp ((merge_eq_ok hp).trans (by rw [hx]))
      rw [hlack] at hbool
      cases hbool
    rw [compareMerged, hp]
    dsimp only [bind, Except.bind]
    cases hs : x.sort with
    | bool => exact absurd hs hx
    | _ => exact ⟨_, rfl⟩

/-- Exchanging the operands of a comparison changes nothing here. -/
theorem mkCompare_cases (k : Comparison) (a b : Expr) :
    mkCompare k a b = compareMerged k.flip b a ∨ mkCompare k a b = compareMerged k a b := by
  unfold mkCompare
  split
  · exact .inl rfl
  · exact .inr rfl

theorem lackOrder_comm (s t : SmtSort) : lackOrder s t = lackOrder t s := Bool.and_comm ..

theorem mkCompare_undefined (k : Comparison) :
    mkCompare k a b = .error .undefined ↔ lackOrder a.sort b.sort = true := by
  rcases mkCompare_cases k a b with h | h
  · rw [h, compareMerged_undefined, lackOrder_comm]
  · rw [h, compareMerged_undefined]

theorem mkCompare_ok_iff (k : Comparison) : (∃ e, mkCompare k a b = .ok e) ↔
    (a.sort.join? b.sort).isSome = true ∧ lackOrder a.sort b.sort = false := by
  rcases mkCompare_cases k a b with h | h
  · rw [h, compareMerged_ok_iff, lackOrder_comm, join?_comm]
  · rw [h, compareMerged_ok_iff]

theorem adjacent_undefined (k : Comparison) (es : List Expr) :
    adjacent (mkCompare k) es = .error .undefined ↔ lacksChain (es.map Expr.sort) = true := by
  match es with
  | [] => simp [adjacent, lacksChain]
  | [a] => simp [adjacent, lacksChain]
  | a :: b :: rest =>
    have hrest : ∀ e, (do return e :: (← adjacent (mkCompare k) (b :: rest)) : Build (List Expr)) =
        .error .undefined ↔ lacksChain ((b :: rest).map Expr.sort) = true := by
      intro e
      rw [bind_eq_error, adjacent_undefined k (b :: rest)]
      simp [pure, Except.pure]
    have hchain : lacksChain ((a :: b :: rest).map Expr.sort) = (lackOrder a.sort b.sort ||
        ((a.sort.join? b.sort).isSome && lacksChain ((b :: rest).map Expr.sort))) := rfl
    rw [adjacent, bind_eq_error, mkCompare_undefined, hchain]
    simp only [hrest, exists_and_right, mkCompare_ok_iff]
    cases lackOrder a.sort b.sort <;> simp

/-! ## Folds -/

/-- The operators of a family give numbers and bit-vectors. -/
structure Family.Numeric (f : Family) : Prop where
  int : lacksArith (f.int.sort [.int, .int]) = false
  real : ∀ op ∈ f.real, lacksArith (op.sort [.real, .real]) = false
  bits : ∀ n, lacksArith (f.bits.sort [.bitVec n, .bitVec n]) = false

theorem sub_numeric : Family.Numeric .sub :=
  ⟨rfl, by simp [Family.sub, Op.sort, firstSort, lacksArith], fun _ => rfl⟩

theorem mul_numeric : Family.Numeric .mul :=
  ⟨rfl, by simp [Family.mul, Op.sort, firstSort, lacksArith], fun _ => rfl⟩

theorem div_numeric : Family.Numeric .div :=
  ⟨rfl, by simp [Family.div, Op.sort, lacksArith], fun _ => rfl⟩

theorem sort_app_two (op : Op) (a b : Expr) : (app op [a, b]).sort = op.sort [a.sort, b.sort] := rfl

theorem Family.Numeric.apply {f : Family} (hf : f.Numeric) {e : Expr} (h : f.apply a b = .ok e) :
    lacksArith e.sort = false := by
  obtain ⟨⟨x, y⟩, hp, h⟩ := bind_eq_ok.mp h
  have hs : y.sort = x.sort := (sort_of_merge hp).symm
  dsimp only at h
  split at h
  · rename_i hx
    cases h
    rw [sort_app_two, hs, hx]
    exact hf.int
  · rename_i op hx hop
    cases h
    rw [sort_app_two, hs, hx]
    exact hf.real op hop
  · rename_i n hx
    cases h
    rw [sort_app_two, hs, hx]
    exact hf.bits n
  · cases h

/-- The operation is there for its own results. -/
def Closed (f : Expr → Expr → Build Expr) (p : SmtSort → SmtSort → Bool) : Prop :=
  ∀ ⦃a b e : Expr⦄, f a b = .ok e → ∀ s, p e.sort s = false

theorem mkArith_closed {f : Family} (hf : f.Numeric) : Closed (mkArith f) lackArith := by
  intro a b e h s
  unfold mkArith at h
  split at h
  · cases h
  · rw [lackArith, hf.apply h, Bool.false_and]

theorem mkMul_closed : Closed mkMul lackString := by
  intro a b e h s
  have hsort : e.sort ≠ .string := by
    unfold mkMul at h
    split at h
    · cases h
      exact nofun
    · rename_i hb
      cases h
      exact fun hs => nomatch hb.symm.trans hs
    · rename_i hb
      cases h
      exact fun hs => nomatch hb.symm.trans hs
    · rename_i hb
      cases h
      exact fun hs => nomatch hb.symm.trans hs
    · rename_i ha _
      cases h
      exact fun hs => nomatch ha.symm.trans hs
    · rename_i ha _
      cases h
      exact fun hs => nomatch ha.symm.trans hs
    · cases h
    · intro hs
      have hnumeric := mul_numeric.apply h
      rw [hs] at hnumeric
      cases hnumeric
  simp [lackString, hsort]

theorem mkBitwise_closed {op connective : Op} (hop : ∀ s, op.sort [s, s] = s)
    (hconnective : connective.sort [.bool, .bool] = .bool) :
    Closed (mkBitwise op connective) lackBitwise := by
  intro a b e h s
  unfold mkBitwise at h
  split at h
  · rename_i hs
    cases h
    obtain ⟨ha, hab⟩ := Bool.and_eq_true_iff.mp hs
    rw [sort_app_two, ← beq_iff_eq.mp hab, hop, lackBitwise, ha]
    simp
  · split at h
    · rename_i hs
      cases h
      obtain ⟨ha, hb⟩ := Bool.and_eq_true_iff.mp hs
      rw [sort_app_two, beq_iff_eq.mp ha, beq_iff_eq.mp hb, hconnective]
      rfl
    · split at h <;> cases h

end Expr

/-! ## Shapes -/

section
variable {name : String} {es : List Expr} {f : Expr → Expr → Build Expr}

theorem ofBuild_undefined {α : Type} {x : Build α} :
    ofBuild x = .error (.misuse .undefined) ↔ x = .error .undefined := by
  cases x <;> simp [ofBuild, Except.mapError]

theorem unary_undefined {f : Expr → Build Expr} {p : SmtSort → Bool}
    (hf : ∀ {a : Expr}, f a = .error .undefined ↔ p a.sort = true) :
    (Shape.unary f).apply name es = .error (.misuse .undefined) ↔
      lacksOne p (es.map Expr.sort) = true := by
  rcases es with _ | ⟨a, _ | ⟨b, es⟩⟩
  · simp [Shape.apply, lacksOne]
  · exact ofBuild_undefined.trans hf
  · simp [Shape.apply, lacksOne]

theorem binary_undefined {p : SmtSort → SmtSort → Bool}
    (hf : ∀ {a b : Expr}, f a b = .error .undefined ↔ p a.sort b.sort = true) :
    (Shape.binary f).apply name es = .error (.misuse .undefined) ↔
      lacksTwo p (es.map Expr.sort) = true := by
  rcases es with _ | ⟨a, _ | ⟨b, _ | ⟨c, es⟩⟩⟩
  · simp [Shape.apply, lacksTwo]
  · simp [Shape.apply, lacksTwo]
  · exact ofBuild_undefined.trans hf
  · simp [Shape.apply, lacksTwo]

theorem applyLeft_undefined {p : SmtSort → SmtSort → Bool}
    (hf : ∀ {a b : Expr}, f a b = .error .undefined ↔ p a.sort b.sort = true)
    (hclosed : Expr.Closed f p) :
    applyLeft name f es = .error (.misuse .undefined) ↔ lacksFirst p (es.map Expr.sort) = true := by
  rcases es with _ | ⟨a, _ | ⟨b, es⟩⟩
  · simp [applyLeft, lacksFirst]
  · simp [applyLeft, lacksFirst, ofBuild, Except.mapError, pure, Except.pure]
  · -- whatever the first two operands give, the operation is there for it
    have hrest : ∀ (es : List Expr) (a b e : Expr), f a b = .ok e →
        es.foldlM f e ≠ .error .undefined := by
      intro es
      induction es with
      | nil =>
        intro a b e _ h
        cases h
      | cons c es ih =>
        intro a b e he h
        rcases bind_eq_error.mp h with h | ⟨e', he', h⟩
        · have := hf.mp h
          rw [hclosed he] at this
          cases this
        · exact ih e c e' he' h
    rw [applyLeft, ofBuild_undefined, List.foldlM_cons, bind_eq_error, hf]
    constructor
    · rintro (h | ⟨e, he, h⟩)
      · exact h
      · exact absurd h (hrest es a b e he)
    · exact .inl

theorem chainable_undefined (k : Comparison) :
    (Shape.chainable (mkCompare k)).apply name es = .error (.misuse .undefined) ↔
      lacksChain (es.map Expr.sort) = true := by
  rw [Shape.apply]
  by_cases hlen : es.length < 2
  · rw [if_pos hlen, lacksChain_of_length (by rwa [List.length_map])]
    simp
  · rw [if_neg hlen, ofBuild_undefined, bind_eq_error, adjacent_undefined]
    constructor
    · rintro (h | ⟨es', -, h⟩)
      · exact h
      · exact absurd h (conjoin_defined es')
    · exact .inl

theorem minus_undefined : Shape.minus.apply name es = .error (.misuse .undefined) ↔
    (lacksOne lacksArith (es.map Expr.sort) || lacksFirst lackArith (es.map Expr.sort)) = true := by
  have hleft : applyLeft name (mkArith .sub) es = .error (.misuse .undefined) ↔
      lacksFirst lackArith (es.map Expr.sort) = true :=
    applyLeft_undefined (mkArith_undefined .sub) (mkArith_closed sub_numeric)
  rcases es with _ | ⟨a, _ | ⟨b, es⟩⟩
  · exact hleft
  · show _ ↔ (lacksArith a.sort || false) = true
    rw [Bool.or_false]
    exact ofBuild_undefined.trans mkNeg_undefined
  · exact hleft

theorem division_undefined : Shape.division.apply name es = .error (.misuse .undefined) ↔
    lacksFirst lackArith (es.map Expr.sort) = true := by
  have hsort : ∀ a : Expr, lacksArith (intToReal a).sort = lacksArith a.sort := by
    intro a
    unfold intToReal
    split
    · rename_i ha
      rw [ha]
      rfl
    · rfl
  have hfirst : lacksFirst lackArith ((es.map intToReal).map Expr.sort) =
      lacksFirst lackArith (es.map Expr.sort) := by
    rcases es with _ | ⟨a, _ | ⟨b, es⟩⟩
    · rfl
    · rfl
    · simp only [List.map_cons, lacksFirst, lackArith, hsort]
  rw [Shape.apply]
  by_cases hlen : es.length < 2
  · rw [if_pos hlen, lacksFirst_of_length (by rwa [List.length_map])]
    simp
  · rw [if_neg hlen, ← hfirst]
    exact applyLeft_undefined (mkArith_undefined .div) (mkArith_closed div_numeric)

/-- All operations that the shape makes use of are there. -/
def Shape.Total : Shape → Prop
  | constant _ => True
  | unary f => ∀ a, Defined (f a)
  | binary f | leftAssoc f | chainable f | rightAssoc f => ∀ a b, Defined (f a b)
  | ternary f => ∀ a b c, Defined (f a b c)
  | list f => ∀ es, Defined (f es)
  | minus | division => False

theorem adjacent_defined (hf : ∀ a b, Defined (f a b)) (es : List Expr) :
    Defined (adjacent f es) := by
  match es with
  | [] => exact .ok
  | [_] => exact .ok
  | a :: b :: rest =>
    exact (hf a b).bind fun _ => (adjacent_defined hf (b :: rest)).bind fun _ => .ok

theorem foldRight_defined (hf : ∀ a b, Defined (f a b)) (a : Expr) (es : List Expr) :
    Defined (foldRight f a es) := by
  induction es generalizing a with
  | nil => exact .ok
  | cons b es ih => exact (ih b).bind fun e => hf a e

theorem Shape.apply_ne_undefined {s : Shape} (h : s.Total) :
    s.apply name es ≠ .error (.misuse .undefined) := by
  have hbuild : ∀ {x : Build Expr}, Defined x → ofBuild x ≠ .error (.misuse .undefined) :=
    fun hx => mt ofBuild_undefined.mp hx
  cases s with
  | constant e => exact nofun
  | unary f =>
    rcases es with _ | ⟨a, _ | ⟨b, es⟩⟩
    · exact nofun
    · exact hbuild (h a)
    · exact nofun
  | binary f =>
    rcases es with _ | ⟨a, _ | ⟨b, _ | ⟨c, es⟩⟩⟩
    · exact nofun
    · exact nofun
    · exact hbuild (h a b)
    · exact nofun
  | ternary f =>
    rcases es with _ | ⟨a, _ | ⟨b, _ | ⟨c, _ | ⟨d, es⟩⟩⟩⟩
    · exact nofun
    · exact nofun
    · exact nofun
    · exact hbuild (h a b c)
    · exact nofun
  | list f => exact hbuild (h es)
  | leftAssoc f =>
    rcases es with _ | ⟨a, es⟩
    · exact nofun
    · exact hbuild (.foldlM h es a)
  | chainable f =>
    rw [apply]
    split
    · exact nofun
    · exact hbuild ((adjacent_defined h es).bind conjoin_defined)
  | rightAssoc f =>
    rcases es with _ | ⟨a, _ | ⟨b, es⟩⟩
    · exact nofun
    · exact nofun
    · exact hbuild (foldRight_defined h a (b :: es))
  | minus | division => cases h

/-! ## Symbols -/

theorem Operator.apply_undefined_iff {op : Operator} :
    op.shape.apply op.name es = .error (.misuse .undefined) ↔
      op.lacks (es.map Expr.sort) = Bool.true := by
  have hdefined : op.shape.Total → op.lacks (es.map Expr.sort) = Bool.false →
      (op.shape.apply op.name es = .error (.misuse .undefined) ↔
        op.lacks (es.map Expr.sort) = Bool.true) := by
    intro htotal hlacks
    rw [hlacks]
    exact iff_of_false (Shape.apply_ne_undefined htotal) nofun
  cases op with
  | sub => exact minus_undefined
  | mul | bvmul => exact applyLeft_undefined mkMul_undefined mkMul_closed
  | intDiv => exact applyLeft_undefined (mkArith_undefined .div) (mkArith_closed div_numeric)
  | realDiv => exact division_undefined
  | mod => exact binary_undefined (mkArith_undefined .mod)
  | bvsub => exact binary_undefined (mkArith_undefined .sub)
  | bvsdiv => exact binary_undefined (mkArith_undefined .div)
  | abs => exact unary_undefined mkAbs_undefined
  | bvneg => exact unary_undefined mkNeg_undefined
  | bvnot => exact unary_undefined mkBvnot_undefined
  | bvand | bvor | bvxor =>
    exact applyLeft_undefined (mkBitwise_undefined _ _) (mkBitwise_closed (fun _ => rfl) rfl)
  | bvshl | bvashr => exact binary_undefined (mkShift_undefined _)
  | lt | le | gt | ge => exact chainable_undefined _
  | bvslt | bvsle | bvsgt | bvsge => exact binary_undefined (mkCompare_undefined _)
  | true | false => exact hdefined trivial rfl
  | not => exact hdefined (fun _ => logical_defined _ _) rfl
  | and => exact hdefined conjoin_defined rfl
  | or => exact hdefined disjoin_defined rfl
  | xor | implies => exact hdefined (fun _ _ => logical_defined _ _) rfl
  | eq => exact hdefined mkEq_defined rfl
  | distinct => exact hdefined mkDistinct_defined rfl
  | ite => exact hdefined mkIte_defined rfl
  | add | bvadd => exact hdefined mkAdd_defined rfl
  | bvudiv | bvurem | bvsrem | bvlshr | bvult | bvule | bvugt | bvuge =>
    exact hdefined (mkBits_defined _) rfl
  | concat => exact hdefined mkConcat_defined rfl

theorem IndexedOperator.apply_undefined_iff {op : IndexedOperator} {indices : List Index} :
    op.apply indices es = .error (.misuse .undefined) ↔
      (Symbol.indexed op indices).lacks (es.map Expr.sort) = true := by
  have hextend : ∀ op n a, ofBuild (mkExtend op n a) ≠ .error (.misuse .undefined) :=
    fun op n a => mt ofBuild_undefined.mp (mkExtend_defined op n a)
  cases op with
  | extract =>
    rcases indices with _ | ⟨high, _ | ⟨low, _ | ⟨i, indices⟩⟩⟩
    · simp [apply, Symbol.lacks]
    · simp [apply, Symbol.lacks]
    · rcases es with _ | ⟨a, _ | ⟨b, es⟩⟩
      · simp [apply, Symbol.lacks]
      · exact ofBuild_undefined.trans mkExtract_undefined
      · simp [apply, Symbol.lacks]
    · simp [apply, Symbol.lacks]
  | zeroExtend | signExtend =>
    rcases indices with _ | ⟨n, _ | ⟨i, indices⟩⟩
    · simp [apply, Symbol.lacks]
    · rcases es with _ | ⟨a, es⟩ <;> simp [apply, Symbol.lacks, hextend]
    · simp [apply, Symbol.lacks]

theorem Symbol.apply_undefined_iff {s : Symbol} :
    s.apply es = .error (.misuse .undefined) ↔ s.lacks (es.map Expr.sort) = true := by
  cases s with
  | plain op => exact Operator.apply_undefined_iff
  | indexed op indices => exact IndexedOperator.apply_undefined_iff

end

end Realizability
