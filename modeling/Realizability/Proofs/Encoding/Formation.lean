import Realizability.Proofs.Meaning.Applied

/-!
# Formation by sorts

Whether an expression can be formed from operands, and the sort that it then has, depends on the
sorts of the operands only: operands of the same sorts can replace each other
(`Symbol.apply_follows`).
-/

namespace Realizability

/-- Where one computation succeeds, the other does as well, with a related result. -/
def Follows {ε ε' α β : Type} (R : α → β → Prop) (x : Except ε α) (y : Except ε' β) : Prop :=
  ∀ a, x = .ok a → ∃ b, y = .ok b ∧ R a b

namespace Follows

variable {ε ε' ε'' α α' α'' β β' : Type} {R : α → α' → Prop} {S : β → β' → Prop}

theorem ok {a : α} {b : α'} (h : R a b) :
    Follows R (.ok a : Except ε α) (.ok b : Except ε' α') := by
  intro c hc
  cases hc
  exact ⟨b, rfl, h⟩

theorem error {e : ε} {y : Except ε' α'} : Follows R (.error e : Except ε α) y :=
  fun _ h => by cases h

theorem bind {x : Except ε α} {y : Except ε' α'} {f : α → Except ε β} {g : α' → Except ε' β'}
    (h : Follows R x y) (hf : ∀ a b, R a b → Follows S (f a) (g b)) :
    Follows S (x >>= f) (y >>= g) := by
  intro c hc
  obtain ⟨a, ha, hc⟩ := bind_eq_ok.mp hc
  obtain ⟨b, hb, hr⟩ := h a ha
  obtain ⟨d, hd, hs⟩ := hf a b hr c hc
  exact ⟨d, bind_eq_ok.mpr ⟨b, hb, hd⟩, hs⟩

theorem mapError {x : Except ε α} {y : Except ε' α'} {ε₁ ε₂ : Type} {f : ε → ε₁} {g : ε' → ε₂}
    (h : Follows R x y) : Follows R (x.mapError f) (y.mapError g) := by
  intro a ha
  obtain ⟨b, hb, hr⟩ := h a (mapError_eq_ok.mp ha)
  exact ⟨b, mapError_eq_ok.mpr hb, hr⟩

theorem mono {R' : α → α' → Prop} {x : Except ε α} {y : Except ε' α'} (h : Follows R x y)
    (hr : ∀ a b, R a b → R' a b) : Follows R' x y := by
  intro a ha
  obtain ⟨b, hb, h⟩ := h a ha
  exact ⟨b, hb, hr a b h⟩

theorem mapM {f : α → Except ε β} {g : α' → Except ε' β'} {as : List α} {bs : List α'}
    (h : List.Forall₂ (fun a b => Follows S (f a) (g b)) as bs) :
    Follows (List.Forall₂ S) (as.mapM f) (bs.mapM g) := by
  induction h with
  | nil => exact ok .nil
  | cons h _ ih =>
    rw [List.mapM_cons, List.mapM_cons]
    exact h.bind fun _ _ hs => ih.bind fun _ _ hss => ok (.cons hs hss)

theorem foldlM {f : β → α → Except ε β} {g : β' → α' → Except ε' β'}
    (hf : ∀ s t a b, S s t → R a b → Follows S (f s a) (g t b)) {as : List α} {bs : List α'}
    (h : List.Forall₂ R as bs) {s : β} {t : β'} (hs : S s t) :
    Follows S (as.foldlM f s) (bs.foldlM g t) := by
  induction h generalizing s t with
  | nil => exact ok hs
  | cons h _ ih =>
    rw [List.foldlM_cons, List.foldlM_cons]
    exact (hf s t _ _ hs h).bind fun _ _ hs => ih hs

theorem refl {x : Except ε α} : Follows Eq x x := fun a h => ⟨a, h, rfl⟩

end Follows

namespace Expr

def Alike (a b : Expr) : Prop := a.sort = b.sort

abbrev AlikeEach : List Expr → List Expr → Prop := List.Forall₂ Alike

variable {a a' b b' c c' : Expr} {es es' : List Expr}

theorem AlikeEach.sorts (h : AlikeEach es es') : es.map Expr.sort = es'.map Expr.sort := by
  induction h with
  | nil => rfl
  | cons h _ ih => rw [List.map_cons, List.map_cons, h, ih]

/-! ## Coercions -/

theorem coerce_follows {s : SmtSort} (h : a.Alike a') :
    Follows Alike (a.coerce s) (a'.coerce s) := by
  intro e he
  have hs := sort_of_coerce he
  unfold coerce at he ⊢
  rw [show a.sort = a'.sort from h] at he
  split at he
  · rename_i hc
    exact ⟨a', if_pos hc, hs.trans hc.symm⟩
  · rename_i hc
    rw [if_neg hc]
    split at he
    · exact ⟨_, rfl, hs⟩
    · exact ⟨_, rfl, hs⟩
    · exact ⟨_, rfl, hs⟩
    · cases he

def AlikePair (p q : Expr × Expr) : Prop := p.1.Alike q.1 ∧ p.2.Alike q.2

theorem merge_follows (ha : a.Alike a') (hb : b.Alike b') :
    Follows AlikePair (merge a b) (merge a' b') := by
  unfold merge
  rw [show a.sort = a'.sort from ha, show b.sort = b'.sort from hb]
  split
  · exact .error
  · exact (coerce_follows ha).bind fun _ _ h => (coerce_follows hb).bind fun _ _ h' => .ok ⟨h, h'⟩

theorem merge_swap : Follows (fun p q => p.1 = q.2 ∧ p.2 = q.1) (merge a b) (merge b a) := by
  intro p hp
  unfold merge at hp ⊢
  rw [join?_comm] at hp
  split at hp
  · cases hp
  · obtain ⟨x, hx, hp⟩ := bind_eq_ok.mp hp
    obtain ⟨y, hy, hp⟩ := bind_eq_ok.mp hp
    cases hp
    exact ⟨(y, x), bind_eq_ok.mpr ⟨y, hy, bind_eq_ok.mpr ⟨x, hx, rfl⟩⟩, rfl, rfl⟩

theorem merge_follows_swap (ha : a.Alike a') (hb : b.Alike b') :
    Follows (fun p q => p.1.Alike q.2 ∧ p.2.Alike q.1) (merge a b) (merge b' a') := by
  intro p hp
  obtain ⟨q, hq, h₁, h₂⟩ := merge_swap p hp
  obtain ⟨r, hr, h₃, h₄⟩ := merge_follows hb ha q hq
  exact ⟨r, hr, h₁ ▸ h₄, h₂ ▸ h₃⟩

theorem mergeAll_follows (h : AlikeEach es es') :
    Follows AlikeEach (mergeAll es) (mergeAll es') := by
  cases h with
  | nil => exact .error
  | @cons a b as bs h hs =>
    refine Follows.bind (R := Eq) (Follows.foldlM ?_ hs h) ?_
    · rintro s _ x y rfl hxy
      rw [show x.sort = y.sort from hxy]
      exact .refl
    · rintro s _ rfl
      exact Follows.mapM (List.Forall₂.imp (fun _ _ => coerce_follows) (.cons h hs))

/-! ## Connectives -/

theorem isBool_alike (h : a.Alike a') : a.isBool = a'.isBool := by
  rw [isBool, isBool, show a.sort = a'.sort from h]

theorem app_alike {op : Op} (h : AlikeEach es es') : (app op es).Alike (app op es') := by
  unfold Alike
  rw [sort, sort, sortsOf_eq_map, sortsOf_eq_map, h.sorts]

theorem logical_follows {op : Op} (h : AlikeEach es es') :
    Follows Alike (logical op es) (logical op es') := by
  have hall : es.all isBool = es'.all isBool := by
    induction h with
    | nil => rfl
    | cons h _ ih => rw [List.all_cons, List.all_cons, isBool_alike h, ih]
  unfold logical
  rw [hall]
  split
  · exact .ok (app_alike h)
  · exact .error

theorem conjoin_follows (h : AlikeEach es es') : Follows Alike (conjoin es) (conjoin es') := by
  rcases h with _ | ⟨h, _ | ⟨h', hs⟩⟩
  · exact .ok rfl
  · exact .ok h
  · exact logical_follows (.cons h (.cons h' hs))

theorem disjoin_follows (h : AlikeEach es es') : Follows Alike (disjoin es) (disjoin es') := by
  rcases h with _ | ⟨h, _ | ⟨h', hs⟩⟩
  · exact .ok rfl
  · exact .ok h
  · exact logical_follows (.cons h (.cons h' hs))

def Sorted (f : Expr → Expr → Build Expr) : Prop :=
  ∀ ⦃a a' b b' : Expr⦄, a.Alike a' → b.Alike b' → Follows Alike (f a b) (f a' b')

theorem two (ha : a.Alike a') (hb : b.Alike b') : AlikeEach [a, b] [a', b'] :=
  .cons ha (.cons hb .nil)

theorem mkXor_sorted : Sorted mkXor := fun _ _ _ _ ha hb => logical_follows (two ha hb)

theorem mkImplies_sorted : Sorted mkImplies := fun _ _ _ _ ha hb => logical_follows (two ha hb)

theorem mkNot_follows (h : a.Alike a') : Follows Alike (mkNot a) (mkNot a') :=
  logical_follows (.cons h .nil)

theorem mkIte_follows (hc : c.Alike c') (ha : a.Alike a') (hb : b.Alike b') :
    Follows Alike (mkIte c a b) (mkIte c' a' b') := by
  unfold mkIte
  rw [isBool_alike hc]
  split
  · refine (merge_follows ha hb).bind fun p q h => .ok ?_
    exact app_alike (.cons hc (two h.1 h.2))
  · exact .error

theorem mkDistinct_follows (h : AlikeEach es es') :
    Follows Alike (mkDistinct es) (mkDistinct es') :=
  (mergeAll_follows h).bind fun _ _ _ => .ok rfl

/-! ## Equality and order -/

theorem mkEq_sorted : Sorted mkEq := by
  intro a a' b b' ha hb
  unfold mkEq
  -- on whichever side a numeral is written, the operands merge
  have hok : ∀ {x y : Build (Expr × Expr)} {R : Expr × Expr → Expr × Expr → Prop},
      Follows R x y → Follows Alike (x >>= fun p => .ok (app .eq [p.1, p.2]))
        (y >>= fun p => .ok (app .eq [p.1, p.2])) := fun h => h.bind fun _ _ _ => .ok rfl
  by_cases h : reflects a b = true <;> by_cases h' : reflects a' b' = true
  · rw [if_pos h, if_pos h']
    exact hok (merge_follows hb ha)
  · rw [if_pos h, if_neg h']
    exact hok (merge_follows_swap hb ha)
  · rw [if_neg h, if_pos h']
    exact hok (merge_follows_swap ha hb)
  · rw [if_neg h, if_neg h']
    exact hok (merge_follows ha hb)

theorem sort_of_merge {p : Expr × Expr} (h : merge a b = .ok p) : p.1.sort = p.2.sort := by
  unfold merge at h
  split at h
  · cases h
  · obtain ⟨x, hx, h⟩ := bind_eq_ok.mp h
    obtain ⟨y, hy, h⟩ := bind_eq_ok.mp h
    cases h
    rw [sort_of_coerce hx, sort_of_coerce hy]

theorem compareMerged_sort {k : Comparison} {e : Expr} (h : compareMerged k a b = .ok e) :
    e.sort = .bool := by
  obtain ⟨p, -, h⟩ := bind_eq_ok.mp h
  dsimp only at h
  split at h
  · cases h; cases k <;> rfl
  · cases h; cases k <;> rfl
  · cases h; cases k <;> rfl
  · cases h; cases k <;> rfl
  · cases h

theorem compareMerged_follows {k k' : Comparison}
    (h : Follows (fun p q => p.1.sort = q.1.sort) (merge a b) (merge a' b')) :
    Follows Alike (compareMerged k a b) (compareMerged k' a' b') := by
  have hany : Follows (fun _ _ => True) (compareMerged k a b) (compareMerged k' a' b') := by
    refine h.bind ?_
    rintro ⟨x, y⟩ ⟨x', y'⟩ hs
    dsimp only at hs ⊢
    rw [hs]
    split
    · exact .ok trivial
    · exact .ok trivial
    · exact .ok trivial
    · exact .ok trivial
    · exact .error
  intro e he
  obtain ⟨e', he', -⟩ := hany e he
  exact ⟨e', he', (compareMerged_sort he).trans (compareMerged_sort he').symm⟩

theorem mkCompare_sorted (k : Comparison) : Sorted (mkCompare k) := by
  intro a a' b b' ha hb
  have hsame : ∀ {x x' y y' : Expr}, x.Alike x' → y.Alike y' →
      Follows (fun p q => p.1.sort = q.1.sort) (merge x y) (merge x' y') :=
    fun hx hy => (merge_follows hx hy).mono fun _ _ h => h.1
  have hswap : ∀ {x x' y y' : Expr}, x.Alike x' → y.Alike y' →
      Follows (fun p q => p.1.sort = q.1.sort) (merge x y) (merge y' x') := by
    intro x x' y y' hx hy p hp
    obtain ⟨q, hq, -, h⟩ := merge_follows_swap hx hy p hp
    exact ⟨q, hq, (sort_of_merge hp).trans h⟩
  unfold mkCompare
  split <;> split
  · exact compareMerged_follows (hsame hb ha)
  · exact compareMerged_follows (hswap hb ha)
  · exact compareMerged_follows (hswap ha hb)
  · exact compareMerged_follows (hsame ha hb)

/-! ## Arithmetic -/

theorem family_sorted (f : Family) : Sorted f.apply := by
  intro a a' b b' ha hb
  refine (merge_follows ha hb).bind ?_
  rintro ⟨x, y⟩ ⟨x', y'⟩ h
  dsimp only
  rw [show x.sort = x'.sort from h.1]
  split
  · exact .ok (app_alike (two h.1 h.2))
  · exact .ok (app_alike (two h.1 h.2))
  · exact .ok (app_alike (two h.1 h.2))
  · exact .error

theorem mkAdd_sorted : Sorted mkAdd := by
  intro a a' b b' ha hb
  unfold mkAdd
  rw [show a.sort = a'.sort from ha, show b.sort = b'.sort from hb]
  split
  · exact .ok rfl
  · exact family_sorted _ rfl hb
  · exact family_sorted _ ha hb

theorem mkMul_sorted : Sorted mkMul := by
  intro a a' b b' ha hb
  unfold mkMul
  rw [show a.sort = a'.sort from ha, show b.sort = b'.sort from hb]
  split
  · exact .ok rfl
  · exact .ok hb
  · exact .ok hb
  · exact .ok hb
  · exact .ok ha
  · exact .ok ha
  · exact .error
  · exact family_sorted _ ha hb

theorem mkArith_sorted (f : Family) : Sorted (mkArith f) := by
  intro a a' b b' ha hb
  unfold mkArith
  rw [show a.sort = a'.sort from ha, show b.sort = b'.sort from hb]
  split
  · exact .error
  · exact family_sorted f ha hb

theorem mkNeg_follows (h : a.Alike a') : Follows Alike (mkNeg a) (mkNeg a') := by
  unfold mkNeg
  rw [show a.sort = a'.sort from h]
  split
  · exact .ok h
  · exact .ok h
  · exact .ok h
  · exact .error

theorem mkAbs_follows (h : a.Alike a') : Follows Alike (mkAbs a) (mkAbs a') :=
  (mkNeg_follows h).bind fun _ _ _ => .ok h

theorem intToReal_alike (h : a.Alike a') : (intToReal a).Alike (intToReal a') := by
  unfold intToReal
  rw [show a.sort = a'.sort from h]
  split
  · rfl
  · exact h

/-! ## Bit-vectors -/

theorem mkBvnot_follows (h : a.Alike a') : Follows Alike (mkBvnot a) (mkBvnot a') := by
  unfold mkBvnot
  rw [show a.sort = a'.sort from h]
  split
  · exact .ok h
  · exact .ok rfl
  · exact .error

theorem mkBitwise_sorted (op connective : Op) : Sorted (mkBitwise op connective) := by
  intro a a' b b' ha hb
  unfold mkBitwise
  rw [isBool_alike ha, isBool_alike hb, show a.sort = a'.sort from ha,
    show b.sort = b'.sort from hb]
  split
  · exact .ok (app_alike (two ha hb))
  · split
    · exact .ok (app_alike (two ha hb))
    · split <;> exact .error

theorem mkShift_sorted (op : Op) : Sorted (mkShift op) := by
  intro a a' b b' ha hb
  unfold mkShift
  rw [show a.sort = a'.sort from ha, show b.sort = b'.sort from hb]
  split
  · exact .ok (app_alike (two ha hb))
  · split <;> exact .error

theorem mkBits_sorted (op : Op) : Sorted (mkBits op) := by
  intro a a' b b' ha hb
  unfold mkBits
  rw [show a.sort = a'.sort from ha, show b.sort = b'.sort from hb]
  split
  · exact .ok (app_alike (two ha hb))
  · exact .error

theorem foldl_concat_alike (h : AlikeEach es es') (ha : a.Alike a') :
    (es.foldl (fun x y => app .concat [x, y]) a).Alike
      (es'.foldl (fun x y => app .concat [x, y]) a') := by
  induction h generalizing a a' with
  | nil => exact ha
  | cons h _ ih => exact ih (app_alike (two ha h))

theorem mkConcat_follows (h : AlikeEach es es') : Follows Alike (mkConcat es) (mkConcat es') := by
  have hall : ∀ p : SmtSort → Bool, es.all (fun e => p e.sort) = es'.all fun e => p e.sort := by
    intro p
    induction h with
    | nil => rfl
    | cons h _ ih => rw [List.all_cons, List.all_cons, ih, show _ = _ from h]
  rcases h with _ | ⟨h, _ | ⟨h', hs⟩⟩
  · exact .error
  · exact .error
  · unfold mkConcat
    dsimp only
    rw [hall SmtSort.isBitVec, hall (· == .string)]
    split
    · exact .ok (foldl_concat_alike (.cons h' hs) h)
    · split
      · exact .ok rfl
      · exact .error

theorem mkExtract_follows {high low : Index} (h : a.Alike a') :
    Follows Alike (mkExtract high low a) (mkExtract high low a') := by
  unfold mkExtract
  rw [show a.sort = a'.sort from h]
  split
  · split
    · exact .ok rfl
    · exact .error
  · exact .error
  · exact .error

theorem mkExtend_follows {op : Nat → Op} {n : Index} (h : a.Alike a') :
    Follows Alike (mkExtend op n a) (mkExtend op n a') := by
  unfold mkExtend
  rw [show a.sort = a'.sort from h]
  split
  · exact .ok (app_alike (.cons h .nil))
  · exact .error

/-! ## Truth values -/

theorem conjoin_isBool (h : ∀ a ∈ es, a.isBool = true) :
    ∃ e, conjoin es = .ok e ∧ e.isBool = true := by
  rcases es with _ | ⟨a, _ | ⟨b, es⟩⟩
  · exact ⟨_, rfl, rfl⟩
  · exact ⟨a, rfl, h a (List.mem_singleton_self a)⟩
  · exact ⟨.app .and (a :: b :: es), if_pos (List.all_eq_true.mpr h), rfl⟩

theorem isBool_of_conjoin {e : Expr} (h : conjoin es = .ok e) (he : e.isBool = true) :
    ∀ a ∈ es, a.isBool = true := by
  rcases es with _ | ⟨a, _ | ⟨b, es⟩⟩
  · exact fun _ ha => absurd ha List.not_mem_nil
  · cases h
    exact fun b hb => List.mem_singleton.mp hb ▸ he
  · exact (logical_eq_ok h).1

theorem mkNot_isBool (ha : a.isBool = true) : ∃ e, mkNot a = .ok e ∧ e.isBool = true :=
  ⟨_, if_pos (List.all_eq_true.mpr (List.forall_mem_singleton.mpr ha)), rfl⟩

theorem mkImplies_isBool (ha : a.isBool = true) (hb : b.isBool = true) :
    ∃ e, mkImplies a b = .ok e ∧ e.isBool = true := by
  have hall : ∀ x ∈ [a, b], x.isBool = true :=
    List.forall_mem_cons.mpr ⟨ha, List.forall_mem_singleton.mpr hb⟩
  exact ⟨_, if_pos (List.all_eq_true.mpr hall), rfl⟩

theorem mkEq_isBool {e : Expr} (h : mkEq a b = .ok e) : e.isBool = true := by
  unfold mkEq at h
  split at h
  · obtain ⟨p, -, h⟩ := bind_eq_ok.mp h
    cases h
    rfl
  · obtain ⟨p, -, h⟩ := bind_eq_ok.mp h
    cases h
    rfl

theorem close_isBool (cs : List Const) {body : Expr} (h : body.isBool = true) :
    ∃ e, close cs body = .ok e := by
  unfold close
  split
  · exact ⟨body, rfl⟩
  · exact ⟨_, rfl⟩

end Expr

/-! ## Shapes -/

open Realizability.Expr

def Shape.Sorted (s : Shape) : Prop :=
  ∀ ⦃name : String⦄ ⦃es es' : List Expr⦄, AlikeEach es es' →
    Follows Alike (s.apply name es) (s.apply name es')

namespace Shape

theorem unary_sorted {f : Expr → Build Expr}
    (hf : ∀ {a a' : Expr}, a.Alike a' → Follows Alike (f a) (f a')) : (unary f).Sorted := by
  intro name es es' h
  rcases h with _ | ⟨h, _ | ⟨_, _⟩⟩
  · exact .error
  · exact (hf h).mapError
  · exact .error

theorem ternary_sorted {f : Expr → Expr → Expr → Build Expr}
    (hf : ∀ {a a' b b' c c' : Expr}, a.Alike a' → b.Alike b' → c.Alike c' →
      Follows Alike (f a b c) (f a' b' c')) : (ternary f).Sorted := by
  intro name es es' h
  rcases h with _ | ⟨ha, _ | ⟨hb, _ | ⟨hc, _ | ⟨_, _⟩⟩⟩⟩
  · exact .error
  · exact .error
  · exact .error
  · exact (hf ha hb hc).mapError
  · exact .error

theorem list_sorted {f : List Expr → Build Expr}
    (hf : ∀ {es es' : List Expr}, AlikeEach es es' → Follows Alike (f es) (f es')) :
    (list f).Sorted := by
  intro name es es' h
  exact (hf h).mapError

section
variable {f : Expr → Expr → Build Expr} (hf : Expr.Sorted f)
include hf

theorem binary_sorted : (binary f).Sorted := by
  intro name es es' h
  rcases h with _ | ⟨ha, _ | ⟨hb, _ | ⟨_, _⟩⟩⟩
  · exact .error
  · exact .error
  · exact (hf ha hb).mapError
  · exact .error

theorem applyLeft_follows {name : String} {es es' : List Expr} (h : AlikeEach es es') :
    Follows Alike (applyLeft name f es) (applyLeft name f es') := by
  cases h with
  | nil => exact .error
  | cons h hs => exact (Follows.foldlM (R := Alike) (fun _ _ _ _ ha hb => hf ha hb) hs h).mapError

theorem leftAssoc_sorted : (leftAssoc f).Sorted := fun _ _ _ h => applyLeft_follows hf h

theorem foldRight_follows {es es' : List Expr} (h : AlikeEach es es') {a a' : Expr}
    (ha : a.Alike a') : Follows Alike (foldRight f a es) (foldRight f a' es') := by
  induction h generalizing a a' with
  | nil => exact .ok ha
  | cons h _ ih => exact (ih h).bind fun _ _ hs => hf ha hs

theorem rightAssoc_sorted : (rightAssoc f).Sorted := by
  intro name es es' h
  rcases h with _ | ⟨h, _ | ⟨h', hs⟩⟩
  · exact .error
  · exact .error
  · exact (foldRight_follows hf (.cons h' hs) h).mapError

theorem adjacent_follows {es es' : List Expr} (h : AlikeEach es es') :
    Follows AlikeEach (adjacent f es) (adjacent f es') := by
  induction h with
  | nil => exact .ok .nil
  | cons h hs ih =>
    cases hs with
    | nil => exact .ok .nil
    | cons h' hs => exact (hf h h').bind fun _ _ ha => ih.bind fun _ _ has => .ok (.cons ha has)

theorem chainable_sorted : (chainable f).Sorted := by
  intro name es es' h
  change Follows _ (if es.length < 2 then _ else _) (if es'.length < 2 then _ else _)
  rw [h.length_eq]
  split
  · exact .error
  · exact ((adjacent_follows hf h).bind fun _ _ ha => conjoin_follows ha).mapError

end

theorem minus_sorted : minus.Sorted := by
  intro name es es' h
  rcases h with _ | ⟨h, _ | ⟨h', hs⟩⟩
  · exact .error
  · exact (mkNeg_follows h).mapError
  · change Follows _ (applyLeft name (mkArith .sub) (_ :: _ :: _))
      (applyLeft name (mkArith .sub) (_ :: _ :: _))
    exact applyLeft_follows (mkArith_sorted .sub) (.cons h (.cons h' hs))

theorem division_sorted : division.Sorted := by
  intro name es es' h
  have hreal : AlikeEach (es.map intToReal) (es'.map intToReal) :=
    List.forall₂_map_left_iff.mpr (List.forall₂_map_right_iff.mpr
      (h.imp fun _ _ => intToReal_alike))
  change Follows _ (if es.length < 2 then _ else _) (if es'.length < 2 then _ else _)
  rw [h.length_eq]
  split
  · exact .error
  · exact applyLeft_follows (mkArith_sorted .div) hreal

end Shape

/-! ## Symbols -/

open Shape in
theorem Operator.shape_sorted (op : Operator) : op.shape.Sorted := by
  cases op with
  | true => exact fun _ _ _ _ => .ok rfl
  | false => exact fun _ _ _ _ => .ok rfl
  | not => exact unary_sorted mkNot_follows
  | and => exact list_sorted conjoin_follows
  | or => exact list_sorted disjoin_follows
  | xor => exact leftAssoc_sorted mkXor_sorted
  | implies => exact rightAssoc_sorted mkImplies_sorted
  | eq => exact chainable_sorted mkEq_sorted
  | distinct => exact list_sorted mkDistinct_follows
  | ite => exact ternary_sorted mkIte_follows
  | sub => exact minus_sorted
  | realDiv => exact division_sorted
  | mod => exact binary_sorted (mkArith_sorted .mod)
  | abs => exact unary_sorted mkAbs_follows
  | bvnot => exact unary_sorted mkBvnot_follows
  | bvneg => exact unary_sorted mkNeg_follows
  | concat => exact list_sorted mkConcat_follows
  | add | bvadd => exact leftAssoc_sorted mkAdd_sorted
  | mul | bvmul => exact leftAssoc_sorted mkMul_sorted
  | intDiv => exact leftAssoc_sorted (mkArith_sorted .div)
  | lt | le | gt | ge => exact chainable_sorted (mkCompare_sorted _)
  | bvand | bvor | bvxor => exact leftAssoc_sorted (mkBitwise_sorted _ _)
  | bvsub | bvsdiv => exact binary_sorted (mkArith_sorted _)
  | bvshl | bvashr => exact binary_sorted (mkShift_sorted _)
  | bvslt | bvsle | bvsgt | bvsge => exact binary_sorted (mkCompare_sorted _)
  | bvudiv | bvurem | bvsrem | bvlshr | bvult | bvule | bvugt | bvuge =>
    exact binary_sorted (mkBits_sorted _)

theorem IndexedOperator.apply_follows {op : IndexedOperator} {indices : List Index}
    {es es' : List Expr} (h : AlikeEach es es') :
    Follows Alike (op.apply indices es) (op.apply indices es') := by
  intro e he
  unfold apply at he
  split at he
  · rcases h with _ | ⟨h, _ | ⟨_, _⟩⟩
    exact (mkExtract_follows h).mapError e he
  · cases he
  · rcases h with _ | ⟨h, _⟩
    exact (mkExtend_follows h).mapError e he
  · rcases h with _ | ⟨h, _⟩
    exact (mkExtend_follows h).mapError e he
  · cases he
  · cases he
  · cases he

/-- Operands of the same sorts can replace each other under every symbol. -/
theorem Symbol.apply_follows {s : Symbol} {es es' : List Expr} (h : AlikeEach es es') :
    Follows Alike (s.apply es) (s.apply es') := by
  cases s with
  | plain op => exact op.shape_sorted h
  | indexed op indices => exact IndexedOperator.apply_follows h

end Realizability
