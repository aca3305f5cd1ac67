import Realizability.Proofs.Relevance.Called
import Realizability.Proofs.Renaming.Bound

/-!
# Premises under changed names

Two terms that differ in bound names are evaluated side by side. Their values agree under any two
renamings of constants under which the vectors in scope do (`evaluate_alpha`), and whether there
are values depends on the sorts of these vectors only. So premises are formed for both terms or for
none, from as many witnesses of the same sorts (`vectorize_alpha`).
-/

namespace Realizability

open Realizability.Expr

/-! ## Computations side by side -/

/-- Both computations fail, or both succeed with related results. -/
inductive Together {ε ε' α β : Type} (R : α → β → Prop) : Except ε α → Except ε' β → Prop
  | ok {a : α} {b : β} : R a b → Together R (.ok a) (.ok b)
  | error {e : ε} {e' : ε'} : Together R (.error e) (.error e')

namespace Together

variable {ε ε' ε₁ ε₁' α α' β β' γ ι κ : Type} {R : α → β → Prop} {S : α' → β' → Prop}
  {x : Except ε α} {y : Except ε' β}

theorem mono {R' : α → β → Prop} (h : Together R x y) (hr : ∀ a b, R a b → R' a b) :
    Together R' x y := by
  cases h with
  | ok h => exact .ok (hr _ _ h)
  | error => exact .error

theorem eqs (h : Together R x y) : Together (fun a b => x = .ok a ∧ y = .ok b ∧ R a b) x y := by
  cases h with
  | ok h => exact .ok ⟨rfl, rfl, h⟩
  | error => exact .error

theorem bind {f : α → Except ε α'} {g : β → Except ε' β'} (h : Together R x y)
    (hf : ∀ a b, R a b → Together S (f a) (g b)) : Together S (x >>= f) (y >>= g) := by
  cases h with
  | ok h => exact hf _ _ h
  | error => exact .error

theorem mapError {f : ε → ε₁} {g : ε' → ε₁'} (h : Together R x y) :
    Together R (x.mapError f) (y.mapError g) := by
  cases h with
  | ok h => exact .ok h
  | error => exact .error

theorem of_eq {R : α → α → Prop} {x : Except ε α} (h : ∀ a, R a a) : Together R x x := by
  cases x with
  | error => exact .error
  | ok a => exact .ok (h a)

theorem of_map_eq {f : α → γ} {g : β → γ} {y : Except ε β} (h : x.map f = y.map g) :
    Together (fun a b => f a = g b) x y := by
  cases x <;> cases y <;> simp only [Except.map, reduceCtorEq, Except.ok.injEq] at h
  · exact .error
  · exact .ok h

theorem mapM {as : List ι} {f : ι → Except ε α} {g : ι → Except ε' β} {u : α → γ} {v : β → γ}
    (h : ∀ i, Together (fun a b => u a = v b) (f i) (g i)) :
    Together (fun a b => a.map u = b.map v) (as.mapM f) (as.mapM g) := by
  induction as with
  | nil => exact .ok rfl
  | cons i as ih =>
    rw [List.mapM_cons, List.mapM_cons]
    refine (h i).bind fun a b hab => ih.bind fun as bs habs => .ok ?_
    rw [List.map_cons, List.map_cons, hab, habs]

theorem forall₂ {P : ι → κ → Prop} {R : ι → κ → α → β → Prop} {i : ι} {k : κ} (hp : P i k)
    (h : ∀ i k, P i k → Together (R i k) x y) :
    Together (fun a b => ∀ i k, P i k → R i k a b) x y := by
  have hik := h i k hp
  cases hik with
  | ok _ =>
    refine .ok fun i k hp => ?_
    cases h i k hp with
    | ok h => exact h
  | error => exact .error

end Together

/-! ## Expressions and scopes under two renamings -/

variable {σ τ : Renaming}

abbrev Expr.Agree (σ τ : Renaming) (a b : Expr) : Prop := a.rename σ = b.rename τ

abbrev Expr.AgreeEach (σ τ : Renaming) (as bs : List Expr) : Prop :=
  as.map (rename σ) = bs.map (rename τ)

namespace Expr.AgreeEach

variable {a b : Expr} {as as' bs bs' : List Expr} {cs ds : List Const}

theorem cons (ha : Agree σ τ a b) (h : AgreeEach σ τ as bs) :
    AgreeEach σ τ (a :: as) (b :: bs) := by
  rw [AgreeEach, List.map_cons, List.map_cons, ha, h]

theorem append (h : AgreeEach σ τ as bs) (h' : AgreeEach σ τ as' bs') :
    AgreeEach σ τ (as ++ as') (bs ++ bs') := by
  rw [AgreeEach, List.map_append, List.map_append, h, h']

theorem consts (h : cs.map σ.const = ds.map τ.const) :
    AgreeEach σ τ (cs.map .const) (ds.map .const) := by
  have := congrArg (List.map Expr.const) h
  rw [AgreeEach]
  simpa [Function.comp_def] using this

end Expr.AgreeEach

variable {bs : Binders} {scopes scopes' : Scopes}

def Scopes.Agree (σ τ : Renaming) (bs : Binders) (scopes scopes' : Scopes) : Prop :=
  ∀ x y, SameBinder bs x y →
    (scopes.find? x).map (List.map (rename σ)) = (scopes'.find? y).map (List.map (rename τ))

theorem Scopes.agree_nil : Scopes.Agree σ τ bs [] [] := fun _ _ _ => rfl

/-- Copies of variables on either side, with entries for the names of these. -/
structure Copies (xs ys : List TypedVar) (r r' : List Const × List (String × List Expr)) :
    Prop where
  sorts : r.1.map Const.sort = r'.1.map Const.sort
  names : r.2.map Prod.fst = xs.map TypedVar.name
  names' : r'.2.map Prod.fst = ys.map TypedVar.name
  vectors : ∀ σ τ : Renaming, r.1.map σ.const = r'.1.map τ.const →
    List.Forall₂ (fun e e' => AgreeEach σ τ e.2 e'.2) r.2 r'.2

namespace Scopes

theorem agree_foldl {entries entries' : List (String × List Expr)}
    (he : List.Forall₂ (fun e e' => AgreeEach σ τ e.2 e'.2) entries entries')
    {t t' : Table (List Expr)} (h : Scopes.Agree σ τ bs (t :: scopes) (t' :: scopes')) :
    Scopes.Agree σ τ (((entries.map Prod.fst).zip (entries'.map Prod.fst)).reverse ++ bs)
      (entries.foldl (fun t e => t.put e.1 e.2) t :: scopes)
      (entries'.foldl (fun t e => t.put e.1 e.2) t' :: scopes') := by
  induction he generalizing t t' bs with
  | nil => exact h
  | @cons e e' entries entries' hv _ ih =>
    rw [List.map_cons, List.map_cons, List.zip_cons_cons, List.reverse_cons, List.append_assoc]
    refine ih ?_
    intro x y hxy
    rw [find?_put, find?_put]
    rcases hxy with ⟨rfl, rfl⟩ | ⟨hx, hy, hxy⟩
    · rw [if_pos rfl, if_pos rfl]
      exact congrArg some hv
    · rw [if_neg (Ne.symm hx), if_neg (Ne.symm hy)]
      exact h x y hxy

theorem Agree.bind (h : Scopes.Agree σ τ bs scopes scopes') {xs ys : List TypedVar}
    {r r' : List Const × List (String × List Expr)} (hr : Copies xs ys r r')
    (hc : r.1.map σ.const = r'.1.map τ.const) :
    Scopes.Agree σ τ (bs.bind xs ys) (Table.ofEntries r.2 :: scopes)
      (Table.ofEntries r'.2 :: scopes') := by
  rw [Binders.bind, ← hr.names, ← hr.names']
  refine agree_foldl (hr.vectors σ τ hc) fun x y hxy => ?_
  rw [find?_cons, find?_cons]
  exact h x y hxy

end Scopes

/-! ## Evaluation -/

namespace Signature

variable {g : Signature}

theorem lookup_alpha (h : Scopes.Agree σ τ bs scopes scopes') {x y : String}
    (hxy : SameBinder bs x y) (i : Nat) :
    Together (Agree σ τ) (lookup scopes x i) (lookup scopes' y i) := by
  have hv := h x y hxy
  unfold lookup
  cases hx : scopes.find? x with
  | none =>
    cases hy : scopes'.find? y with
    | none => exact .error
    | some es' => simp [hx, hy] at hv
  | some es =>
    cases hy : scopes'.find? y with
    | none => simp [hx, hy] at hv
    | some es' =>
      rw [hx, hy] at hv
      have hi := congrArg (·[i]?) (Option.some.inj hv)
      simp only [List.getElem?_map] at hi
      dsimp only
      cases hi₁ : es[i]? <;> cases hi₂ : es'[i]? <;> simp [hi₁, hi₂] at hi
      · exact .error
      · exact .ok hi

theorem expectLiteral_alpha (hint : Option SmtSort) (t : Term) :
    Together (Agree σ τ) (expectLiteral hint t) (expectLiteral hint t) :=
  .of_map_eq ((expectLiteral_rename hint t).trans (expectLiteral_rename hint t).symm)

section
variable {es es' : List Expr} (h : AgreeEach σ τ es es')
include h

theorem applySymbol_alpha (ident : Identifier) (s : Symbol) :
    Together (Agree σ τ) (applySymbol ident s es)
      (applySymbol ident s es') := by
  refine .of_map_eq ?_
  rw [← applySymbol_rename, ← applySymbol_rename, h]

theorem applyIndicator_alpha (name : String) :
    Together (Agree σ τ) (g.applyIndicator name es)
      (g.applyIndicator name es') := by
  refine .of_map_eq ?_
  rw [← applyIndicator_rename (g := g) rfl, ← applyIndicator_rename (g := g) rfl, h]

theorem conjoin_alpha :
    Together (Agree σ τ) (formed (conjoin es)) (formed (conjoin es')) := by
  refine Together.mapError (.of_map_eq ?_)
  rw [← conjoin_rename, ← conjoin_rename, h]

end

mutual

theorem evaluate_alpha (h : Scopes.Agree σ τ bs scopes scopes') : ∀ (t : Term) {t' : Term}
    {hint : Option SmtSort} {i : Nat}, t.Alpha bs t' →
    Together (Agree σ τ) (g.evaluate scopes hint t i)
      (g.evaluate scopes' hint t' i)
  | .app ident sort args, _, hint, i, ht => by
    cases ht with
    | literal ht => cases ht
    | symbol hs hargs =>
      rw [evaluate, evaluate, hs]
      exact (evaluateArgs_alpha h args hargs).bind fun es es' hes => applySymbol_alpha hes _ _
    | call hs hargs =>
      rw [evaluate, evaluate, hs]
      dsimp only
      split
      · exact (callVector_alpha h args hargs _).bind fun es es' hes => applyIndicator_alpha hes _
      · exact .error
  | .var .., _, _, i, ht => by
    cases ht with
    | literal ht => cases ht
    | var hxy => exact lookup_alpha h hxy i
  | .number _, _, _, _, ht | .decimal _, _, _, _, ht | .string _, _, _, _, ht
  | .bits .., _, _, _, ht => by
    cases ht
    exact expectLiteral_alpha _ _
  | .quantified .., _, _, _, ht => by
    cases ht with
    | literal ht => cases ht
    | quantified => exact .error
  | .matching .., _, _, _, ht => by
    cases ht with
    | literal ht => cases ht
    | matching => exact .error
  | .lambda .., _, _, _, ht => by
    cases ht with
    | literal ht => cases ht
    | lambda => exact .error

theorem evaluateArgs_alpha (h : Scopes.Agree σ τ bs scopes scopes') :
    ∀ (args : List (Identifier × Term)) {args' : List (Identifier × Term)} {i : Nat},
    AlphaEach bs args args' →
    Together (AgreeEach σ τ) (g.evaluateArgs scopes args i)
      (g.evaluateArgs scopes' args' i)
  | [], _, _, hargs => by
    cases hargs
    exact .ok rfl
  | (sort, t) :: args, _, i, hargs => by
    cases hargs with
    | cons ht hargs =>
      rw [evaluateArgs, evaluateArgs, ht.hint]
      refine (evaluate_alpha h t ht).bind fun e e' he => ?_
      exact (evaluateArgs_alpha h args hargs).bind fun es es' hes => .ok (.cons he hes)

theorem callVector_alpha (h : Scopes.Agree σ τ bs scopes scopes') :
    ∀ (args : List (Identifier × Term)) {args' : List (Identifier × Term)},
    AlphaLast bs args args' → ∀ name,
    Together (AgreeEach σ τ) (g.callVector scopes name args)
      (g.callVector scopes' name args')
  | [], _, hargs, _ => by
    cases hargs
    exact .error
  | [(sort, t)], _, hargs, _ => by
    cases hargs with
    | last ht =>
      rw [callVector, callVector, ht.hint]
      exact .mapM fun i => evaluate_alpha h t ht
  | _ :: b :: args, _, hargs, name => by
    cases hargs with
    | skip hargs =>
      have hrest := callVector_alpha h (b :: args) hargs name
      exact hrest

end

theorem call_alpha (h : Scopes.Agree σ τ bs scopes scopes')
    {args args' : List (Identifier × Term)} (hargs : AlphaLast bs args args') (name : String) :
    Together (Agree σ τ) (g.call scopes name args) (g.call scopes' name args') :=
  (callVector_alpha h args hargs name).bind fun _ _ hes => applyIndicator_alpha hes name

theorem pointwise_alpha (h : Scopes.Agree σ τ bs scopes scopes') {t t' : Term}
    (ht : t.Alpha bs t') :
    Together (Agree σ τ) (g.pointwise scopes t) (g.pointwise scopes' t') :=
  (Together.mapM fun _ => evaluate_alpha h t ht).bind fun _ _ hes => conjoin_alpha hes

end Signature

/-! ## Premises -/

/-- All that is left of a constant is its sort. -/
def Renaming.blind : Renaming where
  const c := ⟨"", none, c.sort⟩
  sort_const _ := rfl

theorem Renaming.map_blind {cs ds : List Const} (h : cs.map Const.sort = ds.map Const.sort) :
    cs.map blind.const = ds.map blind.const := by
  have hblind : blind.const = (fun s => ⟨"", none, s⟩) ∘ Const.sort := rfl
  rw [hblind, ← List.map_map, ← List.map_map, h]

theorem append_map_inj {α β γ : Type} {f : α → γ} {g : β → γ} {as as' : List α} {bs bs' : List β}
    (hlen : as.length = bs.length) (h : (as ++ as').map f = (bs ++ bs').map g) :
    as.map f = bs.map g ∧ as'.map f = bs'.map g := by
  rw [List.map_append, List.map_append] at h
  exact List.append_inj h (by simpa using hlen)

theorem Copies.nil : Copies [] [] ([], []) ([], []) := ⟨rfl, rfl, rfl, fun _ _ _ => .nil⟩

theorem Copies.cons {x y : TypedVar} {xs ys : List TypedVar} {cs ds : List Const}
    {r r' : List Const × List (String × List Expr)} (hs : cs.map Const.sort = ds.map Const.sort)
    (h : Copies xs ys r r') :
    Copies (x :: xs) (y :: ys) (cs ++ r.1, (x.name, cs.map .const) :: r.2)
      (ds ++ r'.1, (y.name, ds.map .const) :: r'.2) where
  sorts := by rw [List.map_append, List.map_append, hs, h.sorts]
  names := congrArg _ h.names
  names' := congrArg _ h.names'
  vectors σ τ hc := by
    obtain ⟨hhead, hrest⟩ := append_map_inj (by simpa using congrArg List.length hs) hc
    exact .cons (.consts hhead) (h.vectors σ τ hrest)

/-- There are as many witnesses of the same sorts, and the formulas agree under renamings under
which the scopes and the witnesses do. -/
structure Corresponding (bs : Binders) (scopes scopes' : Scopes) (cs cs' : List Const)
    (φs φs' : List Expr) : Prop where
  sorts : cs.map Const.sort = cs'.map Const.sort
  formulas : ∀ σ τ : Renaming,
    Scopes.Agree σ τ bs scopes scopes' ∧ cs.map σ.const = cs'.map τ.const → AgreeEach σ τ φs φs'

namespace Corresponding

theorem append {cs cs' ds ds' : List Const} {φs φs' ψs ψs' : List Expr}
    (hc : Corresponding bs scopes scopes' cs cs' φs φs')
    (hd : Corresponding bs scopes scopes' ds ds' ψs ψs') :
    Corresponding bs scopes scopes' (cs ++ ds) (cs' ++ ds') (φs ++ ψs) (φs' ++ ψs') where
  sorts := by rw [List.map_append, List.map_append, hc.sorts, hd.sorts]
  formulas σ τ h := by
    obtain ⟨hcs, hds⟩ := append_map_inj (by simpa using congrArg List.length hc.sorts) h.2
    exact .append (hc.formulas σ τ ⟨h.1, hcs⟩) (hd.formulas σ τ ⟨h.1, hds⟩)

theorem of_bind {xs ys : List TypedVar} {r r' : List Const × List (String × List Expr)}
    (hr : Copies xs ys r r') {cs cs' : List Const} {φs φs' : List Expr}
    (h : Corresponding (bs.bind xs ys) (Table.ofEntries r.2 :: scopes)
      (Table.ofEntries r'.2 :: scopes') cs cs' φs φs') :
    Corresponding bs scopes scopes' (r.1 ++ cs) (r'.1 ++ cs') φs φs' where
  sorts := by rw [List.map_append, List.map_append, hr.sorts, h.sorts]
  formulas σ τ hs := by
    obtain ⟨hrs, hcs⟩ := append_map_inj (by simpa using congrArg List.length hr.sorts) hs.2
    exact h.formulas σ τ ⟨hs.1.bind hr hrs, hcs⟩

theorem of_together {ε ε' : Type} {x : Except ε Expr} {y : Except ε' Expr} {cs cs' : List Const}
    (hblind : Scopes.Agree .blind .blind bs scopes scopes')
    (hs : cs.map Const.sort = cs'.map Const.sort)
    (h : ∀ σ τ : Renaming,
      Scopes.Agree σ τ bs scopes scopes' ∧ cs.map σ.const = cs'.map τ.const →
      Together (Agree σ τ) x y) :
    Together (fun e e' => Corresponding bs scopes scopes' cs cs' [e] [e']) x y := by
  have hformed := Together.forall₂ ⟨hblind, Renaming.map_blind hs⟩ h
  exact hformed.mono fun e e' he => ⟨hs, fun σ τ hp => .cons (he σ τ hp) rfl⟩

end Corresponding

namespace Signature

variable {g : Signature}

theorem witnesses_alpha {xs ys : List TypedVar}
    (hs : xs.map TypedVar.sort = ys.map TypedVar.sort) {next next' : Nat} :
    Together (fun r r' => Copies xs ys (r.1, r.2.1) (r'.1, r'.2.1)) (g.witnesses next xs)
      (g.witnesses next' ys) := by
  induction xs generalizing ys next next' with
  | nil =>
    obtain rfl : ys = [] := by simpa using hs.symm
    exact .ok .nil
  | cons x xs ih =>
    cases ys with
    | nil => cases hs
    | cons y ys =>
      rw [List.map_cons, List.map_cons, List.cons.injEq] at hs
      rw [witnesses, witnesses, hs.1]
      cases sortOf y.sort with
      | error => exact .error
      | ok s =>
        refine (ih hs.2).bind fun r r' hr => .ok ?_
        exact hr.cons (by rw [witnessVector_sorts, witnessVector_sorts])

theorem pointwise_leaf (h : Scopes.Agree .blind .blind bs scopes scopes') {t t' : Term}
    (ht : t.Alpha bs t') {next next' : Nat} :
    Together (fun p p' => Corresponding bs scopes scopes' p.witnesses p'.witnesses [p.formula]
      [p'.formula]) (do return (⟨[], ← g.pointwise scopes t, next⟩ : Premise))
      (do return (⟨[], ← g.pointwise scopes' t', next'⟩ : Premise)) := by
  have hformed := Corresponding.of_together h (Eq.refl ([].map Const.sort)) fun σ τ hp =>
    pointwise_alpha (g := g) hp.1 ht
  exact hformed.bind fun e e' he => .ok he

theorem ofIdentifier?_and : Symbol.ofIdentifier? ⟨"and", []⟩ = some (.plain .and) := by decide

mutual

/-- Premises of terms that differ in bound names correspond, whatever stamps are free. -/
theorem vectorize_alpha : ∀ (t : Term) {t' : Term} {bs : Binders} {scopes scopes' : Scopes}
    {next next' : Nat}, Scopes.Agree .blind .blind bs scopes scopes' → t.Alpha bs t' →
    Together (fun p p' => Corresponding bs scopes scopes' p.witnesses p'.witnesses [p.formula]
      [p'.formula]) (g.vectorize scopes next t) (g.vectorize scopes' next' t')
  | .quantified .existential xs t, _, bs, scopes, scopes', next, next', h, ht => by
    cases ht with
    | literal ht => cases ht
    | quantified hs ht =>
      rw [vectorize, vectorize]
      refine (witnesses_alpha hs).bind fun r r' hr => ?_
      have hinner := h.bind hr (Renaming.map_blind hr.sorts)
      exact (vectorize_alpha t hinner ht).bind fun p p' hp => .ok (.of_bind hr hp)
  | .quantified .universal xs t, _, bs, scopes, scopes', next, next', h, ht => by
    cases ht with
    | literal ht => cases ht
    | quantified => exact .error
  | .app ident sort args, _, bs, scopes, scopes', next, next', h, ht => by
    have hterm := ht
    cases ht with
    | literal ht => cases ht
    | symbol hs hargs =>
      rw [vectorize, vectorize, ← hargs.isEmpty]
      split
      · refine (vectorizeArgs_alpha args h hargs).bind fun r r' hr => ?_
        have hformed := Corresponding.of_together h hr.sorts fun σ τ hp =>
          conjoin_alpha (hr.formulas σ τ hp)
        exact hformed.bind fun e e' he => .ok he
      · split
        · rename_i hc
          have hi : ident.indices.isEmpty = true := by simp_all [calls]
          rw [ofIdentifier?_of_isNone hi hc.2] at hs
          cases hs
        · exact pointwise_leaf h hterm
    | call hs hargs =>
      have hand : ∀ b : Bool, ¬ (ident = ⟨"and", []⟩ ∧ b = false) := by
        rintro b ⟨rfl, -⟩
        rw [ofIdentifier?_and] at hs
        cases hs
      rw [vectorize, vectorize, if_neg (hand _), if_neg (hand _)]
      split
      · have hcall := Corresponding.of_together h (Eq.refl ([].map Const.sort)) fun σ τ hp =>
          call_alpha (g := g) hp.1 hargs ident.name
        exact hcall.bind fun e e' he => .ok he
      · exact pointwise_leaf h hterm
  | .var .., _, _, _, _, _, _, h, ht => by
    cases ht with
    | literal ht => cases ht
    | var hxy => exact pointwise_leaf h (.var hxy)
  | .number _, _, _, _, _, _, _, h, ht | .decimal _, _, _, _, _, _, _, h, ht
  | .string _, _, _, _, _, _, _, h, ht | .bits .., _, _, _, _, _, _, h, ht => by
    cases ht
    exact pointwise_leaf h (.literal rfl)
  | .matching .., _, _, _, _, _, _, h, ht => by
    cases ht with
    | literal ht => cases ht
    | matching => exact pointwise_leaf h .matching
  | .lambda .., _, _, _, _, _, _, h, ht => by
    cases ht with
    | literal ht => cases ht
    | lambda => exact pointwise_leaf h .lambda

theorem vectorizeArgs_alpha : ∀ (args : List (Identifier × Term))
    {args' : List (Identifier × Term)} {bs : Binders} {scopes scopes' : Scopes} {next next' : Nat},
    Scopes.Agree .blind .blind bs scopes scopes' → AlphaEach bs args args' →
    Together (fun r r' => Corresponding bs scopes scopes' r.1 r'.1 r.2.1 r'.2.1)
      (g.vectorizeArgs scopes next args) (g.vectorizeArgs scopes' next' args')
  | [], _, _, _, _, _, _, h, hargs => by
    cases hargs
    exact .ok ⟨rfl, fun _ _ _ => rfl⟩
  | (sort, t) :: args, _, bs, scopes, scopes', next, next', h, hargs => by
    cases hargs with
    | cons ht hargs =>
      rw [vectorizeArgs, vectorizeArgs]
      refine (vectorize_alpha t h ht).bind fun p p' hp => ?_
      refine (vectorizeArgs_alpha args h hargs).bind fun r r' hr => .ok ?_
      exact hp.append hr

end

end Signature

end Realizability
