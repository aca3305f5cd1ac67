import Realizability.Proofs.Encoding.Correctness
import Realizability.Proofs.Reindexing.Success

/-!
# Verdicts on reindexed examples

Relations that satisfy the formulas of reindexed examples give relations that satisfy the formulas
of the examples themselves: those that hold of a vector if the former hold of it reindexed. So an
unsatisfiable encoding stays unsatisfiable when examples are left out, repeated or moved
(`Problem.encode_reindexed`).
-/

namespace Realizability

variable {indices : List Nat}

/-- The relations that hold of a vector if others hold of it reindexed. -/
def Relations.pulledBack (R : Relations) (indices : List Nat) : Relations :=
  fun name vs => ∃ ws, Picked indices Eq vs ws ∧ R name ws

theorem pulledBack_iff {R : Relations} {name : String} {vs ws : List Value}
    (h : Picked indices Eq vs ws) : R.pulledBack indices name vs ↔ R name ws := by
  constructor
  · rintro ⟨ws', h', hr⟩
    rwa [h.unique h']
  · intro hr
    exact ⟨ws, h, hr⟩

/-! ## Terms -/

def Environment.Reindexed (indices : List Nat) (ρ ρ' : Environment) : Prop :=
  ∀ x, Option.Rel (Picked indices Eq) (ρ x) (ρ' x)

abbrev ReindexedEach (indices : List Nat) : List Binding → List Binding → Prop :=
  List.Forall₂ fun b b' => b.1 = b'.1 ∧ Picked indices Eq b.2 b'.2

theorem Environment.Reindexed.bind {ρ ρ' : Environment} {bs bs' : List Binding}
    (hb : ReindexedEach indices bs bs') (h : ρ.Reindexed indices ρ') :
    (ρ.bind bs).Reindexed indices (ρ'.bind bs') := by
  induction hb generalizing ρ ρ' with
  | nil => exact h
  | @cons b b' bs bs' hbb _ ih =>
    refine ih fun x => ?_
    dsimp only
    rw [hbb.1]
    by_cases hx : b'.1 = x
    · rw [if_pos hx, if_pos hx]
      exact .some hbb.2
    · rw [if_neg hx, if_neg hx]
      exact h x

theorem IsVector.reindexed {n : Nat} {s : SmtSort} {vs ws : List Value} (h : IsVector n s vs)
    (hp : Picked indices Eq vs ws) : IsVector indices.length s ws :=
  ⟨hp.length, fun w hw => h.sort w (hp.mem hw)⟩

namespace Signature

variable {g g' : Signature} {zero : ZeroDivision} {R : Relations} {ρ ρ' : Environment}

theorem coerced_reindexed (hg : g.Reindexed indices g') {name : String} {vs vs' ws : List Value}
    (hv : Picked indices Eq vs vs') (hw : g.coerced name vs = some ws) :
    ∃ ws', g'.coerced name vs' = some ws' ∧ Picked indices Eq ws ws' := by
  have hall := mapM_eq_some.mp hw
  have hbound : ∀ i ∈ indices, i < ws.length := fun i hi => hall.length_eq ▸ hv.bound hi
  obtain ⟨ws', hw'⟩ := Picked.exists_picked hbound
  refine ⟨ws', ?_, hw'⟩
  rw [coerced, hg.indicators]
  exact mapM_eq_some.mpr (Picked.forall₂ hall hv hw')

mutual

theorem valueOf_reindexed (hg : g.Reindexed indices g') (hρ : ρ.Reindexed indices ρ') :
    ∀ (t : Term) {hint : Option SmtSort} {i j : Nat} {v : Value}, indices[j]? = some i →
    g.valueOf ⟨zero, R.pulledBack indices⟩ ρ hint t i = some v →
    g'.valueOf ⟨zero, R⟩ ρ' hint t j = some v
  | .app ident _ args, hint, i, j, v, hj, h => by
    rw [valueOf] at h ⊢
    cases hs : Symbol.ofIdentifier? ident with
    | some s =>
      rw [hs] at h
      obtain ⟨vs, hvs, h⟩ := Option.bind_eq_some_iff.mp h
      exact Option.bind_eq_some_iff.mpr ⟨vs, valuesOf_reindexed hg hρ args hj hvs, h⟩
    | none =>
      rw [hs] at h
      dsimp only at h ⊢
      rw [hg.calls]
      split at h
      · rename_i hc
        rw [if_pos hc]
        obtain ⟨vs, hvs, h⟩ := Option.bind_eq_some_iff.mp h
        obtain ⟨ws, hws, h⟩ := Option.bind_eq_some_iff.mp h
        cases h
        obtain ⟨vs', hvs', hv⟩ := finalVector_reindexed hg hρ args hvs
        obtain ⟨ws', hws', hw⟩ := coerced_reindexed hg hv hws
        rw [hvs', Value.ofProp_congr (pulledBack_iff hw)]
        simp [hws']
      · cases h
  | .var x _, hint, i, j, v, hj, h => by
    obtain ⟨vs, hvs, h⟩ := Option.bind_eq_some_iff.mp h
    have hx := hρ x
    rw [hvs] at hx
    cases hx' : ρ' x with
    | none => rw [hx'] at hx; cases hx
    | some vs' =>
      rw [hx'] at hx
      cases hx with
      | some hp =>
        obtain ⟨y, _, hy, hy', rfl⟩ := hp.get hj
        rw [h] at hy
        cases hy
        rw [valueOf, hx']
        exact hy'
  | .number _, _, _, _, _, _, h | .decimal _, _, _, _, _, _, h | .string _, _, _, _, _, _, h
  | .bits .., _, _, _, _, _, h | .quantified .., _, _, _, _, _, h | .matching .., _, _, _, _, _, h
  | .lambda .., _, _, _, _, _, h => h

theorem valuesOf_reindexed (hg : g.Reindexed indices g') (hρ : ρ.Reindexed indices ρ') :
    ∀ (args : List (Identifier × Term)) {i j : Nat} {vs : List Value}, indices[j]? = some i →
    g.valuesOf ⟨zero, R.pulledBack indices⟩ ρ args i = some vs →
    g'.valuesOf ⟨zero, R⟩ ρ' args j = some vs
  | [], _, _, _, _, h => h
  | (_, t) :: args, i, j, vs, hj, h => by
    obtain ⟨v, hv, h⟩ := Option.bind_eq_some_iff.mp h
    obtain ⟨vs', hvs, h⟩ := Option.bind_eq_some_iff.mp h
    exact Option.bind_eq_some_iff.mpr ⟨v, valueOf_reindexed hg hρ t hj hv,
      Option.bind_eq_some_iff.mpr ⟨vs', valuesOf_reindexed hg hρ args hj hvs, h⟩⟩

theorem finalVector_reindexed (hg : g.Reindexed indices g') (hρ : ρ.Reindexed indices ρ') :
    ∀ (args : List (Identifier × Term)) {vs : List Value},
    g.finalVector ⟨zero, R.pulledBack indices⟩ ρ args = some vs →
    ∃ vs', g'.finalVector ⟨zero, R⟩ ρ' args = some vs' ∧ Picked indices Eq vs vs'
  | [], _, h => by cases h
  | [(sort, t)], vs, h => by
    rw [finalVector] at h ⊢
    rw [hg.count]
    have hstep : ∀ i j : Nat, indices[j]? = some i → ∀ v,
        g.valueOf ⟨zero, R.pulledBack indices⟩ ρ (sortHint sort t) t i = some v →
        ∃ w, g'.valueOf ⟨zero, R⟩ ρ' (sortHint sort t) t j = some w ∧ v = w :=
      fun i j hj v hv => ⟨v, valueOf_reindexed hg hρ t hj hv, rfl⟩
    obtain ⟨vs', hvs', hp⟩ := Picked.range hg.bound hstep (mapM_eq_some.mp h)
    exact ⟨vs', mapM_eq_some.mpr hvs', hp⟩
  | _ :: a :: args, _, h => finalVector_reindexed hg hρ (a :: args) h

end

theorem call_reindexed (hg : g.Reindexed indices g') (hρ : ρ.Reindexed indices ρ') {name : String}
    {args : List (Identifier × Term)}
    (h : g.HoldsCall ⟨zero, R.pulledBack indices⟩ (callsIn (R.pulledBack indices)) ρ name args) :
    g'.HoldsCall ⟨zero, R⟩ (callsIn R) ρ' name args := by
  obtain ⟨vs, ws, hvs, hws, hr⟩ := h
  obtain ⟨vs', hvs', hv⟩ := finalVector_reindexed hg hρ args hvs
  obtain ⟨ws', hws', hw⟩ := coerced_reindexed hg hv hws
  exact ⟨vs', ws', hvs', hws', (pulledBack_iff hw).mp hr⟩

theorem pointwise_reindexed (hg : g.Reindexed indices g') (hρ : ρ.Reindexed indices ρ') {t : Term}
    (h : g.HoldsPointwise ⟨zero, R.pulledBack indices⟩ ρ t) :
    g'.HoldsPointwise ⟨zero, R⟩ ρ' t := by
  intro j hj
  rw [hg.count] at hj
  have hi := List.getElem?_eq_getElem hj
  exact valueOf_reindexed hg hρ t hi (h _ (hg.bound _ (List.mem_of_getElem? hi)))

theorem bound_reindexed (hg : g.Reindexed indices g') {xs : List TypedVar} {bs : List Binding}
    (h : Bound g.count xs bs) : ∃ bs', Bound g'.count xs bs' ∧ ReindexedEach indices bs bs' := by
  unfold Bound at h ⊢
  induction h with
  | nil => exact ⟨[], .nil, .nil⟩
  | @cons x b xs bs hx _ ih =>
    obtain ⟨bs', hb', hp⟩ := ih
    obtain ⟨hname, s, hs, hv⟩ := hx
    have hbound : ∀ i ∈ indices, i < b.2.length := fun i hi => hv.length ▸ hg.bound i hi
    obtain ⟨ws, hw⟩ := Picked.exists_picked hbound
    refine ⟨(x.name, ws) :: bs', .cons ⟨rfl, s, hs, ?_⟩ hb', .cons ⟨hname, hw⟩ hp⟩
    exact hg.count ▸ IsVector.reindexed hv hw

mutual

/-- A term that holds for all examples holds for those at the indices. -/
theorem holds_reindexed (hg : g.Reindexed indices g') : ∀ (t : Term) {ρ ρ' : Environment},
    ρ.Reindexed indices ρ' →
    g.Holds ⟨zero, R.pulledBack indices⟩ (callsIn (R.pulledBack indices)) ρ t →
    g'.Holds ⟨zero, R⟩ (callsIn R) ρ' t
  | .quantified .existential xs t, ρ, ρ', hρ, h => by
    obtain ⟨bs, hb, h⟩ := h
    obtain ⟨bs', hb', hbs⟩ := bound_reindexed hg hb
    exact ⟨bs', hb', holds_reindexed hg t (hρ.bind hbs) h⟩
  | .quantified .universal .., _, _, hρ, h => pointwise_reindexed hg hρ h
  | .app ident sort args, ρ, ρ', hρ, h => by
    rw [Holds] at h ⊢
    rw [hg.calls]
    split at h
    · rename_i hand
      rw [if_pos hand]
      exact holdAll_reindexed hg args hρ h
    · rename_i hand
      rw [if_neg hand]
      split at h
      · rename_i hcall
        rw [if_pos hcall]
        exact call_reindexed hg hρ h
      · rename_i hcall
        rw [if_neg hcall]
        exact pointwise_reindexed hg hρ h
  | .var .., _, _, hρ, h | .number _, _, _, hρ, h | .decimal _, _, _, hρ, h
  | .string _, _, _, hρ, h | .bits .., _, _, hρ, h | .matching .., _, _, hρ, h
  | .lambda .., _, _, hρ, h => pointwise_reindexed hg hρ h

theorem holdAll_reindexed (hg : g.Reindexed indices g') : ∀ (args : List (Identifier × Term))
    {ρ ρ' : Environment}, ρ.Reindexed indices ρ' →
    g.HoldAll ⟨zero, R.pulledBack indices⟩ (callsIn (R.pulledBack indices)) ρ args →
    g'.HoldAll ⟨zero, R⟩ (callsIn R) ρ' args
  | [], _, _, _, _ => trivial
  | (_, t) :: args, _, _, hρ, h => ⟨holds_reindexed hg t hρ h.1, holdAll_reindexed hg args hρ h.2⟩

end

end Signature

/-! ## Formulas -/

theorem binds_reindexed {table table' : ExampleTable} (ht : table.Reindexed indices table')
    {v v' : List Value} (hv : Picked indices Eq v v') {k : Nat} {xs : List TypedVar}
    {bs : List Binding} (h : Binds table v k xs bs) :
    ∃ bs', Binds table' v' k xs bs' ∧ ReindexedEach indices bs bs' := by
  induction h with
  | result => exact ⟨_, .result, .cons ⟨rfl, hv⟩ .nil⟩
  | @fixed k x y xs column bs hc _ ih =>
    obtain ⟨bs', hb, hbs⟩ := ih
    have hcolumn := ht.inputs k
    rw [hc] at hcolumn
    cases hc' : table'.inputs[k]? with
    | none => rw [hc'] at hcolumn; cases hcolumn
    | some column' =>
      rw [hc'] at hcolumn
      cases hcolumn with
      | some hp => exact ⟨_, .fixed hc' hb, .cons ⟨rfl, hp.map Expr.literal⟩ hbs⟩
  | @free k x y xs s ws bs hc hs hw _ ih =>
    obtain ⟨bs', hb, hbs⟩ := ih
    have hcolumn := ht.inputs k
    rw [hc] at hcolumn
    cases hc' : table'.inputs[k]? with
    | none =>
      have hbound : ∀ i ∈ indices, i < ws.length := fun i hi => hw.length ▸ ht.bound i hi
      obtain ⟨ws', hp⟩ := Picked.exists_picked hbound
      have hw' : IsVector table'.size s ws' := ht.size ▸ IsVector.reindexed hw hp
      exact ⟨_, .free hc' hs hw' hb, .cons ⟨rfl, hp⟩ hbs⟩
    | some _ => rw [hc'] at hcolumn; cases hcolumn

namespace Problem

variable {p : Problem} {zero : ZeroDivision} {R : Relations}

theorem closed_pulledBack {table table' : ExampleTable} (ht : table.Reindexed indices table')
    (h : p.Closed table' zero R) : p.Closed table zero (R.pulledBack indices) := by
  rintro f hf c hc v ⟨⟨s, hs, hv⟩, bs, hb, hh⟩
  have hbound : ∀ i ∈ indices, i < v.length := fun i hi => hv.length ▸ ht.bound i hi
  obtain ⟨v', hp⟩ := Picked.exists_picked hbound
  obtain ⟨bs', hb', hbs⟩ := binds_reindexed ht hp hb
  have hg : (p.signature table.size).Reindexed indices (p.signature table'.size) :=
    ⟨ht.bound, ht.size, rfl⟩
  have hempty : Environment.empty.Reindexed indices Environment.empty := fun _ => .none
  have hv' : IsVector table'.size s v' := ht.size ▸ IsVector.reindexed hv hp
  exact ⟨v', hp, h f hf c hc v' ⟨⟨s, hs, hv'⟩, bs', hb',
    Signature.holds_reindexed hg c.result (hempty.bind hbs) hh⟩⟩

theorem satisfiable_of_reindexed {examples examples' : Option (List Term)} {target : Function}
    {e e' : Encoding} (h : p.Encodes examples target e) (h' : p.Encodes examples' target e')
    (ht : e.examples.Reindexed indices e'.examples) (hs : Satisfiable zero e'.formulas) :
    Satisfiable zero e.formulas := by
  obtain ⟨R, ν, hall⟩ := hs
  obtain ⟨s, hsort, -⟩ := bind_eq_ok.mp h.query
  obtain ⟨hclosed, hquery⟩ := (formulas_hold h' hsort).mp hall
  -- relations on the reindexed examples are taken back to the vectors that these come from
  refine ⟨R.pulledBack indices, ν, (formulas_hold h hsort).mpr ⟨closed_pulledBack ht hclosed, ?_⟩⟩
  rintro v hv ⟨v', hp, hr⟩ heq
  have hv' : IsVector e'.examples.size s v' := ht.size ▸ hv.reindexed hp
  exact hquery v' hv' hr (Picked.forall₂ heq hp (ht.results.map Expr.literal))

theorem encodes_unique {examples : Option (List Term)} {target target' : Function}
    {e e' : Encoding} (h : p.Encodes examples target e) (h' : p.Encodes examples target' e') :
    e = e' := by
  have he := encode_eq_ok.mpr ⟨target, h⟩
  rw [encode_eq_ok.mpr ⟨target', h'⟩] at he
  exact (Except.ok.inj he).symm

theorem picked_ofFn {α : Type} (xs : List α) {m : Nat} (s : Fin m → Fin xs.length) :
    Picked (List.ofFn fun j => (s j : Nat)) Eq xs (List.ofFn fun j => xs[s j]) := by
  refine Picked.of_get (by rw [List.length_ofFn, List.length_ofFn]) fun i j hj => ?_
  rw [List.getElem?_ofFn] at hj
  split at hj
  · rename_i hlt
    cases hj
    refine ⟨xs[s ⟨j, hlt⟩], xs[s ⟨j, hlt⟩], List.getElem?_eq_getElem (s ⟨j, hlt⟩).isLt, ?_, rfl⟩
    rw [List.getElem?_ofFn, dif_pos hlt]
  · cases hj

/-- Examples that are encoded are encoded wherever they stand and however often. If the formulas are
unsatisfiable on some examples, they are so on any of them, and if all examples are kept, also the
other way around. -/
theorem encode_reindexed {rows : List Term} {e : Encoding}
    (h : (p.encode (some rows)).outcome = .ok e) {m : Nat} (hm : 0 < m)
    (s : Fin m → Fin rows.length) :
    ∃ e', (p.encode (some (List.ofFn fun j => rows[s j]))).outcome = .ok e' ∧
      (∀ zero, ¬ Satisfiable zero e.formulas → ¬ Satisfiable zero e'.formulas) ∧
      ((∀ i, ∃ j, s j = i) → ∀ zero, Satisfiable zero e.formulas ↔ Satisfiable zero e'.formulas) := by
  obtain ⟨target, he⟩ := encode_eq_ok.mp h
  have hne : (List.ofFn fun j => (s j : Nat)) ≠ [] := by
    rw [Ne, List.ofFn_eq_nil_iff]
    exact Nat.ne_of_gt hm
  obtain ⟨e', he', ht⟩ := encodes_reindexed he (picked_ofFn rows s) hne
  have hdown : ∀ zero, Satisfiable zero e'.formulas → Satisfiable zero e.formulas :=
    fun _ => satisfiable_of_reindexed he he' ht
  refine ⟨e', encode_eq_ok.mpr ⟨target, he'⟩, fun zero h hs => h (hdown zero hs), ?_⟩
  intro hsurj zero
  refine ⟨?_, hdown zero⟩
  -- the rows are in turn a reindexing of the reindexed rows
  choose t hts using hsurj
  have hback : Picked (List.ofFn fun i => (t i : Nat)) Eq (List.ofFn fun j => rows[s j]) rows := by
    refine Picked.of_get (by rw [List.length_ofFn]) fun i j hj => ?_
    rw [List.getElem?_ofFn] at hj
    split at hj
    · rename_i hlt
      cases hj
      refine ⟨rows[s (t ⟨j, hlt⟩)], rows[j], ?_, List.getElem?_eq_getElem hlt, ?_⟩
      · rw [List.getElem?_ofFn, dif_pos (t ⟨j, hlt⟩).isLt]
      · exact congrArg rows.get (hts ⟨j, hlt⟩)
    · cases hj
  have hrows : (List.ofFn fun i => (t i : Nat)) ≠ [] := by
    rw [Ne, List.ofFn_eq_nil_iff]
    exact Nat.ne_of_gt (s ⟨0, hm⟩).pos
  obtain ⟨e'', he'', ht'⟩ := encodes_reindexed he' hback hrows
  rw [encodes_unique he'' he] at ht'
  exact satisfiable_of_reindexed he' he ht'

end Problem

/-- The second example of successors, the first one and again the second one. -/
theorem Sums.successors_reindexed :
    ∃ e, ((Sums.problem Sums.grammar).encode
        (some [Sums.row 1 2, Sums.row 2 3])).outcome = .ok e ∧ 0 < 3 ∧
      ∃ e', ((Sums.problem Sums.grammar).encode
          (some [Sums.row 2 3, Sums.row 1 2, Sums.row 2 3])).outcome = .ok e' ∧
        (∀ zero, ¬ Satisfiable zero e.formulas → ¬ Satisfiable zero e'.formulas) ∧
        ∀ zero, Satisfiable zero e.formulas ↔ Satisfiable zero e'.formulas := by
  obtain ⟨e, h, -⟩ := Sums.encode_successors
  have hm : 0 < 3 := by decide
  obtain ⟨e', h', hunsat, hsame⟩ := Problem.encode_reindexed h hm fun j => if j = 1 then 0 else 1
  refine ⟨e, h, hm, e', h', hunsat, hsame ?_⟩
  decide

end Realizability
