import Realizability.Proofs.Encoding.Formation
import Realizability.Proofs.Encoding.Formulas
import Realizability.Proofs.Reindexing.Table

/-!
# Encodings on examples of the same sorts

What can be encoded on examples can be encoded on others whose values have the sorts of those at
some indices: every step that is made for an example is a step that was made for the one at its
index, on operands of the same sorts (`Problem.encodes_alike`). Reindexed examples are the case in
which the values are the same as well.
-/

namespace Realizability

open Realizability.Expr (Alike isBool isBool_of_conjoin conjoin_isBool mkNot_isBool mkImplies_isBool
  mkEq_isBool close_isBool)

variable {indices : List Nat}

theorem range_follows {ε ε' α β : Type} {R : α → β → Prop} {n : Nat} {f : Nat → Except ε α}
    {f' : Nat → Except ε' β} (hn : ∀ i ∈ indices, i < n)
    (hf : ∀ i j, indices[j]? = some i → Follows R (f i) (f' j)) :
    Follows (Picked indices R) ((List.range n).mapM f)
      ((List.range indices.length).mapM f') := by
  intro xs hxs
  obtain ⟨ys, hys, hp⟩ := Picked.range hn (fun i j hj x hx => hf i j hj x hx) (mapM_eq_ok.mp hxs)
  exact ⟨ys, mapM_eq_ok.mpr hys, hp⟩

/-! ## Scopes -/

def Scopes.Alike (indices : List Nat) (scopes scopes' : Scopes) : Prop :=
  ∀ x, Option.Rel (Picked indices Expr.Alike) (scopes.find? x) (scopes'.find? x)

abbrev AlikeEntries (indices : List Nat) :
    List (String × List Expr) → List (String × List Expr) → Prop :=
  List.Forall₂ fun e e' => e.1 = e'.1 ∧ Picked indices Expr.Alike e.2 e'.2

theorem Scopes.Alike.foldl {scopes scopes' : Scopes} {entries entries' : List (String × List Expr)}
    (he : AlikeEntries indices entries entries') {t t' : Table (List Expr)}
    (h : Scopes.Alike indices (t :: scopes) (t' :: scopes')) :
    Scopes.Alike indices (entries.foldl (fun t e => t.put e.1 e.2) t :: scopes)
      (entries'.foldl (fun t e => t.put e.1 e.2) t' :: scopes') := by
  induction he generalizing t t' with
  | nil => exact h
  | @cons e e' entries entries' hee _ ih =>
    refine ih fun x => ?_
    rw [find?_put, find?_put, hee.1]
    split
    · exact .some hee.2
    · exact h x

theorem Scopes.Alike.cons {scopes scopes' : Scopes} (h : scopes.Alike indices scopes')
    {entries entries' : List (String × List Expr)} (he : AlikeEntries indices entries entries') :
    Scopes.Alike indices (Table.ofEntries entries :: scopes)
      (Table.ofEntries entries' :: scopes') := by
  refine Scopes.Alike.foldl he fun x => ?_
  rw [find?_cons, find?_cons]
  exact h x

theorem consts_alike {cs cs' : List Const} {n : Nat} {s : SmtSort} (hn : ∀ i ∈ indices, i < n)
    (hs : cs.map Const.sort = List.replicate n s)
    (hs' : cs'.map Const.sort = List.replicate indices.length s) :
    Picked indices Expr.Alike (cs.map .const) (cs'.map .const) := by
  have hget : ∀ {ds : List Const} {m i : Nat}, ds.map Const.sort = List.replicate m s → i < m →
      ∃ e, (ds.map Expr.const)[i]? = some e ∧ e.sort = s := by
    intro ds m i hds hi
    have hd : (ds.map Const.sort)[i]? = some s := by
      rw [hds, List.getElem?_replicate, if_pos hi]
    rw [List.getElem?_map, Option.map_eq_some_iff] at hd
    obtain ⟨d, hd, hsort⟩ := hd
    exact ⟨.const d, by rw [List.getElem?_map, hd]; rfl, hsort⟩
  have hlen : (cs'.map Expr.const).length = indices.length := by
    rw [List.length_map, ← List.length_map Const.sort, hs', List.length_replicate]
  refine Picked.of_get hlen fun i j hj => ?_
  obtain ⟨x, hx, hxs⟩ := hget hs (hn i (List.mem_of_getElem? hj))
  obtain ⟨y, hy, hys⟩ := hget hs' (List.getElem?_eq_some_iff.mp hj).1
  exact ⟨x, y, hx, hy, hxs.trans hys.symm⟩

/-! ## Terms -/

structure Signature.Reindexed (indices : List Nat) (g g' : Signature) : Prop where
  bound : ∀ i ∈ indices, i < g.count
  count : g'.count = indices.length
  indicators : g'.indicators = g.indicators

namespace Signature

variable {g g' : Signature} {scopes scopes' : Scopes}

theorem Reindexed.calls (hg : g.Reindexed indices g') (ident : Identifier) :
    g'.calls ident = g.calls ident := by
  rw [Signature.calls, Signature.calls, hg.indicators]

theorem lookup_follows (h : scopes.Alike indices scopes') {x : String} {i j : Nat}
    (hj : indices[j]? = some i) : Follows Alike (lookup scopes x i) (lookup scopes' x j) := by
  intro e he
  unfold lookup at he ⊢
  have hx := h x
  split at he
  · cases he
  · rename_i es hes
    rw [hes] at hx
    cases hes' : scopes'.find? x with
    | none => rw [hes'] at hx; cases hx
    | some es' =>
      rw [hes'] at hx
      cases hx with
      | some hp =>
        obtain ⟨a, b, ha, hb, hab⟩ := hp.get hj
        dsimp only
        rw [ha] at he
        rw [hb]
        cases he
        exact ⟨b, rfl, hab⟩

theorem applySymbol_follows {ident : Identifier} {s : Symbol} {es es' : List Expr}
    (h : List.Forall₂ Alike es es') :
    Follows Alike (applySymbol ident s es) (applySymbol ident s es') := by
  intro e he
  obtain ⟨e', he', ha⟩ := s.apply_follows h e (applySymbol_eq_ok.mp he)
  exact ⟨e', applySymbol_eq_ok.mpr he', ha⟩

theorem applyIndicator_follows (hg : g.Reindexed indices g') {name : String} {es es' : List Expr}
    (h : Picked indices Alike es es') :
    Follows Alike (g.applyIndicator name es) (g'.applyIndicator name es') := by
  intro e he
  obtain ⟨cs, hcs, he⟩ := bind_eq_ok.mp (mapError_eq_ok.mp he)
  cases he
  have hcoerce : ∀ a' ∈ es', ∃ c', a'.coerce ((g'.indicators.get? name).getD .bool) = .ok c' := by
    intro a' ha'
    obtain ⟨i, -, a, ha, haa⟩ := exists_of_forall₂ h ha'
    obtain ⟨c, -, hc⟩ := get_of_forall₂ (mapM_eq_ok.mp hcs) ha
    rw [hg.indicators]
    obtain ⟨c', hc', -⟩ := Expr.coerce_follows haa c hc
    exact ⟨c', hc'⟩
  obtain ⟨cs', hcs'⟩ := exists_forall₂ hcoerce
  exact ⟨.call name cs', mapError_eq_ok.mpr (bind_eq_ok.mpr ⟨cs', mapM_eq_ok.mpr hcs', rfl⟩), rfl⟩

mutual

/-- A term that has an expression for an example has one of the same sort where the example is put. -/
theorem evaluate_follows (hg : g.Reindexed indices g') (h : scopes.Alike indices scopes') :
    ∀ (t : Term) {hint : Option SmtSort} {i j : Nat}, indices[j]? = some i →
    Follows Alike (g.evaluate scopes hint t i) (g'.evaluate scopes' hint t j)
  | .app ident _ args, hint, i, j, hj => by
    rw [evaluate, evaluate]
    split
    · exact (evaluateArgs_follows hg h args hj).bind fun _ _ hes => applySymbol_follows hes
    · rw [hg.calls]
      split
      · exact (callVector_follows hg h args).bind fun _ _ hes => applyIndicator_follows hg hes
      · exact .error
  | .var x _, _, _, _, hj => lookup_follows h hj
  | .number _, _, _, _, _ | .decimal _, _, _, _, _ | .string _, _, _, _, _ | .bits .., _, _, _, _ =>
    Follows.refl.mono fun _ _ heq => congrArg Expr.sort heq
  | .quantified .., _, _, _, _ | .matching .., _, _, _, _ | .lambda .., _, _, _, _ => .error

theorem evaluateArgs_follows (hg : g.Reindexed indices g') (h : scopes.Alike indices scopes') :
    ∀ (args : List (Identifier × Term)) {i j : Nat}, indices[j]? = some i →
    Follows (List.Forall₂ Alike) (g.evaluateArgs scopes args i) (g'.evaluateArgs scopes' args j)
  | [], _, _, _ => .ok .nil
  | (_, t) :: args, _, _, hj =>
    (evaluate_follows hg h t hj).bind fun _ _ he =>
      (evaluateArgs_follows hg h args hj).bind fun _ _ hes => .ok (.cons he hes)

theorem callVector_follows (hg : g.Reindexed indices g') (h : scopes.Alike indices scopes') :
    ∀ (args : List (Identifier × Term)) {name : String},
    Follows (Picked indices Alike) (g.callVector scopes name args) (g'.callVector scopes' name args)
  | [], _ => .error
  | [(_, t)], _ => by
    rw [callVector, callVector, hg.count]
    exact range_follows hg.bound fun i j hj => evaluate_follows hg h t hj
  | _ :: a :: args, _ => callVector_follows hg h (a :: args)

end

/-! ## Premises -/

/-- A computation follows another one if that gives a truth value, and then gives one as well. -/
def FollowsBool {ε ε' α β : Type} (formula : α → Expr) (formula' : β → Expr) (x : Except ε α)
    (y : Except ε' β) : Prop :=
  ∀ a, x = .ok a → (formula a).isBool = true →
    ∃ b, y = .ok b ∧ (formula' b).isBool = true

theorem call_followsBool (hg : g.Reindexed indices g') (h : scopes.Alike indices scopes')
    {name : String} {args : List (Identifier × Term)} :
    FollowsBool id id (g.call scopes name args) (g'.call scopes' name args) := by
  intro e he hb
  obtain ⟨e', he', ha⟩ := ((callVector_follows hg h args).bind fun _ _ hes =>
    applyIndicator_follows hg hes) e he
  exact ⟨e', he', Expr.isBool_alike ha ▸ hb⟩

theorem pointwise_followsBool (hg : g.Reindexed indices g') (h : scopes.Alike indices scopes')
    {t : Term} : FollowsBool id id (g.pointwise scopes t) (g'.pointwise scopes' t) := by
  intro e he hb
  obtain ⟨es, hes, he⟩ := bind_eq_ok.mp he
  have hall := isBool_of_conjoin (mapError_eq_ok.mp he) hb
  obtain ⟨es', hes', hp⟩ :=
    range_follows hg.bound (fun i j hj => evaluate_follows hg h t hj) es hes
  have hall' : ∀ a ∈ es', a.isBool = true := by
    intro a ha
    obtain ⟨i, -, x, hx, hxa⟩ := exists_of_forall₂ hp ha
    rw [← Expr.isBool_alike hxa]
    exact hall x (List.mem_of_getElem? hx)
  obtain ⟨e', he', hb'⟩ := conjoin_isBool hall'
  rw [← hg.count] at hes'
  exact ⟨e', bind_eq_ok.mpr ⟨es', hes', mapError_eq_ok.mpr he'⟩, hb'⟩

theorem witnesses_follows (hg : g.Reindexed indices g') {xs : List TypedVar} {next next' : Nat} :
    Follows (fun r r' => AlikeEntries indices r.2.1 r'.2.1) (g.witnesses next xs)
      (g'.witnesses next' xs) := by
  induction xs generalizing next next' with
  | nil => exact .ok .nil
  | cons x xs ih =>
    refine Follows.bind (R := Eq) .refl ?_
    rintro s _ rfl
    refine ih.bind fun r r' hr => .ok (.cons ⟨rfl, ?_⟩ hr)
    have hsorts : (witnessVector x.name s g'.count next').map Const.sort =
        List.replicate indices.length s := hg.count ▸ witnessVector_sorts
    exact consts_alike hg.bound witnessVector_sorts hsorts

mutual

theorem vectorize_followsBool (hg : g.Reindexed indices g') : ∀ (t : Term) {scopes scopes' : Scopes}
    {next next' : Nat}, scopes.Alike indices scopes' →
    FollowsBool Premise.formula Premise.formula (g.vectorize scopes next t)
      (g'.vectorize scopes' next' t)
  | .quantified .existential xs t, scopes, scopes', next, next', h => by
    intro p hp hb
    obtain ⟨r, hr, hp⟩ := bind_eq_ok.mp hp
    obtain ⟨q, hq, hp⟩ := bind_eq_ok.mp hp
    cases hp
    obtain ⟨r', hr', he⟩ := witnesses_follows hg r hr
    obtain ⟨q', hq', hb'⟩ := vectorize_followsBool hg t (h.cons he) q hq hb
    exact ⟨_, bind_eq_ok.mpr ⟨r', hr', bind_eq_ok.mpr ⟨q', hq', rfl⟩⟩, hb'⟩
  | .quantified .universal .., _, _, _, _, _ => fun _ hp => by cases hp
  | .app ident sort args, scopes, scopes', next, next', h => by
    intro p hp hb
    rw [vectorize] at hp ⊢
    split at hp
    · rename_i hand
      rw [if_pos hand]
      obtain ⟨r, hr, hp⟩ := bind_eq_ok.mp hp
      obtain ⟨e, he, hp⟩ := bind_eq_ok.mp hp
      cases hp
      have hall := isBool_of_conjoin (mapError_eq_ok.mp he) hb
      obtain ⟨r', hr', hall'⟩ := vectorizeArgs_follows hg args h r hr hall
      obtain ⟨e', he', hb'⟩ := conjoin_isBool hall'
      exact ⟨_, bind_eq_ok.mpr ⟨r', hr', bind_eq_ok.mpr ⟨e', mapError_eq_ok.mpr he', rfl⟩⟩, hb'⟩
    · rename_i hand
      rw [if_neg hand, hg.calls]
      split at hp
      · rename_i hcall
        rw [if_pos hcall]
        obtain ⟨e, he, hp⟩ := bind_eq_ok.mp hp
        cases hp
        obtain ⟨e', he', hb'⟩ := call_followsBool hg h e he hb
        exact ⟨_, bind_eq_ok.mpr ⟨e', he', rfl⟩, hb'⟩
      · rename_i hcall
        rw [if_neg hcall]
        obtain ⟨e, he, hp⟩ := bind_eq_ok.mp hp
        cases hp
        obtain ⟨e', he', hb'⟩ := pointwise_followsBool hg h e he hb
        exact ⟨_, bind_eq_ok.mpr ⟨e', he', rfl⟩, hb'⟩
  | .var .., _, _, _, _, h | .number _, _, _, _, _, h | .decimal _, _, _, _, _, h
  | .string _, _, _, _, _, h | .bits .., _, _, _, _, h | .matching .., _, _, _, _, h
  | .lambda .., _, _, _, _, h => by
    intro p hp hb
    obtain ⟨e, he, hp⟩ := bind_eq_ok.mp hp
    cases hp
    obtain ⟨e', he', hb'⟩ := pointwise_followsBool hg h e he hb
    exact ⟨_, bind_eq_ok.mpr ⟨e', he', rfl⟩, hb'⟩

theorem vectorizeArgs_follows (hg : g.Reindexed indices g') : ∀ (args : List (Identifier × Term))
    {scopes scopes' : Scopes} {next next' : Nat}, scopes.Alike indices scopes' →
    ∀ r, g.vectorizeArgs scopes next args = .ok r → (∀ a ∈ r.2.1, a.isBool = true) →
    ∃ r', g'.vectorizeArgs scopes' next' args = .ok r' ∧ ∀ a ∈ r'.2.1, a.isBool = true
  | [], _, _, _, _, _ => fun r hr _ => ⟨_, rfl, fun _ ha => absurd ha List.not_mem_nil⟩
  | (_, t) :: args, scopes, scopes', next, next', h => by
    intro r hr hall
    obtain ⟨p, hp, hr⟩ := bind_eq_ok.mp hr
    obtain ⟨q, hq, hr⟩ := bind_eq_ok.mp hr
    cases hr
    obtain ⟨hb, hbs⟩ := List.forall_mem_cons.mp hall
    obtain ⟨p', hp', hb'⟩ := vectorize_followsBool hg t h p hp hb
    obtain ⟨q', hq', hbs'⟩ := vectorizeArgs_follows hg args h q hq hbs
    exact ⟨_, bind_eq_ok.mpr ⟨p', hp', bind_eq_ok.mpr ⟨q', hq', rfl⟩⟩,
      List.forall_mem_cons.mpr ⟨hb', hbs'⟩⟩

end

end Signature

/-! ## Functions -/

/-- A table whose values have the sorts of those of another one at the given indices. -/
structure ExampleTable.Alike (indices : List Nat) (t t' : ExampleTable) : Prop where
  bound : ∀ i ∈ indices, i < t.size
  operator : t'.operator = t.operator
  inputs : ∀ k : Nat, Option.Rel (Picked indices Expr.Alike) t.inputs[k]? t'.inputs[k]?
  results : Picked indices Expr.Alike t.results t'.results

theorem ExampleTable.Alike.size {t t' : ExampleTable} (h : t.Alike indices t') :
    t'.size = indices.length := h.results.length

section
variable {table table' : ExampleTable}

theorem ExampleTable.Reindexed.alike (h : table.Reindexed indices table') :
    table.Alike indices table' := by
  have hpicked : ∀ {es es' : List Expr}, Picked indices Eq es es' →
      Picked indices Expr.Alike es es' := by
    intro es es' hp
    refine hp.imp ?_
    rintro i _ ⟨e, he, rfl⟩
    exact ⟨e, he, rfl⟩
  refine ⟨h.bound, h.operator, fun k => ?_, hpicked h.results⟩
  have hk := h.inputs k
  generalize table.inputs[k]? = column at hk ⊢
  generalize table'.inputs[k]? = column' at hk ⊢
  cases hk with
  | none => exact .none
  | some hp => exact .some (hpicked hp)

theorem bindArgs_follows (ht : table.Alike indices table') {xs : List TypedVar} {k : Nat} :
    Follows (fun r r' => AlikeEntries indices r.2 r'.2) (bindArgs table k xs)
      (bindArgs table' k xs) := by
  induction xs generalizing k with
  | nil => exact .ok .nil
  | cons x xs ih =>
    have hfree : Follows (fun r r' => AlikeEntries indices r.2 r'.2)
        (do
          let vector := freshVector x.name (← sortOf x.sort) table.size
          let r ← bindArgs table (k + 1) xs
          return (vector ++ r.1, (x.name, vector.map Expr.const) :: r.2))
        (do
          let vector := freshVector x.name (← sortOf x.sort) table'.size
          let r ← bindArgs table' (k + 1) xs
          return (vector ++ r.1, (x.name, vector.map Expr.const) :: r.2)) := by
      refine Follows.bind (R := Eq) .refl ?_
      rintro s _ rfl
      refine ih.bind fun r r' hr => .ok (.cons ⟨rfl, ?_⟩ hr)
      have hsorts : (freshVector x.name s table'.size).map Const.sort =
          List.replicate indices.length s := ht.size ▸ freshVector_sorts
      exact consts_alike ht.bound freshVector_sorts hsorts
    rw [bindArgs, bindArgs]
    dsimp only
    by_cases hxs : xs.isEmpty = true
    · rw [if_pos hxs, if_pos hxs]
      exact hfree
    · rw [if_neg hxs, if_neg hxs]
      have hcolumn := ht.inputs k
      cases hc : table.inputs[k]? with
      | none =>
        rw [hc] at hcolumn
        cases hc' : table'.inputs[k]? with
        | none => exact hfree
        | some _ => rw [hc'] at hcolumn; cases hcolumn
      | some column =>
        rw [hc] at hcolumn
        cases hc' : table'.inputs[k]? with
        | none => rw [hc'] at hcolumn; cases hcolumn
        | some column' =>
          rw [hc'] at hcolumn
          cases hcolumn with
          | some hp =>
            exact ih.bind fun r r' hr => .ok (.cons ⟨rfl, hp⟩ hr)

theorem frame_follows (ht : table.Alike indices table') (f : Function) :
    Follows (fun d d' => Scopes.Alike indices [d.scope] [d'.scope] ∧ d'.head.isBool = true)
      (f.frame table) (f.frame table') := by
  refine (bindArgs_follows ht).bind fun r r' hr => ?_
  dsimp only
  split
  · exact .error
  · refine Follows.bind (R := Eq) .refl ?_
    rintro s _ rfl
    have hempty : Scopes.Alike indices [] [] := fun _ => .none
    exact .ok ⟨hempty.cons hr, rfl⟩

namespace Signature

variable {g g' : Signature} {frame frame' : Frame}

theorem clause_follows (hg : g.Reindexed indices g')
    (hf : Scopes.Alike indices [frame.scope] [frame'.scope]) (hh : frame'.head.isBool = true)
    (t : Term) (next next' : Nat) :
    Follows (fun _ _ => True) (g.clause frame next t) (g'.clause frame' next' t) := by
  intro r hr
  obtain ⟨p, hp, hr⟩ := bind_eq_ok.mp hr
  obtain ⟨implication, himp, -⟩ := bind_eq_ok.mp hr
  obtain ⟨hbool, -⟩ := Expr.logical_eq_ok (mapError_eq_ok.mp himp)
  have hb := hbool p.formula (List.mem_cons_self ..)
  have hterm : FollowsBool Premise.formula Premise.formula (g.vectorize [frame.scope] next t)
      (g'.vectorize [frame'.scope] next' t) := vectorize_followsBool hg t hf
  obtain ⟨p', hp', hb'⟩ := hterm p hp hb
  obtain ⟨implication, himp', hbool'⟩ := mkImplies_isBool hb' hh
  obtain ⟨closed, hclosed⟩ := close_isBool (frame'.fresh ++ p'.witnesses) hbool'
  exact ⟨(closed, p'.next), bind_eq_ok.mpr ⟨p', hp', bind_eq_ok.mpr ⟨_, mapError_eq_ok.mpr himp',
    bind_eq_ok.mpr ⟨closed, mapError_eq_ok.mpr hclosed, rfl⟩⟩⟩, trivial⟩

theorem clauses_follows (hg : g.Reindexed indices g') {f : Function}
    (hf : Scopes.Alike indices [frame.scope] [frame'.scope]) (hh : frame'.head.isBool = true)
    (cs : List (MatchCase Term)) (next next' : Nat) :
    Follows (fun _ _ => True) (g.clauses f frame next cs).outcome
      (g'.clauses f frame' next' cs).outcome := by
  induction cs generalizing next next' with
  | nil => exact .ok trivial
  | cons c cs ih =>
    intro r hr
    obtain ⟨r₁, rest, hr₁, hrest, rfl⟩ := clauses_cons_eq_ok.mp hr
    obtain ⟨r₁', hr₁', -⟩ := clause_follows hg hf hh c.result next next' r₁ hr₁
    obtain ⟨rest', hrest', -⟩ := ih r₁.2 r₁'.2 rest hrest
    exact ⟨_, clauses_cons_eq_ok.mpr ⟨r₁', rest', hr₁', hrest', rfl⟩, trivial⟩

theorem encodeFunctions_follows (hg : g.Reindexed indices g') (ht : table.Alike indices table')
    (fs : List Function) (next next' : Nat) :
    Follows (fun _ _ => True) (g.encodeFunctions table next fs).outcome
      (g'.encodeFunctions table' next' fs).outcome := by
  induction fs generalizing next next' with
  | nil => exact .ok trivial
  | cons f fs ih =>
    intro clauses hc
    obtain ⟨cases, frame, r, rest, hcases, hframe, hr, hrest, rfl⟩ :=
      encodeFunctions_cons_eq_ok.mp hc
    obtain ⟨frame', hframe', hf, hh⟩ := frame_follows ht f frame hframe
    obtain ⟨r', hr', -⟩ := clauses_follows hg hf hh cases next next' r hr
    obtain ⟨rest', hrest', -⟩ := ih r.2 r'.2 rest hrest
    exact ⟨_, encodeFunctions_cons_eq_ok.mpr ⟨cases, frame', r', rest', hcases, hframe', hr',
      hrest', rfl⟩, trivial⟩

end Signature

theorem query_follows (ht : table.Alike indices table') (f : Function) :
    Follows (fun _ _ => True) (f.query table) (f.query table') := by
  intro e h
  obtain ⟨s, hs, h⟩ := bind_eq_ok.mp h
  obtain ⟨equalities, hequal, -⟩ := bind_eq_ok.mp (mapError_eq_ok.mp h)
  have hresult : ∀ x ∈ table.results, ∃ c e, c.sort = s ∧ Expr.mkEq (.const c) x = .ok e := by
    intro x hx
    obtain ⟨i, hi⟩ := List.mem_iff_getElem?.mp hx
    have hlt : i < table.size := (List.getElem?_eq_some_iff.mp hi).1
    let c : Const := ⟨copyName i resultName, none, s⟩
    have hc : (freshVector resultName s table.size)[i]? = some c := by
      rw [freshVector, List.getElem?_map, List.getElem?_range hlt]
      rfl
    have hzip : ((freshVector resultName s table.size).zip table.results)[i]? = some (c, x) :=
      List.getElem?_zip_eq_some.mpr ⟨hc, hi⟩
    obtain ⟨e, -, he⟩ := get_of_forall₂ (mapM_eq_ok.mp hequal) hzip
    exact ⟨c, e, rfl, he⟩
  have hresult' : ∀ p ∈ (freshVector resultName s table'.size).zip table'.results,
      ∃ e, Expr.mkEq (.const p.1) p.2 = .ok e := by
    intro p hp
    obtain ⟨hc, hx⟩ := List.of_mem_zip hp
    obtain ⟨i, -, y, hy, hyx⟩ := exists_of_forall₂ ht.results hx
    obtain ⟨c, e, hcs, he⟩ := hresult y (List.mem_of_getElem? hy)
    have hsort : p.1.sort = s :=
      List.eq_of_mem_replicate (freshVector_sorts ▸ List.mem_map_of_mem hc)
    have halike : Alike (.const c) (.const p.1) := hcs.trans hsort.symm
    obtain ⟨e', he', -⟩ := Expr.mkEq_sorted halike hyx e he
    exact ⟨e', he'⟩
  obtain ⟨equalities', hequal'⟩ := exists_forall₂ hresult'
  have hbool : ∀ a ∈ equalities', a.isBool = true := by
    intro a ha
    obtain ⟨p, -, hp⟩ := exists_of_forall₂ hequal' ha
    exact mkEq_isBool hp
  obtain ⟨matched, hmatched, hb⟩ := conjoin_isBool hbool
  obtain ⟨refuted, hrefuted, hb⟩ := mkNot_isBool hb
  obtain ⟨implication, himp, hb⟩ := mkImplies_isBool
    (a := .call f.name ((freshVector resultName s table'.size).map .const)) rfl hb
  obtain ⟨closed, hclosed⟩ :=
    close_isBool (freshVector resultName s table'.size) hb
  exact ⟨closed, bind_eq_ok.mpr ⟨s, hs, mapError_eq_ok.mpr (bind_eq_ok.mpr ⟨equalities',
    mapM_eq_ok.mpr hequal', bind_eq_ok.mpr ⟨matched, hmatched, bind_eq_ok.mpr ⟨refuted, hrefuted,
      bind_eq_ok.mpr ⟨implication, himp, hclosed⟩⟩⟩⟩)⟩, trivial⟩

end

/-! ## Encodings -/

namespace Problem

theorem encodes_alike {p : Problem} {rows rows' : List Term} {target : Function} {e : Encoding}
    {table' : ExampleTable} (h : p.Encodes (some rows) target e)
    (htable' : ExampleTable.ofTerms rows' = .ok table') (ht : e.examples.Alike indices table') :
    ∃ e', p.Encodes (some rows') target e' ∧ e'.examples = table' := by
  have hg : Signature.Reindexed indices ⟨e.examples.size, e.indicators⟩
      ⟨table'.size, e.indicators⟩ := ⟨ht.bound, ht.size, rfl⟩
  obtain ⟨clauses', hclauses', -⟩ := Signature.encodeFunctions_follows hg ht _ 0 0 _ h.clauses
  obtain ⟨query', hquery', -⟩ := query_follows ht target _ h.query
  have hchosen : p.targetFunction table' = .ok target := by
    rw [← h.chosen, targetFunction, targetFunction, ht.operator]
  exact ⟨⟨e.indicators, clauses', query', table', target.name⟩,
    ⟨htable', h.indicators, hchosen, hclauses', hquery', rfl⟩, rfl⟩

theorem encodes_reindexed {p : Problem} {rows rows' : List Term} {target : Function} {e : Encoding}
    (h : p.Encodes (some rows) target e) (hrows : Picked indices Eq rows rows')
    (hne : indices ≠ []) :
    ∃ e', p.Encodes (some rows') target e' ∧ e.examples.Reindexed indices e'.examples := by
  obtain ⟨table', htable', ht⟩ := ExampleTable.ofTerms_reindexed h.table hrows hne
  obtain ⟨e', he', rfl⟩ := encodes_alike h htable' ht.alike
  exact ⟨e', he', ht⟩

end Problem

end Realizability
