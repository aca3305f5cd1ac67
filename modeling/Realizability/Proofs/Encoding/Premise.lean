import Realizability.Proofs.Encoding.Constant
import Realizability.Proofs.Encoding.Evaluation

/-!
# Premises

The formula of a premise holds under a valuation only if the term does, and if the term holds, then
its witnesses have values with which the formula holds, whatever else the valuation is. Since stamps
count up, these values can be given to all witnesses at once.
-/

namespace Realizability

/-! ## Scopes -/

/-- The vectors of a list of entries stand for those of a list of bindings of the same names, those
entries apart that another one of the same name follows. -/
inductive BindAlike (M : Model) (ν : Valuation) :
    List (String × List Expr) → List Binding → Prop
  | nil : BindAlike M ν [] []
  | cons {x : String} {es : List Expr} {vs : List Value} {entries : List (String × List Expr)}
    {bs : List Binding} :
    (x ∉ entries.map Prod.fst → MeanEach M ν es vs) → BindAlike M ν entries bs →
    BindAlike M ν ((x, es) :: entries) ((x, vs) :: bs)

namespace Scopes

variable {M : Model} {ν : Valuation} {scopes : Scopes} {ρ : Environment}

theorem find?_cons (t : Table (List Expr)) (scopes : Scopes) (x : String) :
    find? (t :: scopes) x = (t.get? x).or (scopes.find? x) := by
  rw [find?, List.findSome?_cons]
  cases t.get? x <;> rfl

theorem find?_put (t : Table (List Expr)) (scopes : Scopes) (x y : String) (es : List Expr) :
    find? (t.put x es :: scopes) y = if x = y then some es else find? (t :: scopes) y := by
  rw [find?_cons, find?_cons, Table.get?_put]
  split <;> rfl

theorem stand_foldl {entries : List (String × List Expr)} {bs : List Binding}
    (hb : BindAlike M ν entries bs) {t : Table (List Expr)} {ρ : Environment}
    (h : ∀ x, x ∉ entries.map Prod.fst →
      Option.Rel (MeanEach M ν) (find? (t :: scopes) x) (ρ x)) :
    Scopes.Stand M ν (entries.foldl (fun t e => t.put e.1 e.2) t :: scopes) (ρ.bind bs) := by
  induction hb generalizing t ρ with
  | nil => exact fun x => h x List.not_mem_nil
  | @cons x es vs entries bs hm _ ih =>
    refine ih ?_
    intro y hy
    rw [find?_put]
    dsimp only
    -- an entry that another one of its name follows is not seen
    by_cases hxy : x = y
    · subst hxy
      rw [if_pos rfl, if_pos rfl]
      exact .some (hm hy)
    · rw [if_neg hxy, if_neg hxy]
      refine h y ?_
      rw [List.map_cons, List.mem_cons, not_or]
      exact ⟨Ne.symm hxy, hy⟩

theorem Stand.bind (h : scopes.Stand M ν ρ) {entries : List (String × List Expr)}
    {bs : List Binding} (hb : BindAlike M ν entries bs) :
    Scopes.Stand M ν (Table.ofEntries entries :: scopes) (ρ.bind bs) := by
  refine stand_foldl hb fun x _ => ?_
  rw [find?_cons]
  exact h x

end Scopes

/-! ## Stamps -/

/-- The stamps of the constants count from `next` up to `next'`. -/
def Stamped (next : Nat) (cs : List Const) (next' : Nat) : Prop :=
  ∃ k, next' = next + k ∧ cs.map Const.stamp = (List.range' next k).map some

namespace Stamped

variable {next next' next'' : Nat} {cs ds : List Const}

theorem nil : Stamped next [] next := ⟨0, rfl, rfl⟩

theorem append (hc : Stamped next cs next') (hd : Stamped next' ds next'') :
    Stamped next (cs ++ ds) next'' := by
  obtain ⟨k, rfl, hk⟩ := hc
  obtain ⟨l, rfl, hl⟩ := hd
  refine ⟨k + l, Nat.add_assoc .., ?_⟩
  rw [List.map_append, hk, hl, ← List.map_append, List.range'_append_1]

theorem nodup (h : Stamped next cs next') : cs.Nodup := by
  obtain ⟨k, -, hk⟩ := h
  refine List.Nodup.of_map Const.stamp ?_
  rw [hk]
  exact (List.nodup_range' ..).map (Option.some_injective _)

theorem isSome (h : Stamped next cs next') {c : Const} (hc : c ∈ cs) : c.stamp.isSome = true := by
  obtain ⟨k, -, hk⟩ := h
  have : c.stamp ∈ (List.range' next k).map some := hk ▸ List.mem_map_of_mem hc
  obtain ⟨i, -, hi⟩ := List.mem_map.mp this
  rw [← hi]
  rfl

end Stamped

/-! ## Witnesses -/

namespace Signature

variable {g : Signature} {M : Model} {ν : Valuation}

theorem sortOf_eq_ok {ident : Identifier} {s : SmtSort} :
    sortOf ident = .ok s ↔ SmtSort.ofIdentifier ident = .ok s := mapError_eq_ok

theorem witnesses_stamped {xs : List TypedVar} {next : Nat}
    {r : List Const × Table (List Expr) × Nat} (h : g.witnesses next xs = .ok r) :
    Stamped next r.1 r.2.2 := by
  induction xs generalizing next r with
  | nil => cases h; exact .nil
  | cons x xs ih =>
    obtain ⟨s, -, h⟩ := bind_eq_ok.mp h
    obtain ⟨r', hr, h⟩ := bind_eq_ok.mp h
    cases h
    exact Stamped.append ⟨g.count, rfl, witnessVector_stamps⟩ (ih hr)

theorem witnesses_bound {xs : List TypedVar} {next : Nat}
    {r : List Const × Table (List Expr) × Nat} (h : g.witnesses next xs = .ok r) :
    ∃ bs, Bound g.count xs bs ∧ BindAlike M ν r.2.1 bs := by
  induction xs generalizing next r with
  | nil => cases h; exact ⟨[], .nil, .nil⟩
  | cons x xs ih =>
    obtain ⟨s, hs, h⟩ := bind_eq_ok.mp h
    obtain ⟨r', hr, h⟩ := bind_eq_ok.mp h
    cases h
    obtain ⟨bs, hb, ha⟩ := ih hr
    refine ⟨(x.name, (witnessVector x.name s g.count next).map ν.value) :: bs, ?_, ?_⟩
    · exact .cons ⟨rfl, s, sortOf_eq_ok.mp hs, isVector_values witnessVector_sorts⟩ hb
    · exact .cons (fun _ => means_consts _) ha

theorem witnesses_values {xs : List TypedVar} {next : Nat}
    {r : List Const × Table (List Expr) × Nat} (h : g.witnesses next xs = .ok r)
    {bs : List Binding} (hb : Bound g.count xs bs) :
    ∃ ws, ws.map Value.sort = r.1.map Const.sort ∧
      ∀ ν : Valuation, r.1.map ν.value = ws → BindAlike M ν r.2.1 bs := by
  induction xs generalizing next r bs with
  | nil =>
    cases h
    cases hb
    exact ⟨[], rfl, fun _ _ => .nil⟩
  | cons x xs ih =>
    obtain ⟨s, hs, h⟩ := bind_eq_ok.mp h
    obtain ⟨r', hr, h⟩ := bind_eq_ok.mp h
    cases h
    cases hb with
    | @cons _ b _ bs hx hb =>
      obtain ⟨y, vs⟩ := b
      obtain ⟨rfl, s', hs', hv⟩ := hx
      rw [← sortOf_eq_ok, hs] at hs'
      cases hs'
      obtain ⟨ws, hws, ha⟩ := ih hr hb
      have hvs : vs.map Value.sort = (witnessVector x.name s g.count next).map Const.sort := by
        rw [hv.sorts, witnessVector_sorts]
      refine ⟨vs ++ ws, by rw [List.map_append, List.map_append, hws, hvs], ?_⟩
      intro ν hν
      obtain ⟨rfl, rfl⟩ := values_append hvs hν
      exact .cons (fun _ => means_consts _) (ha ν rfl)

/-! ## Vectorized terms -/

mutual

theorem vectorize_stamped : ∀ (t : Term) {scopes : Scopes} {next : Nat} {p : Premise},
    g.vectorize scopes next t = .ok p → Stamped next p.witnesses p.next
  | .quantified .existential xs t, scopes, next, p, hp => by
    obtain ⟨r, hr, hp⟩ := bind_eq_ok.mp hp
    obtain ⟨q, hq, hp⟩ := bind_eq_ok.mp hp
    cases hp
    exact (witnesses_stamped hr).append (vectorize_stamped t hq)
  | .quantified .universal .., _, _, _, hp => by cases hp
  | .app ident sort args, scopes, next, p, hp => by
    rw [vectorize] at hp
    split at hp
    · obtain ⟨r, hr, hp⟩ := bind_eq_ok.mp hp
      obtain ⟨e, -, hp⟩ := bind_eq_ok.mp hp
      cases hp
      exact vectorizeArgs_stamped args hr
    · split at hp
      · obtain ⟨e, -, hp⟩ := bind_eq_ok.mp hp
        cases hp
        exact .nil
      · obtain ⟨e, -, hp⟩ := bind_eq_ok.mp hp
        cases hp
        exact .nil
  | .var .., _, _, _, hp | .number _, _, _, _, hp | .decimal _, _, _, _, hp
  | .string _, _, _, _, hp | .bits .., _, _, _, hp | .matching .., _, _, _, hp
  | .lambda .., _, _, _, hp => by
    obtain ⟨e, -, hp⟩ := bind_eq_ok.mp hp
    cases hp
    exact .nil

theorem vectorizeArgs_stamped : ∀ (args : List (Identifier × Term)) {scopes : Scopes} {next : Nat}
    {r : List Const × List Expr × Nat},
    g.vectorizeArgs scopes next args = .ok r → Stamped next r.1 r.2.2
  | [], _, _, _, hr => by cases hr; exact .nil
  | (_, t) :: args, scopes, next, r, hr => by
    obtain ⟨p, hp, hr⟩ := bind_eq_ok.mp hr
    obtain ⟨r', hr', hr⟩ := bind_eq_ok.mp hr
    cases hr
    exact (vectorize_stamped t hp).append (vectorizeArgs_stamped args hr')

end

mutual

/-- A term whose formula holds holds itself; its witnesses are those of its quantifiers. -/
theorem vectorize_sound : ∀ (t : Term) {scopes : Scopes} {ρ : Environment} {next : Nat}
    {p : Premise}, scopes.Stand M ν ρ → g.vectorize scopes next t = .ok p →
    p.formula.Holds M ν → g.Holds M (callsIn M.relations) ρ t
  | .quantified .existential xs t, scopes, ρ, next, p, h, hp, hh => by
    obtain ⟨r, hr, hp⟩ := bind_eq_ok.mp hp
    obtain ⟨q, hq, hp⟩ := bind_eq_ok.mp hp
    cases hp
    obtain ⟨bs, hb, ha⟩ := witnesses_bound (M := M) (ν := ν) hr
    exact ⟨bs, hb, vectorize_sound t (h.bind ha) hq hh⟩
  | .quantified .universal .., _, _, _, _, _, hp, _ => by cases hp
  | .app ident sort args, scopes, ρ, next, p, h, hp, hh => by
    rw [vectorize] at hp
    rw [Holds]
    split at hp
    · rename_i hand
      obtain ⟨r, hr, hp⟩ := bind_eq_ok.mp hp
      obtain ⟨e, he, hp⟩ := bind_eq_ok.mp hp
      cases hp
      rw [if_pos hand]
      exact vectorizeArgs_sound args h hr ((Expr.conjoin_holds (mapError_eq_ok.mp he)).mp hh)
    · rename_i hand
      rw [if_neg hand]
      split at hp
      · rename_i hcall
        obtain ⟨e, he, hp⟩ := bind_eq_ok.mp hp
        cases hp
        rw [if_pos hcall]
        exact (call_holds h he).mp hh
      · rename_i hcall
        obtain ⟨e, he, hp⟩ := bind_eq_ok.mp hp
        cases hp
        rw [if_neg hcall]
        exact (pointwise_holds h he).mp hh
  | .var .., _, _, _, _, h, hp, hh | .number _, _, _, _, _, h, hp, hh
  | .decimal _, _, _, _, _, h, hp, hh | .string _, _, _, _, _, h, hp, hh
  | .bits .., _, _, _, _, h, hp, hh | .matching .., _, _, _, _, h, hp, hh
  | .lambda .., _, _, _, _, h, hp, hh => by
    obtain ⟨e, he, hp⟩ := bind_eq_ok.mp hp
    cases hp
    exact (pointwise_holds h he).mp hh

theorem vectorizeArgs_sound : ∀ (args : List (Identifier × Term)) {scopes : Scopes}
    {ρ : Environment} {next : Nat} {r : List Const × List Expr × Nat}, scopes.Stand M ν ρ →
    g.vectorizeArgs scopes next args = .ok r → (∀ e ∈ r.2.1, e.Holds M ν) →
    g.HoldAll M (callsIn M.relations) ρ args
  | [], _, _, _, _, _, _, _ => trivial
  | (_, t) :: args, scopes, ρ, next, r, h, hr, hh => by
    obtain ⟨p, hp, hr⟩ := bind_eq_ok.mp hr
    obtain ⟨r', hr', hr⟩ := bind_eq_ok.mp hr
    cases hr
    obtain ⟨hhead, htail⟩ := List.forall_mem_cons.mp hh
    exact ⟨vectorize_sound t h hp hhead, vectorizeArgs_sound args h hr' htail⟩

end

/-- Values for constants with which, and with names standing for their vectors, all formulas hold. -/
def Witnessed (M : Model) (scopes : Scopes) (ρ : Environment) (cs : List Const)
    (formulas : List Expr) : Prop :=
  ∃ ws, ws.map Value.sort = cs.map Const.sort ∧
    ∀ ν : Valuation, scopes.Stand M ν ρ → cs.map ν.value = ws → ∀ φ ∈ formulas, φ.Holds M ν

theorem witnessed_nil {scopes : Scopes} {ρ : Environment} {φ : Expr}
    (h : ∀ ν : Valuation, scopes.Stand M ν ρ → φ.Holds M ν) : Witnessed M scopes ρ [] [φ] :=
  ⟨[], rfl, fun ν hs _ => List.forall_mem_singleton.mpr (h ν hs)⟩

theorem Witnessed.append {scopes : Scopes} {ρ : Environment} {cs ds : List Const}
    {φs ψs : List Expr} (hc : Witnessed M scopes ρ cs φs) (hd : Witnessed M scopes ρ ds ψs) :
    Witnessed M scopes ρ (cs ++ ds) (φs ++ ψs) := by
  obtain ⟨vs, hvs, hφ⟩ := hc
  obtain ⟨ws, hws, hψ⟩ := hd
  refine ⟨vs ++ ws, by rw [List.map_append, List.map_append, hvs, hws], ?_⟩
  intro ν hs hν
  obtain ⟨hvs, hws⟩ := values_append hvs hν
  exact List.forall_mem_append.mpr ⟨hφ ν hs hvs, hψ ν hs hws⟩

mutual

/-- If a term holds, there are witnesses with which its formula does. -/
theorem vectorize_complete : ∀ (t : Term) {scopes : Scopes} {ρ : Environment} {next : Nat}
    {p : Premise}, g.vectorize scopes next t = .ok p → g.Holds M (callsIn M.relations) ρ t →
    Witnessed M scopes ρ p.witnesses [p.formula]
  | .quantified .existential xs t, scopes, ρ, next, p, hp, hh => by
    obtain ⟨r, hr, hp⟩ := bind_eq_ok.mp hp
    obtain ⟨q, hq, hp⟩ := bind_eq_ok.mp hp
    cases hp
    obtain ⟨bs, hb, hh⟩ := hh
    obtain ⟨vs, hvs, ha⟩ := witnesses_values (M := M) hr hb
    obtain ⟨ws, hws, hφ⟩ := vectorize_complete t hq hh
    -- the witnesses of the variables stand in front of those in the body
    refine ⟨vs ++ ws, by rw [List.map_append, List.map_append, hvs, hws], ?_⟩
    intro ν hs hν
    obtain ⟨hvs, hws⟩ := values_append hvs hν
    exact hφ ν (hs.bind (ha ν hvs)) hws
  | .quantified .universal .., _, _, _, _, hp, _ => by cases hp
  | .app ident sort args, scopes, ρ, next, p, hp, hh => by
    rw [vectorize] at hp
    rw [Holds] at hh
    split at hp
    · rename_i hand
      obtain ⟨r, hr, hp⟩ := bind_eq_ok.mp hp
      obtain ⟨e, he, hp⟩ := bind_eq_ok.mp hp
      cases hp
      rw [if_pos hand] at hh
      obtain ⟨ws, hws, hφ⟩ := vectorizeArgs_complete args hr hh
      refine ⟨ws, hws, fun ν hs hν => List.forall_mem_singleton.mpr ?_⟩
      exact (Expr.conjoin_holds (mapError_eq_ok.mp he)).mpr (hφ ν hs hν)
    · rename_i hand
      rw [if_neg hand] at hh
      split at hp
      · rename_i hcall
        obtain ⟨e, he, hp⟩ := bind_eq_ok.mp hp
        cases hp
        rw [if_pos hcall] at hh
        exact witnessed_nil fun ν hs => (call_holds hs he).mpr hh
      · rename_i hcall
        obtain ⟨e, he, hp⟩ := bind_eq_ok.mp hp
        cases hp
        rw [if_neg hcall] at hh
        exact witnessed_nil fun ν hs => (pointwise_holds hs he).mpr hh
  | .var .., _, _, _, _, hp, hh | .number _, _, _, _, _, hp, hh
  | .decimal _, _, _, _, _, hp, hh | .string _, _, _, _, _, hp, hh
  | .bits .., _, _, _, _, hp, hh | .matching .., _, _, _, _, hp, hh
  | .lambda .., _, _, _, _, hp, hh => by
    obtain ⟨e, he, hp⟩ := bind_eq_ok.mp hp
    cases hp
    exact witnessed_nil fun ν hs => (pointwise_holds hs he).mpr hh

theorem vectorizeArgs_complete : ∀ (args : List (Identifier × Term)) {scopes : Scopes}
    {ρ : Environment} {next : Nat} {r : List Const × List Expr × Nat},
    g.vectorizeArgs scopes next args = .ok r → g.HoldAll M (callsIn M.relations) ρ args →
    Witnessed M scopes ρ r.1 r.2.1
  | [], _, _, _, _, hr, _ => by
    cases hr
    exact ⟨[], rfl, fun _ _ _ _ hφ => absurd hφ List.not_mem_nil⟩
  | (_, t) :: args, scopes, ρ, next, r, hr, hh => by
    obtain ⟨p, hp, hr⟩ := bind_eq_ok.mp hr
    obtain ⟨r', hr', hr⟩ := bind_eq_ok.mp hr
    cases hr
    exact (vectorize_complete t hp hh.1).append (vectorizeArgs_complete args hr' hh.2)

end

end Signature

end Realizability
