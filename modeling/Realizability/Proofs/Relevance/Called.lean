import Realizability.Proofs.Encoding.Premise
import Realizability.Proofs.Renaming.Expression
import Realizability.Proofs.Shape.Premise

/-!
# Called functions

A term calls a function where its name stands in an evaluated position: a call evaluates its last
argument alone. Premises and meanings of a term depend on no other indicators than those of the
functions that it calls (`Signature.vectorize_raised`, `Signature.holds_congr`).
-/

namespace Realizability

open Realizability.Expr

/-! ## Names -/

mutual

/-- The names that stand in evaluated positions and are no theory symbols. -/
def Term.called : Term → List String
  | .app ident _ args =>
    match Symbol.ofIdentifier? ident with
    | some _ => calledIn args
    | none => if ident.indices.isEmpty then ident.name :: calledLast args else []
  | .quantified .existential _ child => child.called
  | _ => []

def calledIn : List (Identifier × Term) → List String
  | [] => []
  | (_, t) :: args => t.called ++ calledIn args

def calledLast : List (Identifier × Term) → List String
  | [] => []
  | [(_, t)] => t.called
  | _ :: args => calledLast args

end

namespace Signature

variable {g g' : Signature} {names names' : List String} {ident sort : Identifier}
  {args : List (Identifier × Term)}

/-- Both signatures have the same indicators under the names. -/
structure AgreeOn (g g' : Signature) (names : List String) : Prop where
  count : g.count = g'.count
  indicator : ∀ name ∈ names, g.indicators.get? name = g'.indicators.get? name

theorem AgreeOn.mono (h : g.AgreeOn g' names) (hs : names' ⊆ names) : g.AgreeOn g' names' :=
  ⟨h.count, fun name hname => h.indicator name (hs hname)⟩

theorem AgreeOn.calls (h : g.AgreeOn g' names) (hn : ident.indices.isEmpty → ident.name ∈ names) :
    g.calls ident = g'.calls ident := by
  by_cases hi : ident.indices.isEmpty = true
  · simp [Signature.calls, Table.has, hi, h.indicator _ (hn hi)]
  · simp [Signature.calls, hi]

theorem called_symbol {s : Symbol} (hs : Symbol.ofIdentifier? ident = some s) :
    (Term.app ident sort args).called = calledIn args := by
  rw [Term.called, hs]

theorem called_plain (hs : Symbol.ofIdentifier? ident = none) (hi : ident.indices.isEmpty = true) :
    (Term.app ident sort args).called = ident.name :: calledLast args := by
  rw [Term.called, hs]
  simp [hi]

theorem mem_called (hs : Symbol.ofIdentifier? ident = none) :
    ident.indices.isEmpty → ident.name ∈ (Term.app ident sort args).called := by
  intro hi
  rw [called_plain hs hi]
  exact List.mem_cons_self ..

theorem AgreeOn.applies (h : g.AgreeOn g' (Term.app ident sort args).called) :
    (g.calls ident = true ∧ (Operator.ofName? ident.name).isNone = true) ↔
      (g'.calls ident = true ∧ (Operator.ofName? ident.name).isNone = true) := by
  by_cases hi : ident.indices.isEmpty = true
  · by_cases hn : (Operator.ofName? ident.name).isNone = true
    · rw [h.calls (mem_called (ofIdentifier?_of_isNone hi hn))]
    · simp [hn]
  · simp [Signature.calls, hi]

end Signature

/-! ## Evaluation -/

variable {σ : Renaming} {scopes scopes' : Scopes}

theorem Expr.Over.rename_eq {g : Signature} {cs : List Const} {e : Expr} (h : e.Over g cs)
    (hσ : ∀ c ∈ cs, σ.const c = c) : e.rename σ = e := by
  have hargs : ∀ {es : List Expr}, (∀ a ∈ es, a.rename σ = a) → es.map (rename σ) = es := by
    intro es hes
    rw [List.map_congr_left hes, List.map_id']
  induction h with
  | const hc => simp [hσ _ hc]
  | call _ _ _ ih => simp [hargs ih]
  | app _ _ ih => simp [hargs ih]
  | _ => simp

def Scopes.Renamed (σ : Renaming) (scopes scopes' : Scopes) : Prop :=
  ∀ x, scopes'.find? x = (scopes.find? x).map (List.map (rename σ))

theorem Scopes.Renamed.bind (h : scopes.Renamed σ scopes') (entries : List (String × List Expr)) :
    Scopes.Renamed σ (Table.ofEntries entries :: scopes)
      (Table.ofEntries (entries.map fun b => (b.1, b.2.map (rename σ))) :: scopes') := by
  intro x
  have hvalue : ((entries.map fun b => (b.1, b.2.map (rename σ))).filter (·.1 = x)).getLast?.map
      Prod.snd = ((entries.filter (·.1 = x)).getLast?.map Prod.snd).map (List.map (rename σ)) := by
    rw [List.filter_map, List.getLast?_map]
    simp [Function.comp_def]
  rw [find?_cons, find?_cons, (Table.records_ofEntries _).value, (Table.records_ofEntries _).value,
    hvalue, h x]
  cases ((entries.filter (·.1 = x)).getLast?).map Prod.snd <;> rfl

namespace Signature

variable {g g' : Signature}

theorem applySymbol_rename (ident : Identifier) (s : Symbol) (es : List Expr) :
    applySymbol ident s (es.map (rename σ)) = (applySymbol ident s es).map (rename σ) := by
  unfold applySymbol
  rw [Symbol.apply_rename]
  cases s.apply es with
  | ok e => rfl
  | error err =>
    simp only [Except.map]
    split <;> simp_all

theorem applyIndicator_rename {name : String}
    (h : g.indicators.get? name = g'.indicators.get? name) (es : List Expr) :
    g.applyIndicator name (es.map (rename σ)) = (g'.applyIndicator name es).map (rename σ) := by
  have hcoerce : ∀ s, (es.map (rename σ)).mapM (coerce s) =
      (es.mapM (coerce s)).map (List.map (rename σ)) := by
    intro s
    rw [List.mapM_map]
    exact mapM_comm (coerce_rename s) es
  unfold applyIndicator apply
  dsimp only
  rw [h, map_mapError, map_bind, hcoerce, bind_map]
  simp [pure, Except.pure, Except.map]

theorem lookup_renamed (h : scopes.Renamed σ scopes') (x : String) (i : Nat) :
    lookup scopes' x i = (lookup scopes x i).map (rename σ) := by
  unfold lookup
  rw [h x]
  cases scopes.find? x with
  | none => rfl
  | some es =>
    simp only [Option.map_some, List.getElem?_map]
    cases es[i]? <;> rfl

theorem expectLiteral_rename (hint : Option SmtSort) (t : Term) :
    (expectLiteral hint t).map (rename σ) = expectLiteral hint t := by
  have hover : Yields (Over ⟨0, []⟩ []) (expectLiteral hint t) := expectLiteral_over
  cases h : expectLiteral hint t with
  | error err => rfl
  | ok e => exact congrArg Except.ok ((hover e h).rename_eq (by simp))

mutual

theorem evaluate_renamed (h : scopes.Renamed σ scopes') : ∀ (t : Term) {hint : Option SmtSort}
    {i : Nat}, g.AgreeOn g' t.called →
    g.evaluate scopes' hint t i = (g'.evaluate scopes hint t i).map (rename σ)
  | .app ident sort args, hint, i, hg => by
    rw [evaluate, evaluate]
    cases hs : Symbol.ofIdentifier? ident with
    | some s =>
      rw [called_symbol hs] at hg
      dsimp only
      rw [evaluateArgs_renamed h args hg, bind_map, map_bind]
      simp only [applySymbol_rename]
    | none =>
      dsimp only
      rw [hg.calls (mem_called hs)]
      by_cases hc : g'.calls ident = true
      · have hi : ident.indices.isEmpty = true := by simp_all [calls]
        rw [called_plain hs hi] at hg
        rw [if_pos hc, if_pos hc, callVector_renamed h args (hg.mono (List.subset_cons_self ..)),
          bind_map, map_bind]
        simp only [applyIndicator_rename (hg.indicator _ (List.mem_cons_self ..))]
      · rw [if_neg hc, if_neg hc]
        rfl
  | .var x _, hint, i, _ => lookup_renamed h x i
  | .number _, _, _, _ | .decimal _, _, _, _ | .string _, _, _, _ | .bits .., _, _, _ =>
    (expectLiteral_rename _ _).symm
  | .quantified .., _, _, _ | .matching .., _, _, _ | .lambda .., _, _, _ => rfl

theorem evaluateArgs_renamed (h : scopes.Renamed σ scopes') :
    ∀ (args : List (Identifier × Term)) {i : Nat}, g.AgreeOn g' (calledIn args) →
    g.evaluateArgs scopes' args i = (g'.evaluateArgs scopes args i).map (List.map (rename σ))
  | [], _, _ => rfl
  | (sort, t) :: args, i, hg => by
    rw [calledIn] at hg
    rw [evaluateArgs, evaluateArgs, evaluate_renamed h t (hg.mono (List.subset_append_left ..)),
      evaluateArgs_renamed h args (hg.mono (List.subset_append_right ..)), bind_map, map_bind]
    simp only [bind_map, map_bind]
    rfl

theorem callVector_renamed (h : scopes.Renamed σ scopes') :
    ∀ (args : List (Identifier × Term)) {name : String}, g.AgreeOn g' (calledLast args) →
    g.callVector scopes' name args = (g'.callVector scopes name args).map (List.map (rename σ))
  | [], _, _ => rfl
  | [(sort, t)], _, hg => by
    rw [callVector, callVector, hg.count]
    exact mapM_comm (fun i => evaluate_renamed h t hg) _
  | _ :: b :: args, _, hg => callVector_renamed h (b :: args) hg

end

theorem call_renamed (h : scopes.Renamed σ scopes') {name : String}
    {args : List (Identifier × Term)} (hg : g.AgreeOn g' (name :: calledLast args)) :
    g.call scopes' name args = (g'.call scopes name args).map (rename σ) := by
  unfold call
  rw [callVector_renamed h args (hg.mono (List.subset_cons_self ..)), bind_map, map_bind]
  simp only [applyIndicator_rename (hg.indicator _ (List.mem_cons_self ..))]

theorem pointwise_renamed (h : scopes.Renamed σ scopes') {t : Term} (hg : g.AgreeOn g' t.called) :
    g.pointwise scopes' t = (g'.pointwise scopes t).map (rename σ) := by
  unfold pointwise
  rw [hg.count, mapM_comm fun i => evaluate_renamed h t hg, bind_map, map_bind]
  simp only [formed, conjoin_rename, map_mapError]

end Signature

/-! ## Premises -/

/-- Stamps count from a later one on. -/
def Renaming.raise (d : Nat) : Renaming where
  const c := { c with stamp := c.stamp.map (· + d) }
  sort_const _ := rfl

def Premise.raise (d : Nat) (p : Premise) : Premise where
  witnesses := p.witnesses.map (Renaming.raise d).const
  formula := p.formula.rename (.raise d)
  next := p.next + d

namespace Signature

variable {g g' : Signature} {d next : Nat}

theorem witnessVector_raised (x : String) (s : SmtSort) (n : Nat) :
    witnessVector x s n (next + d) = (witnessVector x s n next).map (Renaming.raise d).const := by
  simp [witnessVector, Renaming.raise, Nat.add_right_comm]

theorem witnesses_raised (hn : g.count = g'.count) (xs : List TypedVar) :
    g.witnesses (next + d) xs = (g'.witnesses next xs).map fun r =>
      (r.1.map (Renaming.raise d).const, r.2.1.map fun b => (b.1, b.2.map (rename (.raise d))),
        r.2.2 + d) := by
  induction xs generalizing next with
  | nil => rfl
  | cons x xs ih =>
    have hstep : next + d + g.count = next + g'.count + d := by omega
    rw [witnesses, witnesses, map_bind]
    refine congrArg _ (funext fun s => ?_)
    dsimp only
    rw [hstep, ih, bind_map, map_bind, hn]
    simp [pure, Except.pure, Except.map, witnessVector_raised, Function.comp_def]

theorem pointwise_raised (h : scopes.Renamed (.raise d) scopes') {t : Term}
    (hg : g.AgreeOn g' t.called) :
    (g.pointwise scopes' t >>= fun e => .ok ⟨[], e, next + d⟩) =
      (g'.pointwise scopes t >>= fun e => .ok ⟨[], e, next⟩).map (Premise.raise d) := by
  rw [pointwise_renamed h hg, bind_map, map_bind]
  rfl

mutual

/-- From later stamps on, premises are the same but for the stamps. -/
theorem vectorize_raised : ∀ (t : Term) {scopes scopes' : Scopes} {next : Nat},
    scopes.Renamed (.raise d) scopes' → g.AgreeOn g' t.called →
    g.vectorize scopes' (next + d) t = (g'.vectorize scopes next t).map (Premise.raise d)
  | .quantified .existential xs t, scopes, scopes', next, h, hg => by
    rw [Term.called] at hg
    rw [vectorize, vectorize, witnesses_raised hg.count, bind_map, map_bind]
    refine congrArg _ (funext fun r => ?_)
    dsimp only [scopeOf]
    rw [vectorize_raised t (h.bind r.2.1) hg, bind_map, map_bind]
    simp [pure, Except.pure, Except.map, Premise.raise]
  | .quantified .universal .., _, _, _, _, _ => rfl
  | .app ident sort args, scopes, scopes', next, h, hg => by
    have happlies := hg.applies
    rw [vectorize, vectorize]
    by_cases hand : ident = ⟨"and", []⟩ ∧ args.isEmpty = false
    · rw [if_pos hand, if_pos hand]
      have hs : Symbol.ofIdentifier? ident = some (.plain .and) := by
        rw [hand.1]
        decide
      rw [called_symbol hs] at hg
      rw [vectorizeArgs_raised args h hg, bind_map, map_bind]
      refine congrArg _ (funext fun r => ?_)
      dsimp only
      simp only [formed, conjoin_rename, map_bind, ← map_mapError, bind_map]
      rfl
    · rw [if_neg hand, if_neg hand]
      by_cases hc : g'.calls ident = true ∧ (Operator.ofName? ident.name).isNone = true
      · have hi : ident.indices.isEmpty = true := by simp_all [calls]
        rw [if_pos (happlies.mpr hc), if_pos hc, call_renamed h, bind_map, map_bind]
        · rfl
        · rwa [called_plain (ofIdentifier?_of_isNone hi hc.2) hi] at hg
      · rw [if_neg (mt happlies.mp hc), if_neg hc]
        exact pointwise_raised h hg
  | .var .., _, _, _, h, hg | .number _, _, _, _, h, hg | .decimal _, _, _, _, h, hg
  | .string _, _, _, _, h, hg | .bits .., _, _, _, h, hg | .matching .., _, _, _, h, hg
  | .lambda .., _, _, _, h, hg => pointwise_raised h hg

theorem vectorizeArgs_raised : ∀ (args : List (Identifier × Term)) {scopes scopes' : Scopes}
    {next : Nat}, scopes.Renamed (.raise d) scopes' → g.AgreeOn g' (calledIn args) →
    g.vectorizeArgs scopes' (next + d) args = (g'.vectorizeArgs scopes next args).map fun r =>
      (r.1.map (Renaming.raise d).const, r.2.1.map (rename (.raise d)), r.2.2 + d)
  | [], _, _, _, _, _ => rfl
  | (_, t) :: args, scopes, scopes', next, h, hg => by
    rw [calledIn] at hg
    rw [vectorizeArgs, vectorizeArgs, vectorize_raised t h (hg.mono (List.subset_append_left ..)),
      bind_map, map_bind]
    refine congrArg _ (funext fun p => ?_)
    dsimp only [Premise.raise]
    rw [vectorizeArgs_raised args h (hg.mono (List.subset_append_right ..)), bind_map, map_bind]
    simp [pure, Except.pure, Except.map]

end

end Signature

end Realizability
