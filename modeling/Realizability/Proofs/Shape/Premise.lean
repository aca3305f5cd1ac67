import Realizability.Proofs.Encoding.Premise
import Realizability.Proofs.Shape.Expression

/-!
# What premises are made of

A premise is a formula over the constants in scope and its witnesses (`vectorize_over`). There is a
witness per example for each variable that an existential of the term binds, in the order in which
the existentials stand, those apart that stand in arguments which a call has no use for
(`vectorize_copied`).
-/

namespace Realizability

open Realizability.Expr

/-! ## Existentials -/

mutual

/-- The variables that existentials bind, from left to right and from outside to inside. Of the
arguments of an application that `discards` holds of, only the last counts. -/
def Term.existentials (discards : Identifier → Bool) : Term → List TypedVar
  | .app ident _ args =>
    if discards ident then finalExistentials discards args else argExistentials discards args
  | .quantified .existential bindings child => bindings ++ child.existentials discards
  | .quantified .universal _ child => child.existentials discards
  | .matching scrutinee cases => scrutinee.existentials discards ++ caseExistentials discards cases
  | .lambda _ body => body.existentials discards
  | .var .. => []
  | .number _ => []
  | .decimal _ => []
  | .string _ => []
  | .bits .. => []

def argExistentials (discards : Identifier → Bool) : List (Identifier × Term) → List TypedVar
  | [] => []
  | (_, t) :: args => t.existentials discards ++ argExistentials discards args

def finalExistentials (discards : Identifier → Bool) : List (Identifier × Term) → List TypedVar
  | [] => []
  | [(_, t)] => t.existentials discards
  | _ :: args => finalExistentials discards args

def caseExistentials (discards : Identifier → Bool) : List (MatchCase Term) → List TypedVar
  | [] => []
  | ⟨_, _, result⟩ :: cases => result.existentials discards ++ caseExistentials discards cases

end

namespace Signature

variable {g : Signature} {ident : Identifier}

/-- A nested call has no use for its arguments in front of the last. -/
def discards (g : Signature) (ident : Identifier) : Bool :=
  (Symbol.ofIdentifier? ident).isNone && g.calls ident

theorem discards_symbol {s : Symbol} (h : Symbol.ofIdentifier? ident = some s) :
    g.discards ident = false := by simp [discards, h]

theorem ofIdentifier?_of_isNone (hi : ident.indices.isEmpty = true)
    (hn : (Operator.ofName? ident.name).isNone = true) : Symbol.ofIdentifier? ident = none := by
  rw [Symbol.ofIdentifier?, if_pos hi, Option.isNone_iff_eq_none.mp hn]
  rfl

theorem discards_call (hc : g.calls ident = true)
    (h : (Operator.ofName? ident.name).isNone = true) : g.discards ident = true := by
  have hi : ident.indices.isEmpty = true := (Bool.and_eq_true_iff.mp hc).1
  simp [discards, ofIdentifier?_of_isNone hi h, hc]

end Signature

/-! ## Copies of variables -/

/-- The constant is the copy of a variable for example `i`. -/
structure Const.IsCopy (c : Const) (stamped : Bool) (x : TypedVar) (i : Nat) : Prop where
  base : c.base = copyName i x.name
  sort : SmtSort.ofIdentifier x.sort = .ok c.sort
  stamp : c.stamp.isSome = stamped

/-- One copy of a variable per example. -/
def IsCopyVector (n : Nat) (stamped : Bool) (x : TypedVar) (cs : List Const) : Prop :=
  List.Forall₂ (fun i c => c.IsCopy stamped x i) (List.range n) cs

/-- One copy per example of each variable in turn. -/
inductive Copied (n : Nat) (stamped : Bool) : List TypedVar → List Const → Prop
  | nil : Copied n stamped [] []
  | cons {x : TypedVar} {xs : List TypedVar} {vector cs : List Const}
    (h : IsCopyVector n stamped x vector) (hs : Copied n stamped xs cs) :
    Copied n stamped (x :: xs) (vector ++ cs)

theorem IsCopyVector.length {n : Nat} {stamped : Bool} {x : TypedVar} {cs : List Const}
    (h : IsCopyVector n stamped x cs) : cs.length = n := by
  simpa using (List.Forall₂.length_eq h).symm

theorem isCopyVector_fresh {n : Nat} {x : TypedVar} {s : SmtSort}
    (h : SmtSort.ofIdentifier x.sort = .ok s) :
    IsCopyVector n false x (freshVector x.name s n) := by
  rw [IsCopyVector, freshVector, List.forall₂_map_right_iff, List.forall₂_same]
  exact fun i _ => ⟨rfl, h, rfl⟩

theorem isCopyVector_witness {n next : Nat} {x : TypedVar} {s : SmtSort}
    (h : SmtSort.ofIdentifier x.sort = .ok s) :
    IsCopyVector n true x (witnessVector x.name s n next) := by
  rw [IsCopyVector, witnessVector, List.forall₂_map_right_iff, List.forall₂_same]
  exact fun i _ => ⟨rfl, h, rfl⟩

namespace Copied

variable {n : Nat} {stamped : Bool} {xs ys : List TypedVar} {cs ds : List Const}

theorem append (hc : Copied n stamped xs cs) (hd : Copied n stamped ys ds) :
    Copied n stamped (xs ++ ys) (cs ++ ds) := by
  induction hc with
  | nil => exact hd
  | cons h _ ih =>
    rw [List.cons_append, List.append_assoc]
    exact .cons h ih

theorem length (h : Copied n stamped xs cs) : cs.length = n * xs.length := by
  induction h with
  | nil => simp
  | cons h _ ih =>
    rw [List.length_append, List.length_cons, h.length, ih, Nat.mul_succ, Nat.add_comm]

theorem of_nil (h : 0 < n → xs = []) : Copied n stamped xs [] := by
  cases n with
  | zero =>
    clear h
    induction xs with
    | nil => exact .nil
    | cons x xs ih =>
      have hnil : IsCopyVector 0 stamped x [] := .nil
      exact .cons hnil ih
  | succ n =>
    rw [h n.succ_pos]
    exact .nil

end Copied

/-! ## Scopes -/

/-- The vectors in scope are formulas over some constants. -/
def Scopes.Over (g : Signature) (cs : List Const) (scopes : Scopes) : Prop :=
  ∀ x es, scopes.find? x = some es → OverEach g cs es

namespace Scopes

variable {g : Signature} {cs ds : List Const} {scopes : Scopes}

theorem over_nil : Over g cs [] := by
  intro x es h
  cases h

theorem Over.bind (h : scopes.Over g cs) {entries : List (String × List Expr)}
    (he : ∀ entry ∈ entries, OverEach g ds entry.2) :
    Over g (cs ++ ds) (Table.ofEntries entries :: scopes) := by
  intro x es hx
  rw [find?_cons, Option.or_eq_some_iff] at hx
  rcases hx with hx | ⟨-, hx⟩
  · rw [(Table.records_ofEntries entries).value] at hx
    obtain ⟨entry, hentry, rfl⟩ := Option.map_eq_some_iff.mp hx
    have hmem := List.mem_of_mem_filter (List.mem_of_getLast? hentry)
    exact fun e hes => (he entry hmem e hes).mono (List.subset_append_right ..)
  · exact fun e hes => (h x es hx e hes).mono (List.subset_append_left ..)

theorem over_consts {vector : List Const} (h : vector ⊆ cs) :
    OverEach g cs (vector.map .const) := by
  intro e he
  obtain ⟨c, hc, rfl⟩ := List.mem_map.mp he
  exact .const (h hc)

end Scopes

/-! ## Values -/

theorem literal?_over {g : Signature} {cs : List Const} {sort : Option SmtSort} {t : Term}
    {e : Expr} (h : literal? sort t = .ok (some e)) : e.Over g cs := by
  have hnumber : ∀ n, (numberAt sort n).Over g cs := by
    intro n
    unfold numberAt
    split
    · exact .bits _ _
    · exact .real _
    · exact .int _
  have hdecimal : ∀ {x : Binary64}, some <$> decimalValue x = .ok (some e) → e.Over g cs := by
    intro x hx
    obtain ⟨e', he', h⟩ := map_eq_ok.mp hx
    obtain ⟨q, -, rfl⟩ := decimalValue_eq_ok he'
    cases h
    exact .real q
  unfold literal? at h
  split at h
  · cases h; exact hnumber _
  · exact hdecimal h
  · cases h; exact .text _
  · cases h; exact .bits _ _
  · split at h
    · cases h; exact truth_over true
    · split at h
      · cases h; exact truth_over false
      · cases h
  · split at h
    · split at h
      · cases h; exact hnumber _
      · exact hdecimal h
      · cases h
    · cases h
  · cases h

namespace Signature

variable {g : Signature} {scopes : Scopes} {cs : List Const}

theorem expectLiteral_over {hint : Option SmtSort} {t : Term} :
    Yields (Over g cs) (expectLiteral hint t) :=
  fun _ he => literal?_over (expectLiteral_eq_ok.mp he)

theorem lookup_over (h : scopes.Over g cs) {x : String} {i : Nat} :
    Yields (Over g cs) (lookup scopes x i) := by
  unfold lookup
  split
  · exact .error
  · rename_i es hes
    split
    · rename_i e he
      exact .ok (h x es hes e (List.mem_of_getElem? he))
    · exact .error

/-- The vector that an indicator is applied to is as long as there are examples. -/
def OverVector (g : Signature) (cs : List Const) (es : List Expr) : Prop :=
  OverEach g cs es ∧ es.length = g.count

theorem applyIndicator_over {ident : Identifier} (hc : g.calls ident = true) {es : List Expr}
    (h : g.OverVector cs es) : Yields (Over g cs) (g.applyIndicator ident.name es) := by
  intro e he
  obtain ⟨es', hes, he⟩ := bind_eq_ok.mp (mapError_eq_ok.mp he)
  cases he
  rw [calls, Bool.and_eq_true, Table.has, Option.isSome_iff_exists] at hc
  obtain ⟨-, s, hs⟩ := hc
  rw [hs, Option.getD_some] at hes
  have hsorts : ∀ a ∈ es', a.sort = s := by
    intro a ha
    obtain ⟨b, -, hb⟩ := exists_of_forall₂ (mapM_eq_ok.mp hes) ha
    exact sort_of_coerce hb
  refine .call (Table.mem_of_get? hs) ?_ (Yields.mapM (fun a ha => coerce_over (h.1 a ha)) es' hes)
  have hlength : es'.length = g.count := by
    rw [← (mapM_eq_ok.mp hes).length_eq, h.2]
  rw [List.eq_replicate_iff, List.length_map]
  exact ⟨hlength, by simpa using hsorts⟩

mutual

theorem evaluate_over (h : scopes.Over g cs) : ∀ (t : Term) {hint : Option SmtSort} {i : Nat},
    Yields (Over g cs) (g.evaluate scopes hint t i)
  | .app ident _ args, _, _ => by
    rw [evaluate]
    split
    · refine (evaluateArgs_over h args).bind fun es hes => ?_
      exact fun e he => Symbol.apply_over hes e (applySymbol_eq_ok.mp he)
    · split
      · rename_i hc
        exact (callVector_over h args).bind fun es hes => applyIndicator_over hc hes
      · exact .error
  | .var .., _, _ => lookup_over h
  | .number _, _, _ | .decimal _, _, _ | .string _, _, _ | .bits .., _, _ => expectLiteral_over
  | .quantified .., _, _ => .error
  | .matching .., _, _ => .error
  | .lambda .., _, _ => .error

theorem evaluateArgs_over (h : scopes.Over g cs) : ∀ (args : List (Identifier × Term)) {i : Nat},
    Yields (OverEach g cs) (g.evaluateArgs scopes args i)
  | [], _ => .ok each_nil
  | (_, t) :: args, _ => (evaluate_over h t).bind fun _ he => (evaluateArgs_over h args).bind
    fun _ hes => .ok (each_cons he hes)

theorem callVector_over (h : scopes.Over g cs) : ∀ (args : List (Identifier × Term))
    {name : String}, Yields (g.OverVector cs) (g.callVector scopes name args)
  | [], _ => .error
  | [(_, t)], _ => by
    intro es hes
    rw [callVector] at hes
    refine ⟨Yields.mapM (fun i _ => evaluate_over h t) es hes, ?_⟩
    rw [← (mapM_eq_ok.mp hes).length_eq, List.length_range]
  | _ :: a :: args, _ => callVector_over h (a :: args)

end

theorem pointwise_over (h : scopes.Over g cs) {t : Term} :
    Yields (Over g cs) (g.pointwise scopes t) := by
  have hvalues : Yields (OverEach g cs) ((List.range g.count).mapM (g.evaluate scopes none t)) :=
    Yields.mapM fun i _ => evaluate_over h t
  exact hvalues.bind fun es hes => (conjoin_over hes).mapError

/-! ## Witnesses -/

theorem witnesses_over {g' : Signature} {xs : List TypedVar} {next : Nat}
    {r : List Const × Table (List Expr) × Nat} (h : g.witnesses next xs = .ok r) :
    ∀ entry ∈ r.2.1, OverEach g' r.1 entry.2 := by
  induction xs generalizing next r with
  | nil =>
    cases h
    simp
  | cons x xs ih =>
    obtain ⟨s, -, h⟩ := bind_eq_ok.mp h
    obtain ⟨r', hr, h⟩ := bind_eq_ok.mp h
    cases h
    refine List.forall_mem_cons.mpr ⟨Scopes.over_consts (List.subset_append_left ..), ?_⟩
    exact fun entry he e hes => (ih hr entry he e hes).mono (List.subset_append_right ..)

theorem witnesses_copied {xs : List TypedVar} {next : Nat}
    {r : List Const × Table (List Expr) × Nat} (h : g.witnesses next xs = .ok r) :
    Copied g.count true xs r.1 := by
  induction xs generalizing next r with
  | nil =>
    cases h
    exact .nil
  | cons x xs ih =>
    obtain ⟨s, hs, h⟩ := bind_eq_ok.mp h
    obtain ⟨r', hr, h⟩ := bind_eq_ok.mp h
    cases h
    exact .cons (isCopyVector_witness (sortOf_eq_ok.mp hs)) (ih hr)

/-! ## Variables of existentials -/

mutual

/-- A term with a value for an example has no existentials but those that calls discard. -/
theorem evaluate_existentials (hn : 0 < g.count) : ∀ (t : Term) {hint : Option SmtSort} {i : Nat}
    {e : Expr}, g.evaluate scopes hint t i = .ok e → t.existentials g.discards = []
  | .app ident _ args, _, _, _, he => by
    rw [evaluate] at he
    split at he
    · rename_i s hs
      obtain ⟨es, hes, -⟩ := bind_eq_ok.mp he
      rw [Term.existentials, discards_symbol hs]
      exact evaluateArgs_existentials hn args hes
    · rename_i hs
      split at he
      · rename_i hc
        obtain ⟨es, hes, -⟩ := bind_eq_ok.mp he
        have hd : g.discards ident = true := by simp [discards, hs, hc]
        rw [Term.existentials, if_pos hd]
        exact callVector_existentials hn args hes
      · cases he
  | .var .., _, _, _, _ | .number _, _, _, _, _ | .decimal _, _, _, _, _ | .string _, _, _, _, _
  | .bits .., _, _, _, _ => rfl
  | .quantified .., _, _, _, he | .matching .., _, _, _, he | .lambda .., _, _, _, he => by cases he

theorem evaluateArgs_existentials (hn : 0 < g.count) : ∀ (args : List (Identifier × Term)) {i : Nat}
    {es : List Expr}, g.evaluateArgs scopes args i = .ok es → argExistentials g.discards args = []
  | [], _, _, _ => rfl
  | (_, t) :: args, _, _, hes => by
    obtain ⟨e, he, hes⟩ := bind_eq_ok.mp hes
    obtain ⟨es', hes', -⟩ := bind_eq_ok.mp hes
    rw [argExistentials, evaluate_existentials hn t he, evaluateArgs_existentials hn args hes']
    rfl

theorem callVector_existentials (hn : 0 < g.count) : ∀ (args : List (Identifier × Term))
    {name : String} {es : List Expr},
    g.callVector scopes name args = .ok es → finalExistentials g.discards args = []
  | [], _, _, _ => rfl
  | [(_, t)], _, es, hes => by
    rw [callVector] at hes
    obtain ⟨e, he⟩ := mapM_ok_iff.mp ⟨es, hes⟩ 0 (List.mem_range.mpr hn)
    exact evaluate_existentials hn t he
  | _ :: a :: args, _, _, hes => callVector_existentials hn (a :: args) hes

end

theorem pointwise_copied {t : Term} {e : Expr} (h : g.pointwise scopes t = .ok e) :
    Copied g.count true (t.existentials g.discards) [] := by
  refine .of_nil fun hn => ?_
  obtain ⟨es, hes, -⟩ := bind_eq_ok.mp h
  obtain ⟨e', he'⟩ := mapM_ok_iff.mp ⟨es, hes⟩ 0 (List.mem_range.mpr hn)
  exact evaluate_existentials hn t he'

mutual

theorem vectorize_copied : ∀ (t : Term) {scopes : Scopes} {next : Nat} {p : Premise},
    g.vectorize scopes next t = .ok p →
    Copied g.count true (t.existentials g.discards) p.witnesses
  | .quantified .existential xs t, scopes, next, p, hp => by
    obtain ⟨r, hr, hp⟩ := bind_eq_ok.mp hp
    obtain ⟨q, hq, hp⟩ := bind_eq_ok.mp hp
    cases hp
    exact (witnesses_copied hr).append (vectorize_copied t hq)
  | .quantified .universal .., _, _, _, hp => by cases hp
  | .app ident sort args, scopes, next, p, hp => by
    rw [vectorize] at hp
    split at hp
    · rename_i hand
      obtain ⟨r, hr, hp⟩ := bind_eq_ok.mp hp
      obtain ⟨e, -, hp⟩ := bind_eq_ok.mp hp
      cases hp
      have hs : Symbol.ofIdentifier? ident = some (.plain .and) := by rw [hand.1]; rfl
      rw [Term.existentials, discards_symbol hs]
      exact vectorizeArgs_copied args hr
    · split at hp
      · rename_i hcall
        obtain ⟨e, he, hp⟩ := bind_eq_ok.mp hp
        cases hp
        obtain ⟨es, hes, -⟩ := bind_eq_ok.mp he
        rw [Term.existentials, discards_call hcall.1 hcall.2]
        exact .of_nil fun hn => callVector_existentials hn args hes
      · obtain ⟨e, he, hp⟩ := bind_eq_ok.mp hp
        cases hp
        exact pointwise_copied he
  | .var .., _, _, _, hp | .number _, _, _, _, hp | .decimal _, _, _, _, hp
  | .string _, _, _, _, hp | .bits .., _, _, _, hp | .matching .., _, _, _, hp
  | .lambda .., _, _, _, hp => by
    obtain ⟨e, he, hp⟩ := bind_eq_ok.mp hp
    cases hp
    exact pointwise_copied he

theorem vectorizeArgs_copied : ∀ (args : List (Identifier × Term)) {scopes : Scopes} {next : Nat}
    {r : List Const × List Expr × Nat}, g.vectorizeArgs scopes next args = .ok r →
    Copied g.count true (argExistentials g.discards args) r.1
  | [], _, _, _, hr => by
    cases hr
    exact .nil
  | (_, t) :: args, scopes, next, r, hr => by
    obtain ⟨p, hp, hr⟩ := bind_eq_ok.mp hr
    obtain ⟨r', hr', hr⟩ := bind_eq_ok.mp hr
    cases hr
    exact (vectorize_copied t hp).append (vectorizeArgs_copied args hr')

end

/-! ## Premises -/

mutual

/-- A premise is a formula over the constants in scope and its witnesses. -/
theorem vectorize_over : ∀ (t : Term) {scopes : Scopes} {cs : List Const} {next : Nat}
    {p : Premise}, scopes.Over g cs → g.vectorize scopes next t = .ok p → p.formula.Over g (cs ++ p.witnesses)
  | .quantified .existential xs t, scopes, cs, next, p, h, hp => by
    obtain ⟨r, hr, hp⟩ := bind_eq_ok.mp hp
    obtain ⟨q, hq, hp⟩ := bind_eq_ok.mp hp
    cases hp
    have := vectorize_over t (h.bind (witnesses_over hr)) hq
    rwa [List.append_assoc] at this
  | .quantified .universal .., _, _, _, _, _, hp => by cases hp
  | .app ident sort args, scopes, cs, next, p, h, hp => by
    rw [vectorize] at hp
    split at hp
    · obtain ⟨r, hr, hp⟩ := bind_eq_ok.mp hp
      obtain ⟨e, he, hp⟩ := bind_eq_ok.mp hp
      cases hp
      exact conjoin_over (vectorizeArgs_over args h hr) e (mapError_eq_ok.mp he)
    · split at hp
      · rename_i hcall
        obtain ⟨e, he, hp⟩ := bind_eq_ok.mp hp
        cases hp
        rw [List.append_nil]
        exact (callVector_over h args).bind (fun es hes => applyIndicator_over hcall.1 hes) e he
      · obtain ⟨e, he, hp⟩ := bind_eq_ok.mp hp
        cases hp
        rw [List.append_nil]
        exact pointwise_over h e he
  | .var .., _, _, _, _, h, hp | .number _, _, _, _, _, h, hp | .decimal _, _, _, _, _, h, hp
  | .string _, _, _, _, _, h, hp | .bits .., _, _, _, _, h, hp | .matching .., _, _, _, _, h, hp
  | .lambda .., _, _, _, _, h, hp => by
    obtain ⟨e, he, hp⟩ := bind_eq_ok.mp hp
    cases hp
    rw [List.append_nil]
    exact pointwise_over h e he

theorem vectorizeArgs_over : ∀ (args : List (Identifier × Term)) {scopes : Scopes}
    {cs : List Const} {next : Nat} {r : List Const × List Expr × Nat}, scopes.Over g cs →
    g.vectorizeArgs scopes next args = .ok r → OverEach g (cs ++ r.1) r.2.1
  | [], _, _, _, _, _, hr => by
    cases hr
    exact each_nil
  | (_, t) :: args, scopes, cs, next, r, h, hr => by
    obtain ⟨p, hp, hr⟩ := bind_eq_ok.mp hr
    obtain ⟨r', hr', hr⟩ := bind_eq_ok.mp hr
    cases hr
    refine each_cons ((vectorize_over t h hp).mono ?_) fun e he => ?_
    · rw [← List.append_assoc]
      exact List.subset_append_left ..
    · refine (vectorizeArgs_over args h hr' e he).mono ?_
      exact List.append_subset.mpr ⟨List.subset_append_left .., fun c hc => by simp [hc]⟩

end

end Signature

end Realizability
