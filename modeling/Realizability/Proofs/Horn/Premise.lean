import Realizability.Proofs.Horn.Polarity
import Realizability.Proofs.Shape.Premise

/-!
# Calls in the terms of premises

Where the calls of a term stand in its premise can be read off the term: below each symbol they have
to meet its demands (`vectorize_positive`). Without examples nothing is evaluated, and no premise
has calls but those in conjunctive positions (`vectorize_positive_of_zero`).
-/

namespace Realizability

open Realizability.Expr

/-! ## Terms -/

mutual

/-- The term calls nothing that its value depends on. -/
def Term.silent : Term → Bool
  | .app ident _ args =>
    match Symbol.ofIdentifier? ident with
    | some s => silentArgs (s.demands args.length) args
    | none => false
  | .quantified _ _ child => child.silent
  | .var .. | .number _ | .decimal _ | .string _ | .bits .. | .matching .. | .lambda .. => true

def silentArgs : List Demand → List (Identifier × Term) → Bool
  | _ :: ds, (_, t) :: args => t.silent && silentArgs ds args
  | _, _ => true

end

def silentLast : List (Identifier × Term) → Bool
  | [] => true
  | [(_, t)] => t.silent
  | _ :: args => silentLast args

mutual

/-- The term calls functions in positive positions only. -/
def Term.positive : Term → Bool
  | .app ident _ args =>
    match Symbol.ofIdentifier? ident with
    | some s => positiveArgs (s.demands args.length) args
    | none => silentLast args
  | .quantified _ _ child => child.positive
  | .var .. | .number _ | .decimal _ | .string _ | .bits .. | .matching .. | .lambda .. => true

def positiveArgs : List Demand → List (Identifier × Term) → Bool
  | .free :: ds, (_, t) :: args => t.silent && positiveArgs ds args
  | .positive :: ds, (_, t) :: args => t.positive && positiveArgs ds args
  | _, _ => true

end

section
variable {ident sort : Identifier} {args : List (Identifier × Term)} {s : Symbol}

theorem silent_symbol (hs : Symbol.ofIdentifier? ident = some s) :
    (Term.app ident sort args).silent = silentArgs (s.demands args.length) args := by
  rw [Term.silent, hs]

theorem silent_call (hs : Symbol.ofIdentifier? ident = none) :
    (Term.app ident sort args).silent = false := by
  rw [Term.silent, hs]

theorem positive_symbol (hs : Symbol.ofIdentifier? ident = some s) :
    (Term.app ident sort args).positive = positiveArgs (s.demands args.length) args := by
  rw [Term.positive, hs]

theorem positive_call (hs : Symbol.ofIdentifier? ident = none) :
    (Term.app ident sort args).positive = silentLast args := by
  rw [Term.positive, hs]

end

/-! ## Expressions without calls -/

namespace Expr

mutual

theorem positive_of_callFree : ∀ e : Expr, e.callFree = true → e.positive = true
  | call .., h => by simp [callFree] at h
  | app op args, h => by
    have hargs := positive_of_callFreeEach args
    rw [callFree] at h
    unfold positive
    split <;> simp_all
  | forAll _ body, h => by
    rw [callFree] at h
    rw [positive, positive_of_callFree body h]
  | int _, _ | real _, _ | bits .., _ | text _, _ | const _, _ => by simp [positive]

theorem positive_of_callFreeEach : ∀ es : List Expr,
    callFreeEach es = true → positiveEach es = true
  | [], _ => by simp [positiveEach]
  | e :: es, h => by
    rw [callFreeEach, Bool.and_eq_true] at h
    rw [positiveEach, positive_of_callFree e h.1, positive_of_callFreeEach es h.2]
    rfl

end

theorem Over.callFree {n : Nat} {cs : List Const} {e : Expr} (h : e.Over ⟨n, []⟩ cs) :
    e.callFree = true := by
  induction h with
  | call hname => cases hname
  | app op _ ih => simpa using ih
  | _ => simp [Expr.callFree]

end Expr

/-! ## Evaluation -/

theorem all_of_range {ε α : Type} {n : Nat} (hn : 0 < n) {f : Nat → Except ε α} {p : α → Bool}
    {q : Bool} {as : List α} (hf : ∀ a ∈ as, ∀ i, f i = .ok a → p a = q)
    (h : (List.range n).mapM f = .ok as) : as.all p = q := by
  have hall : ∀ a ∈ as, p a = q := by
    intro a ha
    obtain ⟨i, -, hi⟩ := exists_of_forall₂ (mapM_eq_ok.mp h) ha
    exact hf a ha i hi
  have hne : as ≠ [] := by
    have hlength := (mapM_eq_ok.mp h).length_eq
    rw [List.length_range] at hlength
    exact List.ne_nil_of_length_pos (hlength ▸ hn)
  obtain ⟨a, ha⟩ := List.exists_mem_of_ne_nil as hne
  cases q with
  | true => exact List.all_eq_true.mpr hall
  | false => exact List.all_eq_false.mpr ⟨a, ha, by simp [hall a ha]⟩

namespace Signature

variable {g : Signature} {scopes : Scopes} {cs : List Const}

theorem length_evaluateArgs {args : List (Identifier × Term)} {i : Nat} {es : List Expr}
    (h : g.evaluateArgs scopes args i = .ok es) : es.length = args.length := by
  induction args generalizing es with
  | nil =>
    cases h
    rfl
  | cons a args ih =>
    obtain ⟨e, -, h⟩ := bind_eq_ok.mp h
    obtain ⟨es', hes, h⟩ := bind_eq_ok.mp h
    cases h
    simp [ih hes]

theorem callFree_of_expectLiteral {hint : Option SmtSort} {t : Term} {e : Expr}
    (h : expectLiteral hint t = .ok e) : e.callFree = true := by
  have hover : e.Over ⟨0, []⟩ [] := expectLiteral_over e h
  exact hover.callFree

theorem applyIndicator_eq_ok {name : String} {es : List Expr} {e : Expr}
    (h : g.applyIndicator name es = .ok e) :
    ∃ es', e = .call name es' ∧ es'.all Expr.callFree = es.all Expr.callFree := by
  obtain ⟨es', hes, h⟩ := bind_eq_ok.mp (mapError_eq_ok.mp h)
  cases h
  have hall := (mapM_eq_ok.mp hes).imp fun _ _ ha => callFree_of_coerce ha
  exact ⟨es', rfl, all_callFree_of_forall₂ hall⟩

theorem callFree_of_lookup (h : scopes.Over ⟨g.count, []⟩ cs) {x : String} {i : Nat} {e : Expr}
    (he : lookup scopes x i = .ok e) : e.callFree = true := (lookup_over h e he).callFree

mutual

/-- The value of a term has a call iff the term is not silent. -/
theorem evaluate_silent (h : scopes.Over ⟨g.count, []⟩ cs) :
    ∀ (t : Term) {hint : Option SmtSort} {i : Nat} {e : Expr},
    g.evaluate scopes hint t i = .ok e → e.callFree = t.silent
  | .app ident sort args, _, i, e, he => by
    rw [evaluate] at he
    split at he
    · rename_i s hs
      obtain ⟨es, hes, he⟩ := bind_eq_ok.mp he
      rw [silent_symbol hs, Symbol.callFree_apply (applySymbol_eq_ok.mp he),
        length_evaluateArgs hes, evaluateArgs_silent h args _ hes]
    · rename_i hs
      split at he
      · obtain ⟨es, -, he⟩ := bind_eq_ok.mp he
        obtain ⟨es', rfl, -⟩ := applyIndicator_eq_ok he
        rw [silent_call hs, Expr.callFree]
      · cases he
  | .var .., _, _, _, he => by rw [callFree_of_lookup h he, Term.silent]
  | .number _, _, _, _, he | .decimal _, _, _, _, he | .string _, _, _, _, he
  | .bits .., _, _, _, he => by rw [callFree_of_expectLiteral he, Term.silent]
  | .quantified .., _, _, _, he | .matching .., _, _, _, he | .lambda .., _, _, _, he => by cases he

theorem evaluateArgs_silent (h : scopes.Over ⟨g.count, []⟩ cs) :
    ∀ (args : List (Identifier × Term)) (ds : List Demand) {i : Nat} {es : List Expr},
    g.evaluateArgs scopes args i = .ok es →
    demandsMet Expr.callFree Expr.callFree ds es = silentArgs ds args
  | [], ds, _, es, hes => by
    cases hes
    rcases ds with _ | ⟨⟨⟩, ds⟩ <;> rfl
  | (_, t) :: args, ds, _, es, hes => by
    obtain ⟨e, he, hes⟩ := bind_eq_ok.mp hes
    obtain ⟨es', hes', hes⟩ := bind_eq_ok.mp hes
    cases hes
    cases ds with
    | nil => rfl
    | cons d ds =>
      rw [silentArgs, ← evaluate_silent h t he, ← evaluateArgs_silent h args ds hes']
      cases d <;> rfl

end

theorem callVector_silent (h : scopes.Over ⟨g.count, []⟩ cs) (hn : 0 < g.count) :
    ∀ (args : List (Identifier × Term)) {name : String} {es : List Expr},
    g.callVector scopes name args = .ok es → es.all Expr.callFree = silentLast args := by
  intro args name es hes
  induction args with
  | nil => cases hes
  | cons x args ih =>
    cases args with
    | nil =>
      rw [callVector] at hes
      rw [silentLast]
      exact all_of_range hn (fun _ _ _ he => evaluate_silent h x.2 he) hes
    | cons a args => exact ih hes

theorem call_positive (h : scopes.Over ⟨g.count, []⟩ cs) (hn : 0 < g.count) {name : String}
    {args : List (Identifier × Term)} {e : Expr} (he : g.call scopes name args = .ok e) : e.positive = silentLast args := by
  obtain ⟨es, hes, he⟩ := bind_eq_ok.mp he
  obtain ⟨es', rfl, hall⟩ := applyIndicator_eq_ok he
  rw [positive, callFreeEach_eq_all, hall, callVector_silent h hn args hes]

mutual

theorem evaluate_positive (h : scopes.Over ⟨g.count, []⟩ cs) (hn : 0 < g.count) :
    ∀ (t : Term) {hint : Option SmtSort} {i : Nat} {e : Expr},
    g.evaluate scopes hint t i = .ok e → e.sort = .bool → e.positive = t.positive
  | .app ident sort args, _, i, e, he, hsort => by
    rw [evaluate] at he
    split at he
    · rename_i s hs
      obtain ⟨es, hes, he⟩ := bind_eq_ok.mp he
      have hmeets := Symbol.positive_apply (applySymbol_eq_ok.mp he) hsort
      rw [length_evaluateArgs hes] at hmeets
      rw [positive_symbol hs, hmeets.positive, evaluateArgs_positive h hn args hes hmeets.opens]
    · rename_i hs
      split at he
      · rw [positive_call hs, call_positive h hn he]
      · cases he
  | .var .., _, _, _, he, _ => by
    rw [positive_of_callFree _ (callFree_of_lookup h he), Term.positive]
  | .number _, _, _, _, he, _ | .decimal _, _, _, _, he, _ | .string _, _, _, _, he, _
  | .bits .., _, _, _, he, _ => by
    rw [positive_of_callFree _ (callFree_of_expectLiteral he), Term.positive]
  | .quantified .., _, _, _, he, _ | .matching .., _, _, _, he, _ | .lambda .., _, _, _, he, _ => by
    cases he

theorem evaluateArgs_positive (h : scopes.Over ⟨g.count, []⟩ cs) (hn : 0 < g.count) :
    ∀ (args : List (Identifier × Term)) {ds : List Demand} {i : Nat} {es : List Expr},
    g.evaluateArgs scopes args i = .ok es →
    Opens ds es → demandsMet Expr.callFree Expr.positive ds es = positiveArgs ds args
  | [], ds, _, es, hes, _ => by
    cases hes
    rcases ds with _ | ⟨⟨⟩, ds⟩ <;> rfl
  | (_, t) :: args, ds, _, es, hes, hopens => by
    obtain ⟨e, he, hes⟩ := bind_eq_ok.mp hes
    obtain ⟨es', hes', hes⟩ := bind_eq_ok.mp hes
    cases hes
    match ds with
    | [] => rfl
    | .free :: ds =>
      rw [positiveArgs, demandsMet, evaluate_silent h t he,
        evaluateArgs_positive h hn args hes' hopens]
    | .positive :: ds =>
      rw [positiveArgs, demandsMet, evaluate_positive h hn t he hopens.1,
        evaluateArgs_positive h hn args hes' hopens.2]

end

/-! ## Premises -/

theorem pointwise_positive (h : scopes.Over ⟨g.count, []⟩ cs) (hn : 0 < g.count) {t : Term}
    {e : Expr} (he : g.pointwise scopes t = .ok e) (hs : e.sort = .bool) :
    e.positive = t.positive := by
  obtain ⟨es, hes, he⟩ := bind_eq_ok.mp he
  have hmeets := conjoin_meets (mapError_eq_ok.mp he) hs
  have hsorts := opens_positive.mp hmeets.opens
  rw [hmeets.positive, demandsMet_positive]
  exact all_of_range hn (fun e hmem _ he => evaluate_positive h hn t he (hsorts e hmem)) hes

mutual

/-- A premise has its calls in positive positions iff its term has. -/
theorem vectorize_positive (hn : 0 < g.count) : ∀ (t : Term) {scopes : Scopes} {cs : List Const}
    {next : Nat} {p : Premise}, scopes.Over ⟨g.count, []⟩ cs → g.vectorize scopes next t = .ok p →
    p.formula.sort = .bool → p.formula.positive = t.positive
  | .quantified .existential xs t, scopes, cs, next, p, h, hp, hs => by
    obtain ⟨r, hr, hp⟩ := bind_eq_ok.mp hp
    obtain ⟨q, hq, hp⟩ := bind_eq_ok.mp hp
    cases hp
    rw [Term.positive, ← vectorize_positive hn t (h.bind (witnesses_over hr)) hq hs]
  | .quantified .universal .., _, _, _, _, _, hp, _ => by cases hp
  | .app ident sort args, scopes, cs, next, p, h, hp, hs => by
    rw [vectorize] at hp
    split at hp
    · rename_i hand
      obtain ⟨r, hr, hp⟩ := bind_eq_ok.mp hp
      obtain ⟨e, he, hp⟩ := bind_eq_ok.mp hp
      cases hp
      have hand : Symbol.ofIdentifier? ident = some (.plain .and) := by rw [hand.1]; rfl
      have hmeets := conjoin_meets (mapError_eq_ok.mp he) hs
      have hsorts := opens_positive.mp hmeets.opens
      rw [positive_symbol hand, hmeets.positive, demandsMet_positive]
      exact vectorizeArgs_positive hn args h hr hsorts
    · split at hp
      · rename_i hcall
        obtain ⟨e, he, hp⟩ := bind_eq_ok.mp hp
        cases hp
        have hi : ident.indices.isEmpty = true := (Bool.and_eq_true_iff.mp hcall.1).1
        rw [positive_call (ofIdentifier?_of_isNone hi hcall.2), call_positive h hn he]
      · obtain ⟨e, he, hp⟩ := bind_eq_ok.mp hp
        cases hp
        exact pointwise_positive h hn he hs
  | .var .., _, _, _, _, h, hp, hs | .number _, _, _, _, _, h, hp, hs
  | .decimal _, _, _, _, _, h, hp, hs | .string _, _, _, _, _, h, hp, hs
  | .bits .., _, _, _, _, h, hp, hs | .matching .., _, _, _, _, h, hp, hs
  | .lambda .., _, _, _, _, h, hp, hs => by
    obtain ⟨e, he, hp⟩ := bind_eq_ok.mp hp
    cases hp
    exact pointwise_positive h hn he hs

theorem vectorizeArgs_positive (hn : 0 < g.count) : ∀ (args : List (Identifier × Term))
    {scopes : Scopes} {cs : List Const} {next : Nat} {r : List Const × List Expr × Nat},
    scopes.Over ⟨g.count, []⟩ cs → g.vectorizeArgs scopes next args = .ok r →
    (∀ e ∈ r.2.1, e.sort = .bool) →
    r.2.1.all Expr.positive = positiveArgs (List.replicate args.length .positive) args
  | [], _, _, _, _, _, hr, _ => by
    cases hr
    rfl
  | (_, t) :: args, scopes, cs, next, r, h, hr, hs => by
    obtain ⟨p, hp, hr⟩ := bind_eq_ok.mp hr
    obtain ⟨r', hr', hr⟩ := bind_eq_ok.mp hr
    cases hr
    obtain ⟨hsort, hsorts⟩ := List.forall_mem_cons.mp hs
    rw [List.length_cons, List.replicate_succ, positiveArgs, List.all_cons,
      vectorize_positive hn t h hp hsort, vectorizeArgs_positive hn args h hr' hsorts]

end

/-! ## Premises without examples -/

section
variable (hn : g.count = 0)
include hn

theorem callVector_of_zero : ∀ (args : List (Identifier × Term)) {name : String} {es : List Expr},
    g.callVector scopes name args = .ok es → es = [] := by
  intro args name es hes
  induction args with
  | nil => cases hes
  | cons x args ih =>
    cases args with
    | nil =>
      rw [callVector, hn] at hes
      cases hes
      rfl
    | cons a args => exact ih hes

theorem call_positive_of_zero {name : String} {args : List (Identifier × Term)} {e : Expr}
    (he : g.call scopes name args = .ok e) : e.positive = true := by
  obtain ⟨es, hes, he⟩ := bind_eq_ok.mp he
  obtain ⟨es', rfl, hall⟩ := applyIndicator_eq_ok he
  rw [positive, callFreeEach_eq_all, hall, callVector_of_zero hn args hes]
  rfl

theorem pointwise_positive_of_zero {t : Term} {e : Expr} (he : g.pointwise scopes t = .ok e) :
    e.positive = true := by
  rw [pointwise, hn] at he
  cases he
  simp [truth, positive]

end

mutual

theorem vectorize_positive_of_zero (hn : g.count = 0) : ∀ (t : Term) {scopes : Scopes} {next : Nat}
    {p : Premise}, g.vectorize scopes next t = .ok p → p.formula.sort = .bool →
    p.formula.positive = true
  | .quantified .existential xs t, scopes, next, p, hp, hs => by
    obtain ⟨r, hr, hp⟩ := bind_eq_ok.mp hp
    obtain ⟨q, hq, hp⟩ := bind_eq_ok.mp hp
    cases hp
    have hchild := vectorize_positive_of_zero hn t hq hs
    exact hchild
  | .quantified .universal .., _, _, _, hp, _ => by cases hp
  | .app ident sort args, scopes, next, p, hp, hs => by
    rw [vectorize] at hp
    split at hp
    · obtain ⟨r, hr, hp⟩ := bind_eq_ok.mp hp
      obtain ⟨e, he, hp⟩ := bind_eq_ok.mp hp
      cases hp
      have hmeets := conjoin_meets (mapError_eq_ok.mp he) hs
      have hsorts := opens_positive.mp hmeets.opens
      rw [hmeets.positive, demandsMet_positive, List.all_eq_true]
      exact vectorizeArgs_positive_of_zero hn args hr hsorts
    · split at hp
      · obtain ⟨e, he, hp⟩ := bind_eq_ok.mp hp
        cases hp
        exact call_positive_of_zero hn he
      · obtain ⟨e, he, hp⟩ := bind_eq_ok.mp hp
        cases hp
        exact pointwise_positive_of_zero hn he
  | .var .., _, _, _, hp, _ | .number _, _, _, _, hp, _ | .decimal _, _, _, _, hp, _
  | .string _, _, _, _, hp, _ | .bits .., _, _, _, hp, _ | .matching .., _, _, _, hp, _
  | .lambda .., _, _, _, hp, _ => by
    obtain ⟨e, he, hp⟩ := bind_eq_ok.mp hp
    cases hp
    exact pointwise_positive_of_zero hn he

theorem vectorizeArgs_positive_of_zero (hn : g.count = 0) : ∀ (args : List (Identifier × Term))
    {scopes : Scopes} {next : Nat} {r : List Const × List Expr × Nat},
    g.vectorizeArgs scopes next args = .ok r → (∀ e ∈ r.2.1, e.sort = .bool) →
    ∀ e ∈ r.2.1, e.positive = true
  | [], _, _, _, hr, _ => by
    cases hr
    simp
  | (_, t) :: args, scopes, next, r, hr, hs => by
    obtain ⟨p, hp, hr⟩ := bind_eq_ok.mp hr
    obtain ⟨r', hr', hr⟩ := bind_eq_ok.mp hr
    cases hr
    obtain ⟨hsort, hsorts⟩ := List.forall_mem_cons.mp hs
    refine List.forall_mem_cons.mpr ⟨vectorize_positive_of_zero hn t hp hsort, ?_⟩
    exact vectorizeArgs_positive_of_zero hn args hr' hsorts

end

end Signature

end Realizability
