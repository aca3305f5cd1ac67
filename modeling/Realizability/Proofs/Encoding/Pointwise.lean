import Mathlib.Tactic.IntervalCases
import Realizability.Proofs.Encoding.Correctness
import Realizability.Proofs.Encoding.Formation
import Realizability.Proofs.Shape.Premise

/-!
# Premises and values for each example

A term that has a truth value for each example can be made a premise as a whole or evaluated for one
example after the other. A conjunction is then taken over its conjuncts first or over the examples
first, and a call applies its indicator once or repeatedly; both ways say the same
(`Signature.vectorize_agrees`).
-/

namespace Realizability

namespace Signature

open Realizability.Expr

variable {g : Signature} {M : Model} {ν : Valuation} {scopes : Scopes}

/-! ## Truth values -/

theorem numberAt_not_isBool (hint : Option SmtSort) (n : Int) :
    (numberAt hint n).isBool = false := by
  unfold numberAt
  split <;> rfl

theorem literal_not_isBool {hint : Option SmtSort} {t : Term} {e : Expr} (ht : t.isLiteral = true)
    (h : expectLiteral hint t = .ok e) : e.isBool = false := by
  have he := expectLiteral_eq_ok.mp h
  cases t with
  | number n =>
    cases he
    exact numberAt_not_isBool hint n
  | decimal x =>
    obtain ⟨e', he', heq⟩ := map_eq_ok.mp he
    obtain ⟨q, -, rfl⟩ := decimalValue_eq_ok he'
    cases heq
    rfl
  | string s => cases he; rfl
  | bits w n => cases he; rfl
  | _ => cases ht

theorem evaluate_hint {hint : Option SmtSort} {t : Term} {i : Nat} {e : Expr}
    (h : g.evaluate scopes hint t i = .ok e) (hb : e.isBool = true) :
    g.evaluate scopes none t i = .ok e := by
  have hliteral : t.isLiteral = true → expectLiteral hint t = .ok e →
      g.evaluate scopes none t i = .ok e := by
    intro ht he
    rw [literal_not_isBool ht he] at hb
    cases hb
  cases t with
  | app ident sort args =>
    rw [evaluate] at h ⊢
    exact h
  | var x sort => exact h
  | number n => exact hliteral rfl h
  | decimal x => exact hliteral rfl h
  | string s => exact hliteral rfl h
  | bits w n => exact hliteral rfl h
  | _ => cases h

/-! ## One example at a time -/

/-- A term has a truth value for each example. -/
def HasTruths (g : Signature) (scopes : Scopes) (hint : Option SmtSort) (t : Term) : Prop :=
  ∀ i < g.count, ∃ e, g.evaluate scopes hint t i = .ok e ∧ e.isBool = true

def HoldsEach (g : Signature) (M : Model) (ν : Valuation) (scopes : Scopes) (hint : Option SmtSort)
    (t : Term) : Prop :=
  ∀ i < g.count, ∀ e, g.evaluate scopes hint t i = .ok e → e.Holds M ν

def ArgsHaveTruths (g : Signature) (scopes : Scopes) (args : List (Identifier × Term)) : Prop :=
  ∀ i < g.count, ∃ es, g.evaluateArgs scopes args i = .ok es ∧ ∀ a ∈ es, a.isBool = true

def ArgsHoldEach (g : Signature) (M : Model) (ν : Valuation) (scopes : Scopes)
    (args : List (Identifier × Term)) : Prop :=
  ∀ i < g.count, ∀ es, g.evaluateArgs scopes args i = .ok es → ∀ a ∈ es, a.Holds M ν

section
variable {sort ret : Identifier} {t : Term} {args : List (Identifier × Term)}
  {hint : Option SmtSort}

theorem evaluate_and {i : Nat} {e : Expr} :
    g.evaluate scopes hint (.app ⟨"and", []⟩ ret args) i = .ok e ↔
      ∃ es, g.evaluateArgs scopes args i = .ok es ∧ conjoin es = .ok e := by
  have hs : Symbol.ofIdentifier? ⟨"and", []⟩ = some (.plain .and) := rfl
  rw [evaluate, hs]
  dsimp only
  rw [bind_eq_ok]
  simp only [applySymbol_eq_ok]
  exact exists_congr fun es => and_congr_right fun _ => ofBuild_eq_ok

theorem HasTruths.conjuncts (h : g.HasTruths scopes hint (.app ⟨"and", []⟩ ret args)) :
    g.ArgsHaveTruths scopes args := by
  intro i hi
  obtain ⟨e, he, hb⟩ := h i hi
  obtain ⟨es, hes, hc⟩ := evaluate_and.mp he
  exact ⟨es, hes, isBool_of_conjoin hc hb⟩

theorem holdsEach_and (h : g.HasTruths scopes hint (.app ⟨"and", []⟩ ret args)) :
    g.HoldsEach M ν scopes hint (.app ⟨"and", []⟩ ret args) ↔ g.ArgsHoldEach M ν scopes args := by
  constructor
  · intro hall i hi es hes
    obtain ⟨e, he, -⟩ := h i hi
    obtain ⟨es', hes', hc⟩ := evaluate_and.mp he
    obtain rfl : es = es' := Except.ok.inj (hes.symm.trans hes')
    exact (conjoin_holds hc).mp (hall i hi e he)
  · intro hall i hi e he
    obtain ⟨es, hes, hc⟩ := evaluate_and.mp he
    exact (conjoin_holds hc).mpr (hall i hi es hes)

theorem ArgsHaveTruths.head (h : g.ArgsHaveTruths scopes ((sort, t) :: args)) :
    g.HasTruths scopes (sortHint sort t) t := by
  intro i hi
  obtain ⟨es, hes, hb⟩ := h i hi
  obtain ⟨e, he, hes⟩ := bind_eq_ok.mp hes
  obtain ⟨es', -, hes⟩ := bind_eq_ok.mp hes
  cases hes
  exact ⟨e, he, hb e (List.mem_cons_self ..)⟩

theorem ArgsHaveTruths.tail (h : g.ArgsHaveTruths scopes ((sort, t) :: args)) :
    g.ArgsHaveTruths scopes args := by
  intro i hi
  obtain ⟨es, hes, hb⟩ := h i hi
  obtain ⟨e, -, hes⟩ := bind_eq_ok.mp hes
  obtain ⟨es', hes', hes⟩ := bind_eq_ok.mp hes
  cases hes
  exact ⟨es', hes', fun a ha => hb a (List.mem_cons_of_mem _ ha)⟩

theorem argsHoldEach_cons (h : g.ArgsHaveTruths scopes ((sort, t) :: args)) :
    g.ArgsHoldEach M ν scopes ((sort, t) :: args) ↔
      g.HoldsEach M ν scopes (sortHint sort t) t ∧ g.ArgsHoldEach M ν scopes args := by
  have hcons : ∀ {i e es}, g.evaluate scopes (sortHint sort t) t i = .ok e →
      g.evaluateArgs scopes args i = .ok es →
      g.evaluateArgs scopes ((sort, t) :: args) i = .ok (e :: es) := by
    intro i e es he hes
    rw [evaluateArgs, he, hes]
    rfl
  constructor
  · intro hall
    refine ⟨fun i hi e he => ?_, fun i hi es hes => ?_⟩
    · obtain ⟨es, hes, -⟩ := h.tail i hi
      exact hall i hi _ (hcons he hes) e (List.mem_cons_self ..)
    · obtain ⟨e, he, -⟩ := h.head i hi
      exact fun a ha => hall i hi _ (hcons he hes) a (List.mem_cons_of_mem _ ha)
  · rintro ⟨hhead, htail⟩ i hi es hes
    obtain ⟨e, he, hes⟩ := bind_eq_ok.mp hes
    obtain ⟨es', hes', hes⟩ := bind_eq_ok.mp hes
    cases hes
    exact List.forall_mem_cons.mpr ⟨hhead i hi e he, htail i hi es' hes'⟩

theorem pointwise_agrees (h : g.HasTruths scopes hint t) {e : Expr}
    (he : g.pointwise scopes t = .ok e) : e.Holds M ν ↔ g.HoldsEach M ν scopes hint t := by
  obtain ⟨es, hes, he⟩ := bind_eq_ok.mp he
  have hvalue : ∀ i ∈ List.range g.count, ∀ a, g.evaluate scopes none t i = .ok a →
      (a.Holds M ν ↔ ∀ b, g.evaluate scopes hint t i = .ok b → b.Holds M ν) := by
    intro i hi a ha
    obtain ⟨b, hb, hbool⟩ := h i (List.mem_range.mp hi)
    obtain rfl : a = b := Except.ok.inj (ha.symm.trans (evaluate_hint hb hbool))
    refine ⟨fun hholds c hc => ?_, fun hall => hall a hb⟩
    rwa [← Except.ok.inj (hb.symm.trans hc)]
  rw [conjoin_holds (mapError_eq_ok.mp he), forall_mem_iff_of_mapM_ok hvalue hes]
  simp only [HoldsEach, List.mem_range]

theorem call_agrees (hn : 0 < g.count) {ident : Identifier} (hc : g.calls ident = true)
    (hname : (Operator.ofName? ident.name).isNone = true) {e : Expr}
    (he : g.call scopes ident.name args = .ok e) :
    e.Holds M ν ↔ g.HoldsEach M ν scopes hint (.app ident ret args) := by
  have hevaluate : ∀ i, g.evaluate scopes hint (.app ident ret args) i = .ok e := by
    intro i
    rw [evaluate, ofIdentifier?_of_isNone (Bool.and_eq_true_iff.mp hc).1 hname]
    exact (if_pos hc).trans he
  -- there is an example, so the call is evaluated at all
  refine ⟨fun hholds i _ b hb => ?_, fun hall => hall 0 hn e (hevaluate 0)⟩
  rwa [← Except.ok.inj ((hevaluate i).symm.trans hb)]

end

/-! ## Premises -/

mutual

theorem vectorize_holds_iff (hn : 0 < g.count) : ∀ (t : Term) {hint : Option SmtSort} {next : Nat}
    {p : Premise}, g.vectorize scopes next t = .ok p → g.HasTruths scopes hint t →
    (p.formula.Holds M ν ↔ g.HoldsEach M ν scopes hint t)
  | .quantified .., _, _, _, _, h => by
    obtain ⟨e, he, -⟩ := h 0 hn
    cases he
  | .app ident sort args, hint, next, p, hp, h => by
    rw [vectorize] at hp
    split at hp
    · rename_i hand
      obtain ⟨rfl, -⟩ := hand
      obtain ⟨r, hr, hp⟩ := bind_eq_ok.mp hp
      obtain ⟨e, he, hp⟩ := bind_eq_ok.mp hp
      cases hp
      rw [conjoin_holds (mapError_eq_ok.mp he), holdsEach_and h]
      exact vectorizeArgs_hold_iff hn args hr h.conjuncts
    · split at hp
      · rename_i hcall
        obtain ⟨e, he, hp⟩ := bind_eq_ok.mp hp
        cases hp
        exact call_agrees hn hcall.1 hcall.2 he
      · obtain ⟨e, he, hp⟩ := bind_eq_ok.mp hp
        cases hp
        exact pointwise_agrees h he
  | .var .., _, _, _, hp, h | .number _, _, _, _, hp, h | .decimal _, _, _, _, hp, h
  | .string _, _, _, _, hp, h | .bits .., _, _, _, hp, h | .matching .., _, _, _, hp, h
  | .lambda .., _, _, _, hp, h => by
    obtain ⟨e, he, hp⟩ := bind_eq_ok.mp hp
    cases hp
    exact pointwise_agrees h he

theorem vectorizeArgs_hold_iff (hn : 0 < g.count) : ∀ (args : List (Identifier × Term)) {next : Nat}
    {r : List Const × List Expr × Nat}, g.vectorizeArgs scopes next args = .ok r →
    g.ArgsHaveTruths scopes args →
    ((∀ a ∈ r.2.1, a.Holds M ν) ↔ g.ArgsHoldEach M ν scopes args)
  | [], _, _, hr, _ => by
    cases hr
    refine ⟨fun _ i _ es hes => ?_, fun _ a ha => absurd ha List.not_mem_nil⟩
    cases hes
    exact fun a ha => absurd ha List.not_mem_nil
  | (_, t) :: args, next, r, hr, h => by
    obtain ⟨p, hp, hr⟩ := bind_eq_ok.mp hr
    obtain ⟨r', hr', hr⟩ := bind_eq_ok.mp hr
    cases hr
    rw [List.forall_mem_cons, argsHoldEach_cons h, vectorize_holds_iff hn t hp h.head,
      vectorizeArgs_hold_iff hn args hr' h.tail]

end

/-- A premise has no witnesses and says of the examples together what the values of the term say of
each of them. That there are values leaves no room for quantifiers. -/
theorem vectorize_agrees (hn : 0 < g.count) {t : Term} {next : Nat} {p : Premise}
    (hp : g.vectorize scopes next t = .ok p) {value : Nat → Expr}
    (hvalue : ∀ i < g.count, g.evaluate scopes none t i = .ok (value i) ∧ (value i).sort = .bool) :
    p.witnesses = [] ∧ ∀ (M : Model) (ν : Valuation),
      p.formula.Holds M ν ↔ ∀ i < g.count, (value i).Holds M ν := by
  have htruths : g.HasTruths scopes none t := by
    intro i hi
    obtain ⟨he, hs⟩ := hvalue i hi
    exact ⟨value i, he, by rw [isBool, hs]; rfl⟩
  constructor
  · have hcopied := vectorize_copied t hp
    rw [evaluate_existentials hn t (hvalue 0 hn).1] at hcopied
    exact List.length_eq_zero_iff.mp hcopied.length
  · intro M ν
    rw [vectorize_holds_iff hn t hp htruths]
    refine forall_congr' fun i => forall_congr' fun hi => ?_
    refine ⟨fun hall => hall _ (hvalue i hi).1, fun hholds e he => ?_⟩
    rwa [← Except.ok.inj ((hvalue i hi).1.symm.trans he)]

end Signature

/-! ## Repeated calls -/

namespace Nested

open Sums (integer truth)

def signature : Signature := ⟨2, [("F", .int)]⟩

def vector (x : String) : List Expr := (freshVector x .int 2).map .const

def scopes : Scopes := [[("x", vector "x")]]

def fits : Term := .app ⟨"F", []⟩ truth [(integer, .var "x" integer)]

/-- The call stands once among the conjuncts of the premise and once in each example's value. -/
def bounded : Term :=
  .app ⟨"and", []⟩ truth [(truth, fits), (truth, .app ⟨"<=", []⟩ truth
    [(integer, .var "x" integer), (integer, .number 5)])]

def value (i : Nat) : Expr :=
  .app .and [.call "F" (vector "x"), .app .ge [.int 5, .const ⟨copyName i "x", none, .int⟩]]

theorem bounded_agrees : ∃ p, signature.vectorize scopes 0 bounded = .ok p ∧ 0 < signature.count ∧
    (∀ i < signature.count,
      signature.evaluate scopes none bounded i = .ok (value i) ∧ (value i).sort = .bool) ∧
    p.witnesses = [] ∧ ∀ (M : Model) (ν : Valuation),
      p.formula.Holds M ν ↔ ∀ i < signature.count, (value i).Holds M ν := by
  obtain ⟨p, hp⟩ : ∃ p, signature.vectorize scopes 0 bounded = .ok p := ⟨_, rfl⟩
  have hn : 0 < signature.count := by decide
  have hvalue : ∀ i < signature.count,
      signature.evaluate scopes none bounded i = .ok (value i) ∧ (value i).sort = .bool := by
    intro i hi
    have hi : i < 2 := hi
    interval_cases i <;> exact ⟨rfl, rfl⟩
  exact ⟨p, hp, hn, hvalue, Signature.vectorize_agrees hn hp hvalue⟩

end Nested

end Realizability
