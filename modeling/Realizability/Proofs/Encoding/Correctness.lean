import Realizability.Proofs.Encoding.Formulas

/-!
# Correctness of encodings

If functions are called in conjunctive positions only, there are least relations that are closed
under the cases of all functions, and the formulas of an encoding are satisfiable unless these hold
of the outputs of the examples (`Problem.satisfiable_iff_not_derived`).
-/

namespace Realizability

/-! ## Dependence on relations -/

namespace Signature

variable {g : Signature} {zero : ZeroDivision} {R R' : Relations} {ρ : Environment}

theorem ofIdentifier?_eq_none {ident : Identifier} (hc : g.calls ident = true)
    (h : Symbol.ofIdentifier? ident = none) : (Operator.ofName? ident.name).isSome = false := by
  rw [calls, Bool.and_eq_true] at hc
  rw [Symbol.ofIdentifier?, if_pos hc.1, Option.map_eq_none_iff] at h
  rw [h]
  rfl

mutual

theorem valueOf_callFree : ∀ (t : Term) {hint : Option SmtSort} {i : Nat}, g.callFree t = true →
    g.valueOf ⟨zero, R⟩ ρ hint t i = g.valueOf ⟨zero, R'⟩ ρ hint t i
  | .app ident _ args, hint, i, h => by
    rw [callFree, Bool.and_eq_true, Bool.or_eq_true, Bool.not_eq_true'] at h
    rw [valueOf, valueOf, valuesOf_callFree args h.2]
    cases hs : Symbol.ofIdentifier? ident with
    | some s => rfl
    | none =>
      by_cases hc : g.calls ident = true
      · rw [ofIdentifier?_eq_none hc hs, hc] at h
        rcases h.1 with h | h <;> cases h
      · dsimp only
        rw [if_neg hc, if_neg hc]
  | .var .., _, _, _ | .number _, _, _, _ | .decimal _, _, _, _ | .string _, _, _, _
  | .bits .., _, _, _ | .quantified .., _, _, _ | .matching .., _, _, _ | .lambda .., _, _, _ => rfl

theorem valuesOf_callFree : ∀ (args : List (Identifier × Term)) {i : Nat},
    g.callFreeArgs args = true →
    g.valuesOf ⟨zero, R⟩ ρ args i = g.valuesOf ⟨zero, R'⟩ ρ args i
  | [], _, _ => rfl
  | (_, t) :: args, i, h => by
    rw [callFreeArgs, Bool.and_eq_true] at h
    rw [valuesOf, valuesOf, valueOf_callFree t h.1, valuesOf_callFree args h.2]

end

theorem finalVector_callFree {args : List (Identifier × Term)} (h : g.finalCallFree args = true) :
    g.finalVector ⟨zero, R⟩ ρ args = g.finalVector ⟨zero, R'⟩ ρ args := by
  induction args with
  | nil => rfl
  | cons a args ih =>
    cases args with
    | nil =>
      rw [finalVector, finalVector]
      congr 1
      funext i
      exact valueOf_callFree a.2 h
    | cons b args => exact ih h

theorem pointwise_callFree {t : Term} (h : g.callFree t = true) :
    g.HoldsPointwise ⟨zero, R⟩ ρ t ↔ g.HoldsPointwise ⟨zero, R'⟩ ρ t := by
  unfold HoldsPointwise
  rw [forall₂_congr fun i _ => by rw [valueOf_callFree t h]]

variable {C C' : Calls}

mutual

theorem holds_mono (hC : ∀ name args vs, C name args vs → C' name args vs) :
    ∀ (t : Term) {ρ : Environment}, g.conjunctiveCalls t = true →
    g.Holds ⟨zero, R⟩ C ρ t → g.Holds ⟨zero, R'⟩ C' ρ t
  | .quantified .existential xs t, ρ, h, hh => by
    obtain ⟨bs, hb, hh⟩ := hh
    exact ⟨bs, hb, holds_mono hC t h hh⟩
  | .quantified .universal .., ρ, h, hh => (pointwise_callFree h).mp hh
  | .app ident sort args, ρ, h, hh => by
    rw [conjunctiveCalls] at h
    rw [Holds] at hh ⊢
    by_cases hand : ident = ⟨"and", []⟩ ∧ args.isEmpty = false
    · rw [if_pos hand] at h hh ⊢
      exact holdAll_mono hC args h hh
    · rw [if_neg hand] at h hh ⊢
      by_cases hcall : g.calls ident ∧ (Operator.ofName? ident.name).isNone
      · rw [if_pos hcall] at h hh ⊢
        obtain ⟨vs, ws, hvs, hws, hr⟩ := hh
        exact ⟨vs, ws, (finalVector_callFree h).symm.trans hvs, hws, hC _ _ _ hr⟩
      · rw [if_neg hcall] at h hh ⊢
        exact (pointwise_callFree h).mp hh
  | .var .., _, h, hh | .number _, _, h, hh | .decimal _, _, h, hh | .string _, _, h, hh
  | .bits .., _, h, hh | .matching .., _, h, hh | .lambda .., _, h, hh =>
    (pointwise_callFree h).mp hh

theorem holdAll_mono (hC : ∀ name args vs, C name args vs → C' name args vs) :
    ∀ (args : List (Identifier × Term)) {ρ : Environment}, g.conjunctiveCallsIn args = true →
    g.HoldAll ⟨zero, R⟩ C ρ args → g.HoldAll ⟨zero, R'⟩ C' ρ args
  | [], _, _, _ => trivial
  | (_, t) :: args, ρ, h, hh => by
    rw [conjunctiveCallsIn, Bool.and_eq_true] at h
    exact ⟨holds_mono hC t h.1 hh.1, holdAll_mono hC args h.2 hh.2⟩

end

end Signature

/-! ## Least relations -/

namespace Problem

variable (p : Problem) (table : ExampleTable) (zero : ZeroDivision)

/-- In the cases of all functions, functions are called in conjunctive positions only. -/
def ConjunctiveCalls (n : Nat) : Prop :=
  ∀ f ∈ p.functions.values, ∀ c ∈ f.matchCases, (p.signature n).conjunctiveCalls c.result = true

/-- What all closed relations have in common. -/
def Derived : Relations := fun name v => ∀ R, p.Closed table zero R → R name v

variable {p table zero}

theorem caseGives_mono {R R' : Relations} {C C' : Signature.Calls} {f : Function}
    {c : MatchCase Term} {v : List Value}
    (h : (p.signature table.size).conjunctiveCalls c.result = true)
    (hC : ∀ name args vs, C name args vs → C' name args vs)
    (hv : (p.signature table.size).CaseGives ⟨zero, R⟩ C table f c v) :
    (p.signature table.size).CaseGives ⟨zero, R'⟩ C' table f c v := by
  obtain ⟨hs, bs, hb, hh⟩ := hv
  exact ⟨hs, bs, hb, Signature.holds_mono hC c.result h hh⟩

theorem derived_closed (h : p.ConjunctiveCalls table.size) :
    p.Closed table zero (p.Derived table zero) := by
  intro f hf c hc v hv R hR
  refine hR f hf c hc v (caseGives_mono (h f hf c hc) ?_ hv)
  intro name _ vs hd
  exact hd R hR

theorem derived_isLeast (h : p.ConjunctiveCalls table.size) :
    IsLeast {R | p.Closed table zero R} (p.Derived table zero) :=
  ⟨derived_closed h, fun R hR _ _ hd => hd R hR⟩

/-! ## Outputs of examples -/

variable (p table) in
/-- The relations hold of a vector that equals the outputs of the examples. -/
def GivesOutputs (R : Relations) : Prop :=
  ∃ f s v, p.targetFunction table = .ok f ∧ f.resultSort = .ok s ∧ IsVector table.size s v ∧
    EqualEach v (table.results.map Expr.literal) ∧ R f.name v

theorem satisfiable_iff_not_givesOutputs {examples : Option (List Term)} {e : Encoding}
    (h : (p.encode examples).outcome = .ok e) (hcalls : p.ConjunctiveCalls e.examples.size) :
    Satisfiable zero e.formulas ↔ ¬ p.GivesOutputs e.examples (p.Derived e.examples zero) := by
  obtain ⟨target, he⟩ := encode_eq_ok.mp h
  obtain ⟨s, hs, -⟩ := bind_eq_ok.mp he.query
  constructor
  · rintro ⟨R, ν, hall⟩ ⟨f, s', v, hf, hs', hv, heq, hd⟩
    obtain rfl : target = f := Except.ok.inj (he.chosen.symm.trans hf)
    obtain rfl : s = s' := Except.ok.inj (hs.symm.trans hs')
    obtain ⟨hclosed, hquery⟩ := (formulas_hold he hs).mp hall
    exact hquery v hv (hd R hclosed) heq
  · intro hnot
    refine ⟨p.Derived e.examples zero, .default, (formulas_hold he hs).mpr ⟨?_, ?_⟩⟩
    · exact derived_closed hcalls
    · intro v hv hd heq
      exact hnot ⟨target, s, v, he.chosen, hs, hv, heq, hd⟩

variable (p table) in
/-- The outputs of the examples have the sort of the result of the function that these apply. -/
def OutputsFit : Prop :=
  ∃ f s, p.targetFunction table = .ok f ∧ f.resultSort = .ok s ∧ ∀ x ∈ table.results, x.sort = s

theorem givesOutputs_iff {R : Relations} {f : Function} {s : SmtSort} (hl : table.Literal)
    (hf : p.targetFunction table = .ok f) (hs : f.resultSort = .ok s)
    (hout : ∀ x ∈ table.results, x.sort = s) :
    p.GivesOutputs table R ↔ R f.name (table.results.map Expr.literal) := by
  have hv := hl.isVector_results hout
  constructor
  · rintro ⟨f', s', v, hf', hs', hv', heq, hr⟩
    obtain rfl : f = f' := Except.ok.inj (hf.symm.trans hf')
    obtain rfl : s = s' := Except.ok.inj (hs.symm.trans hs')
    exact (equalEach_iff (hv'.sorts.trans hv.sorts.symm)).mp heq ▸ hr
  · intro hr
    exact ⟨f, s, _, hf, hs, hv, (equalEach_iff rfl).mpr rfl, hr⟩

/-- The formulas of an encoding are satisfiable unless its target gives the outputs of the
examples. -/
theorem satisfiable_iff_not_derived {examples : Option (List Term)} {e : Encoding}
    (h : (p.encode examples).outcome = .ok e) (hcalls : p.ConjunctiveCalls e.examples.size)
    (hout : p.OutputsFit e.examples) (zero : ZeroDivision) :
    ∃ R, IsLeast {R | p.Closed e.examples zero R} R ∧
      (Satisfiable zero e.formulas ↔ ¬ R e.target (e.examples.results.map Expr.literal)) := by
  obtain ⟨target, he⟩ := encode_eq_ok.mp h
  obtain ⟨f, s, hf, hs, hresults⟩ := hout
  obtain rfl : target = f := Except.ok.inj (he.chosen.symm.trans hf)
  have hl := ExampleTable.literal_ofTerms he.table
  refine ⟨p.Derived e.examples zero, derived_isLeast hcalls, ?_⟩
  rw [satisfiable_iff_not_givesOutputs h hcalls, givesOutputs_iff hl hf hs hresults, he.name]

end Problem

/-! ## Sums of inputs and ones -/

namespace Sums

def integer : Identifier := ⟨"Int", []⟩

def truth : Identifier := ⟨"Bool", []⟩

def expression : Identifier := ⟨"E", []⟩

def equation (x : String) (t : Term) : Term :=
  .app ⟨"=", []⟩ truth [(integer, .var x integer), (integer, t)]

def valued (t : Term) (input result : Term) : Term :=
  .app ⟨"E.Sem", []⟩ truth [(expression, t), (integer, input), (integer, result)]

def addition : Term :=
  .quantified .existential [⟨"r1", integer⟩, ⟨"r2", integer⟩] <| .app ⟨"and", []⟩ truth [
    (truth, valued (.var "t1" expression) (.var "x" integer) (.var "r1" integer)),
    (truth, valued (.var "t2" expression) (.var "x" integer) (.var "r2" integer)),
    (truth, equation "r" (.app ⟨"+", []⟩ integer [(integer, .var "r1" integer),
      (integer, .var "r2" integer)]))]

def semantics : Function where
  name := "E.Sem"
  args := [⟨"t", expression⟩, ⟨"x", integer⟩, ⟨"r", integer⟩]
  body := .matching (.var "t" expression) [
    ⟨some "$x", [], equation "r" (.var "x" integer)⟩,
    ⟨some "$1", [], equation "r" (.number 1)⟩,
    ⟨some "$+", ["t1", "t2"], addition⟩]

def grammar : Nonterminal :=
  ⟨"Start", "E", [⟨"$x", [], []⟩, ⟨"$1", [], []⟩, ⟨"$+", ["Start", "Start"], []⟩]⟩

def problem (start : Nonterminal) : Problem where
  targetName := "f"
  target := start
  nonterminals := [start]
  constraints := []
  metadata := []
  datatypes := []
  functions := [("E.Sem", semantics)]

def row (input result : Int) : Term :=
  valued (.app ⟨"f", []⟩ expression []) (.number input) (.number result)

theorem mem_matchCases {c : MatchCase Term} : c ∈ semantics.matchCases ↔
    c = ⟨some "$x", [], equation "r" (.var "x" integer)⟩ ∨
      c = ⟨some "$1", [], equation "r" (.number 1)⟩ ∨ c = ⟨some "$+", ["t1", "t2"], addition⟩ := by
  rw [Function.matchCases, semantics, List.mem_cons, List.mem_cons, List.mem_singleton]

theorem conjunctiveCalls (start : Nonterminal) (n : Nat) :
    (problem start).ConjunctiveCalls n := by
  intro f hf c hc
  obtain rfl : f = semantics := List.mem_singleton.mp hf
  rcases mem_matchCases.mp hc with rfl | rfl | rfl
  · rfl
  · rfl
  · rfl

theorem encode_successors : ∃ e,
    ((problem grammar).encode (some [row 1 2, row 2 3])).outcome = .ok e ∧
      e.examples = ⟨some "E.Sem", [[.int 1, .int 2]], [.int 2, .int 3]⟩ := by
  obtain ⟨e, h⟩ : ∃ e, ((problem grammar).encode (some [row 1 2, row 2 3])).outcome = .ok e :=
    ⟨_, rfl⟩
  obtain ⟨target, he⟩ := Problem.encode_eq_ok.mp h
  exact ⟨e, h, Except.ok.inj (he.table.symm.trans rfl)⟩

theorem successors_satisfiable_iff :
    ∃ e, ((problem grammar).encode (some [row 1 2, row 2 3])).outcome = .ok e ∧
      (problem grammar).ConjunctiveCalls e.examples.size ∧
      (problem grammar).OutputsFit e.examples ∧
      ∀ zero, ∃ R, IsLeast {R | (problem grammar).Closed e.examples zero R} R ∧
        (Satisfiable zero e.formulas ↔ ¬ R e.target (e.examples.results.map Expr.literal)) := by
  obtain ⟨e, h, htable⟩ := encode_successors
  have hcalls := conjunctiveCalls grammar e.examples.size
  have hfit : (problem grammar).OutputsFit e.examples := by
    rw [htable]
    refine ⟨semantics, .int, rfl, rfl, ?_⟩
    decide
  exact ⟨e, h, hcalls, hfit, Problem.satisfiable_iff_not_derived h hcalls hfit⟩

end Sums

end Realizability
