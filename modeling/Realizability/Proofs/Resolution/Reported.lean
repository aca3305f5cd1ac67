import Realizability.Proofs.Encoding.Correctness
import Realizability.Proofs.Resolution.Sorting

/-!
# Errors of the encoding

Whatever keeps a problem from being encoded is reported as an error of the encoding, as long as the
subterms of its cases fit their places (`Problem.encode_reports`). Operands that are merely ill
sorted are reported by the operator they are given to; a misuse that no operator reports comes from
operands without an operation, from a decimal that is not finite or from a conjunct that is no truth
value.
-/

namespace Realizability

def EncodeError.Reported (e : EncodeError) : Prop := ∀ m, e ≠ .misuse m

/-- The computation gives a result of some kind or an error of the encoding. -/
def Reports {α : Type} (P : α → Prop) (x : Except EncodeError α) : Prop :=
  (∀ a, x = .ok a → P a) ∧ ∀ e, x = .error e → e.Reported

namespace Reports

variable {α β : Type} {P : α → Prop} {Q : β → Prop}

theorem ok {a : α} (h : P a) : Reports P (.ok a) :=
  ⟨fun _ ha => Except.ok.inj ha ▸ h, nofun⟩

theorem error {e : EncodeError} (h : e.Reported) : Reports P (.error e) :=
  ⟨nofun, fun _ he => Except.error.inj he ▸ h⟩

theorem bind {x : Except EncodeError α} {f : α → Except EncodeError β} (hx : Reports P x)
    (hf : ∀ a, P a → Reports Q (f a)) : Reports Q (x >>= f) := by
  cases x with
  | ok a => exact hf a (hx.1 a rfl)
  | error e => exact error (hx.2 e rfl)

theorem mono {P' : α → Prop} {x : Except EncodeError α} (h : Reports P x) (hp : ∀ a, P a → P' a) :
    Reports P' x := ⟨fun a ha => hp a (h.1 a ha), h.2⟩

theorem reported {x : Except EncodeError α} (h : Reports P x) : Reports (fun _ => True) x :=
  h.mono fun _ _ => trivial

theorem self {x : Except EncodeError α} (h : Reports P x) : Reports (fun a => x = .ok a) x :=
  ⟨fun _ ha => ha, h.2⟩

theorem mapM {γ : Type} {f : γ → Except EncodeError α} {cs : List γ}
    (h : ∀ c ∈ cs, Reports P (f c)) : Reports (fun as => ∀ a ∈ as, P a) (cs.mapM f) := by
  constructor
  · intro as has a ha
    obtain ⟨c, hc, hca⟩ := exists_of_forall₂ (mapM_eq_ok.mp has) ha
    exact (h c hc).1 a hca
  · intro e he
    obtain ⟨c, hc, hce⟩ := exists_of_mapM_eq_error he
    exact (h c hc).2 e hce

theorem formed {x : Build α} {a : α} (h : x = .ok a) (hp : P a) : Reports P (formed x) := by
  rw [h]
  exact ok hp

theorem mapError {ε : Type} {f : ε → EncodeError} {x : Except ε α} (hf : ∀ e, (f e).Reported)
    (h : ∀ a, x = .ok a → P a) : Reports P (x.mapError f) := by
  cases x with
  | ok a => exact ok (h a rfl)
  | error e => exact error (hf e)

theorem written (m : Message) :
    Reports (fun _ => True) (Logged.write m : Logged EncodeError Unit).outcome := ok trivial

theorem outcome_bind {x : Logged EncodeError α} {f : α → Logged EncodeError β}
    (hx : Reports P x.outcome) (hf : ∀ a, P a → Reports Q (f a).outcome) :
    Reports Q (x >>= f).outcome := by
  rw [Logged.outcome_bind]
  exact hx.bind hf

end Reports

theorem sortOf_reports (ident : Identifier) :
    Reports (fun s => SmtSort.ofIdentifier ident = .ok s) (sortOf ident) :=
  .mapError (fun _ => nofun) fun _ h => h

/-! ## Values -/

namespace Signature

variable {g : Signature}

theorem applySymbol_reports {ident : Identifier} {s : Symbol} {es : List Expr}
    (h : s.lacks (es.map Expr.sort) = false) :
    Reports (fun e => s.resultSort? (es.map Expr.sort) = some e.sort) (applySymbol ident s es) := by
  have hdefined : s.apply es ≠ .error (.misuse .undefined) := by
    intro hundefined
    rw [Symbol.apply_undefined_iff, h] at hundefined
    cases hundefined
  unfold applySymbol
  split
  · rename_i e he
    exact .ok (Symbol.resultSort?_of_apply he)
  · exact .error nofun
  · rename_i he
    exact absurd he hdefined
  · exact .error nofun

theorem applyIndicator_reports (name : String) (es : List Expr) :
    Reports (fun e => e.sort = .bool) (g.applyIndicator name es) := by
  refine .mapError (fun _ => nofun) fun e he => ?_
  obtain ⟨es', -, he⟩ := bind_eq_ok.mp he
  cases he
  rfl

section
variable {scopes : Scopes} {Γ : Nat → Sorting} {xs : List TypedVar}

theorem lookup_reports (hs : scopes.Sorted g.count fun i => (Γ i).bind xs) {x : String} {i : Nat}
    (hi : i < g.count) :
    Reports (fun e => (Γ i).bind xs x = some e.sort) (lookup scopes x i) := by
  unfold lookup
  cases hx : scopes.find? x with
  | none => exact .error nofun
  | some es =>
    obtain ⟨hlen, hsort⟩ := hs x es hx
    have he := List.getElem?_eq_getElem (hlen.symm ▸ hi : i < es.length)
    dsimp only
    rw [he]
    exact .ok (hsort i _ he)

mutual

/-- A term that fits with all of its subterms has a value of the sort that it is said to have, or an
error of the encoding. -/
theorem evaluate_reports (hs : scopes.Sorted g.count fun i => (Γ i).bind xs) : ∀ (t : Term)
    {q : Place} {hint : Option SmtSort} {i : Nat}, q.bound = xs → i < g.count →
    (∀ o ∈ t.occurrences g.calls q, Fits g.count Γ o) →
    Reports (fun e => t.sortAt ((Γ i).bind xs) hint = some e.sort) (g.evaluate scopes hint t i)
  | .app ident sort args, q, hint, i, hq, hi, hfits => by
    have hself := (hfits _ (Term.mem_occurrences_self _)).lacksValue hi
    rw [hq, Term.lacksValue] at hself
    rw [evaluate, Term.sortAt]
    cases hsymbol : Symbol.ofIdentifier? ident with
    | some s =>
      rw [occurrences_symbol hsymbol] at hfits
      have hargs := evaluateArgs_reports hs args ((Place.below_bound q ident).trans hq) hi
        (List.forall_mem_cons.mp hfits).2
      refine hargs.bind fun es hes => ?_
      rw [hsymbol, hes] at hself
      simp only [hes, Option.bind_some]
      exact applySymbol_reports hself
    | none =>
      dsimp only
      by_cases hc : g.calls ident = true
      · rw [if_pos hc]
        rw [occurrences_call hsymbol hc] at hfits
        have hvector : Reports (fun _ => True) (g.callVector scopes ident.name args) :=
          callVector_reports hs args (q := q.inner) hq (List.forall_mem_cons.mp hfits).2
        refine hvector.bind fun es _ => (applyIndicator_reports ident.name es).mono fun e he => ?_
        rw [he]
      · rw [if_neg hc]
        exact .error nofun
  | .var x sort, q, hint, i, hq, hi, hfits => lookup_reports hs hi
  | .number n, q, hint, i, hq, hi, hfits => .ok rfl
  | .decimal x, q, hint, i, hq, hi, hfits => by
    have hself := (hfits _ (Term.mem_occurrences_self _)).lacksValue hi
    obtain ⟨r, hr⟩ := decimalValue_of_isFinite (x := x) (by simpa [Term.lacksValue] using hself)
    have hvalue : expectLiteral hint (.decimal x) = .ok (.real r) := by
      rw [expectLiteral, literal?, hr]
      rfl
    rw [evaluate, hvalue]
    exact .ok rfl
  | .string s, q, hint, i, hq, hi, hfits => .ok rfl
  | .bits width value, q, hint, i, hq, hi, hfits => .ok rfl
  | .quantified .., _, _, _, _, _, _ | .matching .., _, _, _, _, _, _
  | .lambda .., _, _, _, _, _, _ => .error nofun

theorem evaluateArgs_reports (hs : scopes.Sorted g.count fun i => (Γ i).bind xs) :
    ∀ (args : List (Identifier × Term)) {q : Place} {i : Nat}, q.bound = xs → i < g.count →
    (∀ o ∈ argOccurrences g.calls q args, Fits g.count Γ o) →
    Reports (fun es => argSorts ((Γ i).bind xs) args = some (es.map Expr.sort))
      (g.evaluateArgs scopes args i)
  | [], _, _, _, _, _ => .ok rfl
  | (sort, t) :: args, q, i, hq, hi, hfits => by
    obtain ⟨ht, hargs⟩ := List.forall_mem_append.mp hfits
    refine (evaluate_reports hs t hq hi ht).bind fun e he => ?_
    refine (evaluateArgs_reports hs args hq hi hargs).bind fun es hes => .ok ?_
    rw [argSorts, he, hes]
    rfl

theorem callVector_reports (hs : scopes.Sorted g.count fun i => (Γ i).bind xs) :
    ∀ (args : List (Identifier × Term)) {q : Place} {name : String}, q.bound = xs →
    (∀ o ∈ finalOccurrences g.calls q args, Fits g.count Γ o) →
    Reports (fun _ => True) (g.callVector scopes name args)
  | [], _, _, _, _ => .error nofun
  | [(sort, t)], q, name, hq, hfits => by
    rw [callVector]
    refine (Reports.mapM (P := fun _ => True) fun i hi => ?_).reported
    exact (evaluate_reports hs t hq (List.mem_range.mp hi) hfits).reported
  | _ :: a :: args, q, name, hq, hfits => callVector_reports hs (a :: args) hq hfits

end

/-! ## Premises -/

theorem pointwise_reports (hs : scopes.Sorted g.count fun i => (Γ i).bind xs) {q : Place} {t : Term}
    (hq : q.bound = xs) (hconjunctive : q.conjunctive = true) (ht : t.isConjunct = true)
    (hfits : ∀ o ∈ t.occurrences g.calls q, Fits g.count Γ o) :
    Reports (fun e => e.isBool = true) (g.pointwise scopes t) := by
  have hvalues : Reports (fun es => ∀ e ∈ es, e.isBool = true)
      ((List.range g.count).mapM (g.evaluate scopes none t)) := by
    refine .mapM fun i hi => ?_
    have hi := List.mem_range.mp hi
    refine (evaluate_reports hs t hq hi hfits).mono fun e he => ?_
    rw [← hq] at he
    have hself := hfits _ (Term.mem_occurrences_self t)
    rw [Expr.isBool, hself.sort_eq_bool hi hconjunctive ht he]
    rfl
  refine hvalues.bind fun es hes => ?_
  obtain ⟨e, he, hbool⟩ := Expr.conjoin_isBool hes
  exact .formed he hbool

end

theorem witnesses_reports (xs : List TypedVar) {next : Nat} :
    Reports (fun _ => True) (g.witnesses next xs) := by
  induction xs generalizing next with
  | nil => exact .ok trivial
  | cons x xs ih => exact (sortOf_reports x.sort).bind fun s _ => ih.bind fun r _ => .ok trivial

mutual

theorem vectorize_reports {Γ : Nat → Sorting} : ∀ (t : Term) {scopes : Scopes} {q : Place}
    {next : Nat}, scopes.Sorted g.count (fun i => (Γ i).bind q.bound) → q.conjunctive = true →
    (∀ o ∈ t.occurrences g.calls q, Fits g.count Γ o) →
    Reports (fun p => p.formula.isBool = true) (g.vectorize scopes next t)
  | .quantified .existential xs t, scopes, q, next, hs, hq, hfits => by
    refine (witnesses_reports xs).self.bind fun r hr => ?_
    refine (vectorize_reports t (sorted_bind hs hr) hq (List.forall_mem_cons.mp hfits).2).bind ?_
    exact fun p hp => .ok hp
  | .quantified .universal .., _, _, _, _, _, _ => .error nofun
  | .app ident sort args, scopes, q, next, hs, hq, hfits => by
    rw [vectorize]
    by_cases hand : ident = ⟨"and", []⟩ ∧ args.isEmpty = false
    · rw [if_pos hand]
      obtain ⟨rfl, -⟩ := hand
      rw [occurrences_symbol (s := .plain .and) rfl] at hfits
      have hargs : Reports (fun r => ∀ e ∈ r.2.1, e.isBool = true)
          (g.vectorizeArgs scopes next args) :=
        vectorizeArgs_reports args hs hq (List.forall_mem_cons.mp hfits).2
      refine hargs.bind fun r hr => ?_
      obtain ⟨e, he, hbool⟩ := Expr.conjoin_isBool hr
      have hconjunction : Reports (fun e => e.isBool = true) (formed (Expr.conjoin r.2.1)) :=
        .formed he hbool
      exact hconjunction.bind fun e he => .ok he
    · rw [if_neg hand]
      by_cases hcall : g.calls ident = true ∧ (Operator.ofName? ident.name).isNone = true
      · rw [if_pos hcall]
        have hsymbol := ofIdentifier?_of_isNone (Bool.and_eq_true_iff.mp hcall.1).1 hcall.2
        rw [occurrences_call hsymbol hcall.1] at hfits
        have hvector : Reports (fun _ => True) (g.callVector scopes ident.name args) :=
          callVector_reports hs args (q := q.inner) rfl (List.forall_mem_cons.mp hfits).2
        have hcall : Reports (fun e => e.sort = .bool) (g.call scopes ident.name args) :=
          hvector.bind fun es _ => applyIndicator_reports ident.name es
        exact hcall.bind fun e he => .ok (by rw [Expr.isBool, he]; rfl)
      · rw [if_neg hcall]
        exact (pointwise_reports hs rfl hq (Term.isConjunct_app.mpr hand) hfits).bind
          fun e he => .ok he
  | .var .., scopes, q, next, hs, hq, hfits | .number _, scopes, q, next, hs, hq, hfits
  | .decimal _, scopes, q, next, hs, hq, hfits | .string _, scopes, q, next, hs, hq, hfits
  | .bits .., scopes, q, next, hs, hq, hfits | .matching .., scopes, q, next, hs, hq, hfits
  | .lambda .., scopes, q, next, hs, hq, hfits =>
    (pointwise_reports hs rfl hq rfl hfits).bind fun e he => .ok he

theorem vectorizeArgs_reports {Γ : Nat → Sorting} : ∀ (args : List (Identifier × Term))
    {scopes : Scopes} {q : Place} {next : Nat},
    scopes.Sorted g.count (fun i => (Γ i).bind q.bound) → q.conjunctive = true →
    (∀ o ∈ argOccurrences g.calls q args, Fits g.count Γ o) →
    Reports (fun r => ∀ e ∈ r.2.1, e.isBool = true) (g.vectorizeArgs scopes next args)
  | [], _, _, _, _, _, _ => .ok fun _ he => by cases he
  | (_, t) :: args, scopes, q, next, hs, hq, hfits => by
    obtain ⟨ht, hargs⟩ := List.forall_mem_append.mp hfits
    refine (vectorize_reports t hs hq ht).bind fun p hp => ?_
    refine (vectorizeArgs_reports args hs hq hargs).bind fun r hr => .ok ?_
    exact List.forall_mem_cons.mpr ⟨hp, hr⟩

end

/-! ## Clauses -/

theorem clause_reports {Γ : Nat → Sorting} {frame : Frame} {next : Nat} {t : Term}
    (hs : Scopes.Sorted g.count (fun i => (Γ i).bind Place.top.bound) [frame.scope])
    (hhead : frame.head.isBool = true)
    (hfits : ∀ o ∈ t.occurrences g.calls .top, Fits g.count Γ o) :
    Reports (fun _ => True) (g.clause frame next t) := by
  refine (vectorize_reports t hs rfl hfits).bind fun p hp => ?_
  obtain ⟨implication, himplication, hbool⟩ := Expr.mkImplies_isBool hp hhead
  have himplies : Reports (fun e => e.isBool = true)
      (formed (Expr.mkImplies p.formula frame.head)) := .formed himplication hbool
  refine himplies.bind fun e he => ?_
  obtain ⟨closed, hclosed⟩ := Expr.close_isBool (frame.fresh ++ p.witnesses) he
  have hreports : Reports (fun _ => True) (formed (Expr.close (frame.fresh ++ p.witnesses) e)) :=
    .formed hclosed trivial
  exact hreports.bind fun _ _ => .ok trivial

theorem clauses_reports {Γ : Nat → Sorting} {f : Function} {frame : Frame} {next : Nat}
    {cs : List (MatchCase Term)}
    (hs : Scopes.Sorted g.count (fun i => (Γ i).bind Place.top.bound) [frame.scope])
    (hhead : frame.head.isBool = true)
    (hfits : ∀ c ∈ cs, ∀ o ∈ c.result.occurrences g.calls .top, Fits g.count Γ o) :
    Reports (fun _ => True) (g.clauses f frame next cs).outcome := by
  induction cs generalizing next with
  | nil => exact .ok trivial
  | cons c cs ih =>
    obtain ⟨hc, hcs⟩ := List.forall_mem_cons.mp hfits
    refine (Reports.written _).outcome_bind fun _ _ => ?_
    refine (clause_reports hs hhead hc).outcome_bind fun r _ => ?_
    exact (ih hcs).outcome_bind fun _ _ => .ok trivial

end Signature

/-! ## Functions -/

namespace Function

theorem resultSort_reports (f : Function) : Reports (fun _ => True) f.resultSort := by
  unfold resultSort
  split
  · exact .error nofun
  · exact (sortOf_reports _).reported

theorem frame_reports (f : Function) (table : ExampleTable) :
    Reports (fun frame => frame.head.isBool = true) (f.frame table) := by
  have hbind : ∀ (xs : List TypedVar) (i : Nat), Reports (fun _ => True) (bindArgs table i xs) := by
    intro xs
    induction xs with
    | nil => exact fun i => .ok trivial
    | cons x xs ih =>
      intro i
      rw [bindArgs]
      dsimp only
      split
      · exact (ih _).bind fun _ _ => .ok trivial
      · exact (sortOf_reports _).bind fun _ _ => (ih _).bind fun _ _ => .ok trivial
  refine (hbind _ _).bind fun r _ => ?_
  dsimp only
  split
  · exact .error fun _ h => by cases h
  · exact (sortOf_reports _).bind fun _ _ => .ok rfl

theorem cases_reports (f : Function) : Reports (fun _ => True) f.cases := by
  unfold Function.cases
  split
  · exact .error nofun
  · split
    · exact .ok trivial
    · exact .error nofun

theorem query_reports (f : Function) (table : ExampleTable) :
    Reports (fun _ => True) (f.query table) :=
  f.resultSort_reports.bind fun _ _ => .mapError (fun _ => nofun) fun _ _ => trivial

end Function

theorem declareIndicators_reports (fs : List Function) :
    Reports (fun _ => True) (declareIndicators fs).outcome := by
  induction fs with
  | nil => exact .ok trivial
  | cons f fs ih =>
    refine f.resultSort_reports.outcome_bind fun s _ => ?_
    refine (Reports.written _).outcome_bind fun _ _ => ?_
    exact ih.outcome_bind fun _ _ => .ok trivial

theorem Signature.encodeFunctions_reports {g : Signature} {ts : List Term} {table : ExampleTable}
    (htable : ExampleTable.ofTerms ts = .ok table) (hg : g.count = table.size) {next : Nat}
    {fs : List Function} (hfits : ∀ f ∈ fs, ∀ c ∈ f.matchCases,
      ∀ o ∈ c.result.occurrences g.calls .top, Fits table.size (f.sorting table) o) :
    Reports (fun _ => True) (g.encodeFunctions table next fs).outcome := by
  induction fs generalizing next with
  | nil => exact .ok trivial
  | cons f fs ih =>
    obtain ⟨hf, hfs⟩ := List.forall_mem_cons.mp hfits
    refine f.cases_reports.self.outcome_bind fun cases hcases => ?_
    obtain ⟨hlen, rfl⟩ := Function.cases_eq_ok hcases
    have hframe := f.frame_reports table
    refine hframe.self.outcome_bind fun frame hok => ?_
    have hs := Function.sorted_frame htable hlen hok
    rw [← hg] at hs hf
    refine (clauses_reports hs (hframe.1 frame hok) hf).outcome_bind fun r _ => ?_
    exact (ih hfs).outcome_bind fun _ _ => .ok trivial

/-! ## Problems -/

namespace Problem

variable {p : Problem} {examples : Option (List Term)}

theorem ofTerms_reports {ts : List Term} (hfin : ∀ t ∈ ts, t.FiniteValues) :
    Reports (fun _ => True) (ExampleTable.ofTerms ts) := by
  refine ⟨fun _ _ => trivial, fun e he => ?_⟩
  obtain ⟨e, rfl, -⟩ := ExampleTable.fault_of_ofTerms hfin he
  exact nofun

theorem targetFunction_reports (table : ExampleTable) :
    Reports (fun _ => True) (p.targetFunction table) := by
  unfold targetFunction
  split
  · split
    · exact .ok trivial
    · exact .error nofun
  · dsimp only
    split
    · exact .ok trivial
    · exact .error nofun

/-- If the decimals among the values of the examples are finite and the subterms of all cases fit,
then there is an encoding or an error of the encoding. -/
theorem encode_reports (hfin : ∀ t ∈ examples.getD p.constraints, t.FiniteValues)
    (hfits : ∀ table, ExampleTable.ofTerms (examples.getD p.constraints) = .ok table →
      ∀ f ∈ p.functions.values, ∀ c ∈ f.matchCases, ∀ o ∈ c.result.occurrences p.defines .top,
        Fits table.size (f.sorting table) o) :
    (∃ e, (p.encode examples).outcome = .ok e) ∨
      ∃ err, (p.encode examples).outcome = .error err ∧ err.Reported := by
  have hreports : Reports (fun _ => True) (p.encode examples).outcome := by
    refine (ofTerms_reports hfin).self.outcome_bind fun table htable => ?_
    refine (Reports.ok (P := fun _ => True) trivial).outcome_bind fun _ _ => ?_
    refine (declareIndicators_reports _).self.outcome_bind fun indicators hindicators => ?_
    refine (targetFunction_reports table).outcome_bind fun target _ => ?_
    have hclauses : Reports (fun _ => True) (Signature.encodeFunctions ⟨table.size, indicators⟩
        table 0 p.functions.values).outcome := by
      refine Signature.encodeFunctions_reports htable rfl ?_
      rw [calls_eq_defines hindicators]
      exact hfits table htable
    refine hclauses.outcome_bind fun clauses _ => ?_
    refine (target.query_reports table).outcome_bind fun query _ => ?_
    exact (Reports.written _).outcome_bind fun _ _ => .ok trivial
  cases h : (p.encode examples).outcome with
  | ok e => exact .inl ⟨e, rfl⟩
  | error err => exact .inr ⟨err, rfl, hreports.2 err h⟩

end Problem

/-! ## Connectives of numbers -/

namespace Connected

open Sums (integer truth expression)

/-- A connective is applied to numbers. -/
def result (connective : String) : Term :=
  .app ⟨connective, []⟩ truth [(integer, .var "x" integer), (integer, .var "r" integer)]

def semantics (connective : String) : Function where
  name := "E.Sem"
  args := [⟨"t", expression⟩, ⟨"x", integer⟩, ⟨"r", integer⟩]
  body := .matching (.var "t" expression) [⟨some "$x", [], result connective⟩]

def problem (connective : String) : Problem where
  targetName := "f"
  target := ⟨"Start", "E", [⟨"$x", [], []⟩]⟩
  nonterminals := [⟨"Start", "E", [⟨"$x", [], []⟩]⟩]
  constraints := []
  metadata := []
  datatypes := []
  functions := [("E.Sem", semantics connective)]

/-- The disjunction reports that it cannot be applied. -/
theorem disjunction_reported :
    (∃ e, ((problem "or").encode (some [Sums.row 1 2])).outcome = .ok e) ∨
      ∃ err, ((problem "or").encode (some [Sums.row 1 2])).outcome = .error err ∧ err.Reported := by
  refine Problem.encode_reports ?_ ?_
  · intro t ht arg harg
    obtain rfl := List.mem_singleton.mp ht
    rcases List.mem_pair.mp harg with rfl | rfl <;> exact nofun
  · intro table h
    cases h
    unfold Fits
    decide

/-- The conjunction is taken apart and put together again without any operator that could report. -/
theorem conjunction_not_reported :
    ¬ ((∃ e, ((problem "and").encode (some [Sums.row 1 2])).outcome = .ok e) ∨
      ∃ err, ((problem "and").encode (some [Sums.row 1 2])).outcome = .error err ∧
        err.Reported) := by
  have h : ((problem "and").encode (some [Sums.row 1 2])).outcome =
    .error (.misuse .illSorted) := rfl
  rw [h]
  rintro (⟨e, he⟩ | ⟨err, herr, hreported⟩)
  · cases he
  · cases herr
    exact hreported _ rfl

end Connected

end Realizability
