import Realizability.Proofs.Resolution.Place
import Realizability.Proofs.Shape.Encoding

/-!
# Terms that resolve

A case is encoded only if its subterms resolve: variables are arguments or bound by existentials
around them, applications are those of operators or of functions of the problem, and existentials
are claimed as conjuncts. With examples every subterm is looked at, without any only the quantifiers
among the conjuncts are (`Problem.encode_resolves`).
-/

namespace Realizability

/-- The subterm has a meaning at its place, where the names of arguments are in scope. -/
def Term.Resolves (names : List String) (calls : Identifier → Bool) (q : Place) : Term → Prop
  | .app ident _ _ => (Symbol.ofIdentifier? ident).isSome = true ∨ calls ident = true
  | .var x _ => x ∈ names ∨ ∃ v ∈ q.bound, v.name = x
  | .quantified kind _ _ => kind = .existential ∧ q.conjunctive = true
  | .matching .. | .lambda .. => False
  | .number _ | .decimal _ | .string _ | .bits .. => True

def Term.isQuantified : Term → Bool
  | .quantified .. => true
  | _ => false

/-- Everything is looked at if there are examples, else the quantifiers among the conjuncts. -/
def Place.Visits (q : Place) (n : Nat) (t : Term) : Prop :=
  0 < n ∨ q.conjunctive = true ∧ t.isQuantified = true

/-- All names in scope are those of arguments or of variables that existentials bind. -/
def Scopes.Within (names : List String) (bound : List TypedVar) (scopes : Scopes) : Prop :=
  ∀ x es, scopes.find? x = some es → x ∈ names ∨ ∃ v ∈ bound, v.name = x

namespace Signature

variable {g : Signature} {names : List String}

theorem within_bind {scopes : Scopes} {q : Place} (h : scopes.Within names q.bound)
    {xs : List TypedVar} {next : Nat} {r : List Const × Table (List Expr) × Nat}
    (hr : g.witnesses next xs = .ok r) :
    Scopes.Within names (q.bind xs).bound (scopeOf r.2.1 :: scopes) := by
  intro x es hx
  rw [Scopes.find?_cons, Option.or_eq_some_iff] at hx
  rcases hx with hx | ⟨-, hx⟩
  · obtain ⟨v, hv, cs, -, hentry⟩ := exists_of_forall₂ (witnesses_entries hr)
      (Table.mem_of_get?_ofEntries hx)
    cases hentry
    exact .inr ⟨v, List.mem_append_left _ (List.mem_reverse.mpr hv), rfl⟩
  · rcases h x es hx with hx | ⟨v, hv, hname⟩
    · exact .inl hx
    · exact .inr ⟨v, List.mem_append_right _ hv, hname⟩

theorem resolves_of_lookup {scopes : Scopes} {q : Place} (hs : scopes.Within names q.bound)
    {x : String} {sort : Identifier} {i : Nat} {e : Expr} (h : lookup scopes x i = .ok e) :
    (Term.var x sort).Resolves names g.calls q := by
  unfold lookup at h
  cases hx : scopes.find? x with
  | none =>
    rw [hx] at h
    cases h
  | some es => exact hs x es hx

/-! ## Values -/

section
variable {scopes : Scopes}

mutual

/-- All of a term with a value resolves, wherever it stands. -/
theorem evaluate_resolves (hn : 0 < g.count) : ∀ (t : Term) {q : Place} {hint : Option SmtSort}
    {i : Nat} {e : Expr}, scopes.Within names q.bound →
    g.evaluate scopes hint t i = .ok e →
    ∀ o ∈ t.occurrences g.calls q, o.2.Resolves names g.calls o.1
  | .app ident sort args, q, _, i, e, hs, he, o, ho => by
    rw [evaluate] at he
    cases hsymbol : Symbol.ofIdentifier? ident with
    | some s =>
      rw [hsymbol] at he
      obtain ⟨es, hes, -⟩ := bind_eq_ok.mp he
      rw [occurrences_symbol hsymbol] at ho
      rcases List.mem_cons.mp ho with rfl | ho
      · exact .inl (by rw [hsymbol]; rfl)
      · exact evaluateArgs_resolves hn args (by simpa using hs) hes o ho
    | none =>
      rw [hsymbol] at he
      by_cases hc : g.calls ident = true
      · rw [if_pos hc] at he
        obtain ⟨es, hes, -⟩ := bind_eq_ok.mp he
        rw [occurrences_call hsymbol hc] at ho
        rcases List.mem_cons.mp ho with rfl | ho
        · exact .inr hc
        · exact callVector_resolves hn args (q := q.inner) hs hes o ho
      · rw [if_neg hc] at he
        cases he
  | .var x sort, q, _, i, e, hs, he, o, ho => by
    rw [List.mem_singleton.mp ho]
    exact resolves_of_lookup hs he
  | .number _, _, _, _, _, _, _, o, ho | .decimal _, _, _, _, _, _, _, o, ho
  | .string _, _, _, _, _, _, _, o, ho | .bits .., _, _, _, _, _, _, o, ho => by
    rw [List.mem_singleton.mp ho]
    trivial
  | .quantified .., _, _, _, _, _, he, _, _ | .matching .., _, _, _, _, _, he, _, _
  | .lambda .., _, _, _, _, _, he, _, _ => by cases he

theorem evaluateArgs_resolves (hn : 0 < g.count) : ∀ (args : List (Identifier × Term)) {q : Place}
    {i : Nat} {es : List Expr}, scopes.Within names q.bound →
    g.evaluateArgs scopes args i = .ok es →
    ∀ o ∈ argOccurrences g.calls q args, o.2.Resolves names g.calls o.1
  | [], _, _, _, _, _, _, ho => by cases ho
  | (_, t) :: args, q, i, es, hs, hes, o, ho => by
    obtain ⟨e, he, hes⟩ := bind_eq_ok.mp hes
    obtain ⟨es', hes', -⟩ := bind_eq_ok.mp hes
    rcases List.mem_append.mp ho with ho | ho
    · exact evaluate_resolves hn t hs he o ho
    · exact evaluateArgs_resolves hn args hs hes' o ho

theorem callVector_resolves (hn : 0 < g.count) : ∀ (args : List (Identifier × Term)) {q : Place}
    {name : String} {es : List Expr}, scopes.Within names q.bound →
    g.callVector scopes name args = .ok es →
    ∀ o ∈ finalOccurrences g.calls q args, o.2.Resolves names g.calls o.1
  | [], _, _, _, _, _, _, ho => by cases ho
  | [(_, t)], q, name, es, hs, hes, o, ho => by
    rw [callVector] at hes
    obtain ⟨e, he⟩ := mapM_ok_iff.mp ⟨es, hes⟩ 0 (List.mem_range.mpr hn)
    exact evaluate_resolves hn t hs he o ho
  | _ :: a :: args, q, name, es, hs, hes, o, ho => callVector_resolves hn (a :: args) hs hes o ho

end

end

/-! ## Premises -/

def Resolved (g : Signature) (names : List String) (os : List (Place × Term)) : Prop :=
  ∀ o ∈ os, o.1.Visits g.count o.2 → o.2.Resolves names g.calls o.1

theorem pointwise_resolved {scopes : Scopes} {q : Place} {t : Term} {e : Expr}
    (hs : scopes.Within names q.bound) (ht : t.isConjunct = true) (hq : t.isQuantified = false)
    (h : g.pointwise scopes t = .ok e) : g.Resolved names (t.occurrences g.calls q) := by
  obtain ⟨es, hes, -⟩ := bind_eq_ok.mp h
  rintro o ho (hn | ⟨hc, hquantified⟩)
  · obtain ⟨e', he'⟩ := mapM_ok_iff.mp ⟨es, hes⟩ 0 (List.mem_range.mpr hn)
    exact evaluate_resolves hn t hs he' o ho
  · rw [eq_of_conjunctive ht ho hc, hq] at hquantified
    cases hquantified

mutual

theorem vectorize_resolved : ∀ (t : Term) {scopes : Scopes} {q : Place} {next : Nat} {p : Premise},
    scopes.Within names q.bound → q.conjunctive = true → g.vectorize scopes next t = .ok p →
    g.Resolved names (t.occurrences g.calls q)
  | .quantified .existential xs t, scopes, q, next, p, hs, hq, hp => by
    obtain ⟨r, hr, hp⟩ := bind_eq_ok.mp hp
    obtain ⟨p', hp', -⟩ := bind_eq_ok.mp hp
    have hchild := vectorize_resolved t (within_bind hs hr) hq hp'
    intro o ho hv
    rcases List.mem_cons.mp ho with rfl | ho
    · exact ⟨rfl, hq⟩
    · exact hchild o ho hv
  | .quantified .universal .., _, _, _, _, _, _, hp => by cases hp
  | .app ident sort args, scopes, q, next, p, hs, hq, hp => by
    rw [vectorize] at hp
    by_cases hand : ident = ⟨"and", []⟩ ∧ args.isEmpty = false
    · rw [if_pos hand] at hp
      obtain ⟨r, hr, -⟩ := bind_eq_ok.mp hp
      obtain ⟨rfl, -⟩ := hand
      have hargs := vectorizeArgs_resolved args hs hq hr
      rw [occurrences_symbol (s := .plain .and) rfl]
      intro o ho hv
      rcases List.mem_cons.mp ho with rfl | ho
      · exact .inl rfl
      · exact hargs o ho hv
    · rw [if_neg hand] at hp
      have ht : (Term.app ident sort args).isConjunct = true :=
        Term.isConjunct_app.mpr hand
      by_cases hcall : g.calls ident = true ∧ (Operator.ofName? ident.name).isNone = true
      · rw [if_pos hcall] at hp
        obtain ⟨e, he, -⟩ := bind_eq_ok.mp hp
        obtain ⟨es, hes, -⟩ := bind_eq_ok.mp he
        have hsymbol := ofIdentifier?_of_isNone (Bool.and_eq_true_iff.mp hcall.1).1 hcall.2
        rintro o ho (hn | ⟨hc, hquantified⟩)
        · rw [occurrences_call hsymbol hcall.1] at ho
          rcases List.mem_cons.mp ho with rfl | ho
          · exact .inr hcall.1
          · exact callVector_resolves hn args (q := q.inner) hs hes o ho
        · rw [eq_of_conjunctive ht ho hc] at hquantified
          cases hquantified
      · rw [if_neg hcall] at hp
        obtain ⟨e, he, -⟩ := bind_eq_ok.mp hp
        exact pointwise_resolved hs ht rfl he
  | .var .., _, _, _, _, hs, _, hp | .number _, _, _, _, _, hs, _, hp
  | .decimal _, _, _, _, _, hs, _, hp | .string _, _, _, _, _, hs, _, hp
  | .bits .., _, _, _, _, hs, _, hp | .matching .., _, _, _, _, hs, _, hp
  | .lambda .., _, _, _, _, hs, _, hp => by
    obtain ⟨e, he, -⟩ := bind_eq_ok.mp hp
    exact pointwise_resolved hs rfl rfl he

theorem vectorizeArgs_resolved : ∀ (args : List (Identifier × Term)) {scopes : Scopes} {q : Place}
    {next : Nat} {r : List Const × List Expr × Nat}, scopes.Within names q.bound →
    q.conjunctive = true → g.vectorizeArgs scopes next args = .ok r →
    g.Resolved names (argOccurrences g.calls q args)
  | [], _, _, _, _, _, _, _ => fun _ ho => by cases ho
  | (_, t) :: args, scopes, q, next, r, hs, hq, hr => by
    obtain ⟨p, hp, hr⟩ := bind_eq_ok.mp hr
    obtain ⟨r', hr', -⟩ := bind_eq_ok.mp hr
    have ht := vectorize_resolved t hs hq hp
    have hargs := vectorizeArgs_resolved args hs hq hr'
    intro o ho
    rcases List.mem_append.mp ho with ho | ho
    · exact ht o ho
    · exact hargs o ho

end

end Signature

/-! ## Encodings -/

theorem Function.within_frame {f : Function} {table : ExampleTable} {frame : Frame}
    (h : f.frame table = .ok frame) :
    Scopes.Within ((f.args.drop 1).map TypedVar.name) Place.top.bound [frame.scope] := by
  obtain ⟨r, -, -, hr, -, -, -, -, hscope, -⟩ := frame_eq_ok h
  intro x es hx
  rw [hscope, Scopes.find?_cons, Option.or_eq_some_iff] at hx
  rcases hx with hx | ⟨-, hx⟩
  · obtain ⟨arg, harg, hentry⟩ := exists_of_forall₂ (bindArgs_entries rfl hr)
      (Table.mem_of_get?_ofEntries hx)
    have hmem : arg.1 ∈ f.args.drop 1 := List.fst_mem_of_mem_zipIdx harg
    exact .inl (List.mem_map.mpr ⟨arg.1, hmem, hentry.1.symm⟩)
  · cases hx

/-- On an encoding with examples all subterms of all cases resolve. Without examples there can only
be existentials among the quantifiers that are claimed as conjuncts. -/
theorem Problem.encode_resolves {p : Problem} {examples : Option (List Term)} {e : Encoding}
    (h : (p.encode examples).outcome = .ok e) {f : Function} (hf : f ∈ p.functions.values)
    {c : MatchCase Term} (hc : c ∈ f.matchCases) {q : Place} {t : Term}
    (ht : (q, t) ∈ c.result.occurrences p.defines .top)
    (hv : q.Visits (examples.getD p.constraints).length t) :
    t.Resolves ((f.args.drop 1).map TypedVar.name) p.defines q := by
  obtain ⟨target, he⟩ := encode_eq_ok.mp h
  have hcalls := calls_eq_defines (n := e.examples.size) he.indicators
  rw [← ExampleTable.size_ofTerms he.table] at hv
  have hclauses := Signature.functions_each (P := fun f c _ =>
    Signature.Resolved ⟨e.examples.size, e.indicators⟩ ((f.args.drop 1).map TypedVar.name)
      (c.result.occurrences p.defines .top)) (fun f _ _ frame hframe c next r hr => by
        obtain ⟨premise, hp, -⟩ := bind_eq_ok.mp hr
        have hscopes := Function.within_frame hframe
        exact hcalls ▸ Signature.vectorize_resolved c.result hscopes rfl hp) he.clauses
  obtain ⟨entry, -, -, hcases⟩ := exists_of_forall₂ hclauses.flip hf
  obtain ⟨φ, -, hresolved⟩ := exists_of_forall₂ hcases.flip hc
  exact hcalls ▸ hresolved (q, t) ht hv

theorem Sums.successors_resolve :
    ∃ e, ((problem grammar).encode (some [row 1 2, row 2 3])).outcome = .ok e ∧
      ∀ c ∈ semantics.matchCases, ∀ o ∈ c.result.occurrences (problem grammar).defines .top,
        o.2.Resolves ["x", "r"] (problem grammar).defines o.1 := by
  obtain ⟨e, h, -⟩ := encode_successors
  have hf : semantics ∈ (problem grammar).functions.values := List.mem_singleton_self _
  refine ⟨e, h, fun c hc o ho => Problem.encode_resolves h hf hc ho (.inl ?_)⟩
  decide

/-! ## Unbound variables -/

namespace Unbound

open Sums (integer truth expression equation)

/-- Nothing binds the variable `z`. -/
def semantics : Function where
  name := "E.Sem"
  args := [⟨"t", expression⟩, ⟨"x", integer⟩, ⟨"r", integer⟩]
  body := .matching (.var "t" expression) [⟨some "$x", [], equation "r" (.var "z" integer)⟩]

def problem : Problem where
  targetName := "f"
  target := ⟨"Start", "E", [⟨"$x", [], []⟩]⟩
  nonterminals := [⟨"Start", "E", [⟨"$x", [], []⟩]⟩]
  constraints := []
  metadata := []
  datatypes := []
  functions := [("E.Sem", semantics)]

theorem mem_occurrences : (⟨false, []⟩, Term.var "z" integer) ∈
    (equation "r" (.var "z" integer)).occurrences problem.defines .top := by
  have hsymbol : Symbol.ofIdentifier? ⟨"=", []⟩ = some (.plain .eq) := rfl
  rw [equation, occurrences_symbol hsymbol]
  simp [argOccurrences, Term.occurrences, Place.below, Place.inner, Place.top]

/-- Without examples the variable is not looked at. -/
theorem not_resolved : ∃ e, (problem.encode (some [])).outcome = .ok e ∧
    ∃ f ∈ problem.functions.values, ∃ c ∈ f.matchCases,
      ∃ o ∈ c.result.occurrences problem.defines .top,
        ¬ o.2.Resolves ((f.args.drop 1).map TypedVar.name) problem.defines o.1 := by
  refine ⟨_, rfl, semantics, List.mem_singleton_self _, _, List.mem_singleton_self _, _,
    mem_occurrences, ?_⟩
  rintro (hname | ⟨v, hv, -⟩)
  · simp [semantics] at hname
  · cases hv

end Unbound

end Realizability
