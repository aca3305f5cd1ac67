import Mathlib.Logic.Relation
import Realizability.Proofs.Resolution.Sorting

/-!
# Visits of the evaluator

To turn a case into a premise, the evaluator comes to one term after the other, each in the scopes
that it has there. It does so in single steps (`Signature.Leads`), and a failure is raised where it
comes to (`Signature.exists_raises`). No step leaves scopes that are rectangular, in which every
name stands for as many expressions as there are examples (`Signature.Leads.rectangular`).
-/

namespace Realizability

/-- A term that is to become a premise, or whose value for an example is asked for. -/
inductive Visit
  | premise (scopes : Scopes) (next : Nat) (t : Term)
  | value (scopes : Scopes) (hint : Option SmtSort) (t : Term) (i : Nat)

namespace Visit

def scopes : Visit → Scopes
  | premise scopes .. | value scopes .. => scopes

def term : Visit → Term
  | premise _ _ t | value _ _ t _ => t

def Fails (g : Signature) (e : EncodeError) : Visit → Prop
  | premise scopes next t => g.vectorize scopes next t = .error e
  | value scopes hint t i => g.evaluate scopes hint t i = .error e

/-- A premise is larger than the values of the same term, which it may be put together from. -/
noncomputable def size : Visit → Nat
  | premise _ _ t => 2 * sizeOf t + 1
  | value _ _ t _ => 2 * sizeOf t

end Visit

namespace Signature

variable (g : Signature)

/-- The one visit asks for the other. -/
inductive Leads : Visit → Visit → Prop
  | child {scopes : Scopes} {next next' : Nat} {xs : List TypedVar} {t : Term}
    {consts : List Const} {scope : Table (List Expr)}
    (h : g.witnesses next xs = .ok (consts, scope, next')) :
    Leads (.premise scopes next (.quantified .existential xs t))
      (.premise (scopeOf scope :: scopes) next' t)
  | conjunct {scopes : Scopes} {next : Nat} {sort : Identifier}
    {before after : List (Identifier × Term)} {a : Identifier × Term}
    {r : List Const × List Expr × Nat} (h : g.vectorizeArgs scopes next before = .ok r) :
    Leads (.premise scopes next (.app ⟨"and", []⟩ sort (before ++ a :: after)))
      (.premise scopes r.2.2 a.2)
  | called {scopes : Scopes} {next i : Nat} {ident sort : Identifier}
    {args : List (Identifier × Term)} {a : Identifier × Term} (hc : g.calls ident = true)
    (ha : args.getLast? = some a) (hi : i < g.count) :
    Leads (.premise scopes next (.app ident sort args)) (.value scopes (sortHint a.1 a.2) a.2 i)
  | pointwise {scopes : Scopes} {next i : Nat} {t : Term} (ht : t.isConjunct = true)
    (hi : i < g.count) : Leads (.premise scopes next t) (.value scopes none t i)
  | operand {scopes : Scopes} {hint : Option SmtSort} {i : Nat} {ident sort : Identifier}
    {args : List (Identifier × Term)} {a : Identifier × Term}
    (hs : (Symbol.ofIdentifier? ident).isSome = true) (ha : a ∈ args) :
    Leads (.value scopes hint (.app ident sort args) i) (.value scopes (sortHint a.1 a.2) a.2 i)
  | argument {scopes : Scopes} {hint : Option SmtSort} {i j : Nat} {ident sort : Identifier}
    {args : List (Identifier × Term)} {a : Identifier × Term} (hc : g.calls ident = true)
    (ha : args.getLast? = some a) (hj : j < g.count) :
    Leads (.value scopes hint (.app ident sort args) i) (.value scopes (sortHint a.1 a.2) a.2 j)

/-- The visit fails by itself, and not because one that it asks for does. -/
inductive Raises : Visit → EncodeError → Prop
  | lookup {scopes : Scopes} {hint : Option SmtSort} {x : String} {sort : Identifier} {i : Nat}
    {e : EncodeError} (h : lookup scopes x i = .error e) :
    Raises (.value scopes hint (.var x sort) i) e
  | literal {scopes : Scopes} {hint : Option SmtSort} {t : Term} {i : Nat} {e : EncodeError}
    (ht : t.isLiteral = true) (h : expectLiteral hint t = .error e) :
    Raises (.value scopes hint t i) e
  | symbol {scopes : Scopes} {hint : Option SmtSort} {ident sort : Identifier} {s : Symbol}
    {args : List (Identifier × Term)} {i : Nat} {es : List Expr} {e : EncodeError}
    (hs : Symbol.ofIdentifier? ident = some s) (hes : g.evaluateArgs scopes args i = .ok es)
    (h : applySymbol ident s es = .error e) : Raises (.value scopes hint (.app ident sort args) i) e
  | indicator {v : Visit} {ident sort : Identifier} {args : List (Identifier × Term)}
    {es : List Expr} {e : EncodeError} (hv : v.term = .app ident sort args)
    (hes : g.callVector v.scopes ident.name args = .ok es)
    (h : g.applyIndicator ident.name es = .error e) : Raises v e
  | noArguments {v : Visit} {ident sort : Identifier} (hv : v.term = .app ident sort []) :
    Raises v (.callWithoutArguments ident.name)
  | operator {scopes : Scopes} {hint : Option SmtSort} {ident sort : Identifier}
    {args : List (Identifier × Term)} {i : Nat} (hs : Symbol.ofIdentifier? ident = none)
    (hc : g.calls ident = false) :
    Raises (.value scopes hint (.app ident sort args) i) (.unknownOperator ident)
  | quantifier {scopes : Scopes} {hint : Option SmtSort} {kind : Quantifier} {xs : List TypedVar}
    {t : Term} {i : Nat} : Raises (.value scopes hint (.quantified kind xs t) i)
      (.nestedQuantifier (.quantified kind xs t))
  | matching {scopes : Scopes} {hint : Option SmtSort} {t : Term} {cases : List (MatchCase Term)}
    {i : Nat} : Raises (.value scopes hint (.matching t cases) i) .nestedMatch
  | lambda {scopes : Scopes} {hint : Option SmtSort} {names : List String} {t : Term} {i : Nat} :
    Raises (.value scopes hint (.lambda names t) i) .nestedLambda
  | universal {scopes : Scopes} {next : Nat} {xs : List TypedVar} {t : Term} :
    Raises (.premise scopes next (.quantified .universal xs t))
      (.universalPremise (.quantified .universal xs t))
  | binding {scopes : Scopes} {next : Nat} {xs : List TypedVar} {t : Term} {e : EncodeError}
    (h : g.witnesses next xs = .error e) :
    Raises (.premise scopes next (.quantified .existential xs t)) e
  | conjunction {scopes : Scopes} {next : Nat} {t : Term} {es : List Expr} {e : EncodeError}
    (h : formed (Expr.conjoin es) = .error e) : Raises (.premise scopes next t) e

variable {g}

/-! ## Failures -/

section
variable {scopes : Scopes} {next i : Nat} {hint : Option SmtSort} {name : String} {t : Term}
  {args : List (Identifier × Term)} {e : EncodeError}

theorem evaluateArgs_eq_error (h : g.evaluateArgs scopes args i = .error e) :
    ∃ a ∈ args, g.evaluate scopes (sortHint a.1 a.2) a.2 i = .error e := by
  induction args with
  | nil => cases h
  | cons a args ih =>
    rcases bind_eq_error.mp h with h | ⟨_, -, h⟩
    · exact ⟨a, List.mem_cons_self .., h⟩
    · rcases bind_eq_error.mp h with h | ⟨_, -, h⟩
      · obtain ⟨a', ha', h⟩ := ih h
        exact ⟨a', List.mem_cons_of_mem _ ha', h⟩
      · cases h

theorem callVector_eq_error (h : g.callVector scopes name args = .error e) :
    (args = [] ∧ e = .callWithoutArguments name) ∨ ∃ a, args.getLast? = some a ∧
      ∃ i < g.count, g.evaluate scopes (sortHint a.1 a.2) a.2 i = .error e := by
  induction args with
  | nil => exact .inl ⟨rfl, (Except.error.inj h).symm⟩
  | cons a args ih =>
    cases args with
    | nil =>
      rw [callVector] at h
      obtain ⟨i, hi, h⟩ := exists_of_mapM_eq_error h
      exact .inr ⟨a, rfl, i, List.mem_range.mp hi, h⟩
    | cons b args =>
      obtain ⟨hnil, -⟩ | ⟨c, hc, h⟩ := ih h
      · cases hnil
      · exact .inr ⟨c, by rw [List.getLast?_cons_cons, hc], h⟩

theorem vectorizeArgs_eq_error (h : g.vectorizeArgs scopes next args = .error e) :
    ∃ before a after r, args = before ++ a :: after ∧ g.vectorizeArgs scopes next before = .ok r ∧
      g.vectorize scopes r.2.2 a.2 = .error e := by
  induction args generalizing next with
  | nil => cases h
  | cons a args ih =>
    rcases bind_eq_error.mp h with h | ⟨p, hp, h⟩
    · exact ⟨[], a, args, ([], [], next), rfl, rfl, h⟩
    · rcases bind_eq_error.mp h with h | ⟨_, -, h⟩
      · obtain ⟨before, a', after, r, rfl, hr, h⟩ := ih h
        refine ⟨a :: before, a', after, (p.witnesses ++ r.1, p.formula :: r.2.1, r.2.2), rfl, ?_, h⟩
        exact bind_eq_ok.mpr ⟨p, hp, bind_eq_ok.mpr ⟨r, hr, rfl⟩⟩
      · cases h

theorem pointwise_eq_error (ht : t.isConjunct = true) (h : g.pointwise scopes t = .error e) :
    g.Raises (.premise scopes next t) e ∨
      ∃ w, g.Leads (.premise scopes next t) w ∧ w.Fails g e := by
  rcases bind_eq_error.mp h with h | ⟨es, -, h⟩
  · obtain ⟨i, hi, h⟩ := exists_of_mapM_eq_error h
    exact .inr ⟨_, .pointwise ht (List.mem_range.mp hi), h⟩
  · exact .inl (.conjunction h)

theorem call_eq_error {v : Visit} {ident sort : Identifier} (hv : v.term = .app ident sort args)
    (h : g.call v.scopes ident.name args = .error e) : g.Raises v e ∨ ∃ a, args.getLast? = some a ∧
      ∃ i < g.count, g.evaluate v.scopes (sortHint a.1 a.2) a.2 i = .error e := by
  rcases bind_eq_error.mp h with h | ⟨es, hes, h⟩
  · obtain ⟨rfl, rfl⟩ | hlast := callVector_eq_error h
    · exact .inl (.noArguments hv)
    · exact .inr hlast
  · exact .inl (.indicator hv hes h)

theorem vectorize_eq_error (h : g.vectorize scopes next t = .error e) :
    g.Raises (.premise scopes next t) e ∨
      ∃ w, g.Leads (.premise scopes next t) w ∧ w.Fails g e := by
  cases t with
  | quantified kind xs t =>
    cases kind with
    | existential =>
      rcases bind_eq_error.mp h with h | ⟨⟨consts, scope, next'⟩, hr, h⟩
      · exact .inl (.binding h)
      · rcases bind_eq_error.mp h with h | ⟨_, -, h⟩
        · exact .inr ⟨_, .child hr, h⟩
        · cases h
    | universal =>
      cases h
      exact .inl .universal
  | app ident sort args =>
    rw [vectorize] at h
    by_cases hand : ident = ⟨"and", []⟩ ∧ args.isEmpty = false
    · rw [if_pos hand] at h
      obtain ⟨rfl, -⟩ := hand
      rcases bind_eq_error.mp h with h | ⟨_, -, h⟩
      · obtain ⟨before, a, after, r, rfl, hr, h⟩ := vectorizeArgs_eq_error h
        exact .inr ⟨_, .conjunct hr, h⟩
      · rcases bind_eq_error.mp h with h | ⟨_, -, h⟩
        · exact .inl (.conjunction h)
        · cases h
    · rw [if_neg hand] at h
      by_cases hcall : g.calls ident = true ∧ (Operator.ofName? ident.name).isNone = true
      · rw [if_pos hcall] at h
        rcases bind_eq_error.mp h with h | ⟨_, -, h⟩
        · refine (call_eq_error rfl h).imp_right ?_
          rintro ⟨a, ha, i, hi, h⟩
          exact ⟨_, .called hcall.1 ha hi, h⟩
        · cases h
      · rw [if_neg hcall] at h
        rcases bind_eq_error.mp h with h | ⟨_, -, h⟩
        · exact pointwise_eq_error (Term.isConjunct_app.mpr hand) h
        · cases h
  | _ =>
    rcases bind_eq_error.mp h with h | ⟨_, -, h⟩
    · exact pointwise_eq_error rfl h
    · cases h

theorem evaluate_eq_error (h : g.evaluate scopes hint t i = .error e) :
    g.Raises (.value scopes hint t i) e ∨
      ∃ w, g.Leads (.value scopes hint t i) w ∧ w.Fails g e := by
  cases t with
  | app ident sort args =>
    rw [evaluate] at h
    cases hs : Symbol.ofIdentifier? ident with
    | some s =>
      rw [hs] at h
      rcases bind_eq_error.mp h with h | ⟨es, hes, h⟩
      · obtain ⟨a, ha, h⟩ := evaluateArgs_eq_error h
        exact .inr ⟨_, .operand (by rw [hs]; rfl) ha, h⟩
      · exact .inl (.symbol hs hes h)
    | none =>
      rw [hs] at h
      by_cases hc : g.calls ident = true
      · rw [if_pos hc] at h
        refine (call_eq_error (v := .value scopes hint (.app ident sort args) i) rfl h).imp_right ?_
        rintro ⟨a, ha, j, hj, h⟩
        exact ⟨_, .argument hc ha hj, h⟩
      · rw [if_neg hc] at h
        cases h
        exact .inl (.operator hs (Bool.eq_false_iff.mpr hc))
  | var x sort => exact .inl (.lookup h)
  | number n => exact .inl (.literal rfl h)
  | decimal x => exact .inl (.literal rfl h)
  | string s => exact .inl (.literal rfl h)
  | bits width value => exact .inl (.literal rfl h)
  | quantified kind xs t =>
    cases h
    exact .inl .quantifier
  | matching t cases =>
    cases h
    exact .inl .matching
  | lambda names t =>
    cases h
    exact .inl .lambda

end

/-- What fails fails by itself or because of what it asks for. -/
theorem fails_cases {v : Visit} {e : EncodeError} (h : v.Fails g e) :
    g.Raises v e ∨ ∃ w, g.Leads v w ∧ w.Fails g e := by
  cases v with
  | premise scopes next t => exact vectorize_eq_error h
  | value scopes hint t i => exact evaluate_eq_error h

theorem sizeOf_arg (ident sort : Identifier) {args : List (Identifier × Term)}
    {a : Identifier × Term} (ha : a ∈ args) : sizeOf a.2 < sizeOf (Term.app ident sort args) := by
  have := List.sizeOf_lt_of_mem ha
  obtain ⟨s, t⟩ := a
  simp at this ⊢
  omega

theorem size_lt_of_leads {v w : Visit} (h : g.Leads v w) : w.size < v.size := by
  cases h with
  | child => simp [Visit.size]
  | @conjunct _ _ sort before after a _ _ =>
    have hmem : a ∈ before ++ a :: after := List.mem_append_right _ (List.mem_cons_self ..)
    have := sizeOf_arg ⟨"and", []⟩ sort hmem
    simp only [Visit.size]
    omega
  | @called _ _ _ ident sort _ _ _ ha =>
    have := sizeOf_arg ident sort (List.mem_of_getLast? ha)
    simp only [Visit.size]
    omega
  | pointwise => simp [Visit.size]
  | @operand _ _ _ ident sort _ _ _ ha =>
    have := sizeOf_arg ident sort ha
    simp only [Visit.size]
    omega
  | @argument _ _ _ _ ident sort _ _ _ ha =>
    have := sizeOf_arg ident sort (List.mem_of_getLast? ha)
    simp only [Visit.size]
    omega

/-- Every failure is raised at a visit that the failing one leads to: what is asked for is smaller,
so that following the failure comes to an end. -/
theorem exists_raises {v : Visit} {e : EncodeError} (h : v.Fails g e) :
    ∃ w, Relation.ReflTransGen g.Leads v w ∧ g.Raises w e := by
  induction hn : v.size using Nat.strongRecOn generalizing v with
  | ind n ih =>
    obtain hraises | ⟨w, hw, hfails⟩ := fails_cases h
    · exact ⟨v, .refl, hraises⟩
    · obtain ⟨u, hu, hraises⟩ := ih w.size (hn ▸ size_lt_of_leads hw) hfails rfl
      exact ⟨u, .head hw hu, hraises⟩

end Signature

/-! ## Rectangular scopes -/

/-- Every name in every scope stands for `n` expressions. -/
def Scopes.Rectangular (n : Nat) (scopes : Scopes) : Prop :=
  ∀ scope ∈ scopes, ∀ x es, Table.get? x scope = some es → es.length = n

namespace Scopes

variable {n : Nat} {scopes : Scopes} {entries : List (String × List Expr)}

theorem Rectangular.cons (h : scopes.Rectangular n) (hentries : ∀ e ∈ entries, e.2.length = n) :
    Rectangular n (Table.ofEntries entries :: scopes) := by
  refine List.forall_mem_cons.mpr ⟨fun x es hx => ?_, h⟩
  exact hentries (x, es) (Table.mem_of_get?_ofEntries hx)

theorem Rectangular.length (h : scopes.Rectangular n) {x : String} {es : List Expr}
    (hx : scopes.find? x = some es) : es.length = n := by
  obtain ⟨scope, hscope, hx⟩ := List.exists_of_findSome?_eq_some hx
  exact h scope hscope x es hx

theorem Rectangular.lookup (h : scopes.Rectangular n) (x : String) {i : Nat} (hi : i < n) :
    (scopes.find? x = none ∧ Signature.lookup scopes x i = .error (.unbound x)) ∨
      ∃ es e, scopes.find? x = some es ∧ es[i]? = some e ∧ Signature.lookup scopes x i = .ok e := by
  unfold Signature.lookup
  cases hx : scopes.find? x with
  | none => exact .inl ⟨rfl, rfl⟩
  | some es =>
    have he := List.getElem?_eq_getElem ((h.length hx).symm ▸ hi : i < es.length)
    refine .inr ⟨es, _, rfl, he, ?_⟩
    dsimp only
    rw [he]

end Scopes

/-- The scopes are rectangular, and a value is asked for one of the examples. -/
def Visit.Rectangular (n : Nat) : Visit → Prop
  | premise scopes .. => scopes.Rectangular n
  | value scopes _ _ i => scopes.Rectangular n ∧ i < n

theorem Visit.Rectangular.scopes {n : Nat} {v : Visit} (h : v.Rectangular n) :
    v.scopes.Rectangular n := by
  cases v with
  | premise => exact h
  | value => exact h.1

theorem Function.rectangular_frame {f : Function} {ts : List Term} {table : ExampleTable}
    {frame : Frame} (htable : ExampleTable.ofTerms ts = .ok table) (h : f.frame table = .ok frame) :
    Scopes.Rectangular table.size [frame.scope] := by
  obtain ⟨r, -, -, hr, -, -, -, -, hscope, -⟩ := frame_eq_ok h
  rw [hscope]
  refine Scopes.Rectangular.cons nofun fun entry hentry => ?_
  obtain ⟨arg, -, -, hes⟩ := exists_of_forall₂ (bindArgs_entries rfl hr) hentry
  split at hes
  · rename_i column hc
    rw [hes]
    exact ExampleTable.length_of_column htable hc
  · obtain ⟨cs, hcs, hes⟩ := hes
    rw [hes, List.length_map, hcs.length]

namespace Signature

variable {g : Signature} {v w : Visit}

theorem rectangular_bind {scopes : Scopes} (h : scopes.Rectangular g.count) {xs : List TypedVar}
    {next : Nat} {r : List Const × Table (List Expr) × Nat} (hr : g.witnesses next xs = .ok r) :
    Scopes.Rectangular g.count (scopeOf r.2.1 :: scopes) := by
  refine h.cons fun entry hentry => ?_
  obtain ⟨x, -, cs, hcs, rfl⟩ := exists_of_forall₂ (witnesses_entries hr) hentry
  rw [List.length_map, hcs.length]

theorem Leads.rectangular (h : g.Leads v w) (hv : v.Rectangular g.count) :
    w.Rectangular g.count := by
  cases h with
  | child hr => exact rectangular_bind hv hr
  | conjunct => exact hv
  | called _ _ hi => exact ⟨hv, hi⟩
  | pointwise _ hi => exact ⟨hv, hi⟩
  | operand => exact hv
  | argument _ _ hj => exact ⟨hv.1, hj⟩

end Signature

end Realizability
