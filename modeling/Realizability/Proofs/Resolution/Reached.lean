import Realizability.Proofs.Encoding.Correctness
import Realizability.Proofs.Resolution.Visit

/-!
# Places that are reached

Encoding a problem comes to the cases of its functions and to all that these lead to
(`Problem.Reaches`). In all these places every name in scope stands for one expression per example
(`Problem.encode_vectors`), and what keeps a problem from being encoded is raised in one of them,
unless it is about sorts, examples or the shape of a function (`Problem.encode_eq_error`).
-/

namespace Realizability

/-- Encoding a problem on examples comes to the visit: to the cases of each function in the scope of
its arguments, from whatever stamp on, and to all that these lead to. -/
inductive Problem.Reaches (p : Problem) (examples : Option (List Term)) (g : Signature) :
    Visit → Prop
  | case {table : ExampleTable} {f : Function} {cases : List (MatchCase Term)} {frame : Frame}
    {c : MatchCase Term} {next : Nat}
    (htable : ExampleTable.ofTerms (examples.getD p.constraints) = .ok table)
    (hcount : g.count = table.size)
    (hindicators : (declareIndicators p.functions.values).outcome = .ok g.indicators)
    (hf : f ∈ p.functions.values) (hcases : f.cases = .ok cases) (hframe : f.frame table = .ok frame)
    (hc : c ∈ cases) : Reaches p examples g (.premise [frame.scope] next c.result)
  | step {v w : Visit} (hv : Reaches p examples g v) (h : g.Leads v w) : Reaches p examples g w

namespace Problem.Reaches

variable {p : Problem} {examples : Option (List Term)} {g : Signature} {v w : Visit}

theorem trans (hv : p.Reaches examples g v) (h : Relation.ReflTransGen g.Leads v w) :
    p.Reaches examples g w := by
  induction h with
  | refl => exact hv
  | tail _ h ih => exact ih.step h

theorem count_eq (h : p.Reaches examples g v) :
    g.count = (examples.getD p.constraints).length := by
  induction h with
  | case htable hcount => rw [hcount, ExampleTable.size_ofTerms htable]
  | step _ _ ih => exact ih

theorem rectangular (h : p.Reaches examples g v) : v.Rectangular g.count := by
  induction h with
  | case htable hcount _ _ _ hframe => exact hcount ▸ Function.rectangular_frame htable hframe
  | step _ h ih => exact h.rectangular ih

end Problem.Reaches

/-! ## Errors from elsewhere -/

/-- The error is about sorts, literals, examples or the shape of a function. -/
def EncodeError.Outside : EncodeError → Prop
  | literal _ | examples _ | noArguments _ | tooFewArguments _ | noMatch _ | unknownFunction _
  | noFunction _ | outputMismatch _ | misuse .illSorted => True
  | _ => False

def FailsOutside {α : Type} (x : Except EncodeError α) : Prop := ∀ e, x = .error e → e.Outside

namespace FailsOutside

variable {α β ε : Type}

theorem ok (a : α) : FailsOutside (.ok a) := nofun

theorem error {e : EncodeError} (h : e.Outside) : FailsOutside (.error e : Except EncodeError α) :=
  fun _ he => Except.error.inj he ▸ h

theorem bind {x : Except EncodeError α} {f : α → Except EncodeError β} (hx : FailsOutside x)
    (hf : ∀ a, FailsOutside (f a)) : FailsOutside (x >>= f) := by
  intro e h
  rcases bind_eq_error.mp h with h | ⟨a, -, h⟩
  · exact hx e h
  · exact hf a e h

theorem mapError {x : Except ε α} {f : ε → EncodeError} (hf : ∀ e, (f e).Outside) :
    FailsOutside (x.mapError f) := by
  cases x with
  | ok a => exact ok a
  | error e => exact error (hf e)

theorem mapM {f : α → Except EncodeError β} (hf : ∀ a, FailsOutside (f a)) (as : List α) :
    FailsOutside (as.mapM f) := by
  intro e h
  obtain ⟨a, -, h⟩ := exists_of_mapM_eq_error h
  exact hf a e h

theorem outcome_bind {x : Logged EncodeError α} {f : α → Logged EncodeError β}
    (hx : FailsOutside x.outcome) (hf : ∀ a, FailsOutside (f a).outcome) :
    FailsOutside (x >>= f).outcome := by
  rw [Logged.outcome_bind]
  exact hx.bind hf

end FailsOutside

theorem sortOf_outside (ident : Identifier) : FailsOutside (sortOf ident) :=
  .mapError fun _ => trivial

theorem formed_outside {α : Type} {x : Build α} (h : Defined x) : FailsOutside (formed x) := by
  intro e he
  cases x with
  | ok a => cases he
  | error m =>
    cases he
    cases m with
    | illSorted => trivial
    | undefined => exact absurd rfl h

theorem literal?_defined (sort : Option SmtSort) (t : Term) : Defined (literal? sort t) := by
  have hdecimal : ∀ x : Binary64, Defined (some <$> (decimalValue x)) := by
    intro x
    unfold decimalValue
    split
    · exact .ok
    · exact .illSorted
  unfold literal?
  split
  · exact .ok
  · exact hdecimal _
  · exact .ok
  · exact .ok
  · split
    · exact .ok
    · split <;> exact .ok
  · split
    · split
      · exact .ok
      · exact hdecimal _
      · exact .ok
    · exact .ok
  · exact .ok

theorem Expr.close_defined (cs : List Const) (e : Expr) : Defined (Expr.close cs e) := by
  unfold close
  split
  · exact .ok
  · split
    · exact .ok
    · exact .illSorted

theorem ExampleTable.valueOf_outside (i : Nat) (arg : Identifier × Term) :
    FailsOutside (valueOf i arg) := by
  unfold valueOf
  split
  · exact .error trivial
  · refine (formed_outside (literal?_defined _ _)).bind fun e => ?_
    split
    · exact .ok _
    · exact .error trivial

theorem ExampleTable.ofTerms_outside (ts : List Term) : FailsOutside (ofTerms ts) := by
  have hvalues : ∀ (rows : List Row) (i : Nat), FailsOutside (valuesFrom i rows) := by
    intro rows
    induction rows with
    | nil => exact fun i => .ok _
    | cons row rows ih =>
      intro i
      have hrow : FailsOutside (rowValues i row) := .mapM (valueOf_outside i) _
      exact hrow.bind fun _ => (ih _).bind fun _ => .ok _
  cases ts with
  | nil => exact .ok _
  | cons t ts =>
    have hrow : FailsOutside ((rowOf 0 t).mapError .examples) := .mapError fun _ => trivial
    refine hrow.bind fun r => ?_
    have hrows : FailsOutside ((rowsFrom r.1 r.2.length 1 ts).mapError .examples) :=
      .mapError fun _ => trivial
    refine hrows.bind fun rows => ?_
    split
    · exact .error trivial
    · exact (hvalues _ _).bind fun _ => .ok _

namespace Function

theorem resultSort_outside (f : Function) : FailsOutside f.resultSort := by
  unfold resultSort
  split
  · exact .error trivial
  · exact sortOf_outside _

theorem cases_outside (f : Function) : FailsOutside f.cases := by
  unfold Function.cases
  split
  · exact .error trivial
  · split
    · exact .ok _
    · exact .error trivial

theorem frame_outside (f : Function) (table : ExampleTable) : FailsOutside (f.frame table) := by
  have hbind : ∀ (xs : List TypedVar) (i : Nat), FailsOutside (bindArgs table i xs) := by
    intro xs
    induction xs with
    | nil => exact fun i => .ok _
    | cons x xs ih =>
      intro i
      rw [bindArgs]
      dsimp only
      split
      · exact (ih _).bind fun _ => .ok _
      · exact (sortOf_outside _).bind fun _ => (ih _).bind fun _ => .ok _
  refine (hbind _ _).bind fun r => ?_
  dsimp only
  split
  · exact .error trivial
  · exact (sortOf_outside _).bind fun _ => .ok _

theorem query_outside (f : Function) (table : ExampleTable) : FailsOutside (f.query table) :=
  f.resultSort_outside.bind fun _ => .mapError fun _ => trivial

end Function

theorem declareIndicators_outside (fs : List Function) :
    FailsOutside (declareIndicators fs).outcome := by
  induction fs with
  | nil => exact .ok _
  | cons f fs ih =>
    refine FailsOutside.outcome_bind f.resultSort_outside fun _ => ?_
    exact FailsOutside.outcome_bind (.ok _) fun _ => ih.outcome_bind fun _ => .ok _

theorem Problem.targetFunction_outside (p : Problem) (table : ExampleTable) :
    FailsOutside (p.targetFunction table) := by
  unfold targetFunction
  split
  · split
    · exact .ok _
    · exact .error trivial
  · dsimp only
    split
    · exact .ok _
    · exact .error trivial

/-! ## Errors of clauses -/

namespace Signature

variable {g : Signature} {f : Function} {fs : List Function} {frame : Frame} {table : ExampleTable}
  {next : Nat} {e : EncodeError}

theorem clause_eq_error {t : Term} (h : g.clause frame next t = .error e) :
    e.Outside ∨ (Visit.premise [frame.scope] next t).Fails g e := by
  rcases bind_eq_error.mp h with h | ⟨p, -, h⟩
  · exact .inr h
  · have hclose : FailsOutside (do
        let implication ← formed (Expr.mkImplies p.formula frame.head)
        let closed ← formed (Expr.close (frame.fresh ++ p.witnesses) implication)
        return (closed, p.next)) :=
      (formed_outside (Expr.logical_defined _ _)).bind fun _ =>
        (formed_outside (Expr.close_defined _ _)).bind fun _ => .ok _
    exact .inl (hclose e h)

theorem clauses_eq_error {cs : List (MatchCase Term)}
    (h : (g.clauses f frame next cs).outcome = .error e) :
    e.Outside ∨ ∃ c ∈ cs, ∃ next, (Visit.premise [frame.scope] next c.result).Fails g e := by
  induction cs generalizing next with
  | nil => cases h
  | cons c cs ih =>
    rcases outcome_bind_eq_error.mp h with h | ⟨_, -, h⟩
    · cases h
    · rcases outcome_bind_eq_error.mp h with h | ⟨r, -, h⟩
      · refine (clause_eq_error h).imp_right fun h => ?_
        exact ⟨c, List.mem_cons_self .., next, h⟩
      · rcases outcome_bind_eq_error.mp h with h | ⟨_, -, h⟩
        · refine (ih h).imp_right ?_
          rintro ⟨c', hc', h⟩
          exact ⟨c', List.mem_cons_of_mem _ hc', h⟩
        · cases h

theorem encodeFunctions_eq_error (h : (g.encodeFunctions table next fs).outcome = .error e) :
    e.Outside ∨ ∃ f ∈ fs, ∃ cases frame, f.cases = .ok cases ∧ f.frame table = .ok frame ∧
      ∃ c ∈ cases, ∃ next, (Visit.premise [frame.scope] next c.result).Fails g e := by
  induction fs generalizing next with
  | nil => cases h
  | cons f fs ih =>
    rcases outcome_bind_eq_error.mp h with h | ⟨cases, hcases, h⟩
    · exact .inl (f.cases_outside e h)
    · rcases outcome_bind_eq_error.mp h with h | ⟨frame, hframe, h⟩
      · exact .inl (f.frame_outside table e h)
      · rcases outcome_bind_eq_error.mp h with h | ⟨r, -, h⟩
        · refine (clauses_eq_error h).imp_right fun h => ?_
          exact ⟨f, List.mem_cons_self .., cases, frame, hcases, hframe, h⟩
        · rcases outcome_bind_eq_error.mp h with h | ⟨_, -, h⟩
          · refine (ih h).imp_right ?_
            rintro ⟨f', hf', h⟩
            exact ⟨f', List.mem_cons_of_mem _ hf', h⟩
          · cases h

end Signature

theorem Problem.encode_eq_error {p : Problem} {examples : Option (List Term)} {e : EncodeError}
    (h : (p.encode examples).outcome = .error e) :
    e.Outside ∨ ∃ g w, p.Reaches examples g w ∧ g.Raises w e := by
  rcases outcome_bind_eq_error.mp h with h | ⟨table, htable, h⟩
  · exact .inl (ExampleTable.ofTerms_outside _ e h)
  rcases outcome_bind_eq_error.mp h with h | ⟨-, -, h⟩
  · cases h
  rcases outcome_bind_eq_error.mp h with h | ⟨indicators, hindicators, h⟩
  · exact .inl (declareIndicators_outside _ e h)
  rcases outcome_bind_eq_error.mp h with h | ⟨target, -, h⟩
  · exact .inl (p.targetFunction_outside table e h)
  rcases outcome_bind_eq_error.mp h with h | ⟨clauses, -, h⟩
  · refine (Signature.encodeFunctions_eq_error h).imp_right ?_
    rintro ⟨f, hf, cases, frame, hcases, hframe, c, hc, next, h⟩
    obtain ⟨w, hw, hraises⟩ := Signature.exists_raises h
    have hcase :
        p.Reaches examples ⟨table.size, indicators⟩ (.premise [frame.scope] next c.result) :=
      .case htable rfl hindicators hf hcases hframe hc
    exact ⟨_, w, hcase.trans hw, hraises⟩
  rcases outcome_bind_eq_error.mp h with h | ⟨query, -, h⟩
  · exact .inl (target.query_outside table e h)
  · cases h

/-! ## Vectors -/

theorem getElem?_freshVector {x : String} {s : SmtSort} {n i : Nat} {c : Const} :
    (freshVector x s n)[i]? = some c ↔ i < n ∧ c = ⟨copyName i x, none, s⟩ := by
  by_cases hi : i < n
  · simp [freshVector, hi, eq_comm]
  · simp [freshVector, hi]

theorem Signature.Raises.unbound {g : Signature} {n : Nat} {scopes : Scopes} {hint : Option SmtSort}
    {x : String} {sort : Identifier} {i : Nat} {e : EncodeError}
    (h : g.Raises (.value scopes hint (.var x sort) i) e)
    (hv : Visit.Rectangular n (.value scopes hint (.var x sort) i)) :
    e = .unbound x ∧ scopes.find? x = none := by
  cases h with
  | lookup h =>
    obtain ⟨hx, hlookup⟩ | ⟨_, _, -, -, hlookup⟩ := hv.1.lookup x hv.2
    · exact ⟨(Except.error.inj (hlookup.symm.trans h)).symm, hx⟩
    · cases hlookup.symm.trans h
  | literal ht => cases ht
  | indicator hv => cases hv
  | noArguments hv => cases hv

/-- Wherever encoding comes to, each name in scope stands for one expression per example, so that a
name that is bound can be looked up for all of them; and if a lookup keeps a problem from being
encoded, then the name is not bound. Copies for different variables or different examples have
different names. -/
theorem Problem.encode_vectors (p : Problem) (examples : Option (List Term)) :
    (∀ g v, p.Reaches examples g v →
      v.Rectangular (examples.getD p.constraints).length ∧
      ∀ x es, v.scopes.find? x = some es → es.length = (examples.getD p.constraints).length ∧
        ∀ i < (examples.getD p.constraints).length, ∃ e, Signature.lookup v.scopes x i = .ok e) ∧
    (∀ e, (p.encode examples).outcome = .error e →
      e.Outside ∨ ∃ g w, p.Reaches examples g w ∧ g.Raises w e ∧
        ∀ scopes hint x sort i, w = .value scopes hint (.var x sort) i →
          e = .unbound x ∧ scopes.find? x = none) ∧
    ∀ (x y : String) (s t : SmtSort) (m n i j : Nat) (c d : Const),
      (freshVector x s m)[i]? = some c → (freshVector y t n)[j]? = some d → (x, i) ≠ (y, j) →
        c.name ≠ d.name := by
  refine ⟨fun g v hv => ?_, fun e he => ?_, ?_⟩
  · rw [← hv.count_eq]
    refine ⟨hv.rectangular, fun x es hx => ⟨hv.rectangular.scopes.length hx, fun i hi => ?_⟩⟩
    obtain ⟨hnone, -⟩ | ⟨-, e, -, -, he⟩ := hv.rectangular.scopes.lookup x hi
    · cases hnone.symm.trans hx
    · exact ⟨e, he⟩
  · refine (encode_eq_error he).imp_right ?_
    rintro ⟨g, w, hw, hraises⟩
    refine ⟨g, w, hw, hraises, ?_⟩
    rintro scopes hint x sort i rfl
    exact hraises.unbound hw.rectangular
  · intro x y s t m n i j c d hc hd hne hname
    obtain ⟨-, rfl⟩ := getElem?_freshVector.mp hc
    obtain ⟨-, rfl⟩ := getElem?_freshVector.mp hd
    obtain ⟨rfl, rfl⟩ := copyName_inj hname
    exact hne rfl

/-! ## Two examples of a sum -/

namespace Sums

def signature : Signature := ⟨2, [("E.Sem", .int)]⟩

theorem addition_reached : ∃ scopes, (problem grammar).Reaches (some [row 1 2, row 2 3]) signature
    (.value scopes none (.var "r1" integer) 1) := by
  have htable : ExampleTable.ofTerms [row 1 2, row 2 3] =
      .ok ⟨some "E.Sem", [[.int 1, .int 2]], [.int 2, .int 3]⟩ := rfl
  obtain ⟨frame, hframe⟩ : ∃ frame, semantics.frame
      ⟨some "E.Sem", [[.int 1, .int 2]], [.int 2, .int 3]⟩ = .ok frame := ⟨_, rfl⟩
  have hcase : (problem grammar).Reaches (some [row 1 2, row 2 3]) signature
      (.premise [frame.scope] 0 addition) :=
    .case (c := ⟨some "$+", ["t1", "t2"], addition⟩) htable rfl rfl (List.mem_singleton_self _) rfl
      hframe (by simp)
  obtain ⟨⟨consts, scope, next⟩, hscope⟩ :
      ∃ r, signature.witnesses 0 [⟨"r1", integer⟩, ⟨"r2", integer⟩] = .ok r := ⟨_, rfl⟩
  have hnone : signature.vectorizeArgs [Signature.scopeOf scope, frame.scope] next [] =
      .ok ([], [], next) := rfl
  have hlast : 1 < signature.count := by decide
  have hcall := (hcase.step (.child hscope)).step (.conjunct hnone)
  exact ⟨_, hcall.step (.called (a := (integer, .var "r1" integer)) rfl rfl hlast)⟩

theorem addition_vectors : ∃ scopes, (problem grammar).Reaches (some [row 1 2, row 2 3]) signature
      (.value scopes none (.var "r1" integer) 1) ∧
    Scopes.Rectangular 2 scopes ∧
    (∀ x es, scopes.find? x = some es → ∀ i < 2, ∃ e, Signature.lookup scopes x i = .ok e) ∧
    copyName 1 "0_x" ≠ copyName 10 "x" := by
  obtain ⟨scopes, hv⟩ := addition_reached
  obtain ⟨hreached, -, hnames⟩ :=
    Problem.encode_vectors (problem grammar) (some [row 1 2, row 2 3])
  obtain ⟨hrectangular, hbound⟩ := hreached signature _ hv
  exact ⟨scopes, hv, hrectangular.1, fun x es hx => (hbound x es hx).2,
    hnames "0_x" "x" .int .int 2 11 1 10 _ _ rfl rfl (by decide)⟩

end Sums

end Realizability
