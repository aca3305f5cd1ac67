import Realizability.Proofs.Run.Writing

/-!
# The course of a check

A check ends with a verdict or fails in one of its stages, and how far it has come by then is what
it leaves in the timing log. What its stages end with is said by what the platform may answer and
not by how the check goes about them.
-/

namespace Realizability

open CommandLine Timing

namespace Platform

variable {m : Type → Type} [Monad m] {p : Platform m}

/-- What may be answered to fetching a text, to storing or printing one and to asking for a
verdict. -/
structure Answers (p : Platform m) where
  fetched : String → Except Failure String → Prop
  stored : String → String → Except Failure Unit → Prop
  printed : String → Except Failure Unit → Prop
  solved : List Expr → Engine → Setting Int → Except Failure Verdict → Prop
  fetch (file : String) : SatisfiesM (fetched file) (p.fetch file)
  store (file text : String) : SatisfiesM (stored file text) (p.store file text)
  print (text : String) : SatisfiesM (printed text) (p.print text).run
  solve (formulas : List Expr) (engine : Engine) (timeout : Setting Int) :
    SatisfiesM (solved formulas engine timeout) (p.solve formulas engine timeout)

def stages : List EventKind := [.parsed, .built, .encoded, .startSolver, .endSolver]

namespace Answers

variable (A : p.Answers) (o : Options)

/-! ## What stages may end with -/

def Parses (r : Except Failure (List Event)) : Prop :=
  ∃ text, A.fetched o.file text ∧ r = text >>= fun text => (parseEvents text).outcome

def Builds (r : Except Failure Problem) : Prop :=
  ∃ events, A.Parses o (.ok events) ∧ r = (buildProblem events).outcome

def Exemplifies (r : Except Failure (Option (List Term))) : Prop :=
  match o.examples with
  | .unset => r = .ok none
  | .bare => r = .error .unnamedFile
  | .value file => ∃ text, A.fetched file text ∧ r = text >>= fun text => some <$> parseTerms text

def Encodes (r : Except Failure Encoding) : Prop :=
  ∃ problem rows, A.Builds o (.ok problem) ∧ A.Exemplifies o (.ok rows) ∧
    r = ((problem.encode rows).mapError Failure.encode).outcome

def Lists (e : Encoding) (r : Except Failure Unit) : Prop :=
  if o.printFormulas then A.printed (e.listing p.write) r else r = .ok ()

def Dumps (e : Encoding) (r : Except Failure Unit) : Prop :=
  if o.dump.isSet then
    A.stored (if o.dumpFile.isEmpty then defaultDump else o.dumpFile)
      (e.script p.write Encoding.defaultLogic) r
  else r = .ok ()

def Solves (r : Except Failure Verdict) : Prop :=
  ∃ e, A.Encodes o (.ok e) ∧ A.Lists o e (.ok ()) ∧ A.Dumps o e (.ok ()) ∧
    A.solved e.formulas o.engine o.timeout r

/-- What a check may end with, and the events that it has reached by then. -/
inductive Course : Except Failure Verdict → List EventKind → Prop
  | parsing {e : Failure} (h : A.Parses o (.error e)) : Course (.error e) []
  | building {e : Failure} (h : A.Builds o (.error e)) : Course (.error e) [.parsed]
  | examples {e : Failure} {problem : Problem} (hp : A.Builds o (.ok problem))
      (h : A.Exemplifies o (.error e)) : Course (.error e) [.parsed, .built]
  | encoding {e : Failure} (h : A.Encodes o (.error e)) : Course (.error e) [.parsed, .built]
  | listing {e : Failure} {encoding : Encoding} (he : A.Encodes o (.ok encoding))
      (h : A.Lists o encoding (.error e)) : Course (.error e) [.parsed, .built, .encoded]
  | dumping {e : Failure} {encoding : Encoding} (he : A.Encodes o (.ok encoding))
      (hl : A.Lists o encoding (.ok ())) (h : A.Dumps o encoding (.error e)) :
      Course (.error e) [.parsed, .built, .encoded]
  | solving {e : Failure} (h : A.Solves o (.error e)) :
      Course (.error e) [.parsed, .built, .encoded, .startSolver]
  | finished {verdict : Verdict} (h : A.Solves o (.ok verdict)) : Course (.ok verdict) stages

variable {A : p.Answers} {o : Options} {r : Except Failure Verdict} {reached : List EventKind}

theorem Course.isPrefix (h : A.Course o r reached) : reached <+: stages := by
  cases h <;> decide

theorem Course.eq_stages_iff (h : A.Course o r reached) :
    reached = stages ↔ ∃ verdict, r = .ok verdict := by
  cases h <;> simp [stages]

/-! ## Stages of a check -/

variable [LawfulMonad m] {α : Type} {R : Except Failure α → List EventKind → Prop}
  {problem : Problem} {rows : Option (List Term)}

theorem readProblem_bind {f : Problem → Stage m α}
    (hparsing : ∀ e, A.Parses o (.error e) → R (.error e) [])
    (hbuilding : ∀ e, A.Builds o (.error e) → R (.error e) [.parsed])
    (hok : ∀ problem, A.Builds o (.ok problem) →
      Marks (f problem) fun r kinds => R r ([.parsed, .built] ++ kinds)) :
    Marks (p.readProblem o >>= f) R := by
  simp only [readProblem, bind_assoc, pure_bind]
  refine Marks.tell_bind _ (Marks.attempt_bind (A.fetch o.file) (fun text htext => ?_) ?_)
  · refine Marks.conduct_bind (fun events hevents => ?_) fun e he => hparsing e ⟨_, htext, he.symm⟩
    have hparses : A.Parses o (.ok events) := ⟨_, htext, hevents.symm⟩
    refine Marks.reach_bind (Marks.tell_bind _ (Marks.conduct_bind (fun problem hproblem => ?_) ?_))
    · exact Marks.reach_bind (Marks.tell_bind _ (hok problem ⟨events, hparses, hproblem.symm⟩))
    · exact fun e he => hbuilding e ⟨events, hparses, he.symm⟩
  · exact fun e he => hparsing e ⟨_, he, rfl⟩

theorem marks_readExamples (A : p.Answers) :
    Marks (p.readExamples o) fun r kinds => kinds = [] ∧ A.Exemplifies o r := by
  unfold readExamples Exemplifies
  cases o.examples with
  | unset => exact Marks.pure ⟨rfl, rfl⟩
  | bare => exact Marks.throw ⟨rfl, rfl⟩
  | value file =>
    refine Marks.attempt_bind (A.fetch file) (fun text htext => ?_) fun e he => ⟨rfl, _, he, rfl⟩
    refine Marks.conduct_bind (fun rows hrows => ?_) fun e he => ⟨rfl, _, htext, ?_⟩
    · have hparsed : parseTerms text = .ok rows := hrows
      refine Marks.tell_bind _ (Marks.pure ⟨rfl, .ok text, htext, ?_⟩)
      simp [bind, Except.bind, hparsed]
    · have hparsed : parseTerms text = .error e := he
      simp [bind, Except.bind, hparsed]

theorem marks_printFormulas (A : p.Answers) (e : Encoding) :
    Marks (p.printFormulas o e) fun r kinds => kinds = [] ∧ A.Lists o e r := by
  unfold printFormulas Lists
  split
  · exact Marks.attempt (A.print _)
  · exact Marks.pure ⟨rfl, rfl⟩

theorem marks_dump (A : p.Answers) (e : Encoding) :
    Marks (p.dump o e) fun r kinds => kinds = [] ∧ A.Dumps o e r := by
  unfold dump Dumps
  split
  · exact Marks.tell_bind _ (Marks.attempt (A.store _ _))
  · exact Marks.pure ⟨rfl, rfl⟩

theorem marks_solveEncoded (hproblem : A.Builds o (.ok problem))
    (hrows : A.Exemplifies o (.ok rows)) : Marks (p.solveEncoded o problem rows)
      fun r kinds => A.Course o r ([.parsed, .built] ++ kinds) := by
  unfold solveEncoded
  refine Marks.conduct_bind (fun e he => Marks.reach_bind ?_) fun e he => ?_
  · have hencodes : A.Encodes o (.ok e) := ⟨problem, rows, hproblem, hrows, he.symm⟩
    refine Marks.silent_bind (marks_printFormulas A e) (fun _ hlist => ?_) fun _ hlist => ?_
    · refine Marks.silent_bind (marks_dump A e) (fun _ hdump => ?_) fun _ hdump => ?_
      · refine Marks.reach_bind (Marks.attempt_bind (A.solve _ _ _) (fun v hsolve => ?_) ?_)
        · exact Marks.reach_bind (Marks.pure (.finished ⟨e, hencodes, hlist, hdump, hsolve⟩))
        · exact fun _ hsolve => .solving ⟨e, hencodes, hlist, hdump, hsolve⟩
      · exact .dumping hencodes hlist hdump
    · exact .listing hencodes hlist
  · exact .encoding ⟨problem, rows, hproblem, hrows, he.symm⟩

theorem marks_solveProblem (hproblem : A.Builds o (.ok problem))
    (hrows : A.Exemplifies o (.ok rows)) : Marks (p.solveProblem o problem rows)
      fun r kinds => A.Course o r ([.parsed, .built] ++ kinds) := by
  unfold solveProblem
  refine Marks.tell_bind _ (Marks.result_bind (marks_solveEncoded hproblem hrows) ?_)
  intro r kinds hcourse
  exact Marks.tell_bind _ (Marks.mk_pure (by simpa using hcourse))

theorem marks_check (A : p.Answers) (o : Options) : Marks (p.check o) (A.Course o) := by
  unfold check
  refine readProblem_bind (A := A) (fun e he => .parsing he) (fun e he => .building he) ?_
  intro problem hproblem
  refine Marks.silent_bind (marks_readExamples A) (fun rows hrows => ?_) fun e he => ?_
  · exact marks_solveProblem hproblem hrows
  · exact .examples hproblem he

end Answers

end Platform

end Realizability
