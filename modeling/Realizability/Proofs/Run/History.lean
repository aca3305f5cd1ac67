import Realizability.Proofs.Run.Course
import Realizability.Proofs.Timing.Block

/-!
# The history of runs

However a run ends, it adds one block to the timing log: a start event, the events that its check
has reached, and one event for its end. The log of a sequence of runs is split into these blocks,
and its table says of each run how it has ended. What a run yields hangs on one thing more: where
standard output refuses one of the texts that the run ends with, the refusal is what the run ends
with, and not what the end of its block says.
-/

namespace Realizability

open CommandLine Timing

namespace Platform

variable {m : Type → Type} [Monad m] {p : Platform m} {o : Options} {r : Except Failure Verdict}
  {reached : List EventKind} {said : Except Failure Unit} {out : Except Failure (Option Verdict)}
  {log : EventLog} {b es : List TimedEvent} {cells : List String} {text : String}

/-! ## The end of a run -/

def opening (o : Options) (time : Binary64) : TimedEvent :=
  ⟨time, .start, [("benchmark", o.file), ("engine", o.engine.name)]⟩

/-- What a run yields that has come to this end and has printed all it has to. -/
def resultOf (o : Options) : Except Failure Verdict → Except Failure (Option Verdict)
  | .ok verdict => .ok (some verdict)
  | .error e => if o.debug then .error e else .ok none

/-- The texts that a run ends with, the table of all runs being given. -/
def closing (o : Options) (text : String) : Except Failure Verdict → List String
  | .ok verdict =>
    (if o.suppressResult then [] else [verdict.report]) ++ if o.noStats then [] else [text]
  | .error e =>
    if o.debug then []
    else ("Terminating with exception (" ++ e.message ++ ")") :: if o.noStats then [] else [text]

theorem resultOf_eq_none (h : o.debug = false) : resultOf o r = .ok none ↔ ∃ e, r = .error e := by
  cases r <;> simp [resultOf, h]

theorem resultOf_ne_error (h : o.debug = false) (e : Failure) : resultOf o r ≠ .error e := by
  cases r <;> simp [resultOf, h]

/-- How printing texts one after the other may end. -/
inductive Answers.Prints (A : p.Answers) : List String → Except Failure Unit → Prop
  | nil : Prints A [] (.ok ())
  | cons {text : String} {texts : List String} {said : Except Failure Unit}
      (h : A.printed text (.ok ())) (rest : Prints A texts said) : Prints A (text :: texts) said
  | refused {text : String} {texts : List String} {e : Failure} (h : A.printed text (.error e)) :
      Prints A (text :: texts) (.error e)

section
variable [LawfulMonad m]

theorem satisfiesM_print (A : p.Answers) (texts : List String) :
    SatisfiesM (A.Prints texts) (forM texts p.print).run := by
  induction texts with
  | nil => exact .pure .nil
  | cons text texts ih =>
    rw [List.forM_cons, ExceptT.run_bind]
    refine (A.print text).bind fun said hsaid => ?_
    cases said with
    | error e => exact .pure (.refused hsaid)
    | ok _ => exact ih.imp fun hrest => .cons hsaid hrest

theorem conclude_eq (htable : table log = .ok text) : p.conclude o r log =
    forM (closing o text r) p.print >>= fun _ => ExceptT.mk (pure (resultOf o r)) := by
  cases r with
  | ok verdict =>
    cases hs : o.suppressResult <;> cases hn : o.noStats <;>
      simp [conclude, printStats, closing, resultOf, htable, hs, hn, Except.toOption] <;> rfl
  | error e =>
    cases hd : o.debug <;> cases hn : o.noStats <;>
      simp [conclude, printStats, closing, resultOf, htable, hd, hn, Except.toOption] <;> rfl

theorem satisfiesM_conclude (A : p.Answers) (htable : table log = .ok text) :
    SatisfiesM (fun out => ∃ said, A.Prints (closing o text r) said ∧
      out = said >>= fun _ => resultOf o r) (p.conclude o r log).run := by
  rw [conclude_eq htable, ExceptT.run_bind]
  refine (satisfiesM_print A _).bind fun said hsaid => ?_
  cases said with
  | error e => exact .pure ⟨_, hsaid, rfl⟩
  | ok _ => exact .pure ⟨_, hsaid, rfl⟩

end

/-! ## Blocks of runs -/

namespace Answers

/-- What a run has logged whose check has come to this end, and the row of it. -/
structure Block (A : p.Answers) (o : Options) (r : Except Failure Verdict)
    (reached : List EventKind) (b : List TimedEvent) (cells : List String) : Prop where
  course : A.Course o r reached
  initial : reached <+: stages
  complete : reached = stages ↔ ∃ verdict, r = .ok verdict
  block : ∃ time es, b = opening o time :: es ∧ es.map TimedEvent.kind = reached ++ [finalKind r] ∧
    ∀ e ∈ es, e.attributes = []
  row : rowOf b = .ok cells
  named : cells.take 2 = [o.file, o.engine.name]
  status : ∃ text, (finalKind r).status? = some text ∧ cells.getLast? = some (Text.padLeft 7 text)
  known : cells.getLast? ≠ some (Text.padLeft 7 "?")

/-- A run behind a log: what it has logged, what became of the texts that it ends with, and what it
yields. A run without the option `debug` yields nothing if its block ends with an error and all its
texts are taken, and it fails just where one of them is refused. -/
structure Entry (A : p.Answers) (log : EventLog) (o : Options) (r : Except Failure Verdict)
    (reached : List EventKind) (said : Except Failure Unit) (out : Except Failure (Option Verdict))
    (b : List TimedEvent) (cells : List String) : Prop extends A.Block o r reached b cells where
  printed : ∃ text, table (log ++ b) = .ok text ∧ A.Prints (closing o text r) said
  result : out = said >>= fun _ => resultOf o r
  failed : o.debug = false →
    (out = .ok none ↔ b.getLast?.map TimedEvent.kind = some .error ∧ said = .ok ())
  raised : o.debug = false → ∀ e, out = .error e ↔ said = .error e

theorem finalKind_status (r : Except Failure Verdict) : ∃ text, (finalKind r).status? = some text ∧
    Text.padLeft 7 text ≠ Text.padLeft 7 "?" := by
  cases r with
  | error e => exact ⟨"ERR", rfl, by decide⟩
  | ok verdict =>
    cases verdict with
    | sat => exact ⟨"SAT", rfl, by decide⟩
    | unsat => exact ⟨"UNSAT", rfl, by decide⟩
    | unknown => exact ⟨"UNKNOWN", rfl, by decide⟩
    | other text => exact ⟨"UNKNOWN", rfl, by decide⟩

theorem finalKind_eq_error : finalKind r = .error ↔ ∃ e, r = .error e := by
  cases r with
  | error e => simp [finalKind]
  | ok verdict => cases verdict <;> simp [finalKind, statusKind]

theorem row_opening (o : Options) (time : Binary64) (es : List TimedEvent) :
    ∃ cells, row (opening o time) es =
      .ok ([o.file, o.engine.name] ++ cells ++ [Text.padLeft 7 (statusOf es)]) :=
  row_eq_ok rfl rfl

variable {A : p.Answers}

theorem exists_block (time : Binary64) (hcourse : A.Course o r reached)
    (hkinds : es.map TimedEvent.kind = reached ++ [finalKind r])
    (hbare : ∀ e ∈ es, e.attributes = []) :
    ∃ cells, A.Block o r reached (opening o time :: es) cells := by
  obtain ⟨text, htext, hknown⟩ := finalKind_status r
  obtain ⟨cells, hcells⟩ := row_opening o time es
  rw [statusOf_eq hkinds htext] at hcells
  exact ⟨_, {
    course := hcourse
    initial := hcourse.isPrefix
    complete := hcourse.eq_stages_iff
    block := ⟨time, es, rfl, hkinds, hbare⟩
    row := hcells
    named := rfl
    status := ⟨text, htext, List.getLast?_concat⟩
    known := by rwa [List.getLast?_concat, ne_eq, Option.some_inj] }⟩

theorem Block.isBlock (h : A.Block o r reached b cells) : IsBlock b := by
  obtain ⟨time, es, rfl, hkinds, -⟩ := h.block
  have hstages : ∀ kind ∈ stages, kind ≠ .start := by decide
  have hfinal : finalKind r ≠ .start := by
    intro hstart
    obtain ⟨text, htext, -⟩ := h.status
    cases hstart ▸ htext
  refine .mk rfl fun e he => ?_
  have hkind : e.kind ∈ reached ++ [finalKind r] := hkinds ▸ List.mem_map_of_mem he
  have hother : e.kind ≠ .start := by
    obtain hreached | hlast := List.mem_append.mp hkind
    · exact hstages _ (h.initial.subset hreached)
    · rwa [List.mem_singleton.mp hlast]
  simpa [TimedEvent.isStart] using hother

theorem Block.getLast_kind (h : A.Block o r reached b cells) :
    b.getLast?.map TimedEvent.kind = some (finalKind r) := by
  obtain ⟨time, es, rfl, hkinds, -⟩ := h.block
  rw [← List.getLast?_map, List.map_cons, hkinds, ← List.cons_append, List.getLast?_concat]

theorem Block.entry (h : A.Block o r reached b cells) (htable : table (log ++ b) = .ok text)
    (hsaid : A.Prints (closing o text r) said) :
    A.Entry log o r reached said (said >>= fun _ => resultOf o r) b cells where
  toBlock := h
  printed := ⟨text, htable, hsaid⟩
  result := rfl
  failed := fun hdebug => by
    rw [h.getLast_kind, Option.some_inj, finalKind_eq_error, ← resultOf_eq_none hdebug]
    cases said <;> simp [bind, Except.bind]
  raised := fun hdebug e => by
    cases said with
    | error e' => simp [bind, Except.bind]
    | ok _ => simpa [bind, Except.bind] using resultOf_ne_error hdebug e

/-- A run adds its block to the log, whatever its check ends with. -/
theorem writes_run [LawfulMonad m] (A : p.Answers) (o : Options) (hlog : IsTabular log) :
    Writes log (p.run o) fun out b =>
      ∃ r reached said cells, A.Entry log o r reached said out b cells := by
  unfold run
  refine Writes.mark_bind fun time => Writes.bind (marks_check A o _) ?_
  rintro r es ⟨hbare, hcourse⟩
  refine Writes.mark_bind fun time' => Writes.get_bind ?_
  obtain ⟨cells, hblock⟩ : ∃ cells,
      A.Block o r _ (opening o time :: (es ++ [⟨time', finalKind r, []⟩])) cells :=
    exists_block time hcourse (by simp) (List.forall_mem_append.mpr ⟨hbare, by simp⟩)
  obtain ⟨text, htable⟩ := (hlog.append hblock.isBlock hblock.row).table_eq_ok
  have hfull : log ++ [opening o time] ++ es ++ [⟨time', finalKind r, []⟩] =
      log ++ (opening o time :: (es ++ [⟨time', finalKind r, []⟩])) := by simp
  refine Writes.lift (satisfiesM_conclude A (hfull ▸ htable)) ?_
  rintro _ ⟨said, hsaid, rfl⟩
  exact ⟨r, _, said, cells, hblock.entry htable hsaid⟩

/-! ## Sequences of runs -/

/-- One entry for each run behind a log, in the order of the runs. -/
inductive History (A : p.Answers) : EventLog → List Options →
    List (Except Failure (Option Verdict)) → List (List TimedEvent) → List (List String) → Prop
  | nil {log : EventLog} : History A log [] [] [] []
  | cons {log : EventLog} {o : Options} {r : Except Failure Verdict} {reached : List EventKind}
      {said : Except Failure Unit} {out : Except Failure (Option Verdict)} {b : List TimedEvent}
      {cells : List String} {os : List Options} {outs : List (Except Failure (Option Verdict))}
      {bs : List (List TimedEvent)} {table : List (List String)}
      (entry : A.Entry log o r reached said out b cells)
      (rest : History A (log ++ b) os outs bs table) :
      History A log (o :: os) (out :: outs) (b :: bs) (cells :: table)

variable {os : List Options} {outs : List (Except Failure (Option Verdict))}
  {bs : List (List TimedEvent)} {table : List (List String)}

theorem History.isBlock (h : A.History log os outs bs table) : ∀ b ∈ bs, IsBlock b := by
  induction h with
  | nil => simp
  | cons entry _ ih => exact List.forall_mem_cons.mpr ⟨entry.isBlock, ih⟩

theorem History.rows (h : A.History log os outs bs table) :
    List.Forall₂ (fun b cells => rowOf b = .ok cells) bs table := by
  induction h with
  | nil => exact .nil
  | cons entry _ ih => exact .cons entry.row ih

variable [LawfulMonad m]

theorem writes_runs (A : p.Answers) (os : List Options) (hlog : IsTabular log) :
    Writes log (os.mapM p.run) fun outs es =>
      ∃ bs table, es = bs.flatten ∧ A.History log os outs bs table := by
  induction os generalizing log with
  | nil => exact Writes.pure ⟨[], [], rfl, .nil⟩
  | cons o os ih =>
    rw [List.mapM_cons]
    refine Writes.bind (writes_run A o hlog) ?_
    rintro out b ⟨r, reached, said, cells, hentry⟩
    refine Writes.bind (ih (hlog.append hentry.isBlock hentry.row)) ?_
    rintro outs _ ⟨bs, table, rfl, hhistory⟩
    exact Writes.pure ⟨b :: bs, cells :: table, by simp, .cons hentry hhistory⟩

/-! ## Exit codes -/

theorem map_congr_of_satisfiesM {α β : Type} {x : m α} {f g : α → β} {P : α → Prop}
    (h : SatisfiesM P x) (hfg : ∀ a, P a → f a = g a) : f <$> x = g <$> x := by
  obtain ⟨y, rfl⟩ := h
  rw [Functor.map_map, Functor.map_map]
  exact congrArg (· <$> y) (funext fun a => hfg a a.2)

theorem execute_eq (A : p.Answers) {args : List String} (hread : CommandLine.read args = .ok o) :
    p.execute args = (fun run => run.1.map fun _ =>
      if run.2.getLast?.map TimedEvent.kind = some .error then 1 else 0) <$>
        (p.run o).run [] := by
  unfold execute
  rw [hread]
  simp only [bind_pure_comp]
  refine map_congr_of_satisfiesM (writes_run A o isTabular_nil) ?_
  rintro ⟨out, b⟩ ⟨_, rfl, r, reached, said, cells, hentry⟩
  have hlast : b.getLast?.map TimedEvent.kind = some (finalKind r) := hentry.getLast_kind
  obtain rfl : out = said >>= fun _ => resultOf o r := hentry.result
  simp only [hlast, Option.some_inj]
  cases said with
  | error e => rfl
  | ok _ =>
    cases r with
    | error e =>
      cases hdebug : o.debug <;>
        simp [resultOf, hdebug, finalKind, bind, Except.bind, Except.map]
    | ok verdict => cases verdict <;> rfl

/-- Any sequence of runs leaves a log of one block for each of them and a table of one row for each;
and the exit code of a program whose run is not broken off tells whether its block ends with an
error. -/
theorem runs_history (A : p.Answers) :
    (∀ os : List Options, SatisfiesM (fun run => ∃ bs table, A.History [] os run.1 bs table ∧
      runs run.2 = .ok bs ∧ rows run.2 = .ok table) ((os.mapM p.run).run [])) ∧
    ∀ args o, CommandLine.read args = .ok o →
      p.execute args = (fun run => run.1.map fun _ =>
        if run.2.getLast?.map TimedEvent.kind = some .error then 1 else 0) <$>
          (p.run o).run [] := by
  refine ⟨fun os => SatisfiesM.imp (writes_runs A os isTabular_nil) ?_, fun args o => execute_eq A⟩
  rintro ⟨outs, log⟩ ⟨_, rfl, bs, table, rfl, hhistory⟩
  exact ⟨bs, table, hhistory, runs_flatten hhistory.isBlock,
    rows_flatten hhistory.isBlock hhistory.rows⟩

end Answers

end Platform

/-! ## Runs on a shelf of files -/

namespace Shelf

open Platform

/-- A problem with one function, which has no cases, and a grammar without productions. -/
def problem : List String :=
  ["[\x7b\"$event\":\"declare-term-type\",\"name\":\"E\"\x7d,",
    "\x7b\"$event\":\"define-function\",\"name\":\"P\",",
    "\"rank\":\x7b\"returnSort\":\"Bool\",",
    "\"argumentSorts\":[\"E\",\"Bool\"]\x7d,",
    "\"definition\":\x7b\"arguments\":[\"t\",\"r\"],",
    "\"body\":\x7b\"$termType\":\"match\",",
    "\"term\":\x7b\"$termType\":\"variable\",",
    "\"name\":\"t\",\"sort\":\"E\"\x7d,\"binders\":[]\x7d\x7d\x7d,",
    "\x7b\"$event\":\"synth-fun\",\"name\":\"f\",\"termType\":\"E\",",
    "\"grammar\":\x7b\"nonTerminals\":[",
    "\x7b\"name\":\"S\",\"termType\":\"E\"\x7d],\"productions\":[]\x7d\x7d]"]

def content (file : String) : Except Failure String :=
  if file = "half.json" then .ok "[\x7b\"$event\": \"\\ud800\"\x7d]"
  else if file = "empty.json" then .ok "[]"
  else if file = "problem.json" then .ok (String.join problem)
  else .error (.noFile file)

def accepted (text : String) : Except Failure Unit :=
  match Text.encodingFault? text with
  | some fault => .error (.outside fault)
  | none => .ok ()

def platform : Platform Id where
  fetch := content
  store _ _ := .ok ()
  solve _ _ _ := .ok .sat
  now := .zero false
  print text := .mk (accepted text)
  complain _ := ()
  log _ := ()
  write _ := ""

def answers : platform.Answers where
  fetched file r := r = content file
  stored _ _ r := r = .ok ()
  printed text r := r = accepted text
  solved _ _ _ r := r = .ok .sat
  fetch _ := .pure rfl
  store _ _ := .pure rfl
  print _ := .pure rfl
  solve _ _ _ := .pure rfl

def refusal : String :=
  "'utf-8' codec can't encode character '\\ud800' in position 57: surrogates not allowed"

def reported {α : Type} : Except Failure α → Option String
  | .ok _ => none
  | .error e => some e.message

def half : Options := { file := "half.json" }

def failures : List Options :=
  [{ file := "lost.json", engine := .smt, debug := true }, half,
    { file := "empty.json", noStats := true }]

def success : Options := { file := "problem.json", noStats := true }

theorem problem_encodes : ∃ es pr e, (parseEvents (String.join problem)).outcome = .ok es ∧
    (buildProblem es).outcome = .ok pr ∧
    ((pr.encode none).mapError Failure.encode).outcome = .ok e := by
  have h : (encodeText (String.join problem) none).outcome.isOk = true := by
    simp only [encodeText, parseProblem, parseEvents, readJson, Json.ofText, String.toList_join]
    decide +kernel
  cases hencode : (encodeText (String.join problem) none).outcome with
  | error _ =>
    rw [hencode] at h
    cases h
  | ok e =>
    obtain ⟨pr, hproblem, hencoded⟩ := outcome_bind_eq_ok.mp hencode
    obtain ⟨es, hparse, hbuild⟩ := outcome_bind_eq_ok.mp hproblem
    exact ⟨es, pr, e, hparse, hbuild, hencoded⟩

variable {r : Except Failure Verdict} {reached : List EventKind}

theorem success_course (h : answers.Course success r reached) : r = .ok .sat := by
  obtain ⟨es, pr, e, hparse, hbuild, hencode⟩ := problem_encodes
  have hparses : ∀ x, answers.Parses success x → x = .ok es := by
    rintro x ⟨text, htext, hx⟩
    have hcontent : text = .ok (String.join problem) := htext
    exact hx.trans (bind_eq_ok.mpr ⟨_, hcontent, hparse⟩)
  have hbuilds : ∀ x, answers.Builds success x → x = .ok pr := by
    rintro _ ⟨es', hes, rfl⟩
    cases hparses _ hes
    exact hbuild
  have hencodes : ∀ x, answers.Encodes success x → x = .ok e := by
    rintro _ ⟨pr', rows, hpr, hrows, rfl⟩
    cases hbuilds _ hpr
    cases hrows
    exact hencode
  cases h with
  | parsing h => cases hparses _ h
  | building h => cases hbuilds _ h
  | examples _ h => cases h
  | encoding h => cases hencodes _ h
  | listing _ h => cases h
  | dumping _ _ h => cases h
  | solving h =>
    obtain ⟨_, _, _, _, h⟩ := h
    cases h
  | finished h =>
    obtain ⟨_, _, _, _, h⟩ := h
    exact h

theorem report_accepted : accepted Verdict.sat.report = .ok () := by
  have h : Text.encodingFault? Verdict.sat.report = none := by decide +kernel
  rw [accepted, h]

theorem success_entry {said : Except Failure Unit} {out : Except Failure (Option Verdict)}
    {b : List TimedEvent} {cells : List String}
    (h : answers.Entry [] success r reached said out b cells) :
    out = .ok (some .sat) ∧ b.map TimedEvent.kind = .start :: stages ++ [.sat] ∧
      cells.getLast? = some "    SAT" := by
  obtain rfl : r = .ok .sat := success_course h.course
  obtain rfl : reached = stages := h.complete.mpr ⟨_, rfl⟩
  obtain ⟨text, -, hsaid⟩ := h.printed
  obtain ⟨time, es, rfl, hkinds, -⟩ := h.block
  obtain ⟨status, hstatus, hlast⟩ := h.status
  refine ⟨?_, by rw [List.map_cons, hkinds]; rfl, ?_⟩
  · rw [h.result]
    cases hsaid with
    | cons _ rest =>
      cases rest
      rfl
    | refused hrefused => cases hrefused.trans report_accepted
  · cases hstatus
    exact hlast

theorem calls_history :
    (∃ outs bs table, answers.History [] failures outs bs table ∧
      outs.map Except.toOption = [none, none, some none] ∧
      outs.map reported =
        [some "[Errno 2] No such file or directory: 'lost.json'", some refusal, none] ∧
      bs.map (·.map TimedEvent.kind) =
        [[.start, .error], [.start, .error], [.start, .parsed, .error]] ∧
      table.map (·.getLast?) = [some "    ERR", some "    ERR", some "    ERR"]) ∧
    (∃ b cells, answers.History [] [success] [.ok (some .sat)] [b] [cells] ∧
      b.map TimedEvent.kind = .start :: stages ++ [.sat] ∧ cells.getLast? = some "    SAT") ∧
    platform.execute ["--no-stats", "empty.json"] = .ok 1 := by
  obtain ⟨hruns, hexecute⟩ := Platform.Answers.runs_history answers
  refine ⟨?_, ?_, ?_⟩
  · obtain ⟨bs, table, hhistory, hsplit, hrows⟩ := SatisfiesM_Id_eq.mp (hruns failures)
    have hblocks : (runs ((failures.mapM platform.run).run []).2).toOption.map
        (·.map (·.map TimedEvent.kind)) =
          some [[.start, .error], [.start, .error], [.start, .parsed, .error]] := by
      decide +kernel
    have hcells : (rows ((failures.mapM platform.run).run []).2).toOption.map
        (·.map (·.getLast?)) = some [some "    ERR", some "    ERR", some "    ERR"] := by
      decide +kernel
    rw [hsplit] at hblocks
    rw [hrows] at hcells
    exact ⟨_, bs, table, hhistory, by decide +kernel, by decide +kernel,
      Option.some.inj hblocks, Option.some.inj hcells⟩
  · obtain ⟨bs, table, hhistory, -⟩ := SatisfiesM_Id_eq.mp (hruns [success])
    generalize (([success].mapM platform.run).run []).1 = outs at hhistory
    cases hhistory with
    | cons entry rest =>
      cases rest
      obtain ⟨rfl, hkinds, hlast⟩ := success_entry entry
      exact ⟨_, _, .cons entry .nil, hkinds, hlast⟩
  · have hread : (CommandLine.read ["--no-stats", "empty.json"]).toOption =
        some { file := "empty.json", noStats := true } := by
      decide +kernel
    rw [hexecute _ _ (eq_ok_of_toOption hread)]
    exact eq_ok_of_toOption (by decide +kernel)

/-- The report of a failed run may be refused: the run is broken off and yields nothing, though its
block ends with an error. -/
theorem half_raised :
    half.debug = false ∧
    ¬(((platform.run half).run []).1 = .ok none ↔
      ((platform.run half).run []).2.getLast?.map TimedEvent.kind = some .error) ∧
    reported ((platform.run half).run []).1 = some refusal := by
  have hblock : ((platform.run half).run []).2.getLast?.map TimedEvent.kind = some .error := by
    decide +kernel
  have hreported : reported ((platform.run half).run []).1 = some refusal := by
    decide +kernel
  refine ⟨rfl, fun h => ?_, hreported⟩
  rw [h.mpr hblock] at hreported
  cases hreported

end Shelf

end Realizability
