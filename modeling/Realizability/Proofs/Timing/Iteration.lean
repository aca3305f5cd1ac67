import Realizability.Proofs.Timing.Block

/-!
# Iterating over a timing log

An iteration works on a queue of its own, which it copies from the log: it takes a start event off
the front, then the events up to the next one, and hands them out as a block. Turn by turn it comes
to an end (`Iteration.run_halts`), and it has then handed out the blocks that the log is split into
(`Iteration.run_yields_blocks`).
-/

namespace Realizability.Timing

/-! ## Lists of blocks -/

section
variable {log : EventLog} {block : List TimedEvent} {bs : List (List TimedEvent)}

theorem IsBlock.concat {event : TimedEvent} (h : IsBlock block) (hevent : event.isStart = false) :
    IsBlock (block ++ [event]) := by
  obtain ⟨hstarts, hrest⟩ := h
  exact .mk hstarts (List.forall_mem_append.mpr ⟨hrest, List.forall_mem_singleton.mpr hevent⟩)

theorem countP_block (h : IsBlock block) : block.countP TimedEvent.isStart = 1 := by
  obtain ⟨hstarts, hrest⟩ := h
  rw [List.countP_cons_of_pos hstarts, List.countP_eq_zero.mpr (by simpa using hrest)]

theorem countP_flatten (h : ∀ b ∈ bs, IsBlock b) :
    bs.flatten.countP TimedEvent.isStart = bs.length := by
  have hone : bs.map (List.countP TimedEvent.isStart) = bs.map fun _ => 1 :=
    List.map_congr_left fun b hb => countP_block (h b hb)
  rw [List.countP_flatten, hone, List.map_const', List.sum_replicate_nat, Nat.mul_one]

theorem head_flatten (h : ∀ b ∈ bs, IsBlock b) :
    ∀ e ∈ bs.flatten.head?, e.isStart = true := by
  cases bs with
  | nil => simp
  | cons b bs =>
    obtain ⟨hstarts, -⟩ := h b (List.mem_cons_self ..)
    simpa using hstarts

theorem runs_eq_error (h : ∃ e ∈ log.head?, e.isStart = false) : runs log = .error .noStart := by
  obtain ⟨e, he, hstart⟩ := h
  cases log with
  | nil => cases he
  | cons e' es =>
    cases he
    simp [runs, hstart]

end

/-! ## Turns -/

/-- What an iteration is at: between two blocks, taking off a block, or at one of its two ends. -/
inductive Phase
  | between
  | within (block : List TimedEvent)
  | exhausted
  | failed (e : TimingError)

structure Iteration where
  log : EventLog
  queue : List TimedEvent
  yielded : List (List TimedEvent)
  phase : Phase

namespace Iteration

def start (log : EventLog) : Iteration := ⟨log, log, [], .between⟩

/-- The next turn, which there is none of at the ends. A block has to begin with a start event, and
it is handed out in front of the next one or where the queue is empty. -/
def step (s : Iteration) : Option Iteration :=
  match s.phase, s.queue with
  | .between, [] => some { s with phase := .exhausted }
  | .between, e :: rest =>
    if e.isStart then some { s with queue := rest, phase := .within [e] }
    else some { s with phase := .failed .noStart }
  | .within block, [] => some { s with yielded := s.yielded ++ [block], phase := .between }
  | .within block, e :: rest =>
    if e.isStart then some { s with yielded := s.yielded ++ [block], phase := .between }
    else some { s with queue := rest, phase := .within (block ++ [e]) }
  | .exhausted, _ | .failed _, _ => none

/-- Up to `n` turns. -/
def run : Nat → Iteration → Iteration
  | 0, s => s
  | n + 1, s =>
    match s.step with
    | none => s
    | some s' => run n s'

variable {log : EventLog} {s s' : Iteration} {block : List TimedEvent} {e : TimingError} {n : Nat}

/-! ## Single turns -/

/-- All that a turn can be. -/
theorem step_cases (h : s.step = some s') :
    (s.phase = .between ∧ s.queue = [] ∧ s' = { s with phase := .exhausted }) ∨
    (∃ e rest, s.phase = .between ∧ s.queue = e :: rest ∧ e.isStart = true ∧
      s' = { s with queue := rest, phase := .within [e] }) ∨
    (∃ e rest, s.phase = .between ∧ s.queue = e :: rest ∧ e.isStart = false ∧
      s' = { s with phase := .failed .noStart }) ∨
    (∃ block, s.phase = .within block ∧ (∀ e ∈ s.queue.head?, e.isStart = true) ∧
      s' = { s with yielded := s.yielded ++ [block], phase := .between }) ∨
    ∃ block e rest, s.phase = .within block ∧ s.queue = e :: rest ∧ e.isStart = false ∧
      s' = { s with queue := rest, phase := .within (block ++ [e]) } := by
  unfold step at h
  split at h
  · rename_i hphase hqueue
    cases h
    exact .inl ⟨hphase, hqueue, rfl⟩
  · rename_i e rest hphase hqueue
    split at h
    · rename_i hstart
      cases h
      exact .inr (.inl ⟨e, rest, hphase, hqueue, hstart, rfl⟩)
    · rename_i hstart
      cases h
      exact .inr (.inr (.inl ⟨e, rest, hphase, hqueue, by simpa using hstart, rfl⟩))
  · rename_i block hphase hqueue
    cases h
    exact .inr (.inr (.inr (.inl ⟨block, hphase, by simp [hqueue], rfl⟩)))
  · rename_i block e rest hphase hqueue
    split at h
    · rename_i hstart
      cases h
      exact .inr (.inr (.inr (.inl ⟨block, hphase, by simp [hqueue, hstart], rfl⟩)))
    · rename_i hstart
      cases h
      exact .inr (.inr (.inr (.inr ⟨block, e, rest, hphase, hqueue, by simpa using hstart, rfl⟩)))
  · cases h
  · cases h

theorem step_eq_none (h : s.step = none) : s.phase = .exhausted ∨ ∃ e, s.phase = .failed e := by
  unfold step at h
  split at h
  · cases h
  · split at h <;> cases h
  · cases h
  · split at h <;> cases h
  · exact .inl ‹_›
  · exact .inr ⟨_, ‹_›⟩

/-- How many turns can still follow. -/
def measure (s : Iteration) : Nat :=
  2 * s.queue.length + match s.phase with
    | .between => 1
    | .within _ => 2
    | .exhausted | .failed _ => 0

theorem measure_step (h : s.step = some s') : s'.measure < s.measure := by
  obtain ⟨hphase, hqueue, rfl⟩ | ⟨e, rest, hphase, hqueue, -, rfl⟩ |
    ⟨e, rest, hphase, hqueue, -, rfl⟩ | ⟨block, hphase, -, rfl⟩ |
    ⟨block, e, rest, hphase, hqueue, -, rfl⟩ := step_cases h
  · simp [measure, hphase, hqueue]
  · simp only [measure, hphase, hqueue, List.length_cons]
    omega
  · simp [measure, hphase]
  · simp [measure, hphase]
  · simp only [measure, hphase, hqueue, List.length_cons]
    omega

/-- Every iteration comes to an end, whatever it is at. -/
theorem run_halts (s : Iteration) (hn : s.measure ≤ n) : (s.run n).step = none := by
  induction n generalizing s with
  | zero =>
    rw [run, Option.eq_none_iff_forall_ne_some]
    intro s' hs
    have hless : s'.measure < s.measure := measure_step hs
    omega
  | succ n ih =>
    rw [run]
    split
    · assumption
    · rename_i s' hs
      have hless : s'.measure < s.measure := measure_step hs
      exact ih s' (by omega)

/-! ## What turns preserve -/

/-- The events taken off for a block that has not been handed out yet. -/
def pending (s : Iteration) : List TimedEvent :=
  match s.phase with
  | .within block => block
  | _ => []

/-- Nothing is lost and nothing is out of place: what has been handed out, taken off and left is the
log, and behind a block the queue is at the end or at a start event. -/
structure Sound (log : EventLog) (s : Iteration) : Prop where
  kept : s.log = log
  whole : s.yielded.flatten ++ s.pending ++ s.queue = log
  blocks : ∀ b ∈ s.yielded, IsBlock b
  pending : ∀ block, s.phase = .within block → IsBlock block
  next : s.phase = .between → s.yielded ≠ [] → ∀ e ∈ s.queue.head?, e.isStart = true
  exhausted : s.phase = .exhausted → s.queue = []
  failed : ∀ e, s.phase = .failed e →
    e = .noStart ∧ s.yielded = [] ∧ ∃ e ∈ s.queue.head?, e.isStart = false

theorem sound_start (log : EventLog) : (start log).Sound log where
  kept := rfl
  whole := rfl
  blocks := nofun
  pending := nofun
  next _ h := absurd rfl h
  exhausted := nofun
  failed := nofun

theorem Sound.step (h : s.Sound log) (hs : s.step = some s') : s'.Sound log := by
  have hwhole := h.whole
  obtain ⟨hphase, hqueue, rfl⟩ | ⟨e, rest, hphase, hqueue, hstart, rfl⟩ |
    ⟨e, rest, hphase, hqueue, hstart, rfl⟩ | ⟨block, hphase, hnext, rfl⟩ |
    ⟨block, e, rest, hphase, hqueue, hstart, rfl⟩ := step_cases hs
  · simp only [Iteration.pending, hphase, List.append_nil] at hwhole
    exact ⟨h.kept, by simpa [Iteration.pending] using hwhole, h.blocks, nofun, nofun,
      fun _ => hqueue, nofun⟩
  · simp only [Iteration.pending, hphase, hqueue, List.append_nil] at hwhole
    refine ⟨h.kept, by simpa [Iteration.pending] using hwhole, h.blocks, ?_, nofun, nofun, nofun⟩
    rintro _ ⟨⟩
    exact .mk hstart (by simp)
  · simp only [Iteration.pending, hphase, List.append_nil] at hwhole
    refine ⟨h.kept, by simpa [Iteration.pending] using hwhole, h.blocks, nofun, nofun, nofun, ?_⟩
    rintro _ ⟨⟩
    have hfirst : s.yielded = [] := by
      by_contra hne
      have := h.next hphase hne e (by simp [hqueue])
      rw [hstart] at this
      cases this
    exact ⟨rfl, hfirst, e, by simp [hqueue], hstart⟩
  · simp only [Iteration.pending, hphase] at hwhole
    refine ⟨h.kept, by simpa [Iteration.pending] using hwhole, ?_, nofun, fun _ _ => hnext, nofun,
      nofun⟩
    exact List.forall_mem_append.mpr
      ⟨h.blocks, List.forall_mem_singleton.mpr (h.pending block hphase)⟩
  · simp only [Iteration.pending, hphase, hqueue] at hwhole
    refine ⟨h.kept, by simpa [Iteration.pending] using hwhole, h.blocks, ?_, nofun, nofun, nofun⟩
    rintro _ ⟨⟩
    exact (h.pending block hphase).concat hstart

theorem Sound.run (h : s.Sound log) (n : Nat) : (s.run n).Sound log := by
  induction n generalizing s with
  | zero => exact h
  | succ n ih =>
    rw [Iteration.run]
    split
    · exact h
    · rename_i s' hs
      exact ih (h.step hs)

/-! ## Whole iterations -/

/-- An iteration comes to an end and leaves the log as it is. If the log is empty or begins with a
start event, the blocks that are handed out are those of the log and as many as it has start events;
and else the iteration fails before it hands out anything. -/
theorem run_yields_blocks (log : EventLog) : ∃ n ≤ 2 * log.length + 1, ∃ s, (start log).run n = s ∧
    s.step = none ∧ (∀ k, ((start log).run k).log = log) ∧
    (((∀ e ∈ log.head?, e.isStart = true) ∧ s.phase = .exhausted ∧ s.yielded.flatten = log ∧
        (∀ b ∈ s.yielded, IsBlock b) ∧ s.yielded.length = log.countP TimedEvent.isStart ∧
        runs log = .ok s.yielded) ∨
      (∃ e ∈ log.head?, e.isStart = false) ∧ s.phase = .failed .noStart ∧ s.yielded = [] ∧
        runs log = .error .noStart) := by
  have hsound : ∀ k, ((start log).run k).Sound log := fun k => (sound_start log).run k
  have hhalts := run_halts (start log) (Nat.le_refl _)
  refine ⟨(start log).measure, by simp [measure, start], _, rfl, hhalts,
    fun k => (hsound k).kept, ?_⟩
  have hfinal := hsound (start log).measure
  generalize (start log).run (start log).measure = s at hfinal hhalts
  have hwhole := hfinal.whole
  obtain hphase | ⟨e, hphase⟩ := step_eq_none hhalts
  · have hflatten : s.yielded.flatten = log := by
      simpa [pending, hphase, hfinal.exhausted hphase] using hwhole
    refine .inl ⟨?_, hphase, hflatten, hfinal.blocks, ?_, ?_⟩
    · rw [← hflatten]
      exact head_flatten hfinal.blocks
    · rw [← hflatten, countP_flatten hfinal.blocks]
    · exact hflatten ▸ runs_flatten hfinal.blocks
  · obtain ⟨rfl, hyielded, hhead⟩ := hfinal.failed e hphase
    have hqueue : s.queue = log := by simpa [pending, hphase, hyielded] using hwhole
    rw [hqueue] at hhead
    exact .inr ⟨hhead, hphase, hyielded, runs_eq_error hhead⟩

end Iteration

end Realizability.Timing
