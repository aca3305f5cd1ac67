import Mathlib.Data.List.SplitBy
import Realizability.Proofs.Outcome
import Realizability.Timing.Summary

/-!
# Blocks of a timing log

A block is a start event with events behind it that are none. A log is split into the blocks that
it was put together from, and its table has a row for each of them.
-/

namespace Realizability.Timing

variable {bs : List (List TimedEvent)} {b es : List TimedEvent} {e start : TimedEvent}

/-! ## Splitting -/

inductive IsBlock : List TimedEvent → Prop
  | mk {start : TimedEvent} {es : List TimedEvent} (starts : start.isStart = true)
      (rest : ∀ e ∈ es, e.isStart = false) : IsBlock (start :: es)

theorem isChain_of_rest (e : TimedEvent) (h : ∀ e ∈ es, e.isStart = false) :
    (e :: es).IsChain fun _ next => !next.isStart := by
  induction es generalizing e with
  | nil => simp
  | cons e' es ih =>
    obtain ⟨he', hes⟩ := List.forall_mem_cons.mp h
    exact List.isChain_cons_cons.mpr ⟨by simp [he'], ih e' hes⟩

theorem blocks_flatten (h : ∀ b ∈ bs, IsBlock b) : blocks bs.flatten = bs := by
  refine List.splitBy_flatten ?_ ?_ ?_
  · intro hnil
    cases h [] hnil
  · intro b hb
    obtain ⟨-, hrest⟩ := h b hb
    exact isChain_of_rest _ hrest
  · refine (List.pairwise_of_forall_mem_list fun b hb b' hb' => ?_).isChain
    obtain ⟨-, -⟩ := h b hb
    obtain ⟨hstarts, -⟩ := h b' hb'
    exact ⟨by simp, by simp, by simp [hstarts]⟩

theorem runs_flatten (h : ∀ b ∈ bs, IsBlock b) : runs bs.flatten = .ok bs := by
  cases bs with
  | nil => rfl
  | cons b bs =>
    have hsplit := blocks_flatten h
    obtain ⟨hstarts, -⟩ := h b (List.mem_cons_self ..)
    rw [List.flatten_cons, List.cons_append] at hsplit ⊢
    rw [runs, if_pos hstarts, hsplit]

/-! ## Rows -/

/-- The row of a block. -/
def rowOf : List TimedEvent → Except TimingError (List String)
  | [] => .error .noStart
  | start :: events => row start events

theorem rows_flatten {table : List (List String)} (h : ∀ b ∈ bs, IsBlock b)
    (hrows : List.Forall₂ (fun b cells => rowOf b = .ok cells) bs table) :
    rows bs.flatten = .ok table := by
  rw [rows, runs_flatten h]
  exact mapM_eq_ok.mpr hrows

/-- A log of blocks that have a row each. -/
def IsTabular (log : EventLog) : Prop :=
  ∃ bs table, log = bs.flatten ∧ (∀ b ∈ bs, IsBlock b) ∧
    List.Forall₂ (fun b cells => rowOf b = .ok cells) bs table

theorem isTabular_nil : IsTabular [] := ⟨[], [], rfl, by simp, .nil⟩

theorem IsTabular.append {log : EventLog} {cells : List String} (h : IsTabular log)
    (hb : IsBlock b) (hrow : rowOf b = .ok cells) : IsTabular (log ++ b) := by
  obtain ⟨bs, table, rfl, hblocks, hrows⟩ := h
  refine ⟨bs ++ [b], table ++ [cells], by simp, ?_, ?_⟩
  · exact List.forall_mem_append.mpr ⟨hblocks, List.forall_mem_singleton.mpr hb⟩
  · exact List.rel_append hrows (.cons hrow .nil)

theorem IsTabular.table_eq_ok {log : EventLog} (h : IsTabular log) :
    ∃ text, table log = .ok text := by
  obtain ⟨bs, rows, rfl, hblocks, hrows⟩ := h
  rw [table, rows_flatten hblocks hrows]
  exact ⟨_, rfl⟩

theorem statusOf_eq {kinds : List EventKind} {kind : EventKind} {status : String}
    (hes : es.map TimedEvent.kind = kinds ++ [kind]) (hstatus : kind.status? = some status) :
    statusOf es = status := by
  obtain ⟨before, last, rfl, -, hlast⟩ := List.map_eq_append_iff.mp hes
  obtain ⟨e, rfl, rfl⟩ := List.map_eq_singleton_iff.mp hlast
  simp [statusOf, hstatus]

theorem row_eq_ok {benchmark engine : String}
    (hbenchmark : start.attributes.get? "benchmark" = some benchmark)
    (hengine : start.attributes.get? "engine" = some engine) :
    ∃ cells, row start es =
      .ok ([benchmark, engine] ++ cells ++ [Text.padLeft 7 (statusOf es)]) := by
  refine ⟨(durationsFrom es start.time phases).map durationText ++
    [durationText (totalOf es start.time)], ?_⟩
  simp [row, TimedEvent.value, hbenchmark, hengine, bind, Except.bind, pure, Except.pure]

end Realizability.Timing
