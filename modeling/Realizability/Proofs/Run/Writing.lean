import Mathlib
import Realizability.Run

/-!
# Writing to the timing log

A computation over the timing log is described by what it yields and by the events that it adds.
A stage does so whatever the log was before, and it adds events without attributes, so that their
kinds say all but the times.
-/

namespace Realizability

open CommandLine Timing

variable {m : Type → Type} [Monad m] [LawfulMonad m] {α β : Type}

/-! ## Events -/

/-- What the computation yields and the events that it adds to this log are related. -/
def Writes (log : EventLog) (x : StateT EventLog m α) (Q : α → List TimedEvent → Prop) : Prop :=
  SatisfiesM (fun r => ∃ es, r.2 = log ++ es ∧ Q r.1 es) (x.run log)

namespace Writes

variable {log : EventLog} {x : StateT EventLog m α} {f : α → StateT EventLog m β}
  {P Q : α → List TimedEvent → Prop} {R : β → List TimedEvent → Prop}

theorem imp (h : Writes log x P) (hPQ : ∀ a es, P a es → Q a es) : Writes log x Q := by
  refine SatisfiesM.imp h ?_
  rintro r ⟨es, hes, hP⟩
  exact ⟨es, hes, hPQ _ _ hP⟩

theorem bind (h : Writes log x P)
    (hf : ∀ a es, P a es → Writes (log ++ es) (f a) fun b es' => R b (es ++ es')) :
    Writes log (x >>= f) R := by
  unfold Writes
  rw [StateT.run_bind]
  refine SatisfiesM.bind h ?_
  rintro ⟨a, log'⟩ ⟨es, rfl, hP⟩
  refine SatisfiesM.imp (hf a es hP) ?_
  rintro r ⟨es', hes', hR⟩
  exact ⟨es ++ es', by rw [hes', List.append_assoc], hR⟩

theorem pure {a : α} (h : Q a []) : Writes log (Pure.pure a : StateT EventLog m α) Q := by
  unfold Writes
  rw [StateT.run_pure]
  exact .pure ⟨[], by simp, h⟩

theorem lift {x : m α} {P : α → Prop} (h : SatisfiesM P x) (hPQ : ∀ a, P a → Q a []) :
    Writes log (StateT.lift x) Q := by
  unfold Writes
  rw [StateT.run_lift, bind_pure_comp]
  exact h.map fun {a} ha => ⟨[], by simp, hPQ a ha⟩

theorem lift_bind (x : m α) (h : ∀ a, Writes log (f a) R) :
    Writes log (StateT.lift x >>= f) R :=
  (lift .trivial fun _ _ => rfl : Writes log (StateT.lift x) fun _ es => es = []).bind <| by
    rintro a _ rfl
    rw [List.append_nil]
    exact h a

theorem get_bind {f : EventLog → StateT EventLog m β} (h : Writes log (f log) R) :
    Writes log (get >>= f) R := by
  unfold Writes
  rw [StateT.run_bind, StateT.run_get, pure_bind]
  exact h

theorem mark_bind {p : Platform m} {kind : EventKind} {attributes : Table String}
    {f : Unit → StateT EventLog m β}
    (h : ∀ time, Writes (log ++ [⟨time, kind, attributes⟩]) (f ()) fun b es =>
      R b (⟨time, kind, attributes⟩ :: es)) :
    Writes log (p.mark kind attributes >>= f) R := by
  unfold Writes
  have hrun : (p.mark kind attributes >>= f).run log =
      p.now >>= fun time => (f ()).run (log ++ [⟨time, kind, attributes⟩]) := by
    simp [Platform.mark]
  rw [hrun]
  refine (SatisfiesM.trivial (x := p.now)).bind fun time _ => ?_
  refine SatisfiesM.imp (h time) ?_
  rintro r ⟨es, hes, hR⟩
  exact ⟨_ :: es, by rw [hes, List.append_assoc, List.singleton_append], hR⟩

end Writes

/-! ## Stages -/

/-- What the stage yields and the kinds of the events that it adds to the log are related. -/
def Marks (x : Stage m α) (Q : Except Failure α → List EventKind → Prop) : Prop :=
  ∀ log, Writes log x.run fun r es =>
    (∀ e ∈ es, e.attributes = []) ∧ Q r (es.map TimedEvent.kind)

namespace Marks

variable {p : Platform m} {o : Options} {x : Stage m α} {f : α → Stage m β}
  {P Q : Except Failure α → List EventKind → Prop} {R : Except Failure β → List EventKind → Prop}

theorem mk_pure {r : Except Failure α} (h : Q r []) :
    Marks (ExceptT.mk (Pure.pure r) : Stage m α) Q :=
  fun _ => Writes.pure ⟨by simp, h⟩

theorem pure {a : α} (h : Q (.ok a) []) : Marks (Pure.pure a : Stage m α) Q := mk_pure h

theorem throw {e : Failure} (h : Q (.error e) []) : Marks (throw e : Stage m α) Q := mk_pure h

/-- A stage may be run for its result, so that a failure of it is not one of its user. -/
theorem result_bind {f : Except Failure α → Stage m β} (h : Marks x P)
    (hf : ∀ r kinds, P r kinds → Marks (f r) fun r' kinds' => R r' (kinds ++ kinds')) :
    Marks (ExceptT.lift x.run >>= f) R := by
  intro log
  have hrun : (ExceptT.lift x.run >>= f).run = x.run >>= fun r => (f r).run := by simp
  rw [hrun]
  refine Writes.bind (h log) ?_
  rintro r es ⟨hbare, hP⟩
  refine Writes.imp (hf r _ hP _) ?_
  rintro r' es' ⟨hbare', hR⟩
  exact ⟨List.forall_mem_append.mpr ⟨hbare, hbare'⟩, by simpa using hR⟩

theorem bind (h : Marks x P)
    (hok : ∀ a kinds, P (.ok a) kinds → Marks (f a) fun r kinds' => R r (kinds ++ kinds'))
    (herror : ∀ e kinds, P (.error e) kinds → R (.error e) kinds) : Marks (x >>= f) R := by
  have hresult : x >>= f = ExceptT.lift x.run >>= fun
      | .ok a => f a
      | .error e => throwThe Failure e := by
    refine ExceptT.ext ?_
    rw [ExceptT.run_bind, ExceptT.run_bind, ExceptT.run_lift, bind_map_left]
    refine bind_congr fun r => ?_
    cases r <;> rfl
  rw [hresult]
  refine result_bind h ?_
  rintro (e | a) kinds hP
  · exact throw (by simpa using herror e kinds hP)
  · exact hok a kinds hP

theorem silent_bind {P : Except Failure α → Prop} (h : Marks x fun r kinds => kinds = [] ∧ P r)
    (hok : ∀ a, P (.ok a) → Marks (f a) R) (herror : ∀ e, P (.error e) → R (.error e) []) :
    Marks (x >>= f) R := by
  refine h.bind ?_ ?_
  · rintro a _ ⟨rfl, ha⟩
    exact hok a ha
  · rintro e _ ⟨rfl, he⟩
    exact herror e he

theorem attempt {x : m (Except Failure α)} {P : Except Failure α → Prop} (h : SatisfiesM P x) :
    Marks (Platform.attempt x) fun r kinds => kinds = [] ∧ P r :=
  fun _ => Writes.lift h fun r hr => ⟨by simp, rfl, hr⟩

theorem attempt_bind {x : m (Except Failure α)} {P : Except Failure α → Prop} (h : SatisfiesM P x)
    (hok : ∀ a, P (.ok a) → Marks (f a) R) (herror : ∀ e, P (.error e) → R (.error e) []) :
    Marks (Platform.attempt x >>= f) R :=
  silent_bind (attempt h) hok herror

theorem perform_bind (x : m α) (h : ∀ a, Marks (f a) R) : Marks (Platform.perform x >>= f) R := by
  intro log
  have hrun : (Platform.perform x >>= f).run = StateT.lift x >>= fun a => (f a).run := by
    simp [Platform.perform]
  rw [hrun]
  exact Writes.lift_bind x fun a => h a log

theorem tell_bind {f : Unit → Stage m β} (message : Message) (h : Marks (f ()) R) :
    Marks (p.tell o message >>= f) R := perform_bind _ fun _ => h

theorem reach_bind {f : Unit → Stage m β} {kind : EventKind}
    (h : Marks (f ()) fun r kinds => R r (kind :: kinds)) : Marks (p.reach kind >>= f) R := by
  intro log
  have hrun : (p.reach kind >>= f).run = p.mark kind >>= fun _ => (f ()).run := by
    simp [Platform.reach]
  rw [hrun]
  refine Writes.mark_bind fun time => Writes.imp (h _) ?_
  rintro r es ⟨hbare, hR⟩
  exact ⟨List.forall_mem_cons.mpr ⟨rfl, hbare⟩, hR⟩

theorem conduct_bind {x : Logged Failure α} (hok : ∀ a, x.outcome = .ok a → Marks (f a) R)
    (herror : ∀ e, x.outcome = .error e → R (.error e) []) : Marks (p.conduct o x >>= f) R := by
  rw [Platform.conduct, bind_assoc]
  refine perform_bind _ fun _ => ?_
  exact silent_bind (P := fun r => x.outcome = r) (mk_pure ⟨rfl, rfl⟩) hok herror

end Marks

end Realizability
