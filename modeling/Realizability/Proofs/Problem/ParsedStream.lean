import Realizability.Proofs.Format.RoundTrip
import Realizability.Proofs.Problem.Refusal
import Realizability.Proofs.Problem.Session

/-!
# Streams that have been read

A builder asks again what the reader of events has asked: that it is given an event, and that the
children of productions are nonterminals of their grammar. Of events that have been read it never
finds fault with either, whatever it has been through, and it can be finished unless the draft lacks
something (`Builder.session_of_read`).
-/

namespace Realizability

/-- Productions use nonterminals of the grammar only. -/
def SynthFun.Closed (f : SynthFun) : Prop :=
  ∀ n ∈ f.grammar, ∀ q ∈ n.productions, ∀ x ∈ q.occurrences, x ∈ f.grammar.map NonterminalDecl.name

theorem SynthFun.closed_of_read {v : Json} {es : List Event} (h : Event.listOfJson v = .ok es)
    {f : SynthFun} (hf : Event.synthFun f ∈ es) : f.Closed := by
  obtain ⟨os, -, hread⟩ := Event.listOfJson_eq_ok.mp h
  obtain ⟨o, -, ho⟩ := exists_of_forall₂ (readEach_eq_ok.mp hread) hf
  have hgrammar : GrammarWellFormed f.grammar := Event.wellFormed_of_ofMembers ho
  exact hgrammar.occurrences

namespace Draft

variable {d : Draft} {err : BuildError} {e : Event}

def Closed (d : Draft) : Prop := ∀ f, d.synthFun = some f → f.Closed

theorem closed_empty : ({} : Draft).Closed := nofun

theorem synthFun_addConstructors (termType : String) (cs : List ConstructorDecl) :
    (d.addConstructors termType cs).1.synthFun = d.synthFun := by
  induction cs generalizing d with
  | nil => rfl
  | cons c cs ih =>
    rw [addConstructors]
    cases hc : d.addConstructor termType c with
    | ok d' =>
      obtain ⟨-, -, rfl⟩ := addConstructor_eq_ok.mp hc
      exact ih
    | error err => rfl

theorem synthFun_consume {f : SynthFun} (h : (d.consume e).1.synthFun = some f) :
    d.synthFun = some f ∨ e = .synthFun f := by
  cases e with
  | declareTermType name =>
    rw [consume] at h
    split at h <;> exact .inl h
  | defineTermType termType cs =>
    rw [consume] at h
    split at h
    · rw [synthFun_addConstructors] at h
      exact .inl h
    · exact .inl h
  | hornClause constructor termType r =>
    rw [consume] at h
    cases hr : d.addRule constructor termType r with
    | ok d' =>
      obtain ⟨constructors, c, -, -, rfl⟩ := addRule_eq_ok.mp hr
      rw [hr] at h
      exact .inl h
    | error err =>
      rw [hr] at h
      exact .inl h
  | synthFun g =>
    rw [consume] at h
    cases hg : d.synthFun with
    | none =>
      rw [hg] at h
      cases h
      exact .inr rfl
    | some g' =>
      rw [hg] at h
      exact .inl (hg ▸ h)
  | _ => exact .inl h

theorem Closed.consume (h : d.Closed) (he : ∀ f, e = .synthFun f → f.Closed) :
    (d.consume e).1.Closed := by
  intro f hf
  rcases synthFun_consume hf with hf | hf
  · exact h f hf
  · exact he f hf

theorem Closed.finish_eq_error (h : d.Closed) (hp : d.finish = .error err) : d.Lacks err := by
  obtain hlacks | ⟨f, hf, n, hn, q, hq, x, hx, hunknown, -⟩ := Draft.finish_eq_error hp
  · exact hlacks
  · obtain ⟨m, hm, rfl⟩ := List.mem_map.mp (h f hf n hn q hq x hx)
    rw [termTypeOf?, Option.map_eq_none_iff, List.find?_eq_none] at hunknown
    exact absurd (decide_eq_true rfl) (hunknown m hm)

theorem Closed.finish_error_iff (h : d.Closed) :
    (∃ err, d.finish = .error err) ↔ ∃ err, d.Lacks err :=
  ⟨fun ⟨err, hp⟩ => ⟨err, h.finish_eq_error hp⟩, fun ⟨_, hlacks⟩ => hlacks.finish⟩

end Draft

/-! ## Sessions -/

namespace Builder

variable {b : Builder} {es : List Event} {cs : List Call} {err : BuildError}

def Call.Draws (es : List Event) : Call → Prop
  | .consume (.event e) => e ∈ es
  | .consume (.other ..) => False
  | .finish => True

/-- What the builder has collected is closed, if it is still collecting. -/
def Closed (b : Builder) : Prop := ∀ d, b = collecting d → d.Closed

theorem closed_fresh : fresh.Closed := by
  rintro d ⟨⟩
  exact Draft.closed_empty

theorem closed_finished : finished.Closed := by
  rintro d ⟨⟩

theorem finish_collecting {d : Draft} :
    ((collecting d).call .finish).2 = .error err ↔ d.finish = .error err := by
  rw [call, finish]
  cases d.finish <;> simp [Except.map]

theorem Closed.call_eq_error {c : Call} (h : b.Closed) (hc : c.Draws es)
    (herr : (b.call c).2 = .error err) :
    err = .finished ∨ err.OfEvent ∨ ∃ d : Draft, d.Lacks err := by
  cases b with
  | finished => cases c <;> exact .inl (Except.error.inj herr).symm
  | collecting d =>
    cases c with
    | finish => exact .inr (.inr ⟨d, (h d rfl).finish_eq_error (finish_collecting.mp herr)⟩)
    | consume o =>
      cases o with
      | other text kind => cases hc
      | event e => exact .inr (.inl (Draft.consume_ofEvent (call_consume_refused.mp herr)))

section
variable (hes : ∀ f, Event.synthFun f ∈ es → f.Closed)
include hes

theorem Closed.call {c : Call} (h : b.Closed) (hc : c.Draws es) : (b.call c).1.Closed := by
  cases b with
  | finished => cases c <;> exact closed_finished
  | collecting d =>
    cases c with
    | finish =>
      rw [Builder.call, finish]
      cases d.finish with
      | ok p => exact closed_finished
      | error err => exact h
    | consume o =>
      cases o with
      | other text kind => cases hc
      | event e =>
        rintro _ ⟨⟩
        exact (h d rfl).consume fun f hf => hes f (hf ▸ hc)

theorem Closed.session (h : b.Closed) (hcs : ∀ c ∈ cs, c.Draws es) : (b.session cs).1.Closed := by
  induction cs generalizing b with
  | nil => exact h
  | cons c cs ih =>
    rw [List.forall_mem_cons] at hcs
    exact ih (h.call hes hcs.1) hcs.2

theorem Closed.session_eq_error (h : b.Closed) (hcs : ∀ c ∈ cs, c.Draws es)
    (herr : .error err ∈ (b.session cs).2) :
    err = .finished ∨ err.OfEvent ∨ ∃ d : Draft, d.Lacks err := by
  induction cs generalizing b with
  | nil => cases herr
  | cons c cs ih =>
    rw [List.forall_mem_cons] at hcs
    rcases List.mem_cons.mp herr with herr | herr
    · exact h.call_eq_error hcs.1 herr.symm
    · exact ih (h.call hes hcs.1) hcs.2 herr

end

theorem session_collecting (h : ∀ c ∈ cs, c ≠ .finish) (d : Draft) :
    ∃ d', ((collecting d).session cs).1 = collecting d' := by
  induction cs generalizing d with
  | nil => exact ⟨d, rfl⟩
  | cons c cs ih =>
    rw [List.forall_mem_cons] at h
    cases c with
    | finish => exact absurd rfl h.1
    | consume o => cases o <;> exact ih h.2 _

/-- Of the events of a stream that has been read, offered in any order and with any attempts to
finish in between, none is refused as no event, and no attempt finds a child that the grammar does
not have. As long as the builder collects, finishing fails if and only if the draft lacks something,
and says so. -/
theorem session_of_read {v : Json} (h : Event.listOfJson v = .ok es)
    (hcs : ∀ c ∈ cs, c.Draws es) :
    (∀ err, .error err ∈ (fresh.session cs).2 →
      (∀ text kind, err ≠ .unsupported text kind) ∧
        ∀ child operator, err ≠ .unknownChild child operator) ∧
    ((∀ c ∈ cs, c ≠ .finish) → ∃ d, (fresh.session cs).1 = collecting d) ∧
    ∀ d, (fresh.session cs).1 = collecting d →
      (∀ err, ((collecting d).call .finish).2 = .error err → d.Lacks err) ∧
      ((∃ err, ((collecting d).call .finish).2 = .error err) ↔ ∃ err, d.Lacks err) := by
  have hes : ∀ f, Event.synthFun f ∈ es → f.Closed := fun f hf => SynthFun.closed_of_read h hf
  refine ⟨fun err herr => ?_, fun hfinish => session_collecting hfinish {}, fun d hd => ?_⟩
  · constructor
    · rintro text kind rfl
      rcases closed_fresh.session_eq_error hes hcs herr with h | h | ⟨d, h⟩ <;> cases h
    · rintro child operator rfl
      rcases closed_fresh.session_eq_error hes hcs herr with h | h | ⟨d, h⟩ <;> cases h
  · have hclosed : d.Closed := closed_fresh.session hes hcs d hd
    simp only [finish_collecting]
    exact ⟨fun err => hclosed.finish_eq_error, hclosed.finish_error_iff⟩

/-- A grammar that has not been read can have a child that is no nonterminal of it. -/
example : (fresh.session [
    .consume (.event (.declareTermType "E")),
    .consume (.event (.defineTermType "E" [⟨"$s", ["E"]⟩])),
    .consume (.event (.synthFun ⟨"f", "E", [⟨"Start", "E", [⟨"$s", ["Other"]⟩]⟩]⟩)),
    .finish]).2 = [.ok none, .ok none, .ok none, .error (.unknownChild "Other" "$s")] := rfl

end Builder

/-! ## A stream that is read and not listened to -/

namespace Masks

open Builder

theorem stream_read : Event.listOfJson (Event.listToJson stream) = .ok stream := by
  rw [Event.listOfJson_eq_ok]
  refine ⟨stream.map Event.members, by simp [Event.listToJson, Event.toJson], ?_⟩
  exact readEach_map fun e he => Event.ofMembers_members (wellFormed_stream e he)

/-- The term types and their clauses are passed over. -/
def hasty : List Call :=
  .finish :: (stream.drop 4).map (fun e => .consume (.event e)) ++ [.finish]

theorem hasty_lacks : (fresh.session hasty).2 =
      [.error .noSynthFun, .ok none, .ok none, .error (.undeclaredNonterminalType "E" "Start")] ∧
    ∃ d, (fresh.session hasty).1 = collecting d ∧
      d.Lacks (.undeclaredNonterminalType "E" "Start") := by
  have hdraws : ∀ c ∈ hasty, c.Draws stream := by
    simp [hasty, stream, Call.Draws]
  obtain ⟨-, -, hlacks⟩ := session_of_read stream_read hdraws
  exact ⟨rfl, _, rfl, (hlacks _ rfl).1 _ rfl⟩

end Masks

end Realizability
