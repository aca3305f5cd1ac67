import Realizability.Proofs.Problem.Content
import Realizability.Proofs.Problem.Refusal

/-!
# Interleaved streams

The parts of a draft are written by events of different channels, and no event reads a part that
another channel writes. So a run can be taken apart into the runs of its channels, and what a stream
describes does not depend on how these are interleaved.
-/

namespace Realizability

inductive Channel
  | info | functions | datatypes | termTypes | constraints | synthesis
  deriving DecidableEq

/-- The part of a draft that an event is about, if it carries any data. -/
def Event.channel? : Event → Option Channel
  | .setInfo .. => some .info
  | .defineFunction .. => some .functions
  | .defineDatatype .. => some .datatypes
  | .declareTermType _ | .defineTermType .. | .hornClause .. => some .termTypes
  | .constraint _ => some .constraints
  | .synthFun _ => some .synthesis
  | .declareFunction .. | .declareDatatype _ | .checkSynth | .endOfStream => none

def inChannel (c : Channel) (es : List Event) : List Event :=
  es.filter fun e => e.channel? = some c

/-- The streams differ in how channels are interleaved and in events without data. -/
def Interleaved (es es' : List Event) : Prop := ∀ c, inChannel c es = inChannel c es'

namespace Draft

def AgreeIn (d d' : Draft) : Channel → Prop
  | .info => d.metadata = d'.metadata
  | .functions => d.functions = d'.functions
  | .datatypes => d.datatypes = d'.datatypes
  | .termTypes => d.termTypes = d'.termTypes
  | .constraints => d.constraints = d'.constraints
  | .synthesis => d.synthFun = d'.synthFun

variable {d d' d'' : Draft} {c : Channel} {e : Event} {es es' : List Event}

theorem AgreeIn.refl (d : Draft) (c : Channel) : d.AgreeIn d c := by
  cases c <;> rfl

theorem AgreeIn.symm (h : d.AgreeIn d' c) : d'.AgreeIn d c := by
  cases c <;> exact Eq.symm h

theorem AgreeIn.trans (h : d.AgreeIn d' c) (h' : d'.AgreeIn d'' c) : d.AgreeIn d'' c := by
  cases c <;> exact Eq.trans h h'

theorem eq_of_agreeIn (h : ∀ c, d.AgreeIn d' c) : d = d' := by
  have hmetadata : d.metadata = d'.metadata := h .info
  have hfunctions : d.functions = d'.functions := h .functions
  have hdatatypes : d.datatypes = d'.datatypes := h .datatypes
  have htypes : d.termTypes = d'.termTypes := h .termTypes
  have hconstraints : d.constraints = d'.constraints := h .constraints
  have hsynth : d.synthFun = d'.synthFun := h .synthesis
  cases d
  cases d'
  simp_all

theorem SameButTypes.agreeIn (h : d.SameButTypes d') (hc : c ≠ .termTypes) : d'.AgreeIn d c := by
  obtain ⟨types, rfl⟩ := h
  cases c <;> first | rfl | exact absurd rfl hc

/-! ## Term types -/

theorem addConstructor_congr (termType : String) (h : d.termTypes = d'.termTypes)
    (c : ConstructorDecl) :
    (d.addConstructor termType c).map termTypes = (d'.addConstructor termType c).map termTypes := by
  have hconstructors : d.constructors? termType = d'.constructors? termType := by
    simp [constructors?, h]
  unfold addConstructor
  dsimp only
  rw [hconstructors, h]
  split
  · rfl
  · split <;> rfl

theorem addConstructors_congr (termType : String) (h : d.termTypes = d'.termTypes)
    (cs : List ConstructorDecl) :
    (d.addConstructors termType cs).1.termTypes = (d'.addConstructors termType cs).1.termTypes ∧
      (d.addConstructors termType cs).2 = (d'.addConstructors termType cs).2 := by
  induction cs generalizing d d' with
  | nil => exact ⟨h, rfl⟩
  | cons c cs ih =>
    rw [addConstructors, addConstructors]
    rcases eq_or_of_map_eq_map (addConstructor_congr termType h c) with
      ⟨err, ha, ha'⟩ | ⟨d₁, d₁', ha, ha', htypes⟩
    · rw [ha, ha']
      exact ⟨h, rfl⟩
    · rw [ha, ha']
      exact ih htypes

theorem addRule_congr (termType : String) (h : d.termTypes = d'.termTypes) (constructor : String)
    (r : SemanticRule) :
    (d.addRule constructor termType r).map termTypes =
      (d'.addRule constructor termType r).map termTypes := by
  have hconstructors : d.constructors? termType = d'.constructors? termType := by
    simp [constructors?, h]
  unfold addRule
  rw [hconstructors, h]
  split
  · rfl
  · split <;> rfl

/-! ## Steps -/

/-- An event changes no part but the one that it is about. -/
theorem consume_frame (hc : e.channel? ≠ some c) : (d.consume e).1.AgreeIn d c := by
  cases e with
  | declareTermType name =>
    have hne : c ≠ .termTypes := fun heq => hc (by simp [Event.channel?, heq])
    rw [consume]
    split
    · exact .refl d c
    · exact SameButTypes.agreeIn ⟨_, rfl⟩ hne
  | defineTermType name cs =>
    have hne : c ≠ .termTypes := fun heq => hc (by simp [Event.channel?, heq])
    rw [consume]
    split
    · exact (d.addConstructors_sameButTypes name cs).agreeIn hne
    · exact .refl d c
  | hornClause constructor termType r =>
    have hne : c ≠ .termTypes := fun heq => hc (by simp [Event.channel?, heq])
    rw [consume]
    cases hr : d.addRule constructor termType r with
    | ok d' => exact (addRule_sameButTypes hr).agreeIn hne
    | error err => exact .refl d c
  | synthFun f =>
    rw [consume]
    cases d.synthFun <;> cases c <;> simp_all [AgreeIn, Event.channel?]
  | _ => cases c <;> simp_all [consume, AgreeIn, Event.channel?]

theorem consume_agreeIn (h : d.AgreeIn d' c) (hc : e.channel? = some c) :
    (d.consume e).1.AgreeIn (d'.consume e).1 c ∧ (d.consume e).2 = (d'.consume e).2 := by
  cases e with
  | declareTermType name =>
    obtain rfl : Channel.termTypes = c := by simpa [Event.channel?] using hc
    have htypes : d.termTypes = d'.termTypes := h
    rw [consume, consume, htypes]
    by_cases hd : d'.termTypes.has name = true
    · simp [hd, AgreeIn, htypes]
    · simp [hd, AgreeIn]
  | defineTermType name cs =>
    obtain rfl : Channel.termTypes = c := by simpa [Event.channel?] using hc
    have htypes : d.termTypes = d'.termTypes := h
    rw [consume, consume, htypes]
    by_cases hd : d'.termTypes.has name = true
    · rw [if_pos hd, if_pos hd]
      exact addConstructors_congr name htypes cs
    · simp [hd, AgreeIn, htypes]
  | hornClause constructor termType r =>
    obtain rfl : Channel.termTypes = c := by simpa [Event.channel?] using hc
    rw [consume, consume]
    rcases eq_or_of_map_eq_map (addRule_congr termType h constructor r) with
      ⟨err, ha, ha'⟩ | ⟨d₁, d₁', ha, ha', htypes⟩
    · rw [ha, ha']
      exact ⟨h, rfl⟩
    · rw [ha, ha']
      exact ⟨htypes, rfl⟩
  | synthFun f =>
    obtain rfl : Channel.synthesis = c := by simpa [Event.channel?] using hc
    have hf : d.synthFun = d'.synthFun := h
    rw [consume, consume, hf]
    cases hf' : d'.synthFun with
    | none => simp [AgreeIn]
    | some g => simp [AgreeIn, hf, hf']
  | setInfo keyword value =>
    obtain rfl : Channel.info = c := by simpa [Event.channel?] using hc
    have : d.metadata = d'.metadata := h
    simp [consume, AgreeIn, this]
  | defineFunction name rank args body =>
    obtain rfl : Channel.functions = c := by simpa [Event.channel?] using hc
    have : d.functions = d'.functions := h
    simp [consume, AgreeIn, this]
  | defineDatatype name constructors =>
    obtain rfl : Channel.datatypes = c := by simpa [Event.channel?] using hc
    have : d.datatypes = d'.datatypes := h
    simp [consume, AgreeIn, this]
  | constraint t =>
    obtain rfl : Channel.constraints = c := by simpa [Event.channel?] using hc
    have : d.constraints = d'.constraints := h
    simp [consume, AgreeIn, this]
  | _ => simp [Event.channel?] at hc

theorem consume_of_channel?_eq_none (hc : e.channel? = none) : (d.consume e).2 = none := by
  cases e <;> simp_all [consume, Event.channel?]

/-! ## Runs -/

theorem inChannel_cons_of_eq (hc : e.channel? = some c) :
    inChannel c (e :: es) = e :: inChannel c es := by
  simp [inChannel, hc]

theorem inChannel_cons_of_ne (hc : e.channel? ≠ some c) :
    inChannel c (e :: es) = inChannel c es := by
  simp [inChannel, hc]

/-- In every channel, a run does what the run of this channel does. -/
theorem consumeAll_inChannel {d₁ : Draft} (h : d.AgreeIn d₁ c)
    (hd : (d.consumeAll es).outcome = .ok d') :
    ∃ d₁', (d₁.consumeAll (inChannel c es)).outcome = .ok d₁' ∧ d'.AgreeIn d₁' c := by
  induction es generalizing d d₁ with
  | nil =>
    cases hd
    exact ⟨d₁, rfl, h⟩
  | cons e es ih =>
    obtain ⟨htaken, hd⟩ := consumeAll_cons_eq_ok.mp hd
    by_cases hc : e.channel? = some c
    · obtain ⟨hagree, hsame⟩ := consume_agreeIn h hc
      obtain ⟨d₁', hd₁, hrest⟩ := ih hagree hd
      rw [inChannel_cons_of_eq hc]
      exact ⟨d₁', consumeAll_cons_eq_ok.mpr ⟨hsame ▸ htaken, hd₁⟩, hrest⟩
    · rw [inChannel_cons_of_ne hc]
      exact ih ((consume_frame hc).trans h) hd

theorem consumeAll_ok_of_inChannel (parts : Channel → Draft) (h : ∀ c, d.AgreeIn (parts c) c)
    (hd : ∀ c, ∃ d', ((parts c).consumeAll (inChannel c es)).outcome = .ok d') :
    ∃ d', (d.consumeAll es).outcome = .ok d' := by
  induction es generalizing d parts with
  | nil => exact ⟨d, rfl⟩
  | cons e es ih =>
    -- only the run of the channel of `e` moves on with it
    let next : Channel → Draft := fun c =>
      if e.channel? = some c then ((parts c).consume e).1 else parts c
    have hstep : ∀ c, (d.consume e).1.AgreeIn (next c) c := by
      intro c
      by_cases hc : e.channel? = some c
      · simpa [next, hc] using (consume_agreeIn (h c) hc).1
      · simpa [next, hc] using (consume_frame hc).trans (h c)
    have htaken : (d.consume e).2 = none := by
      cases hc : e.channel? with
      | none => exact consume_of_channel?_eq_none hc
      | some c =>
        obtain ⟨d', hrun⟩ := hd c
        rw [inChannel_cons_of_eq hc, consumeAll_cons_eq_ok] at hrun
        rw [(consume_agreeIn (h c) hc).2, hrun.1]
    have hnext : ∀ c, ∃ d', ((next c).consumeAll (inChannel c es)).outcome = .ok d' := by
      intro c
      obtain ⟨d', hrun⟩ := hd c
      by_cases hc : e.channel? = some c
      · rw [inChannel_cons_of_eq hc, consumeAll_cons_eq_ok] at hrun
        exact ⟨d', by simpa [next, hc] using hrun.2⟩
      · rw [inChannel_cons_of_ne hc] at hrun
        exact ⟨d', by simpa [next, hc] using hrun⟩
    obtain ⟨d', hrun⟩ := ih next hstep hnext
    exact ⟨d', consumeAll_cons_eq_ok.mpr ⟨htaken, hrun⟩⟩

theorem consumeAll_interleaved (h : Interleaved es es')
    (hd : (d.consumeAll es).outcome = .ok d') : (d.consumeAll es').outcome = .ok d' := by
  have hparts : ∀ c, ∃ d₁, (d.consumeAll (inChannel c es')).outcome = .ok d₁ ∧
      d'.AgreeIn d₁ c := by
    intro c
    rw [← h c]
    exact consumeAll_inChannel (.refl d c) hd
  have hall : ∀ c, ∃ d₁, (d.consumeAll (inChannel c es')).outcome = .ok d₁ := by
    intro c
    obtain ⟨d₁, hd₁, -⟩ := hparts c
    exact ⟨d₁, hd₁⟩
  obtain ⟨d'', hd''⟩ := consumeAll_ok_of_inChannel (fun _ => d) (fun c => .refl d c) hall
  have heq : d'' = d' := by
    refine eq_of_agreeIn fun c => ?_
    obtain ⟨d₁, hd₁, hagree⟩ := hparts c
    obtain ⟨d₂, hd₂, hagree'⟩ := consumeAll_inChannel (.refl d c) hd''
    obtain rfl : d₁ = d₂ := by simpa [hd₁] using hd₂
    exact hagree'.trans hagree.symm
  rwa [heq] at hd''

end Draft

/-! ## Refusals -/

/-- The error is about the events, and not about the state that a builder is in. -/
def BuildError.AboutEvents (err : BuildError) : Prop := err ≠ .finished

namespace Draft

variable {d : Draft} {es : List Event} {err : BuildError}

theorem consume_aboutEvents {e : Event} (h : (d.consume e).2 = some err) : err.AboutEvents := by
  rintro rfl
  exact consume_ofEvent h

theorem consumeAll_aboutEvents (h : (d.consumeAll es).outcome = .error err) : err.AboutEvents := by
  induction es generalizing d with
  | nil => cases h
  | cons e es ih =>
    rw [consumeAll] at h
    rcases outcome_bind_eq_error.mp h with h | ⟨u, -, h⟩
    · cases h
    · cases hc : d.consume e with
      | mk d' refused =>
        cases refused with
        | none => exact ih (by simpa [hc] using h)
        | some err' =>
          rw [hc] at h
          have heq : err' = err := by cases h; rfl
          exact heq ▸ consume_aboutEvents (congrArg Prod.snd hc)

theorem finish_aboutEvents (h : d.finish = .error err) : err.AboutEvents := by
  rintro rfl
  rcases finish_eq_error h with h | ⟨f, -, n, -, q, -, x, -, -, h⟩ <;> cases h

end Draft

namespace Problem

variable {es es' : List Event} {p : Problem} {err : BuildError}

theorem ofEvents_eq_ok : (ofEvents es).outcome = .ok p ↔
    ∃ d, (Draft.consumeAll {} es).outcome = .ok d ∧ d.finish = .ok p := by
  unfold ofEvents
  rw [outcome_bind_eq_ok]
  refine exists_congr fun d => and_congr_right fun _ => ?_
  rw [outcome_bind_eq_ok]
  constructor
  · rintro ⟨p', hfinish, h⟩
    cases h
    exact hfinish
  · intro hfinish
    exact ⟨p, hfinish, rfl⟩

theorem ofEvents_aboutEvents (h : (ofEvents es).outcome = .error err) : err.AboutEvents := by
  unfold ofEvents at h
  rcases outcome_bind_eq_error.mp h with h | ⟨d, -, h⟩
  · exact Draft.consumeAll_aboutEvents h
  · rcases outcome_bind_eq_error.mp h with h | ⟨p, -, h⟩
    · exact Draft.finish_aboutEvents h
    · cases h

theorem ofEvents_of_interleaved (h : Interleaved es es') (hp : (ofEvents es).outcome = .ok p) :
    (ofEvents es').outcome = .ok p := by
  obtain ⟨d, hd, hfinish⟩ := ofEvents_eq_ok.mp hp
  exact ofEvents_eq_ok.mpr ⟨d, Draft.consumeAll_interleaved h hd, hfinish⟩

/-- Interleaved streams describe the same problem, or none. -/
theorem ofEvents_interleaved (h : Interleaved es es') :
    (∃ p, (ofEvents es).outcome = .ok p ∧ (ofEvents es').outcome = .ok p) ∨
      ∃ err err', (ofEvents es).outcome = .error err ∧ err.AboutEvents ∧
        (ofEvents es').outcome = .error err' ∧ err'.AboutEvents := by
  cases hes : (ofEvents es).outcome with
  | ok p => exact .inl ⟨p, rfl, ofEvents_of_interleaved h hes⟩
  | error err =>
    cases hes' : (ofEvents es').outcome with
    | ok p =>
      have hp := ofEvents_of_interleaved (fun c => (h c).symm) hes'
      rw [hes] at hp
      cases hp
    | error err' =>
      exact .inr ⟨err, err', rfl, ofEvents_aboutEvents hes, rfl, ofEvents_aboutEvents hes'⟩

end Problem

/-! ## A stream told in another order -/

namespace Scattered

/-- The function and its background come first, the term types as late as they can. -/
def regrouped : List Event := [
  .checkSynth,
  .synthFun ⟨"f", "E", [nonterminal "Guard" "B", nonterminal "Start" "E", nonterminal "Other" "E"]⟩,
  .setInfo "status" (.string "draft"), .declareTermType "E", .declareTermType "B",
  .setInfo "level" (.int 1), .defineTermType "E" [⟨"$0", []⟩], .defineTermType "B" [⟨"$0", []⟩],
  .setInfo "status" (.string "final"), .hornClause "$0" "E" (rule "zero"),
  .hornClause "$0" "B" (rule "never"), .hornClause "$0" "E" (rule "nothing"), .endOfStream]

theorem regrouped_interleaved : Interleaved stream regrouped ∧
    ((∃ p, (Problem.ofEvents stream).outcome = .ok p ∧
        (Problem.ofEvents regrouped).outcome = .ok p) ∨
      ∃ err err', (Problem.ofEvents stream).outcome = .error err ∧ err.AboutEvents ∧
        (Problem.ofEvents regrouped).outcome = .error err' ∧ err'.AboutEvents) := by
  have h : Interleaved stream regrouped := by
    intro c
    cases c <;> rfl
  exact ⟨h, Problem.ofEvents_interleaved h⟩

end Scattered

end Realizability
