import Realizability.Proofs.Problem.Draft

/-!
# Sessions with a builder

A caller may go on after a call that was refused. Such a call leaves nothing behind, except that a
definition of a term type leaves the constructors in front of the first that offends: what follows
goes as if it had been cut off there.
-/

namespace Realizability

/-! ## Definitions that are refused -/

namespace Draft

variable {d d' : Draft} {termType : String} {c : ConstructorDecl} {cs earlier : List ConstructorDecl}
  {err : BuildError}

/-- The constructor cannot join those of the draft and those in front of it in a definition. -/
def offends (d : Draft) (termType : String) (earlier : List ConstructorDecl) (c : ConstructorDecl) :
    Bool :=
  (d.constructor? termType c.name).isSome || earlier.any (·.name = c.name) ||
    c.children.any fun x => !d.termTypes.has x

def fitting (d : Draft) (termType : String) (earlier : List ConstructorDecl) :
    List ConstructorDecl → List ConstructorDecl
  | [] => []
  | c :: cs =>
    if d.offends termType earlier c then [] else c :: d.fitting termType (earlier ++ [c]) cs

theorem addConstructor_ok_iff :
    (∃ d', d.addConstructor termType c = .ok d') ↔ d.offends termType [] c = false := by
  have hname : (d.signature? termType c.name).isSome = (d.constructor? termType c.name).isSome :=
    Option.isSome_map
  simp only [addConstructor_eq_ok, ← Option.not_isSome_iff_eq_none, hname, offends, List.any_nil,
    Bool.or_false, Bool.or_eq_false_iff, List.any_eq_false, Bool.not_eq_true', Bool.not_eq_true]
  constructor
  · rintro ⟨d', hnew, hchildren, -⟩
    exact ⟨hnew, fun x hx => by simp [hchildren x hx]⟩
  · rintro ⟨hnew, hchildren⟩
    exact ⟨_, hnew, fun x hx => by simpa using hchildren x hx, rfl⟩

theorem offends_addConstructor (ht : d.termTypes.has termType = true)
    (h : d.addConstructor termType c = .ok d') (c' : ConstructorDecl) :
    d'.offends termType earlier c' = d.offends termType (c :: earlier) c' := by
  obtain ⟨-, -, rfl⟩ := addConstructor_eq_ok.mp h
  have htypes : ∀ x, (d.putConstructor termType c.name ⟨c.name, c.children, []⟩).termTypes.has x =
      d.termTypes.has x := fun x => Bool.eq_iff_iff.mpr (has_putConstructor ht _ _ x)
  unfold offends
  rw [constructor?_putConstructor]
  by_cases hname : c.name = c'.name
  · simp [hname]
  · simp [hname, htypes]

theorem fitting_addConstructor (ht : d.termTypes.has termType = true)
    (h : d.addConstructor termType c = .ok d') (cs earlier : List ConstructorDecl) :
    d'.fitting termType earlier cs = d.fitting termType (c :: earlier) cs := by
  induction cs generalizing earlier with
  | nil => rfl
  | cons c' cs ih => rw [fitting, fitting, offends_addConstructor ht h, ih, List.cons_append]

theorem has_addConstructor (ht : d.termTypes.has termType = true)
    (h : d.addConstructor termType c = .ok d') : d'.termTypes.has termType = true := by
  obtain ⟨-, -, rfl⟩ := addConstructor_eq_ok.mp h
  exact (has_putConstructor ht _ _ _).mpr ht

theorem addConstructors_fitting (ht : d.termTypes.has termType = true)
    (h : (d.addConstructors termType cs).2 = some err) :
    d.addConstructors termType (d.fitting termType [] cs) =
      ((d.addConstructors termType cs).1, none) := by
  induction cs generalizing d with
  | nil => cases h
  | cons c cs ih =>
    cases hc : d.addConstructor termType c with
    | ok d' =>
      have hfits : d.offends termType [] c = false := addConstructor_ok_iff.mp ⟨d', hc⟩
      have hrest := ih (has_addConstructor ht hc) (by simpa [addConstructors, hc] using h)
      rw [fitting_addConstructor ht hc] at hrest
      simpa [fitting, hfits, addConstructors, hc] using hrest
    | error e =>
      have hoffends : d.offends termType [] c = true := by
        rw [← Bool.not_eq_false, ← addConstructor_ok_iff]
        simp [hc]
      simp [fitting, hoffends, addConstructors, hc]

/-! ## Single events -/

/-- An event that is refused leaves the draft as it was, unless it defines a term type. -/
theorem consume_of_refused {e : Event} (h : (d.consume e).2 = some err)
    (he : ∀ termType cs, e ≠ .defineTermType termType cs) : (d.consume e).1 = d := by
  cases e with
  | declareTermType name =>
    rw [consume] at h ⊢
    split
    · rfl
    · rename_i hnew
      simp [hnew] at h
  | defineTermType termType cs => exact absurd rfl (he termType cs)
  | hornClause constructor termType r =>
    rw [consume] at h ⊢
    cases hr : d.addRule constructor termType r with
    | ok d' => simp [hr] at h
    | error e => rfl
  | synthFun f =>
    rw [consume] at h ⊢
    cases hf : d.synthFun with
    | none => simp [hf] at h
    | some g => rfl
  | _ => cases h

end Draft

/-! ## Calls -/

namespace Builder

inductive Call
  | consume (o : Offer)
  | finish

/-- A problem if the call finishes one, or why the call was refused. -/
abbrev Reply := Except BuildError (Option Problem)

def call (b : Builder) : Call → Builder × Reply
  | .consume o => ((b.consume o).1, (b.consume o).2.elim (.ok none) .error)
  | .finish => (b.finish.1, b.finish.2.map some)

def session (b : Builder) : List Call → Builder × List Reply
  | [] => (b, [])
  | c :: cs => (((b.call c).1.session cs).1, (b.call c).2 :: ((b.call c).1.session cs).2)

/-- What a refused call comes down to. -/
def remainder : Builder → Call → List Call
  | collecting d, .consume (.event (.defineTermType termType cs)) =>
    if d.termTypes.has termType then
      [.consume (.event (.defineTermType termType (d.fitting termType [] cs)))]
    else []
  | _, _ => []

variable {b : Builder} {c : Call} {err : BuildError}

theorem session_append (b : Builder) (cs cs' : List Call) :
    b.session (cs ++ cs') =
      (((b.session cs).1.session cs').1, (b.session cs).2 ++ ((b.session cs).1.session cs').2) := by
  induction cs generalizing b with
  | nil => rfl
  | cons c cs ih => simp [session, ih]

theorem call_consume_refused {o : Offer} :
    (b.call (.consume o)).2 = .error err ↔ (b.consume o).2 = some err := by
  rw [call]
  cases (b.consume o).2 <;> simp

theorem remainder_of_ne (b : Builder)
    (hc : ∀ termType cs, c ≠ .consume (.event (.defineTermType termType cs))) :
    b.remainder c = [] := by
  unfold remainder
  split
  · exact absurd rfl (hc _ _)
  · rfl

theorem call_of_refused (h : (b.call c).2 = .error err)
    (hc : ∀ termType cs, c ≠ .consume (.event (.defineTermType termType cs))) :
    (b.call c).1 = b := by
  cases b with
  | finished => cases c <;> rfl
  | collecting d =>
    cases c with
    | finish =>
      rw [call, finish] at h ⊢
      cases hd : d.finish with
      | ok p => simp [hd, Except.map] at h
      | error e => rfl
    | consume o =>
      cases o with
      | other text kind => rfl
      | event e =>
        have hrefused : (d.consume e).2 = some err := call_consume_refused.mp h
        have he : ∀ termType cs, e ≠ .defineTermType termType cs := by
          rintro termType cs rfl
          exact hc termType cs rfl
        exact congrArg collecting (Draft.consume_of_refused hrefused he)

/-- What is left of a refused call is not refused, and does what the call has done. -/
theorem session_remainder (h : (b.call c).2 = .error err) :
    b.session (b.remainder c) = ((b.call c).1, (b.remainder c).map fun _ => .ok none) := by
  by_cases hc : ∀ termType cs, c ≠ .consume (.event (.defineTermType termType cs))
  · rw [remainder_of_ne b hc, call_of_refused h hc]
    rfl
  · simp only [ne_eq, not_forall, not_not] at hc
    obtain ⟨termType, cs, rfl⟩ := hc
    cases b with
    | finished => rfl
    | collecting d =>
      have hrefused : (d.consume (.defineTermType termType cs)).2 = some err :=
        call_consume_refused.mp h
      rw [Draft.consume] at hrefused
      by_cases ht : d.termTypes.has termType = true
      · rw [if_pos ht] at hrefused
        have hfits := Draft.addConstructors_fitting ht hrefused
        simp [remainder, session, call, consume, Draft.consume, ht, hfits]
      · simp [remainder, session, call, consume, Draft.consume, ht]

/-- A refused call leaves no trace but what is left of it: a session goes on behind the one as it
does behind the other. -/
theorem session_of_refused (before : List Call) (c : Call) (err : BuildError)
    (h : ((fresh.session before).1.call c).2 = .error err) :
    let b := (fresh.session before).1
    let left := b.remainder c
    ((∀ termType cs, c ≠ .consume (.event (.defineTermType termType cs))) →
      left = [] ∧ (b.call c).1 = b) ∧
    b.session left = ((b.call c).1, left.map fun _ => .ok none) ∧
    ∀ after, ∃ b' rs,
      fresh.session (before ++ c :: after) =
        (b', (fresh.session before).2 ++ .error err :: rs) ∧
      fresh.session (before ++ left ++ after) =
        (b', (fresh.session before).2 ++ left.map (fun _ => .ok none) ++ rs) := by
  intro b left
  have hleft : b.session left = ((b.call c).1, left.map fun _ => .ok none) := session_remainder h
  refine ⟨fun hc => ⟨remainder_of_ne b hc, call_of_refused h hc⟩, hleft, fun after => ?_⟩
  refine ⟨((b.call c).1.session after).1, ((b.call c).1.session after).2, ?_, ?_⟩
  · rw [session_append, session, h]
  · rw [session_append, session_append, hleft]

end Builder

/-! ## A definition that is refused halfway -/

namespace Halfway

open Builder

def opening : List Call := [
  .consume (.event (.declareTermType "E")),
  .consume (.event (.defineTermType "E" [⟨"$0", []⟩]))]

/-- The second constructor has been defined before. -/
def definition : Call :=
  .consume (.event (.defineTermType "E" [⟨"$s", ["E"]⟩, ⟨"$0", []⟩, ⟨"$t", ["E"]⟩]))

def beginning : Call := .consume (.event (.defineTermType "E" [⟨"$s", ["E"]⟩]))

theorem definition_cutOff :
    ((fresh.session opening).1.call definition).2 = .error (.duplicateConstructor "$0" "E") ∧
    (fresh.session opening).1.session [beginning] =
      (((fresh.session opening).1.call definition).1, [.ok none]) ∧
    ∀ after, ∃ b rs,
      fresh.session (opening ++ definition :: after) =
        (b, [.ok none, .ok none] ++ .error (.duplicateConstructor "$0" "E") :: rs) ∧
      fresh.session (opening ++ [beginning] ++ after) =
        (b, [.ok none, .ok none] ++ [.ok none] ++ rs) := by
  have hrefused : ((fresh.session opening).1.call definition).2 =
      .error (.duplicateConstructor "$0" "E") := rfl
  exact ⟨hrefused, (session_of_refused opening definition _ hrefused).2⟩

end Halfway

end Realizability
