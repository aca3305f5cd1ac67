import Realizability.Problem.Builder
import Realizability.Proofs.Outcome

/-!
# What a draft has read

A draft holds the term types, the constructors and the function to be synthesized that the events
before it are about. Whether it refuses an event depends on those events alone (`Admitted`).
-/

namespace Realizability

/-! ## Events -/

def Constructs (es : List Event) (termType : String) (c : ConstructorDecl) : Prop :=
  ∃ cs, Event.defineTermType termType cs ∈ es ∧ c ∈ cs

def synthFunOf? : Event → Option SynthFun
  | .synthFun f => some f
  | _ => none

def synthFuns (es : List Event) : List SynthFun := es.filterMap synthFunOf?

/-- What an event requires of those before it. -/
def Admitted (es : List Event) : Event → Prop
  | .declareTermType name => Event.declareTermType name ∉ es
  | .defineTermType name cs =>
    Event.declareTermType name ∈ es ∧
      (∀ c ∈ cs, ∀ x ∈ c.children, Event.declareTermType x ∈ es) ∧
      (cs.map ConstructorDecl.name).Nodup ∧
      ∀ c ∈ cs, ∀ c', Constructs es name c' → c'.name ≠ c.name
  | .hornClause constructor termType _ => ∃ c, Constructs es termType c ∧ c.name = constructor
  | .synthFun _ => synthFuns es = []
  | _ => True

theorem constructs_concat_define {es : List Event} {name termType : String}
    {cs : List ConstructorDecl} {c : ConstructorDecl} :
    Constructs (es ++ [.defineTermType name cs]) termType c ↔
      Constructs es termType c ∨ name = termType ∧ c ∈ cs := by
  unfold Constructs
  constructor
  · rintro ⟨cs', hcs, hc⟩
    rw [List.mem_append, List.mem_singleton] at hcs
    rcases hcs with hcs | hcs
    · exact .inl ⟨cs', hcs, hc⟩
    · cases hcs
      exact .inr ⟨rfl, hc⟩
  · rintro (⟨cs', hcs, hc⟩ | ⟨rfl, hc⟩)
    · exact ⟨cs', List.mem_append_left _ hcs, hc⟩
    · exact ⟨cs, List.mem_append_right _ (List.mem_singleton_self _), hc⟩

theorem constructs_concat {es : List Event} {e : Event} {termType : String} {c : ConstructorDecl}
    (he : ∀ cs, e ≠ .defineTermType termType cs) :
    Constructs (es ++ [e]) termType c ↔ Constructs es termType c := by
  unfold Constructs
  simp only [List.mem_append, List.mem_singleton]
  constructor
  · rintro ⟨cs, hcs | hcs, hc⟩
    · exact ⟨cs, hcs, hc⟩
    · exact absurd hcs.symm (he cs)
  · rintro ⟨cs, hcs, hc⟩
    exact ⟨cs, .inl hcs, hc⟩

theorem synthFuns_concat {es : List Event} {e : Event} (he : synthFunOf? e = none) :
    synthFuns (es ++ [e]) = synthFuns es := by
  simp [synthFuns, he]

/-! ## Tables -/

theorem Table.has_put {α : Type} (t : Table α) (key name : String) (value : α) :
    (t.put key value).has name = true ↔ key = name ∨ t.has name = true := by
  unfold Table.has
  rw [Table.get?_put]
  by_cases h : key = name
  · simp [h]
  · simp [h]

namespace Draft

variable {d d' : Draft} {es : List Event}

def constructor? (d : Draft) (termType name : String) : Option TermConstructor :=
  (d.constructors? termType).bind (Table.get? name)

def signature? (d : Draft) (termType name : String) : Option (List String) :=
  ((d.constructors? termType).bind (Table.get? name)).map TermConstructor.children

def putConstructor (d : Draft) (termType name : String) (c : TermConstructor) : Draft :=
  { d with termTypes :=
      d.termTypes.put termType (((d.constructors? termType).getD []).put name c) }

theorem constructor?_putConstructor (d : Draft) (termType name : String) (c : TermConstructor)
    (termType' name' : String) : (d.putConstructor termType name c).constructor? termType' name' =
      if termType = termType' ∧ name = name' then some c else d.constructor? termType' name' := by
  unfold constructor? putConstructor constructors?
  rw [Table.get?_put]
  by_cases ht : termType = termType'
  · subst ht
    rw [if_pos rfl, Option.bind_some, Table.get?_put]
    by_cases hn : name = name'
    · simp [hn]
    · cases hc : d.termTypes.get? termType with
      | none => simp [hn]
      | some constructors => simp [hn]
  · simp [ht]

theorem signature?_putConstructor (d : Draft) (termType name : String) (c : TermConstructor)
    (termType' name' : String) : (d.putConstructor termType name c).signature? termType' name' =
      if termType = termType' ∧ name = name' then some c.children
      else d.signature? termType' name' := by
  change ((d.putConstructor termType name c).constructor? termType' name').map _ = _
  rw [constructor?_putConstructor]
  split <;> rfl

theorem has_putConstructor (h : d.termTypes.has termType = true) (name : String)
    (c : TermConstructor) (x : String) :
    (d.putConstructor termType name c).termTypes.has x = true ↔ d.termTypes.has x = true := by
  unfold putConstructor
  rw [Table.has_put]
  constructor
  · rintro (rfl | hx)
    · exact h
    · exact hx
  · exact .inr

/-! ## Reading -/

/-- The draft holds what the events are about. -/
structure Reads (d : Draft) (es : List Event) : Prop where
  types : ∀ name, d.termTypes.has name = true ↔ Event.declareTermType name ∈ es
  constructors : ∀ termType c,
    d.signature? termType c.name = some c.children ↔ Constructs es termType c
  synthesized : d.synthFun.toList = synthFuns es

theorem reads_nil : ({} : Draft).Reads [] where
  types name := by simp [Table.has]
  constructors termType c := by simp [signature?, constructors?, Constructs]
  synthesized := rfl

theorem Reads.skip (h : d.Reads es) {e : Event} (ht : d'.termTypes = d.termTypes)
    (hf : d'.synthFun = d.synthFun) (hdeclare : ∀ name, e ≠ .declareTermType name)
    (hdefine : ∀ termType cs, e ≠ .defineTermType termType cs)
    (hsynth : synthFunOf? e = none) : d'.Reads (es ++ [e]) where
  types name := by
    rw [ht, h.types, List.mem_append, List.mem_singleton]
    simp [(hdeclare name).symm]
  constructors termType c := by
    rw [constructs_concat (hdefine termType), ← h.constructors]
    unfold signature? constructors?
    rw [ht]
  synthesized := by
    rw [hf, h.synthesized, synthFuns_concat hsynth]

theorem Reads.signature?_isSome (h : d.Reads es) {termType name : String} :
    (d.signature? termType name).isSome = true ↔
      ∃ c, Constructs es termType c ∧ c.name = name := by
  rw [Option.isSome_iff_exists]
  constructor
  · rintro ⟨children, hs⟩
    exact ⟨⟨name, children⟩, (h.constructors termType ⟨name, children⟩).mp hs, rfl⟩
  · rintro ⟨c, hc, rfl⟩
    exact ⟨c.children, (h.constructors termType c).mpr hc⟩

/-! ## Definitions of term types -/

theorem has_constructor (d : Draft) (termType name : String) :
    ((d.constructors? termType).getD []).has name = (d.signature? termType name).isSome := by
  unfold signature? Table.has
  cases d.constructors? termType with
  | none => rfl
  | some constructors => simp

theorem addConstructor_eq_ok {termType : String} {c : ConstructorDecl} :
    d.addConstructor termType c = .ok d' ↔ d.signature? termType c.name = none ∧
      (∀ x ∈ c.children, d.termTypes.has x = true) ∧
      d.putConstructor termType c.name ⟨c.name, c.children, []⟩ = d' := by
  unfold addConstructor
  dsimp only
  rw [has_constructor, ← Option.not_isSome_iff_eq_none]
  by_cases hs : (d.signature? termType c.name).isSome = true
  · simp [hs]
  · rw [if_neg hs]
    cases hx : c.children.find? fun x => !d.termTypes.has x with
    | none =>
      have hall : ∀ x ∈ c.children, d.termTypes.has x = true := by
        simpa using hx
      constructor
      · intro h
        exact ⟨hs, hall, Except.ok.inj h⟩
      · rintro ⟨-, -, rfl⟩
        rfl
    | some x =>
      have hnot := List.find?_some hx
      constructor
      · intro h
        cases h
      · rintro ⟨-, hall, -⟩
        rw [hall x (List.mem_of_find?_eq_some hx)] at hnot
        cases hnot

section
variable {termType : String} {c : ConstructorDecl} {cs done : List ConstructorDecl}

theorem Reads.signature?_eq_none (h : d.Reads es) (name : String) :
    d.signature? termType name = none ↔ ∀ c, Constructs es termType c → c.name ≠ name := by
  rw [← Option.not_isSome_iff_eq_none, h.signature?_isSome]
  simp

theorem Reads.addConstructor (h : d.Reads (es ++ [.defineTermType termType done]))
    (ht : d.termTypes.has termType = true) (ha : d.addConstructor termType c = .ok d') :
    d'.Reads (es ++ [.defineTermType termType (done ++ [c])]) := by
  obtain ⟨hnew, -, rfl⟩ := addConstructor_eq_ok.mp ha
  have hfresh := (h.signature?_eq_none c.name).mp hnew
  refine ⟨fun name => ?_, fun termType' c' => ?_, ?_⟩
  · rw [has_putConstructor ht, h.types]
    simp
  · rw [signature?_putConstructor, constructs_concat_define]
    have hold := h.constructors termType' c'
    rw [constructs_concat_define] at hold
    split
    · rename_i heq
      obtain ⟨rfl, hname⟩ := heq
      constructor
      · intro hchildren
        have hc : c' = c := by
          cases c
          cases c'
          simp_all
        exact .inr ⟨rfl, List.mem_append_right _ (hc ▸ List.mem_singleton_self _)⟩
      · rintro (hc | ⟨-, hc⟩)
        · exact absurd hname.symm (hfresh c' (constructs_concat_define.mpr (.inl hc)))
        · rcases List.mem_append.mp hc with hc | hc
          · exact absurd hname.symm (hfresh c' (constructs_concat_define.mpr (.inr ⟨rfl, hc⟩)))
          · rw [List.mem_singleton.mp hc]
    · rename_i hne
      rw [hold]
      constructor
      · rintro (hc | ⟨rfl, hc⟩)
        · exact .inl hc
        · exact .inr ⟨rfl, List.mem_append_left _ hc⟩
      · rintro (hc | ⟨rfl, hc⟩)
        · exact .inl hc
        · rcases List.mem_append.mp hc with hc | hc
          · exact .inr ⟨rfl, hc⟩
          · exact absurd ⟨rfl, by rw [List.mem_singleton.mp hc]⟩ hne
  · have hf := h.synthesized
    rw [synthFuns_concat rfl] at hf ⊢
    exact hf

theorem addConstructors_cons :
    (d.addConstructors termType (c :: cs)).2 = none ↔
      ∃ d', d.addConstructor termType c = .ok d' ∧ (d'.addConstructors termType cs).2 = none ∧
        d.addConstructors termType (c :: cs) = d'.addConstructors termType cs := by
  rw [addConstructors]
  cases d.addConstructor termType c with
  | ok d' => simp
  | error e => simp

theorem Reads.addConstructors (ht : Event.declareTermType termType ∈ es) (cs : List ConstructorDecl)
    {d : Draft} {done : List ConstructorDecl}
    (h : d.Reads (es ++ [.defineTermType termType done]))
    (ha : (d.addConstructors termType cs).2 = none) :
    (d.addConstructors termType cs).1.Reads (es ++ [.defineTermType termType (done ++ cs)]) := by
  induction cs generalizing d done with
  | nil =>
    rw [List.append_nil]
    exact h
  | cons c cs ih =>
    obtain ⟨d', hd', hcs, heq⟩ := addConstructors_cons.mp ha
    have hhas : d.termTypes.has termType = true :=
      (h.types termType).mpr (List.mem_append_left _ ht)
    have hrest := ih (h.addConstructor hhas hd') hcs
    rw [heq]
    rwa [List.append_assoc] at hrest

theorem addConstructors_ok_iff (ht : Event.declareTermType termType ∈ es)
    (cs : List ConstructorDecl) {d : Draft} {done : List ConstructorDecl}
    (h : d.Reads (es ++ [.defineTermType termType done])) :
    (d.addConstructors termType cs).2 = none ↔
      (∀ c ∈ cs, ∀ x ∈ c.children, Event.declareTermType x ∈ es) ∧
      (cs.map ConstructorDecl.name).Nodup ∧
      ∀ c ∈ cs, ∀ c', Constructs (es ++ [.defineTermType termType done]) termType c' →
        c'.name ≠ c.name := by
  induction cs generalizing d done with
  | nil => simp [Draft.addConstructors]
  | cons c cs ih =>
    have hhas : d.termTypes.has termType = true :=
      (h.types termType).mpr (List.mem_append_left _ ht)
    have hdeclared : ∀ x, d.termTypes.has x = true ↔ Event.declareTermType x ∈ es := by
      intro x
      rw [h.types]
      simp
    -- for the constructors that follow, this one is among those that were defined before
    have hafter : ∀ c', Constructs (es ++ [.defineTermType termType (done ++ [c])]) termType c' ↔
        Constructs (es ++ [.defineTermType termType done]) termType c' ∨ c' = c := by
      intro c'
      rw [constructs_concat_define, constructs_concat_define]
      simp [or_assoc]
    rw [addConstructors_cons, List.forall_mem_cons, List.forall_mem_cons, List.map_cons,
      List.nodup_cons]
    constructor
    · rintro ⟨d', hd', hcs, -⟩
      have hrest := (ih (h.addConstructor hhas hd')).mp hcs
      obtain ⟨hnew, hchildren, -⟩ := addConstructor_eq_ok.mp hd'
      obtain ⟨hcs₁, hcs₂, hcs₃⟩ := hrest
      refine ⟨⟨fun x hx => (hdeclared x).mp (hchildren x hx), hcs₁⟩, ⟨?_, hcs₂⟩,
        (h.signature?_eq_none c.name).mp hnew, ?_⟩
      · intro hmem
        obtain ⟨c₁, hc₁, hname⟩ := List.mem_map.mp hmem
        exact hcs₃ c₁ hc₁ c ((hafter c).mpr (.inr rfl)) hname.symm
      · intro c₁ hc₁ c' hc'
        exact hcs₃ c₁ hc₁ c' ((hafter c').mpr (.inl hc'))
    · rintro ⟨⟨hchildren, hcs₁⟩, ⟨hfresh, hcs₂⟩, hnew, hcs₃⟩
      have hd' := addConstructor_eq_ok.mpr ⟨(h.signature?_eq_none c.name).mpr hnew,
        fun x hx => (hdeclared x).mpr (hchildren x hx), rfl⟩
      refine ⟨_, hd', (ih (h.addConstructor hhas hd')).mpr ⟨hcs₁, hcs₂, ?_⟩, ?_⟩
      · intro c₁ hc₁ c' hc'
        rcases (hafter c').mp hc' with hc' | rfl
        · exact hcs₃ c₁ hc₁ c' hc'
        · intro hname
          exact hfresh (List.mem_map.mpr ⟨c₁, hc₁, hname.symm⟩)
      · rw [Draft.addConstructors, hd']

end

/-! ## Rules -/

theorem addRule_eq_ok {constructor termType : String} {r : SemanticRule} :
    d.addRule constructor termType r = .ok d' ↔ ∃ constructors c,
      d.constructors? termType = some constructors ∧ constructors.get? constructor = some c ∧
      d.putConstructor termType constructor { c with rules := c.rules ++ [r] } = d' := by
  unfold addRule putConstructor
  cases ht : d.constructors? termType with
  | none => simp
  | some constructors =>
    cases hc : constructors.get? constructor with
    | none => simp [hc]
    | some c => simp [hc]

theorem addRule_ok_iff {constructor termType : String} {r : SemanticRule} :
    (∃ d', d.addRule constructor termType r = .ok d') ↔
      (d.signature? termType constructor).isSome = true := by
  unfold signature?
  constructor
  · rintro ⟨d', h⟩
    obtain ⟨constructors, c, ht, hc, -⟩ := addRule_eq_ok.mp h
    simp [ht, hc]
  · intro h
    cases ht : d.constructors? termType with
    | none => simp [ht] at h
    | some constructors =>
      cases hc : constructors.get? constructor with
      | none => simp [ht, hc] at h
      | some c => exact ⟨_, addRule_eq_ok.mpr ⟨constructors, c, ht, hc, rfl⟩⟩

theorem Reads.addRule (h : d.Reads es) {constructor termType : String} {r : SemanticRule}
    (ha : d.addRule constructor termType r = .ok d') :
    d'.Reads (es ++ [.hornClause constructor termType r]) := by
  obtain ⟨constructors, c, ht, hc, rfl⟩ := addRule_eq_ok.mp ha
  have hhas : d.termTypes.has termType = true := by
    unfold Table.has
    unfold constructors? at ht
    rw [ht]
    rfl
  have hsignature : d.signature? termType constructor = some c.children := by
    unfold signature?
    simp [ht, hc]
  refine ⟨fun name => ?_, fun termType' c' => ?_, ?_⟩
  · rw [has_putConstructor hhas, h.types]
    simp
  · rw [constructs_concat (by simp), ← h.constructors, signature?_putConstructor]
    split
    · rename_i heq
      obtain ⟨rfl, rfl⟩ := heq
      rw [hsignature]
    · exact Iff.rfl
  · rw [synthFuns_concat rfl]
    exact h.synthesized

/-! ## Single events -/

theorem Reads.declare (h : d.Reads es) {name : String} (hnew : d.termTypes.has name = false) :
    ({ d with termTypes := d.termTypes.put name [] } : Draft).Reads
      (es ++ [.declareTermType name]) where
  types x := by
    rw [Table.has_put, h.types, List.mem_append, List.mem_singleton, Event.declareTermType.injEq,
      or_comm, eq_comm]
  constructors termType c := by
    rw [constructs_concat (by simp), ← h.constructors]
    unfold signature? constructors?
    rw [Table.get?_put]
    by_cases hn : name = termType
    · subst hn
      have hnone : d.termTypes.get? name = none := by
        unfold Table.has at hnew
        simpa using hnew
      simp [hnone]
    · rw [if_neg hn]
  synthesized := by
    rw [synthFuns_concat rfl]
    exact h.synthesized

theorem Reads.startDefinition (h : d.Reads es) (name : String) :
    d.Reads (es ++ [.defineTermType name []]) where
  types x := by
    rw [h.types]
    simp
  constructors termType c := by
    rw [h.constructors, constructs_concat_define]
    simp
  synthesized := by
    rw [synthFuns_concat rfl]
    exact h.synthesized

theorem Reads.synthesize (h : d.Reads es) (hnone : d.synthFun = none) (f : SynthFun) :
    ({ d with synthFun := some f } : Draft).Reads (es ++ [.synthFun f]) where
  types x := by
    rw [h.types]
    simp
  constructors termType c := by
    rw [constructs_concat (by simp), ← h.constructors]
    exact Iff.rfl
  synthesized := by
    have hf := h.synthesized
    rw [hnone] at hf
    simp only [synthFuns, List.filterMap_append] at hf ⊢
    rw [← hf]
    rfl

/-- An event is refused unless those before it admit it. -/
theorem consume_ok_iff (h : d.Reads es) (e : Event) : (d.consume e).2 = none ↔ Admitted es e := by
  cases e with
  | declareTermType name =>
    have hname := h.types name
    rw [consume, Admitted]
    by_cases hd : d.termTypes.has name = true
    · simp [hd, hname.mp hd]
    · simp [hd, mt hname.mpr hd]
  | defineTermType name cs =>
    have hname := h.types name
    rw [consume, Admitted]
    by_cases hd : d.termTypes.has name = true
    · rw [if_pos hd, addConstructors_ok_iff (hname.mp hd) cs (h.startDefinition name)]
      simp [hname.mp hd, constructs_concat_define]
    · simp [hd, mt hname.mpr hd]
  | hornClause constructor termType r =>
    rw [consume, Admitted, ← h.signature?_isSome, ← addRule_ok_iff (r := r)]
    cases d.addRule constructor termType r with
    | ok d' => simp
    | error err => simp
  | synthFun f =>
    have hf := h.synthesized
    rw [consume, Admitted, ← hf]
    cases d.synthFun with
    | none => simp
    | some g => simp
  | _ => simp [consume, Admitted]

theorem Reads.consume (h : d.Reads es) (e : Event) (ha : (d.consume e).2 = none) :
    (d.consume e).1.Reads (es ++ [e]) := by
  cases e with
  | declareTermType name =>
    rw [Draft.consume] at ha ⊢
    by_cases hd : d.termTypes.has name = true
    · rw [if_pos hd] at ha
      cases ha
    · rw [if_neg hd]
      exact h.declare (Bool.eq_false_iff.mpr hd)
  | defineTermType name cs =>
    rw [Draft.consume] at ha ⊢
    by_cases hd : d.termTypes.has name = true
    · rw [if_pos hd] at ha ⊢
      exact (h.startDefinition name).addConstructors ((h.types name).mp hd) cs ha
    · rw [if_neg hd] at ha
      cases ha
  | hornClause constructor termType r =>
    rw [Draft.consume] at ha ⊢
    cases hr : d.addRule constructor termType r with
    | ok d' => exact h.addRule hr
    | error err => simp [hr] at ha
  | synthFun f =>
    rw [Draft.consume] at ha ⊢
    cases hs : d.synthFun with
    | none => exact h.synthesize hs f
    | some g => simp [hs] at ha
  | _ => exact h.skip rfl rfl (by simp) (by simp) rfl

end Draft

end Realizability
