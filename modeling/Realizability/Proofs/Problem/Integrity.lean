import Realizability.Proofs.Format.RoundTrip
import Realizability.Proofs.Problem.Content
import Realizability.Proofs.Problem.Session

/-!
# References that are kept

Whatever a builder has been through, the children of its constructors have declared term types, and
a problem that it hands out refers to nothing outside itself. A definition that is refused halfway
makes no difference, since every constructor that it adds is checked before.
-/

namespace Realizability

/-! ## Drafts -/

namespace Draft

variable {d d' : Draft} {termType name : String} {c : TermConstructor} {e : Event}

/-- Constructors have the names that they are kept under and children of declared term types. -/
structure Sound (d : Draft) : Prop where
  named : ∀ termType name c, d.constructor? termType name = some c → c.name = name
  declared : ∀ termType name c, d.constructor? termType name = some c →
    ∀ x ∈ c.children, d.termTypes.has x = true

theorem sound_empty : ({} : Draft).Sound where
  named _ _ _ h := by cases h
  declared _ _ _ h := by cases h

theorem Sound.of_termTypes (h : d.Sound) (ht : d'.termTypes = d.termTypes) : d'.Sound := by
  have hconstructor : ∀ termType name, d'.constructor? termType name = d.constructor? termType name := by
    intro termType name
    unfold constructor? constructors?
    rw [ht]
  refine ⟨fun termType name c hc => ?_, fun termType name c hc => ?_⟩
  · exact h.named termType name c (hconstructor termType name ▸ hc)
  · rw [ht]
    exact h.declared termType name c (hconstructor termType name ▸ hc)

theorem Sound.declare (h : d.Sound) (x : String) :
    ({ d with termTypes := d.termTypes.put x [] } : Draft).Sound := by
  have hold : ∀ termType name c,
      ({ d with termTypes := d.termTypes.put x [] } : Draft).constructor? termType name = some c →
      d.constructor? termType name = some c := by
    intro termType name c hc
    unfold constructor? constructors? at hc
    rw [Table.get?_put] at hc
    by_cases hx : x = termType
    · simp [hx] at hc
    · rwa [if_neg hx] at hc
  refine ⟨fun termType name c hc => h.named termType name c (hold _ _ _ hc), ?_⟩
  intro termType name c hc y hy
  exact (Table.has_put ..).mpr (.inr (h.declared termType name c (hold _ _ _ hc) y hy))

theorem Sound.putConstructor (h : d.Sound) (hname : c.name = name)
    (hchildren : ∀ x ∈ c.children, d.termTypes.has x = true) :
    (d.putConstructor termType name c).Sound := by
  have hhas : ∀ x, d.termTypes.has x = true →
      (d.putConstructor termType name c).termTypes.has x = true :=
    fun x hx => (Table.has_put ..).mpr (.inr hx)
  refine ⟨fun termType' name' c' hc => ?_, fun termType' name' c' hc x hx => hhas x ?_⟩
  · rw [constructor?_putConstructor] at hc
    split at hc
    · rename_i heq
      cases hc
      exact hname.trans heq.2
    · exact h.named termType' name' c' hc
  · rw [constructor?_putConstructor] at hc
    split at hc
    · cases hc
      exact hchildren x hx
    · exact h.declared termType' name' c' hc x hx

theorem Sound.addConstructors (h : d.Sound) (cs : List ConstructorDecl) :
    (d.addConstructors termType cs).1.Sound := by
  induction cs generalizing d with
  | nil => exact h
  | cons c cs ih =>
    rw [Draft.addConstructors]
    cases hc : d.addConstructor termType c with
    | ok d' =>
      obtain ⟨-, hchildren, rfl⟩ := addConstructor_eq_ok.mp hc
      exact ih (h.putConstructor rfl hchildren)
    | error err => exact h

theorem Sound.addRule (h : d.Sound) {r : SemanticRule}
    (ha : d.addRule name termType r = .ok d') : d'.Sound := by
  obtain ⟨constructors, c, ht, hc, rfl⟩ := addRule_eq_ok.mp ha
  have hold : d.constructor? termType name = some c := by simp [constructor?, ht, hc]
  exact h.putConstructor (h.named termType name c hold) (h.declared termType name c hold)

theorem Sound.consume (h : d.Sound) (e : Event) : (d.consume e).1.Sound := by
  cases e with
  | declareTermType x =>
    rw [Draft.consume]
    split
    · exact h
    · exact h.declare x
  | defineTermType x cs =>
    rw [Draft.consume]
    split
    · exact h.addConstructors cs
    · exact h
  | hornClause constructor x r =>
    rw [Draft.consume]
    cases hr : d.addRule constructor x r with
    | ok d' => exact h.addRule hr
    | error err => exact h
  | synthFun f =>
    rw [Draft.consume]
    cases d.synthFun with
    | none => exact h.of_termTypes rfl
    | some g => exact h
  | _ => exact h.of_termTypes rfl

end Draft

/-! ## Problems -/

/-- The entries of a grammar, and those of each nonterminal, have different names. -/
structure SynthFun.Keyed (f : SynthFun) : Prop where
  nonterminals : (f.grammar.map NonterminalDecl.name).Nodup
  productions : ∀ n ∈ f.grammar, (n.productions.map ProductionDecl.operator).Nodup

theorem SynthFun.keyed_of_read {o : Members} {f : SynthFun}
    (h : Event.ofMembers o = .ok (.synthFun f)) : f.Keyed := by
  have hgrammar : GrammarWellFormed f.grammar := Event.wellFormed_of_ofMembers h
  exact ⟨hgrammar.names, hgrammar.operators⟩

namespace Problem

/-- Every nonterminal and every production is found under its own name. -/
structure Keyed (p : Problem) : Prop where
  nonterminals : ∀ n ∈ p.nonterminals, p.nonterminal? n.name = some n
  productions : ∀ n ∈ p.nonterminals, ∀ q ∈ n.productions,
    n.productions.find? (·.operator = q.operator) = some q

/-- The problem refers to its own nonterminals, as the constructors of the draft ask. -/
structure SelfContained (p : Problem) (d : Draft) : Prop where
  target : p.target ∈ p.nonterminals
  children : ∀ n ∈ p.nonterminals, ∀ q ∈ n.productions, ∀ x ∈ q.children,
    ∃ m ∈ p.nonterminals, m.name = x ∧ p.nonterminal? x = some m
  signatures : ∀ n ∈ p.nonterminals, ∀ q ∈ n.productions, ∃ c,
    d.constructor? n.termType q.operator = some c ∧ c.name = q.operator ∧
      q.children.map (fun x => (p.nonterminal? x).map Nonterminal.termType) = c.children.map some

end Problem

theorem find?_of_nodup {α : Type} {f : α → String} {xs : List α} (h : (xs.map f).Nodup) {x : α}
    (hx : x ∈ xs) : xs.find? (f · = f x) = some x := by
  induction xs with
  | nil => cases hx
  | cons y xs ih =>
    rw [List.map_cons, List.nodup_cons] at h
    rcases List.mem_cons.mp hx with rfl | hx
    · simp
    · have hne : f y ≠ f x := fun heq => h.1 (heq ▸ List.mem_map_of_mem hx)
      rw [List.find?_cons_of_neg (by simpa using hne)]
      exact ih h.2 hx

namespace Draft

variable {d : Draft} {grammar grammar' : List NonterminalDecl} {ns : List Nonterminal}

theorem find?_nonterminals (h : grammar.mapM (d.nonterminal grammar') = .ok ns) (x : String) :
    (ns.find? (·.name = x)).map Nonterminal.termType = termTypeOf? grammar x := by
  unfold termTypeOf?
  rw [mapM_eq_ok] at h
  induction h with
  | nil => rfl
  | @cons n m grammar ns hm _ ih =>
    obtain ⟨ps, -, rfl⟩ := nonterminal_eq_ok.mp hm
    by_cases hx : n.name = x
    · simp [hx]
    · simpa [hx] using ih

theorem names_nonterminals (h : grammar.mapM (d.nonterminal grammar') = .ok ns) :
    ns.map Nonterminal.name = grammar.map NonterminalDecl.name := by
  rw [← List.forall₂_eq_eq_eq, List.forall₂_map_left_iff, List.forall₂_map_right_iff]
  refine (mapM_eq_ok.mp h).flip.imp fun m n hm => ?_
  obtain ⟨ps, -, rfl⟩ := nonterminal_eq_ok.mp hm
  rfl

theorem operators_productions {n : NonterminalDecl} {ps : List Production}
    (h : n.productions.mapM (d.production grammar n) = .ok ps) :
    ps.map Production.operator = n.productions.map ProductionDecl.operator := by
  rw [← List.forall₂_eq_eq_eq, List.forall₂_map_left_iff, List.forall₂_map_right_iff]
  refine (mapM_eq_ok.mp h).flip.imp fun r q hr => ?_
  rw [(production_eq_ok hr).1]

theorem constructor_of_production {n : NonterminalDecl} {q : ProductionDecl} {r : Production}
    (h : d.production grammar n q = .ok r) : ∃ c, d.constructor? n.termType r.operator = some c ∧
      r.children.map (termTypeOf? grammar) = c.children.map some := by
  obtain ⟨rfl, -⟩ := production_eq_ok h
  obtain ⟨children, hs, htypes⟩ := production_ok_iff.mp ⟨_, h⟩
  obtain ⟨c, hc, rfl⟩ := Option.map_eq_some_iff.mp hs
  exact ⟨c, hc, htypes⟩

/-- A sound draft hands out a problem that refers to nothing outside itself. -/
theorem Sound.finish {p : Problem} (h : d.Sound) (hp : d.finish = .ok p) :
    ∃ f, d.synthFun = some f ∧ p.SelfContained d ∧ (f.Keyed → p.Keyed) := by
  obtain ⟨f, ns, hf, -, hns, htarget, heq⟩ := finish_eq_ok.mp hp
  have hnonterminals : p.nonterminals = ns := by rw [heq]
  have hlookup : ∀ x, (p.nonterminal? x).map Nonterminal.termType = termTypeOf? f.grammar x := by
    intro x
    rw [Problem.nonterminal?, hnonterminals]
    exact find?_nonterminals hns x
  have hproductions : ∀ n ∈ p.nonterminals, ∃ n' ∈ f.grammar, n.termType = n'.termType ∧
      n'.productions.mapM (d.production f.grammar n') = .ok n.productions := by
    intro n hn
    rw [hnonterminals] at hn
    obtain ⟨n', hn', hm⟩ := exists_of_forall₂ (mapM_eq_ok.mp hns) hn
    obtain ⟨ps, hps, rfl⟩ := nonterminal_eq_ok.mp hm
    exact ⟨n', hn', rfl, hps⟩
  have hsignatures : ∀ n ∈ p.nonterminals, ∀ q ∈ n.productions, ∃ c,
      d.constructor? n.termType q.operator = some c ∧
        q.children.map (termTypeOf? f.grammar) = c.children.map some := by
    intro n hn q hq
    obtain ⟨n', -, htype, hps⟩ := hproductions n hn
    obtain ⟨q', -, hq'⟩ := exists_of_forall₂ (mapM_eq_ok.mp hps) hq
    rw [htype]
    exact constructor_of_production hq'
  refine ⟨f, hf, ⟨?_, fun n hn q hq x hx => ?_, fun n hn q hq => ?_⟩, fun hkeyed => ⟨?_, ?_⟩⟩
  · rw [hnonterminals]
    exact List.mem_of_find?_eq_some htarget
  · obtain ⟨c, -, htypes⟩ := hsignatures n hn q hq
    have hx' : termTypeOf? f.grammar x ∈ c.children.map some :=
      htypes ▸ List.mem_map_of_mem hx
    obtain ⟨type, -, htype⟩ := List.mem_map.mp hx'
    rw [← hlookup, eq_comm, Option.map_eq_some_iff] at htype
    obtain ⟨m, hm, -⟩ := htype
    exact ⟨m, List.mem_of_find?_eq_some hm, by simpa using List.find?_some hm, hm⟩
  · obtain ⟨c, hc, htypes⟩ := hsignatures n hn q hq
    refine ⟨c, hc, h.named _ _ c hc, ?_⟩
    simpa only [hlookup] using htypes
  · intro n hn
    refine find?_of_nodup ?_ hn
    rw [hnonterminals, names_nonterminals hns]
    exact hkeyed.nonterminals
  · intro n hn q hq
    obtain ⟨n', hn', -, hps⟩ := hproductions n hn
    refine find?_of_nodup ?_ hq
    rw [operators_productions hps]
    exact hkeyed.productions n' hn'

end Draft

/-! ## Sessions -/

namespace Builder

variable {b : Builder} {P : Draft → Prop}

theorem call_preserves (hstep : ∀ d e, P d → P (d.consume e).1) (c : Call)
    (h : ∀ d, b = collecting d → P d) : ∀ d, (b.call c).1 = collecting d → P d := by
  intro d hd
  cases b with
  | finished => cases c <;> cases hd
  | collecting d₀ =>
    have hd₀ : P d₀ := h d₀ rfl
    cases c with
    | finish =>
      rw [call, finish] at hd
      cases hp : d₀.finish with
      | ok p => simp [hp] at hd
      | error err =>
        obtain rfl : d₀ = d := by simpa [hp] using hd
        exact hd₀
    | consume o =>
      cases o with
      | other text kind =>
        cases hd
        exact hd₀
      | event e =>
        cases hd
        exact hstep d₀ e hd₀

/-- What every event preserves, be it taken or refused, holds throughout a session. -/
theorem session_preserves (hstep : ∀ d e, P d → P (d.consume e).1) (cs : List Call)
    (h : ∀ d, b = collecting d → P d) : ∀ d, (b.session cs).1 = collecting d → P d := by
  induction cs generalizing b with
  | nil => exact h
  | cons c cs ih => exact ih (call_preserves hstep c h)

theorem session_sound (cs : List Call) {d : Draft} (h : (fresh.session cs).1 = collecting d) :
    d.Sound := by
  refine session_preserves (fun d e hd => hd.consume e) cs ?_ d h
  intro d hd
  cases hd
  exact Draft.sound_empty

/-- A builder is finished by handing out a problem, and in no other way. -/
theorem call_eq_finished (c : Call) :
    (b.call c).1 = finished ↔ b = finished ∨ ∃ p, (b.call c).2 = .ok (some p) := by
  cases b with
  | finished => cases c <;> simp [call, consume, finish]
  | collecting d =>
    cases c with
    | finish =>
      rw [call, finish]
      cases d.finish <;> simp [Except.map]
    | consume o =>
      have hstate : ((collecting d).consume o).1 ≠ finished := by cases o <;> simp [consume]
      have hreply : ∀ p, ((collecting d).consume o).2.elim (.ok none) .error ≠
          (.ok (some p) : Reply) := by
        intro p
        cases ((collecting d).consume o).2 <;> simp
      simp [call, hstate, hreply]

theorem session_eq_finished (cs : List Call) :
    (b.session cs).1 = finished ↔ b = finished ∨ ∃ p, .ok (some p) ∈ (b.session cs).2 := by
  induction cs generalizing b with
  | nil => simp [session]
  | cons c cs ih =>
    rw [session, ih, call_eq_finished]
    simp only [List.mem_cons, exists_or, or_assoc, eq_comm]

theorem session_finished (cs : List Call) :
    finished.session cs = (finished, cs.map fun _ => .error .finished) := by
  induction cs with
  | nil => rfl
  | cons c cs ih =>
    have hc : finished.call c = (finished, .error .finished) := by cases c <;> rfl
    rw [session, hc, ih, List.map_cons]

theorem call_finish_eq_ok {p : Problem} (h : (b.call .finish).2 = .ok (some p)) :
    ∃ d, b = collecting d ∧ d.finish = .ok p := by
  cases b with
  | finished => cases h
  | collecting d =>
    refine ⟨d, rfl, ?_⟩
    rw [call, finish] at h
    cases hp : d.finish with
    | ok p' =>
      rw [hp] at h
      cases h
      rfl
    | error err =>
      rw [hp] at h
      cases h

/-- Up to the call that hands out a problem, the draft is sound; that problem is self-contained; and
all that is called behind it is refused. -/
theorem session_integrity (cs : List Call) :
    ((∃ p, .ok (some p) ∈ (fresh.session cs).2) ∨
      ∃ d, (fresh.session cs).1 = collecting d ∧ d.Sound) ∧
    ∀ before after p, cs = before ++ .finish :: after →
      ((fresh.session before).1.call .finish).2 = .ok (some p) →
      (∃ d f, (fresh.session before).1 = collecting d ∧ d.Sound ∧ d.synthFun = some f ∧
        p.SelfContained d ∧ (f.Keyed → p.Keyed)) ∧
      (fresh.session cs).2 =
        (fresh.session before).2 ++ .ok (some p) :: after.map fun _ => .error .finished := by
  constructor
  · cases hb : (fresh.session cs).1 with
    | collecting d => exact .inr ⟨d, rfl, session_sound cs hb⟩
    | finished =>
      obtain hfresh | hp := (session_eq_finished cs).mp hb
      · cases hfresh
      · exact .inl hp
  · rintro before after p rfl hp
    obtain ⟨d, hd, hfinish⟩ := call_finish_eq_ok hp
    have hsound : d.Sound := session_sound before hd
    obtain ⟨f, hf, hclosed⟩ := hsound.finish hfinish
    have hfinished : ((fresh.session before).1.call .finish).1 = finished :=
      (call_eq_finished .finish).mpr (.inr ⟨p, hp⟩)
    refine ⟨⟨d, f, hd, hsound, hf, hclosed⟩, ?_⟩
    rw [session_append, session, hfinished, hp, session_finished]

end Builder

/-! ## A grammar with a constructor of a refused definition -/

namespace Halfway

open Builder

def grammar : SynthFun := ⟨"f", "E", [⟨"Start", "E", [⟨"$0", []⟩, ⟨"$s", ["Start"]⟩]⟩]⟩

def before : List Call := opening ++ [definition, .finish, .consume (.event (.synthFun grammar))]

theorem grammar_selfContained : ∃ p d, (fresh.session before).1 = collecting d ∧ d.Sound ∧
    p.SelfContained d ∧ p.Keyed ∧
    (fresh.session (before ++ [.finish, .consume (.other "3" "int"), .finish])).2 =
      (fresh.session before).2 ++ [.ok (some p), .error .finished, .error .finished] := by
  obtain ⟨p, hp⟩ : ∃ p, ((fresh.session before).1.call .finish).2 = .ok (some p) := ⟨_, rfl⟩
  obtain ⟨⟨d, f, hd, hsound, hf, hclosed, hkeyed⟩, hrest⟩ :=
    (session_integrity _).2 before [.consume (.other "3" "int"), .finish] p rfl hp
  have hgrammar : f = grammar := by
    cases hd
    cases hf
    rfl
  have hdistinct : grammar.Keyed := ⟨by decide, by decide⟩
  exact ⟨p, d, hd, hsound, hclosed, hkeyed (hgrammar ▸ hdistinct), hrest⟩

end Halfway

end Realizability
