import Realizability.Proofs.Relevance.Meaning
import Realizability.Proofs.Shape.Encoding

/-!
# Restriction to relevant functions

Functions that the target does not call, directly or through others, can be left out of a problem:
the clauses of the other functions stay the same but for the stamps of their witnesses, and so does
the verdict (`Problem.encode_restricted`).
-/

namespace Realizability

open Realizability.Expr

/-! ## Tables -/

namespace Table

variable {α : Type} {t : Table α} {key : String}

theorem get?_filter {value : α} {q : String × α → Bool} (h : t.get? key = some value)
    (hq : q (key, value) = true) : Table.get? key (t.filter q) = some value := by
  induction t with
  | nil => cases h
  | cons entry t ih =>
    obtain ⟨k, v⟩ := entry
    by_cases hk : k = key
    · simp_all [get?]
    · by_cases hkept : q (k, v) = true <;> simp_all [get?]

theorem get?_filter_keys {kept : String → Bool} (h : t.has key = true → kept key = true) :
    Table.get? key (t.filter fun entry => kept entry.1) = t.get? key := by
  induction t with
  | nil => rfl
  | cons entry t ih =>
    obtain ⟨k, v⟩ := entry
    by_cases hk : k = key
    · simp_all [get?, has]
    · by_cases hkept : kept k = true <;> simp_all [get?, has]

end Table

theorem find?_filter_of_find? {α : Type} {xs : List α} {p q : α → Bool} {x : α}
    (h : xs.find? p = some x) (hq : q x = true) : (xs.filter q).find? p = some x := by
  induction xs with
  | nil => cases h
  | cons y xs ih =>
    by_cases hp : p y = true
    · simp_all
    · by_cases hy : q y = true <;> simp_all

theorem forall₂_filter {α β : Type} {R : α → β → Prop} {p : α → Bool} {q : β → Bool} {as : List α}
    {bs : List β} (h : List.Forall₂ R as bs) (hpq : ∀ a b, R a b → p a = q b) :
    List.Forall₂ R (as.filter p) (bs.filter q) := by
  induction h with
  | nil => exact .nil
  | @cons a b as bs hr _ ih =>
    have hab := hpq a b hr
    by_cases hp : p a = true
    · rw [List.filter_cons_of_pos hp, List.filter_cons_of_pos (hab ▸ hp)]
      exact .cons hr ih
    · rw [List.filter_cons_of_neg hp, List.filter_cons_of_neg (hab ▸ hp)]
      exact ih

/-! ## Clauses -/

/-- The renaming leaves what the clauses of a function share as it is. -/
structure Frame.Fixed (σ : Renaming) (frame : Frame) : Prop where
  fresh : frame.fresh.map σ.const = frame.fresh
  scope : Scopes.Renamed σ [frame.scope] [frame.scope]
  head : frame.head.rename σ = frame.head

theorem raise_freshVector {d n : Nat} {x : String} {s : SmtSort} {c : Const}
    (hc : c ∈ freshVector x s n) : (Renaming.raise d).const c = c := by
  obtain ⟨i, -, rfl⟩ := List.mem_map.mp hc
  rfl

theorem Function.frame_fixed {f : Function} {table : ExampleTable} {frame : Frame} {d : Nat}
    (hl : ∀ column ∈ table.inputs, OverEach ⟨0, []⟩ [] column) (h : f.frame table = .ok frame) :
    frame.Fixed (.raise d) := by
  obtain ⟨r, x, s, hr, -, -, -, hfresh, hscope, hhead⟩ := Function.frame_eq_ok h
  have hconst : ∀ c ∈ r.1, (Renaming.raise d).const c = c := by
    intro c hc
    obtain ⟨y, -, t, ht⟩ := bindArgs_fresh hr hc
    exact raise_freshVector ht
  refine ⟨?_, fun y => ?_, ?_⟩
  · rw [hfresh, List.map_congr_left hconst, List.map_id']
  · have hnil : Scopes.Over ⟨0, []⟩ [] [] := Scopes.over_nil
    have hover := hnil.bind (bindArgs_over hl hr)
    rw [hscope]
    cases hy : Scopes.find? [Table.ofEntries r.2] y with
    | none => rfl
    | some es =>
      have hes : ∀ e ∈ es, e.rename (.raise d) = e := fun e he => (hover y es hy e he).rename_eq hconst
      rw [Option.map_some, List.map_congr_left hes, List.map_id']
  · have hargs : ((freshVector x.name s table.size).map const).map (rename (.raise d)) =
        (freshVector x.name s table.size).map const := by
      rw [List.map_map]
      refine List.map_congr_left fun c hc => ?_
      simp [raise_freshVector hc]
    rw [hhead, rename_call, hargs]

namespace Signature

variable {g g' : Signature} {f : Function} {fs : List Function} {frame : Frame} {d next : Nat}
  {table : ExampleTable} {kept : String → Bool}

theorem clause_raised (hf : frame.Fixed (.raise d)) {t : Term} (hg : g.AgreeOn g' t.called) :
    g.clause frame (next + d) t =
      (g'.clause frame next t).map fun r => (r.1.rename (.raise d), r.2 + d) := by
  unfold clause
  rw [vectorize_raised t hf.scope hg, bind_map, map_bind]
  refine congrArg _ (funext fun p => ?_)
  have himplies : mkImplies (p.formula.rename (.raise d)) frame.head =
      (mkImplies p.formula frame.head).map (rename (.raise d)) := by
    have := mkImplies_natural (σ := .raise d) p.formula frame.head
    rwa [hf.head] at this
  have hclose : ∀ e, close (frame.fresh ++ p.witnesses.map (Renaming.raise d).const)
      (e.rename (.raise d)) = (close (frame.fresh ++ p.witnesses) e).map (rename (.raise d)) := by
    intro e
    rw [← close_rename, List.map_append, hf.fresh]
  dsimp only [Premise.raise, formed]
  rw [himplies, ← map_mapError, bind_map, map_bind]
  refine congrArg _ (funext fun e => ?_)
  rw [hclose, ← map_mapError, bind_map, map_bind]
  rfl

theorem clauses_raised (hf : frame.Fixed (.raise d)) {cs : List (MatchCase Term)}
    (hg : ∀ c ∈ cs, g.AgreeOn g' c.result.called) {r : List Expr × Nat}
    (h : (g.clauses f frame (next + d) cs).outcome = .ok r) :
    ∃ r', (g'.clauses f frame next cs).outcome = .ok r' ∧
      r = (r'.1.map (rename (.raise d)), r'.2 + d) := by
  induction cs generalizing next r with
  | nil =>
    cases h
    exact ⟨([], next), rfl, rfl⟩
  | cons c cs ih =>
    obtain ⟨hc, hcs⟩ := List.forall_mem_cons.mp hg
    obtain ⟨first, rest, hfirst, hrest, rfl⟩ := clauses_cons_eq_ok.mp h
    rw [clause_raised hf hc] at hfirst
    obtain ⟨first', hfirst', rfl⟩ := map_eq_ok.mp hfirst
    obtain ⟨rest', hrest', rfl⟩ := ih hcs hrest
    exact ⟨_, clauses_cons_eq_ok.mpr ⟨first', rest', hfirst', hrest', rfl⟩, rfl⟩

theorem le_of_clauses {cs : List (MatchCase Term)} {r : List Expr × Nat}
    (h : (g.clauses f frame next cs).outcome = .ok r) : next ≤ r.2 := by
  induction cs generalizing next r with
  | nil =>
    cases h
    exact le_rfl
  | cons c cs ih =>
    obtain ⟨first, rest, hfirst, hrest, rfl⟩ := clauses_cons_eq_ok.mp h
    obtain ⟨p, hp, hfirst⟩ := bind_eq_ok.mp hfirst
    obtain ⟨implication, himp, hfirst⟩ := bind_eq_ok.mp hfirst
    obtain ⟨closed, hclosed, hfirst⟩ := bind_eq_ok.mp hfirst
    cases hfirst
    obtain ⟨k, hk, -⟩ := vectorize_stamped c.result hp
    have hle : p.next ≤ rest.2 := ih hrest
    exact le_trans (by omega) hle

/-- Clauses for a function that differ in the stamps of their witnesses alone. -/
def SameButStamps (entry entry' : String × List Expr) : Prop :=
  entry.1 = entry'.1 ∧ ∃ d, entry.2 = entry'.2.map (rename (.raise d))

theorem encodeFunctions_filter (next d : Nat)
    (hl : ∀ column ∈ table.inputs, OverEach ⟨0, []⟩ [] column)
    (hg : ∀ f ∈ fs, kept f.name = true → ∀ c ∈ f.matchCases, g.AgreeOn g' c.result.called)
    {clauses : Table (List Expr)}
    (h : (g.encodeFunctions table (next + d) fs).outcome = .ok clauses) :
    ∃ clauses', (g'.encodeFunctions table next (fs.filter fun f => kept f.name)).outcome =
        .ok clauses' ∧
      List.Forall₂ SameButStamps (clauses.filter fun entry => kept entry.1) clauses' := by
  induction fs generalizing next d clauses with
  | nil =>
    cases h
    exact ⟨[], rfl, .nil⟩
  | cons f fs ih =>
    obtain ⟨hcalled, hfs⟩ := List.forall_mem_cons.mp hg
    obtain ⟨cases, frame, r, rest, hcases, hframe, hr, hrest, rfl⟩ :=
      encodeFunctions_cons_eq_ok.mp h
    obtain ⟨-, hmatch⟩ := Function.cases_eq_ok hcases
    by_cases hkept : kept f.name = true
    · have hcs := hmatch ▸ hcalled hkept
      obtain ⟨r', hr', rfl⟩ := clauses_raised (Function.frame_fixed hl hframe) hcs hr
      obtain ⟨rest', hrest', hsame⟩ := ih r'.2 d hfs hrest
      refine ⟨(f.name, r'.1) :: rest', ?_, ?_⟩
      · rw [List.filter_cons_of_pos (by simpa using hkept)]
        exact encodeFunctions_cons_eq_ok.mpr
          ⟨cases, frame, r', rest', hcases, hframe, hr', hrest', rfl⟩
      · rw [List.filter_cons_of_pos (by simpa using hkept)]
        exact .cons ⟨rfl, d, rfl⟩ hsame
    · -- the stamps that this function takes are missing from here on
      have hle := le_of_clauses hr
      obtain ⟨k, hk⟩ := Nat.exists_eq_add_of_le hle
      rw [hk, Nat.add_assoc] at hrest
      obtain ⟨rest', hrest', hsame⟩ := ih next (d + k) hfs hrest
      refine ⟨rest', ?_, ?_⟩
      · rwa [List.filter_cons_of_neg (by simpa using hkept)]
      · rwa [List.filter_cons_of_neg (by simpa using hkept)]

end Signature

/-! ## Problems -/

/-- A match case applies the other function in an evaluated position. -/
def Function.Calls (f f' : Function) : Prop := ∃ c ∈ f.matchCases, f'.name ∈ c.result.called

def Encoding.keptSignature (e : Encoding) (kept : String → Bool) : Signature :=
  ⟨e.examples.size, e.indicators.filter fun i => kept i.1⟩

namespace Problem

def restrict (p : Problem) (kept : String → Bool) : Problem :=
  { p with functions := p.functions.filter fun entry => kept entry.2.name }

def ClosedUnderCalls (p : Problem) (kept : String → Bool) : Prop :=
  ∀ f ∈ p.functions.values, ∀ f' ∈ p.functions.values, f.Calls f' →
    kept f.name = true → kept f'.name = true

variable {p : Problem} {kept : String → Bool} {examples : Option (List Term)} {e : Encoding}
  {target : Function}

theorem restrict_functions :
    (p.restrict kept).functions.values = p.functions.values.filter fun f => kept f.name := by
  simp [restrict, Table.values, List.filter_map, Function.comp_def]

theorem targetFunction_restrict {table : ExampleTable} (h : p.targetFunction table = .ok target)
    (hkept : kept target.name = true) : (p.restrict kept).targetFunction table = .ok target := by
  unfold targetFunction at h ⊢
  cases ho : table.operator with
  | some name =>
    rw [ho] at h
    cases hf : p.function? name with
    | none => simp [hf] at h
    | some f =>
      obtain rfl : f = target := by simpa [hf] using h
      have hfilter : (p.restrict kept).function? name = some f := Table.get?_filter hf hkept
      simp [hfilter]
  | none =>
    rw [ho] at h
    have htype : (p.restrict kept).target = p.target := rfl
    dsimp only at h ⊢
    rw [restrict_functions, htype]
    split at h
    · rename_i f hf
      cases h
      rw [find?_filter_of_find? (q := fun f => kept f.name) hf hkept]
    · cases h

theorem Encodes.restrict_indicators (h : p.Encodes examples target e) :
    (declareIndicators (p.restrict kept).functions.values).outcome =
      .ok (e.indicators.filter fun i => kept i.1) := by
  rw [declareIndicators_eq_ok, restrict_functions]
  refine forall₂_filter (declareIndicators_eq_ok.mp h.indicators) fun f i hi => ?_
  rw [hi.1]

theorem Encodes.kept_of_called (h : p.Encodes examples target e)
    (hclosed : p.ClosedUnderCalls kept) {f : Function} (hf : f ∈ p.functions.values)
    (hkept : kept f.name = true) {c : MatchCase Term} (hc : c ∈ f.matchCases) {name : String}
    (hname : name ∈ c.result.called) (hhas : e.indicators.has name = true) : kept name = true := by
  obtain ⟨i, hi, rfl⟩ := List.mem_map.mp ((Table.has_iff_mem_keys _ _).mp hhas)
  obtain ⟨f', hf', heq, -⟩ := exists_of_forall₂ (declareIndicators_eq_ok.mp h.indicators) hi
  rw [heq] at hname ⊢
  exact hclosed f hf f' hf' ⟨c, hc, hname⟩ hkept

theorem Encodes.alikeOn (h : p.Encodes examples target e) (hclosed : p.ClosedUnderCalls kept)
    {R R' : Relations} (hR : ∀ name, kept name = true → R name = R' name) {f : Function}
    (hf : f ∈ p.functions.values) (hkept : kept f.name = true) {c : MatchCase Term}
    (hc : c ∈ f.matchCases) : Signature.AlikeOn ⟨e.examples.size, e.indicators⟩
      (e.keptSignature kept) R R' c.result.called where
  count := rfl
  indicator _ hname :=
    (Table.get?_filter_keys fun hhas => h.kept_of_called hclosed hf hkept hc hname hhas).symm
  relation name hname hhas := hR name (h.kept_of_called hclosed hf hkept hc hname hhas)

theorem Encodes.restrict (h : p.Encodes examples target e) (hclosed : p.ClosedUnderCalls kept)
    (hkept : kept target.name = true) : ∃ clauses,
      (p.restrict kept).Encodes examples target
        ⟨e.indicators.filter fun i => kept i.1, clauses, e.query, e.examples, e.target⟩ ∧
      List.Forall₂ Signature.SameButStamps (e.clauses.filter fun entry => kept entry.1) clauses := by
  have hl := h.inputs ⟨0, []⟩
  have hagree : ∀ f ∈ p.functions.values, kept f.name = true → ∀ c ∈ f.matchCases,
      Signature.AgreeOn ⟨e.examples.size, e.indicators⟩ (e.keptSignature kept) c.result.called := by
    intro f hf hkept c hc
    exact (h.alikeOn (R := fun _ _ => True) hclosed (fun _ _ => rfl) hf hkept hc).toAgreeOn
  obtain ⟨clauses, hclauses, hsame⟩ := Signature.encodeFunctions_filter 0 0 hl hagree h.clauses
  rw [← restrict_functions] at hclauses
  exact ⟨clauses, ⟨h.table, h.restrict_indicators, targetFunction_restrict h.chosen hkept, hclauses,
    h.query, h.name⟩, hsame⟩

/-! ## Verdicts -/

theorem mem_restrict {f : Function} :
    f ∈ (p.restrict kept).functions.values ↔ f ∈ p.functions.values ∧ kept f.name = true := by
  rw [restrict_functions, List.mem_filter]

/-- Whether relations are closed without the other functions can be seen from any relations that
are the same for the functions that are kept. -/
theorem Encodes.closed_restrict (h : p.Encodes examples target e)
    (hclosed : p.ClosedUnderCalls kept) {R R' : Relations}
    (hR : ∀ name, kept name = true → R name = R' name) {zero : ZeroDivision} :
    (p.restrict kept).Closed e.examples zero R' ↔
      ∀ f ∈ p.functions.values, kept f.name = true → ∀ c ∈ f.matchCases, ∀ v,
        (p.signature e.examples.size).CaseGives ⟨zero, R⟩ (Signature.callsIn R) e.examples f c v →
          R f.name v := by
  have hgives : ∀ f ∈ p.functions.values, kept f.name = true → ∀ c ∈ f.matchCases, ∀ v,
      (p.signature e.examples.size).CaseGives ⟨zero, R⟩ (Signature.callsIn R) e.examples f c v ↔
        ((p.restrict kept).signature e.examples.size).CaseGives ⟨zero, R'⟩ (Signature.callsIn R')
          e.examples f c v := by
    intro f hf hkept c hc v
    have halike := h.alikeOn hclosed hR hf hkept hc
    unfold signature Signature.CaseGives
    rw [resultSorts_of_declared h.indicators, resultSorts_of_declared h.restrict_indicators]
    simp only [Signature.holds_congr c.result halike]
    rfl
  unfold Closed
  constructor
  · intro hall f hf hkept c hc v hv
    rw [hR f.name hkept]
    exact hall f (mem_restrict.mpr ⟨hf, hkept⟩) c hc v ((hgives f hf hkept c hc v).mp hv)
  · intro hall f hf c hc v hv
    obtain ⟨hf, hkept⟩ := mem_restrict.mp hf
    rw [← hR f.name hkept]
    exact hall f hf hkept c hc v ((hgives f hf hkept c hc v).mpr hv)

variable {e' : Encoding} {zero : ZeroDivision}

theorem Encodes.satisfiable_restrict (h : p.Encodes examples target e)
    (h' : (p.restrict kept).Encodes examples target e') (hexamples : e'.examples = e.examples)
    (hclosed : p.ClosedUnderCalls kept) (hkept : kept target.name = true) :
    Satisfiable zero e'.formulas ↔ Satisfiable zero e.formulas := by
  obtain ⟨s, hs, -⟩ := bind_eq_ok.mp h.query
  constructor
  · rintro ⟨R', ν, hall⟩
    obtain ⟨hR', hquery⟩ := (formulas_hold h' hs).mp hall
    rw [hexamples] at hR' hquery
    -- the relations of the other functions may hold of everything
    let R : Relations := fun name v => kept name = true → R' name v
    have hR : ∀ name, kept name = true → R name = R' name := by
      intro name hname
      funext v
      simp [R, hname]
    refine ⟨R, ν, (formulas_hold h hs).mpr ⟨?_, ?_⟩⟩
    · intro f hf c hc v hv hname
      rw [← hR f.name hname]
      exact (h.closed_restrict hclosed hR).mp hR' f hf hname c hc v hv
    · intro v hv hr
      exact hquery v hv (hr hkept)
  · rintro ⟨R, ν, hall⟩
    obtain ⟨hR, hquery⟩ := (formulas_hold h hs).mp hall
    refine ⟨R, ν, (formulas_hold h' hs).mpr ?_⟩
    rw [hexamples]
    refine ⟨(h.closed_restrict hclosed fun _ _ => rfl).mpr ?_, hquery⟩
    intro f hf _ c hc v hv
    exact hR f hf c hc v hv

/-- Functions that the target does not call can be left out. -/
theorem encode_restricted (h : (p.encode examples).outcome = .ok e)
    (hclosed : p.ClosedUnderCalls kept) (hkept : kept e.target = true) :
    ∃ e', ((p.restrict kept).encode examples).outcome = .ok e' ∧ e'.target = e.target ∧
      e'.query = e.query ∧
      List.Forall₂ Signature.SameButStamps (e.clauses.filter fun entry => kept entry.1)
        e'.clauses ∧
      ∀ zero, Satisfiable zero e'.formulas ↔ Satisfiable zero e.formulas := by
  obtain ⟨target, he⟩ := encode_eq_ok.mp h
  have htarget : kept target.name = true := he.name ▸ hkept
  obtain ⟨clauses, he', hsame⟩ := he.restrict hclosed htarget
  exact ⟨_, encode_eq_ok.mpr ⟨target, he'⟩, rfl, rfl, hsame, fun zero =>
    he.satisfiable_restrict he' rfl hclosed htarget⟩

end Problem

/-! ## Sums without comparisons -/

namespace Sums

def comparison : Term :=
  .quantified .existential [⟨"r1", integer⟩, ⟨"r2", integer⟩] <| .app ⟨"and", []⟩ truth [
    (truth, valued (.var "t1" expression) (.var "x" integer) (.var "r1" integer)),
    (truth, valued (.var "t2" expression) (.var "x" integer) (.var "r2" integer)),
    (truth, .app ⟨"=", []⟩ truth [(truth, .var "b" truth), (truth, .app ⟨"<", []⟩ truth [
      (integer, .var "r1" integer), (integer, .var "r2" integer)])])]

def guards : Function where
  name := "B.Sem"
  args := [⟨"t", ⟨"B", []⟩⟩, ⟨"x", integer⟩, ⟨"b", truth⟩]
  body := .matching (.var "t" ⟨"B", []⟩) [⟨some "$<", ["t1", "t2"], comparison⟩]

/-- The function for guards calls that for expressions, but not the other way round. -/
def guarded : Problem :=
  { problem grammar with functions := [("B.Sem", guards), ("E.Sem", semantics)] }

theorem guarded_closedUnderCalls : guarded.ClosedUnderCalls (· == "E.Sem") := by
  intro f hf f' hf' hcalls hkept
  have hfunctions : guarded.functions.values = [guards, semantics] := rfl
  simp only [hfunctions, List.mem_cons, List.not_mem_nil, or_false] at hf hf'
  rcases hf' with rfl | rfl
  · obtain rfl : f = semantics := by
      rcases hf with rfl | rfl
      · cases hkept
      · rfl
    obtain ⟨c, hc, hname⟩ := hcalls
    rcases mem_matchCases.mp hc with rfl | rfl | rfl <;> revert hname <;> decide
  · rfl

theorem guarded_restricted : ∃ e, (guarded.encode (some [row 1 2, row 2 3])).outcome = .ok e ∧
    guarded.ClosedUnderCalls (· == "E.Sem") ∧ (e.target == "E.Sem") = true ∧
    ∃ e', ((guarded.restrict (· == "E.Sem")).encode (some [row 1 2, row 2 3])).outcome = .ok e' ∧
      e'.target = e.target ∧ e'.query = e.query ∧
      List.Forall₂ Signature.SameButStamps (e.clauses.filter fun entry => entry.1 == "E.Sem")
        e'.clauses ∧
      ∀ zero, Satisfiable zero e'.formulas ↔ Satisfiable zero e.formulas := by
  obtain ⟨e, h, htarget⟩ : ∃ e, (guarded.encode (some [row 1 2, row 2 3])).outcome = .ok e ∧
      (e.target == "E.Sem") = true := ⟨_, rfl, rfl⟩
  exact ⟨e, h, guarded_closedUnderCalls, htarget,
    Problem.encode_restricted h guarded_closedUnderCalls htarget⟩

end Sums

end Realizability
