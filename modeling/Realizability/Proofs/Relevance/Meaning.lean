import Realizability.Proofs.Encoding.Correctness
import Realizability.Proofs.Relevance.Called

/-!
# Meanings and called functions

What a term means depends on the relations of the functions that it calls, and on no others
(`Signature.holds_congr`).
-/

namespace Realizability

namespace Signature

variable {g g' : Signature} {zero : ZeroDivision} {R R' : Relations} {names names' : List String}
  {ρ : Environment} {args : List (Identifier × Term)}

/-- The functions among the names have the same indicators and relations. -/
structure AlikeOn (g g' : Signature) (R R' : Relations) (names : List String) : Prop extends
    AgreeOn g g' names where
  relation : ∀ name ∈ names, g.indicators.has name = true → R name = R' name

theorem AlikeOn.mono (h : g.AlikeOn g' R R' names) (hs : names' ⊆ names) :
    g.AlikeOn g' R R' names' :=
  ⟨h.toAgreeOn.mono hs, fun name hname => h.relation name (hs hname)⟩

theorem AlikeOn.coerced (h : g.AlikeOn g' R R' names) {name : String} (hname : name ∈ names)
    (vs : List Value) : g.coerced name vs = g'.coerced name vs := by
  unfold Signature.coerced
  rw [h.indicator name hname]

mutual

theorem valueOf_congr : ∀ (t : Term) {hint : Option SmtSort} {i : Nat},
    g.AlikeOn g' R R' t.called →
    g.valueOf ⟨zero, R⟩ ρ hint t i = g'.valueOf ⟨zero, R'⟩ ρ hint t i
  | .app ident _ args, hint, i, hg => by
    rw [valueOf, valueOf]
    cases hs : Symbol.ofIdentifier? ident with
    | some s =>
      rw [called_symbol hs] at hg
      dsimp only
      rw [valuesOf_congr args hg]
    | none =>
      dsimp only
      by_cases hc : g.calls ident = true
      · have hi : ident.indices.isEmpty = true := by simp_all [calls]
        have hhas : g.indicators.has ident.name = true := by simp_all [calls]
        have hc' := hg.calls (mem_called hs) ▸ hc
        rw [called_plain hs hi] at hg
        have hname := List.mem_cons_self (a := ident.name) (l := calledLast args)
        rw [if_pos hc, if_pos hc', finalVector_congr args (hg.mono (List.subset_cons_self ..)),
          hg.relation _ hname hhas]
        simp only [hg.coerced hname]
      · have hc' := hg.calls (mem_called hs) ▸ hc
        rw [if_neg hc, if_neg hc']
  | .var .., _, _, _ | .number _, _, _, _ | .decimal _, _, _, _ | .string _, _, _, _
  | .bits .., _, _, _ | .quantified .., _, _, _ | .matching .., _, _, _ | .lambda .., _, _, _ => rfl

theorem valuesOf_congr : ∀ (args : List (Identifier × Term)) {i : Nat},
    g.AlikeOn g' R R' (calledIn args) →
    g.valuesOf ⟨zero, R⟩ ρ args i = g'.valuesOf ⟨zero, R'⟩ ρ args i
  | [], _, _ => rfl
  | (_, t) :: args, i, hg => by
    rw [calledIn] at hg
    rw [valuesOf, valuesOf, valueOf_congr t (hg.mono (List.subset_append_left ..)),
      valuesOf_congr args (hg.mono (List.subset_append_right ..))]

theorem finalVector_congr : ∀ (args : List (Identifier × Term)),
    g.AlikeOn g' R R' (calledLast args) →
    g.finalVector ⟨zero, R⟩ ρ args = g'.finalVector ⟨zero, R'⟩ ρ args
  | [], _ => rfl
  | [(sort, t)], hg => by
    rw [finalVector, finalVector, hg.count]
    simp only [valueOf_congr t hg]
  | _ :: b :: args, hg => finalVector_congr (b :: args) hg

end

theorem pointwise_congr {t : Term} (hg : g.AlikeOn g' R R' t.called) :
    g.HoldsPointwise ⟨zero, R⟩ ρ t ↔ g'.HoldsPointwise ⟨zero, R'⟩ ρ t := by
  unfold HoldsPointwise
  rw [hg.count]
  simp only [valueOf_congr t hg]

mutual

theorem holds_congr : ∀ (t : Term) {ρ : Environment}, g.AlikeOn g' R R' t.called →
    (g.Holds ⟨zero, R⟩ (callsIn R) ρ t ↔ g'.Holds ⟨zero, R'⟩ (callsIn R') ρ t)
  | .quantified .existential xs t, ρ, hg => by
    rw [Term.called] at hg
    rw [Holds, Holds, hg.count]
    exact exists_congr fun bs => and_congr_right fun _ => holds_congr t hg
  | .quantified .universal .., ρ, hg => pointwise_congr hg
  | .app ident sort args, ρ, hg => by
    have happlies := hg.applies
    rw [Holds, Holds]
    by_cases hand : ident = ⟨"and", []⟩ ∧ args.isEmpty = false
    · rw [if_pos hand, if_pos hand]
      have hs : Symbol.ofIdentifier? ident = some (.plain .and) := by
        rw [hand.1]
        decide
      rw [called_symbol hs] at hg
      exact holdAll_congr args hg
    · rw [if_neg hand, if_neg hand]
      by_cases hc : g.calls ident = true ∧ (Operator.ofName? ident.name).isNone = true
      · rw [if_pos hc, if_pos (happlies.mp hc)]
        have hi : ident.indices.isEmpty = true := by simp_all [calls]
        have hhas : g.indicators.has ident.name = true := by simp_all [calls]
        rw [called_plain (ofIdentifier?_of_isNone hi hc.2) hi] at hg
        have hname := List.mem_cons_self (a := ident.name) (l := calledLast args)
        unfold HoldsCall callsIn
        rw [finalVector_congr args (hg.mono (List.subset_cons_self ..)), hg.relation _ hname hhas]
        simp only [hg.coerced hname]
      · rw [if_neg hc, if_neg (mt happlies.mpr hc)]
        exact pointwise_congr hg
  | .var .., _, hg | .number _, _, hg | .decimal _, _, hg | .string _, _, hg | .bits .., _, hg
  | .matching .., _, hg | .lambda .., _, hg => pointwise_congr hg

theorem holdAll_congr : ∀ (args : List (Identifier × Term)) {ρ : Environment},
    g.AlikeOn g' R R' (calledIn args) →
    (g.HoldAll ⟨zero, R⟩ (callsIn R) ρ args ↔ g'.HoldAll ⟨zero, R'⟩ (callsIn R') ρ args)
  | [], _, _ => Iff.rfl
  | (_, t) :: args, ρ, hg => by
    rw [calledIn] at hg
    rw [HoldAll, HoldAll, holds_congr t (hg.mono (List.subset_append_left ..)),
      holdAll_congr args (hg.mono (List.subset_append_right ..))]

end

end Signature

end Realizability
