import Realizability.Encoding.Examples
import Realizability.Proofs.Meaning.Applied
import Realizability.Proofs.Meaning.Relation

/-!
# Evaluated terms

If the vectors in scope stand for the vectors that names have, the expression that a term evaluates
to stands for the value of the term, and the literals of an example table stand for themselves.
-/

namespace Realizability

/-! ## Literals -/

theorem ofNat_emod_toNat (w : Nat) (n : Int) :
    BitVec.ofNat w (n % (2 ^ w : Nat)).toNat = BitVec.ofInt w n := by
  apply BitVec.eq_of_toNat_eq
  have hpos : (0 : Int) < (2 ^ w : Nat) := by exact_mod_cast Nat.two_pow_pos w
  have hlt : (n % (2 ^ w : Nat)).toNat < 2 ^ w := by
    have := Int.emod_lt_of_pos n hpos
    have := Int.emod_nonneg n (ne_of_gt hpos)
    omega
  rw [BitVec.toNat_ofNat, BitVec.toNat_ofInt, Nat.mod_eq_of_lt hlt]

section
variable {M : Model} {ν : Valuation}

theorem numberAt_means (hint : Option SmtSort) (n : Int) :
    (numberAt hint n).Means M ν (numberValue hint n) := by
  cases hint with
  | none => exact ⟨rfl, rfl⟩
  | some s =>
    cases s with
    | bitVec w => exact ⟨congrArg (Value.bits w) (ofNat_emod_toNat w n), rfl⟩
    | real => exact ⟨by simp [numberAt, numberValue, Expr.value], rfl⟩
    | _ => exact ⟨rfl, rfl⟩

theorem bits_means (w n : Nat) :
    (Expr.bits w (n % 2 ^ w)).Means M ν (.bits w (BitVec.ofNat w n)) := by
  refine ⟨?_, rfl⟩
  rw [Expr.value]
  congr 1
  apply BitVec.eq_of_toNat_eq
  simp

theorem decimalValue_eq_ok {x : Binary64} {e : Expr} (h : decimalValue x = .ok e) :
    ∃ q, x.decimalValue? = some q ∧ e = .real q := by
  unfold decimalValue at h
  split at h
  · rename_i q hq
    cases h
    exact ⟨q, hq, rfl⟩
  · cases h

theorem literal?_means {sort : Option SmtSort} {t : Term} {e : Expr}
    (h : literal? sort t = .ok (some e)) : e.Means M ν e.literal := by
  have hnumber : ∀ n, (numberAt sort n).Means M ν (numberAt sort n).literal := by
    intro n
    unfold numberAt
    split <;> exact ⟨rfl, rfl⟩
  have hdecimal : ∀ {x : Binary64}, some <$> decimalValue x = .ok (some e) →
      e.Means M ν e.literal := by
    intro x hx
    obtain ⟨e', he', h⟩ := map_eq_ok.mp hx
    obtain ⟨q, -, rfl⟩ := decimalValue_eq_ok he'
    cases h
    exact ⟨rfl, rfl⟩
  unfold literal? at h
  split at h
  · cases h; exact hnumber _
  · exact hdecimal h
  · cases h; exact ⟨rfl, rfl⟩
  · cases h; exact ⟨rfl, rfl⟩
  · split at h
    · cases h; exact Expr.means_truth true
    · split at h
      · cases h; exact Expr.means_truth false
      · cases h
  · split at h
    · split at h
      · cases h; exact hnumber _
      · exact hdecimal h
      · cases h
    · cases h
  · cases h

end

/-! ## Terms -/

/-- The vectors in scope stand for the vectors that names have. -/
def Scopes.Stand (M : Model) (ν : Valuation) (scopes : Scopes) (ρ : Environment) : Prop :=
  ∀ x, Option.Rel (MeanEach M ν) (scopes.find? x) (ρ x)

namespace Signature

variable {g : Signature} {M : Model} {ν : Valuation} {scopes : Scopes} {ρ : Environment}

theorem applySymbol_eq_ok {ident : Identifier} {s : Symbol} {es : List Expr} {e : Expr} :
    applySymbol ident s es = .ok e ↔ s.apply es = .ok e := by
  unfold applySymbol
  split <;> simp_all

theorem applyIndicator_means {name : String} {es : List Expr} {vs : List Value} {e : Expr}
    (h : MeanEach M ν es vs) (he : g.applyIndicator name es = .ok e) :
    ∃ ws, g.coerced name vs = some ws ∧ e.Means M ν (.ofProp (M.relations name ws)) := by
  obtain ⟨es', hes, he⟩ := bind_eq_ok.mp (mapError_eq_ok.mp he)
  cases he
  obtain ⟨ws, hws, hm⟩ := Expr.mapM_coerce_means h hes
  exact ⟨ws, hws, Expr.means_call hm⟩

theorem lookup_means (h : scopes.Stand M ν ρ) {x : String} {i : Nat} {e : Expr}
    (he : lookup scopes x i = .ok e) : ∃ v, (ρ x >>= (·[i]?)) = some v ∧ e.Means M ν v := by
  unfold lookup at he
  have hx := h x
  split at he
  · cases he
  · rename_i es hes
    rw [hes] at hx
    cases hρ : ρ x with
    | none => rw [hρ] at hx; cases hx
    | some vs =>
      rw [hρ] at hx
      cases hx with
      | some hm =>
        split at he
        · rename_i e' he'
          cases he
          obtain ⟨v, hv, hm⟩ := get_of_forall₂ hm he'
          exact ⟨v, hv, hm⟩
        · cases he

theorem expectLiteral_eq_ok {hint : Option SmtSort} {t : Term} {e : Expr} :
    expectLiteral hint t = .ok e ↔ literal? hint t = .ok (some e) := by
  unfold expectLiteral
  rw [bind_eq_ok]
  constructor
  · rintro ⟨o, ho, h⟩
    cases o with
    | none => cases h
    | some a => cases h; exact mapError_eq_ok.mp ho
  · intro h
    exact ⟨some e, mapError_eq_ok.mpr h, rfl⟩

mutual

/-- The expression that a term evaluates to stands for the value of the term. -/
theorem evaluate_means (h : scopes.Stand M ν ρ) :
    ∀ (t : Term) {hint : Option SmtSort} {i : Nat} {e : Expr},
    g.evaluate scopes hint t i = .ok e → ∃ v, g.valueOf M ρ hint t i = some v ∧ e.Means M ν v
  | .app ident _ args, hint, i, e, he => by
    rw [evaluate] at he
    rw [valueOf]
    cases hs : Symbol.ofIdentifier? ident with
    | some s =>
      rw [hs] at he
      obtain ⟨es, hes, he⟩ := bind_eq_ok.mp he
      obtain ⟨vs, hvs, hm⟩ := evaluateArgs_means h args hes
      obtain ⟨u, hu, hm⟩ := s.apply_means hm (applySymbol_eq_ok.mp he)
      exact ⟨u, by rw [hvs]; exact hu, hm⟩
    | none =>
      rw [hs] at he
      dsimp only at he ⊢
      split at he
      · rename_i hc
        obtain ⟨es, hes, he⟩ := bind_eq_ok.mp he
        obtain ⟨vs, hvs, hm⟩ := callVector_means h args hes
        obtain ⟨ws, hws, hm⟩ := applyIndicator_means hm he
        refine ⟨_, ?_, hm⟩
        rw [if_pos hc, hvs]
        simp [hws]
      · cases he
  | .var x _, hint, i, e, he => lookup_means h he
  | .number n, hint, i, e, he => by
    cases expectLiteral_eq_ok.mp he
    exact ⟨_, rfl, numberAt_means hint n⟩
  | .decimal x, hint, i, e, he => by
    obtain ⟨e', he', heq⟩ := map_eq_ok.mp (expectLiteral_eq_ok.mp he)
    obtain ⟨q, hq, rfl⟩ := decimalValue_eq_ok he'
    cases heq
    exact ⟨.real q, by rw [valueOf, hq]; rfl, rfl, rfl⟩
  | .string s, hint, i, e, he => by
    cases expectLiteral_eq_ok.mp he
    exact ⟨_, rfl, rfl, rfl⟩
  | .bits w n, hint, i, e, he => by
    cases expectLiteral_eq_ok.mp he
    exact ⟨_, rfl, bits_means w n⟩
  | .quantified .., _, _, _, he => by cases he
  | .matching .., _, _, _, he => by cases he
  | .lambda .., _, _, _, he => by cases he

theorem evaluateArgs_means (h : scopes.Stand M ν ρ) :
    ∀ (args : List (Identifier × Term)) {i : Nat} {es : List Expr},
    g.evaluateArgs scopes args i = .ok es →
      ∃ vs, g.valuesOf M ρ args i = some vs ∧ MeanEach M ν es vs
  | [], i, es, he => by
    cases he
    exact ⟨[], rfl, .nil⟩
  | (sort, t) :: args, i, es, he => by
    obtain ⟨a, ha, he⟩ := bind_eq_ok.mp he
    obtain ⟨as, has, he⟩ := bind_eq_ok.mp he
    cases he
    obtain ⟨v, hv, hm⟩ := evaluate_means h t ha
    obtain ⟨vs, hvs, hms⟩ := evaluateArgs_means h args has
    exact ⟨v :: vs, by rw [valuesOf, hv, hvs]; rfl, .cons hm hms⟩

theorem callVector_means (h : scopes.Stand M ν ρ) :
    ∀ (args : List (Identifier × Term)) {name : String} {es : List Expr},
    g.callVector scopes name args = .ok es →
      ∃ vs, g.finalVector M ρ args = some vs ∧ MeanEach M ν es vs
  | [], name, es, he => by cases he
  | [(sort, t)], name, es, he => by
    rw [callVector] at he
    rw [finalVector]
    exact mapM_some_of_ok (fun i e hi => evaluate_means h t hi) he
  | _ :: a :: args, name, es, he => callVector_means h (a :: args) he

end

theorem call_holds (h : scopes.Stand M ν ρ) {name : String} {args : List (Identifier × Term)}
    {e : Expr} (he : g.call scopes name args = .ok e) :
    e.Holds M ν ↔ g.HoldsCall M (callsIn M.relations) ρ name args := by
  obtain ⟨es, hes, he⟩ := bind_eq_ok.mp he
  obtain ⟨vs, hvs, hm⟩ := callVector_means h args hes
  obtain ⟨ws, hws, hm⟩ := applyIndicator_means hm he
  rw [hm.holds_iff, Value.ofProp_eq_yes]
  constructor
  · intro hr
    exact ⟨vs, ws, hvs, hws, hr⟩
  · rintro ⟨vs', ws', hvs', hws', hr⟩
    rw [hvs] at hvs'
    cases hvs'
    rw [hws] at hws'
    cases hws'
    exact hr

theorem pointwise_holds (h : scopes.Stand M ν ρ) {t : Term} {e : Expr}
    (he : g.pointwise scopes t = .ok e) :
    e.Holds M ν ↔ g.HoldsPointwise M ρ t := by
  obtain ⟨es, hes, he⟩ := bind_eq_ok.mp he
  rw [Expr.conjoin_holds (mapError_eq_ok.mp he)]
  have hvalue : ∀ i ∈ List.range g.count, ∀ a, g.evaluate scopes none t i = .ok a →
      (a.Holds M ν ↔ g.valueOf M ρ none t i = some .yes) := by
    intro i _ a hi
    obtain ⟨v, hv, hm⟩ := evaluate_means h t hi
    rw [hm.holds_iff, hv, Option.some_inj]
  rw [forall_mem_iff_of_mapM_ok hvalue hes]
  simp only [HoldsPointwise, List.mem_range]

end Signature

end Realizability
