import Realizability.Proofs.Format.FirstFault

/-!
# The first offence in a list

The names of a clause, and the nonterminals and productions of a grammar, are passed through once.
Every entry is judged by those in front of it, and the first one that offends is reported at its
position.
-/

namespace Realizability

/-- The entry at position `k` is bad behind those in front of it, and none of these is. -/
structure FirstOffence {α : Type} (bad : List α → α → Prop) (xs : List α) (k : Nat) (x : α) :
    Prop where
  entry : xs[k]? = some x
  offends : bad (xs.take k) x
  passed : ∀ j y, j < k → xs[j]? = some y → ¬ bad (xs.take j) y

section
variable {α : Type} {bad : List α → α → Prop} {x y : α} {xs : List α} {k : Nat}

theorem firstOffence_nil : ¬ FirstOffence bad [] k y := by
  intro h
  cases h.entry

theorem firstOffence_zero : FirstOffence bad (x :: xs) 0 y ↔ x = y ∧ bad [] x := by
  constructor
  · intro h
    cases h.entry
    exact ⟨rfl, h.offends⟩
  · rintro ⟨rfl, h⟩
    exact ⟨rfl, h, fun j _ hj => absurd hj (Nat.not_lt_zero j)⟩

theorem firstOffence_succ : FirstOffence bad (x :: xs) (k + 1) y ↔
    ¬ bad [] x ∧ FirstOffence (fun before => bad (x :: before)) xs k y := by
  constructor
  · intro h
    refine ⟨h.passed 0 x (Nat.succ_pos k) rfl, h.entry, h.offends, fun j z hj hz => ?_⟩
    exact h.passed (j + 1) z (Nat.succ_lt_succ hj) hz
  · rintro ⟨hx, h⟩
    refine ⟨h.entry, h.offends, fun j z hj hz => ?_⟩
    cases j with
    | zero =>
      cases hz
      exact hx
    | succ j => exact h.passed j z (Nat.lt_of_succ_lt_succ hj) hz

theorem firstOffence_map {β : Type} {f : β → α} {ys : List β} :
    FirstOffence bad (ys.map f) k x ↔
      ∃ y, f y = x ∧ FirstOffence (fun before y => bad (before.map f) (f y)) ys k y := by
  constructor
  · intro h
    have hentry := h.entry
    rw [List.getElem?_map, Option.map_eq_some_iff] at hentry
    obtain ⟨y, hy, rfl⟩ := hentry
    refine ⟨y, rfl, hy, ?_, fun j z hj hz => ?_⟩
    · rw [List.map_take]
      exact h.offends
    · rw [List.map_take]
      exact h.passed j (f z) hj (by rw [List.getElem?_map, hz, Option.map_some])
  · rintro ⟨y, rfl, h⟩
    refine ⟨by rw [List.getElem?_map, h.entry, Option.map_some], ?_, fun j z hj hz => ?_⟩
    · rw [← List.map_take]
      exact h.offends
    · rw [List.getElem?_map, Option.map_eq_some_iff] at hz
      obtain ⟨w, hw, rfl⟩ := hz
      rw [← List.map_take]
      exact h.passed j w hj hw

end

/-! ## Passing through lists -/

section
variable {α β κ : Type} {i : Nat} {e : FormatError}

/-- A pass that keeps the entries it has seen, the last one first. -/
theorem pass_eq_error (pass : List α → Nat → List α → Read Unit) (bad : List α → α → Prop)
    [∀ seen x, Decidable (bad seen x)] (fault : α → FormatFault)
    (hnil : ∀ seen i, pass seen i [] = .ok ())
    (hcons : ∀ seen i x xs, pass seen i (x :: xs) =
      if bad seen x then Read.fault (fault x) [.index i] else pass (x :: seen) (i + 1) xs)
    (seen : List α) {xs : List α} : pass seen i xs = .error e ↔ ∃ k x,
      FirstOffence (fun before x => bad (before.reverse ++ seen) x) xs k x ∧
        e = ⟨fault x, [.index (i + k)]⟩ := by
  induction xs generalizing seen i with
  | nil => simp [hnil, firstOffence_nil]
  | cons x xs ih =>
    have hshift : ∀ k, i + 1 + k = i + (k + 1) := by omega
    rw [hcons]
    by_cases hx : bad seen x
    · rw [if_pos hx]
      constructor
      · intro h
        cases h
        exact ⟨0, x, firstOffence_zero.mpr ⟨rfl, hx⟩, rfl⟩
      · rintro ⟨k, y, h, rfl⟩
        cases k with
        | zero =>
          obtain ⟨rfl, -⟩ := firstOffence_zero.mp h
          rfl
        | succ k => exact absurd hx (firstOffence_succ.mp h).1
    · rw [if_neg hx, ih]
      constructor
      · rintro ⟨k, y, h, rfl⟩
        refine ⟨k + 1, y, firstOffence_succ.mpr ⟨hx, ?_⟩, by rw [hshift]⟩
        simpa using h
      · rintro ⟨k, y, h, rfl⟩
        cases k with
        | zero => exact absurd (firstOffence_zero.mp h).2 hx
        | succ k => exact ⟨k, y, by simpa using (firstOffence_succ.mp h).2, by rw [hshift]⟩

theorem readBehind_eq_error (read : List κ → Nat → List α → Read (List β))
    (item : List κ → α → Read β) (key : β → κ) {Reads : α → β → Prop}
    (Refused : List κ → β → FormatError → Prop) (hnil : ∀ seen i, read seen i [] = .ok [])
    (hcons : ∀ seen i a as, read seen i (a :: as) = do
      let b ← within [.index i] (item seen a)
      let bs ← read (key b :: seen) (i + 1) as
      return b :: bs)
    (hok : ∀ seen a b b', Reads a b → item seen a = .ok b' → b' = b)
    (herror : ∀ seen a b e, Reads a b → (item seen a = .error e ↔ Refused seen b e))
    {seen : List κ} {as : List α} {bs : List β} (h : List.Forall₂ Reads as bs) :
    read seen i as = .error e ↔ ∃ k b e',
      FirstOffence (fun before b => ∃ e, Refused ((before.map key).reverse ++ seen) b e) bs k b ∧
        Refused (((bs.take k).map key).reverse ++ seen) b e' ∧ e = e'.under [.index (i + k)] := by
  induction h generalizing seen i with
  | nil => simp [hnil, firstOffence_nil]
  | @cons a b as bs hab _ ih =>
    have hshift : ∀ k, i + 1 + k = i + (k + 1) := by omega
    rw [hcons, bind_eq_error, within_eq_error]
    by_cases hb : ∃ e, Refused seen b e
    · constructor
      · rintro (⟨e', he', rfl⟩ | ⟨b', hb', -⟩)
        · have he' := (herror seen a b e' hab).mp he'
          exact ⟨0, b, e', firstOffence_zero.mpr ⟨rfl, e', he'⟩, he', rfl⟩
        · obtain ⟨e', he'⟩ := hb
          rw [within_eq_ok, (herror seen a b e' hab).mpr he'] at hb'
          cases hb'
      · rintro ⟨k, c, e', h, he', rfl⟩
        cases k with
        | zero =>
          obtain ⟨rfl, -⟩ := firstOffence_zero.mp h
          exact .inl ⟨e', (herror seen a b e' hab).mpr he', rfl⟩
        | succ k => exact absurd hb (firstOffence_succ.mp h).1
    · have hread : item seen a = .ok b := by
        cases hr : item seen a with
        | ok b' => rw [hok seen a b b' hab hr]
        | error e' => exact absurd ⟨e', (herror seen a b e' hab).mp hr⟩ hb
      simp only [hread, within_ok, Except.ok.injEq, exists_eq_left', reduceCtorEq, false_and,
        exists_false, false_or, bind_eq_error, ih]
      constructor
      · rintro (⟨k, c, e', h, he', rfl⟩ | ⟨_, -, hend⟩)
        · refine ⟨k + 1, c, e', firstOffence_succ.mpr ⟨hb, ?_⟩, ?_, by rw [hshift]⟩
          · simpa using h
          · simpa using he'
        · cases hend
      · rintro ⟨k, c, e', h, he', rfl⟩
        cases k with
        | zero => exact absurd (firstOffence_zero.mp h).2 hb
        | succ k =>
          refine .inl ⟨k, c, e', ?_, ?_, by rw [hshift]⟩
          · simpa using (firstOffence_succ.mp h).2
          · simpa using he'

end

/-! ## Names -/

section
variable {i : Nat} {xs : List String} {e : FormatError}

abbrev FirstRepeated : List String → Nat → String → Prop := FirstOffence fun before x => x ∈ before

abbrev FirstUnknown (known : List String) : List String → Nat → String → Prop :=
  FirstOffence fun _ x => x ∉ known

theorem distinctFrom_eq_error : distinctFrom [] i xs = .error e ↔
    ∃ k x, FirstRepeated xs k x ∧ e = ⟨.duplicateVariable x, [.index (i + k)]⟩ := by
  rw [pass_eq_error distinctFrom (fun seen x => x ∈ seen) .duplicateVariable (fun _ _ => rfl)
    fun _ _ _ _ => rfl]
  simp

theorem knownFrom_eq_error {known : List String} {usage : Usage} :
    knownFrom known usage i xs = .error e ↔
      ∃ k x, FirstUnknown known xs k x ∧ e = ⟨.unknownVariable x usage, [.index (i + k)]⟩ := by
  refine pass_eq_error (fun _ => knownFrom known usage) (fun _ x => x ∉ known)
    (.unknownVariable · usage) (fun _ _ => rfl) (fun _ i x xs => ?_) []
  by_cases hx : x ∈ known <;> simp [knownFrom, hx]

theorem childrenFrom_eq_error {declared : List String} : childrenFrom declared i xs = .error e ↔
    ∃ k x, FirstUnknown declared xs k x ∧ e = ⟨.unknownChild x, [.index (i + k)]⟩ := by
  refine pass_eq_error (fun _ => childrenFrom declared) (fun _ x => x ∉ declared) .unknownChild
    (fun _ _ => rfl) (fun _ i x xs => ?_) []
  by_cases hx : x ∈ declared <;> simp [childrenFrom, hx]

end

end Realizability
