import Realizability.Proofs.Format.Field

/-!
# The fault that is reported

Reading a list ends at the first item that is refused. A list of events is passed through twice,
first for items that are no objects and then for objects that are no events, so that the first fault
is reported unless an invalid object stands in front of the first item that is no object.
-/

namespace Realizability

section
variable {α β : Type} {f : α → Read β} {i k : Nat} {x : α} {xs : List α} {e : FormatError}

/-- The item at position `k` is refused with this error, and none in front of it is refused. -/
structure FirstRefused (f : α → Read β) (xs : List α) (k : Nat) (e : FormatError) : Prop where
  passed : ∀ x ∈ xs.take k, ∃ y, f x = .ok y
  refused : ∃ x, xs[k]? = some x ∧ f x = .error e

theorem firstRefused_nil : ¬ FirstRefused f [] k e := by
  intro h
  obtain ⟨x, hx, -⟩ := h.refused
  cases hx

theorem firstRefused_zero : FirstRefused f (x :: xs) 0 e ↔ f x = .error e := by
  constructor
  · intro h
    obtain ⟨y, hy, he⟩ := h.refused
    cases hy
    exact he
  · intro he
    exact ⟨by simp, x, rfl, he⟩

theorem firstRefused_succ :
    FirstRefused f (x :: xs) (k + 1) e ↔ (∃ y, f x = .ok y) ∧ FirstRefused f xs k e := by
  constructor
  · rintro ⟨hpassed, hrefused⟩
    rw [List.take_succ_cons, List.forall_mem_cons] at hpassed
    exact ⟨hpassed.1, hpassed.2, hrefused⟩
  · rintro ⟨hx, hpassed, hrefused⟩
    refine ⟨?_, hrefused⟩
    rw [List.take_succ_cons, List.forall_mem_cons]
    exact ⟨hx, hpassed⟩

theorem within_eq_error {γ : Type} {p : Json.Path} {r : Read γ} :
    within p r = .error e ↔ ∃ e', r = .error e' ∧ e = e'.under p := by
  cases r <;> simp [eq_comm]

theorem readFrom_eq_error : readFrom f i xs = .error e ↔
    ∃ k e', FirstRefused f xs k e' ∧ e = e'.under [.index (i + k)] := by
  induction xs generalizing i with
  | nil => simp [readFrom, firstRefused_nil]
  | cons x xs ih =>
    have hshift : ∀ k, i + 1 + k = i + (k + 1) := by omega
    simp only [readFrom, bind_eq_error, within_eq_ok, within_eq_error, ih, hshift]
    constructor
    · rintro (⟨e', hx, rfl⟩ | ⟨y, hy, ⟨k, e', hfirst, rfl⟩ | ⟨ys, -, hend⟩⟩)
      · exact ⟨0, e', firstRefused_zero.mpr hx, rfl⟩
      · exact ⟨k + 1, e', firstRefused_succ.mpr ⟨⟨y, hy⟩, hfirst⟩, rfl⟩
      · cases hend
    · rintro ⟨k, e', hfirst, rfl⟩
      cases k with
      | zero => exact .inl ⟨e', firstRefused_zero.mp hfirst, rfl⟩
      | succ k =>
        obtain ⟨⟨y, hy⟩, hrest⟩ := firstRefused_succ.mp hfirst
        exact .inr ⟨y, hy, .inl ⟨k, e', hrest, rfl⟩⟩

theorem readFrom_comp {γ : Type} (f : α → Read β) (g : γ → α) {i : Nat} {zs : List γ} :
    readFrom f i (zs.map g) = readFrom (fun z => f (g z)) i zs := by
  induction zs generalizing i with
  | nil => rfl
  | cons z zs ih => rw [List.map_cons, readFrom, readFrom, ih]

theorem readEach_eq_error :
    readEach f xs = .error e ↔ ∃ k e', FirstRefused f xs k e' ∧ e = e'.under [.index k] := by
  simp [readEach, readFrom_eq_error]

end

/-! ## Events -/

namespace Event

variable {items : List Json} {r : Read (List Event)}

/-- The result of reading each item as an event by itself, up to the first that is refused. -/
structure FirstFaultWins (items : List Json) (r : Read (List Event)) : Prop where
  refused : ∀ k e, FirstRefused ofJson items k e → r = .error (e.under [.index k])
  taken : ∀ es, List.Forall₂ (fun v e => ofJson v = .ok e) items es → r = .ok es

theorem firstFaultWins_iff : FirstFaultWins items r ↔ r = readEach ofJson items := by
  constructor
  · intro h
    cases hread : readEach ofJson items with
    | ok es => exact h.taken es (readEach_eq_ok.mp hread)
    | error e =>
      obtain ⟨k, e', hfirst, rfl⟩ := readEach_eq_error.mp hread
      exact h.refused k e' hfirst
  · rintro rfl
    exact ⟨fun k e hfirst => readEach_eq_error.mpr ⟨k, e, hfirst, rfl⟩, fun es => readEach_eq_ok.mpr⟩

/-- The item at position `k` is the first that is no object. -/
def FirstNonObject (items : List Json) (k : Nat) : Prop :=
  FirstRefused Json.asObject items k ⟨.expected .object, []⟩

theorem asObject_eq_error {v : Json} {e : FormatError} (h : v.asObject = .error e) :
    e = ⟨.expected .object, []⟩ := by
  cases v <;> cases h <;> rfl

theorem readEach_objects (items : List Json) :
    (∃ os : List Members, items = os.map .object) ∨ ∃ k, FirstNonObject items k := by
  cases hread : readEach Json.asObject items with
  | ok os => exact .inl ⟨os, (readEach_eq_map fun _ _ => Json.asObject_eq_ok).mp hread⟩
  | error e =>
    obtain ⟨k, e', hfirst, -⟩ := readEach_eq_error.mp hread
    obtain ⟨v, -, hv⟩ := hfirst.refused
    obtain rfl := asObject_eq_error hv
    exact .inr ⟨k, hfirst⟩

theorem listOfJson_objects (os : List Members) :
    listOfJson (.array (os.map .object)) = readEach ofJson (os.map .object) := by
  have hobjects : readEach Json.asObject (os.map .object) = .ok os := readEach_map fun _ _ => rfl
  have hread : readEach ofJson (os.map .object) = readEach ofMembers os :=
    readFrom_comp ofJson Json.object
  rw [hread, listOfJson, hobjects]
  rfl

theorem listOfJson_firstNonObject {k : Nat} (h : FirstNonObject items k) :
    listOfJson (.array items) = .error ⟨.expected .object, [.index k]⟩ := by
  have hobjects : readEach Json.asObject items = .error ⟨.expected .object, [.index k]⟩ :=
    readEach_eq_error.mpr ⟨k, _, h, rfl⟩
  rw [listOfJson, hobjects]
  rfl

theorem FirstNonObject.firstRefused {k : Nat} (h : FirstNonObject items k)
    (hpassed : ∀ v ∈ items.take k, ∃ e, ofJson v = .ok e) :
    FirstRefused ofJson items k ⟨.expected .object, []⟩ := by
  obtain ⟨v, hv, he⟩ := h.refused
  refine ⟨hpassed, v, hv, ?_⟩
  rw [ofJson, he]
  rfl

/-- The first fault is reported if and only if the items in front of the first one that is no object
are events; otherwise that item is reported. -/
theorem firstFaultWins_listOfJson_iff (items : List Json) :
    (FirstFaultWins items (listOfJson (.array items)) ↔
      ∀ k, FirstNonObject items k → ∀ v ∈ items.take k, ∃ e, ofJson v = .ok e) ∧
    ∀ k, FirstNonObject items k →
      listOfJson (.array items) = .error ⟨.expected .object, [.index k]⟩ := by
  refine ⟨?_, fun k => listOfJson_firstNonObject⟩
  rw [firstFaultWins_iff]
  constructor
  · intro h k hk
    rw [listOfJson_firstNonObject hk, eq_comm, readEach_eq_error] at h
    obtain ⟨j, e, hfirst, he⟩ := h
    -- the path of the error tells which item is the first that is refused
    have hpath := congrArg Located.path he
    obtain ⟨rfl, -⟩ : k = j ∧ e.path = [] := by simpa [Located.under] using hpath
    exact hfirst.passed
  · intro h
    obtain ⟨os, rfl⟩ | ⟨k, hk⟩ := readEach_objects items
    · exact listOfJson_objects os
    · rw [listOfJson_firstNonObject hk, eq_comm]
      exact readEach_eq_error.mpr ⟨k, _, hk.firstRefused (h k hk), rfl⟩

end Event

/-! ## A fault that is passed over -/

namespace Overtaken

def items : List Json := [.object [("$event", .string "nope")], .int 3]

/-- The kind of the first item is unknown, and the second item is reported. -/
theorem not_firstFaultWins : ¬ Event.FirstFaultWins items (Event.listOfJson (.array items)) := by
  intro h
  have hfirst : FirstRefused Event.ofJson items 0 ⟨.unknownEvent "nope", [.field "$event"]⟩ :=
    firstRefused_zero.mpr rfl
  have hread : Event.listOfJson (.array items) = .error ⟨.expected .object, [.index 1]⟩ := rfl
  have hwins := h.refused 0 _ hfirst
  rw [hread] at hwins
  cases hwins

end Overtaken

end Realizability
