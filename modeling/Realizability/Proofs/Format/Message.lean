import Realizability.Proofs.Format.EventLocation

/-!
# What a refusal says

The message of a fault tells whether a field is missing or a value of another kind was called for,
and the segments of its path, followed from the root, lead to the place.
-/

namespace Realizability

/-! ## Messages -/

theorem start_of_take {s : String} {c c' : Char} {cs l start : List Char}
    (h : (s.toList ++ l).take 2 = start) (hs : s = .ofList (c :: c' :: cs)) : [c, c'] = start := by
  rw [← h, hs, String.toList_ofList]
  rfl

namespace FormatFault

variable {f : FormatFault}

theorem eq_missingField (h : f.message = missingField.message) : f = missingField := by
  have hstart : (f.message.toList ++ []).take 2 = ['M', 'i'] := by
    rw [h, message.eq_def]
    exact (start_of_take rfl rfl).symm
  rw [message.eq_def] at hstart
  cases f with
  | missingField => rfl
  | unequalLengths what m n =>
    cases what <;>
    · simp only [Pairing.phrase, String.toList_append, List.append_assoc] at hstart
      cases start_of_take hstart rfl
  | _ =>
    simp only [String.toList_append, List.append_assoc] at hstart
    cases start_of_take hstart rfl

theorem eq_expected {kind : Json.Kind} (h : f.message = (expected kind).message) :
    f = expected kind := by
  have hstart : (f.message.toList ++ []).take 2 = ['E', 'x'] := by
    rw [h, message.eq_def]
    simp only [String.toList_append, List.append_assoc]
    exact (start_of_take rfl rfl).symm
  rw [message.eq_def] at hstart
  cases f with
  | expected other =>
    rw [message.eq_def, message.eq_def] at h
    cases other <;> cases kind <;> simp [Json.Kind.phrase] at h ⊢
  | unequalLengths what m n =>
    cases what <;>
    · simp only [Pairing.phrase, String.toList_append, List.append_assoc] at hstart
      cases start_of_take hstart rfl
  | _ =>
    simp only [String.toList_append, List.append_assoc] at hstart
    cases start_of_take hstart rfl

end FormatFault

/-! ## Segments -/

namespace Json

/-- What a segment selects: a field of an object or, in decimal, an item of an array. -/
def Selects : Json → String → Json → Prop
  | object o, s, w => Table.get? s o = some w
  | array items, s, w => ∃ i : Nat, s = toString i ∧ items[i]? = some w
  | _, _, _ => False

def Reaches (v : Json) : List String → Json → Prop
  | [], w => v = w
  | s :: ss, w => ∃ u, v.Selects s u ∧ u.Reaches ss w

theorem selects_text {v w : Json} {s : Step} (h : v.step? s = some w) : v.Selects s.text w := by
  unfold step? at h
  split at h
  · simpa [Selects, Step.text] using h
  · exact ⟨_, rfl, h⟩
  · cases h

theorem reaches_texts {v w : Json} {p : Path} (h : v.follow? p = some w) :
    v.Reaches (p.map Step.text) w := by
  induction p generalizing v with
  | nil => exact Option.some.inj h
  | cons s p ih =>
    obtain ⟨u, hu, h⟩ := Option.bind_eq_some_iff.mp h
    exact ⟨u, selects_text hu, ih h⟩

theorem exists_follow?_dropLast {v w : Json} {p : Path} (h : v.follow? p = some w) :
    ∃ u, v.follow? p.dropLast = some u := by
  rcases List.eq_nil_or_concat p with rfl | ⟨q, s, rfl⟩
  · exact ⟨v, rfl⟩
  · rw [List.concat_eq_append, follow?_append] at h
    obtain ⟨u, hu, -⟩ := Option.bind_eq_some_iff.mp h
    exact ⟨u, by simpa using hu⟩

end Json

namespace FormatError

def segments (e : FormatError) : List String := e.path.map Json.Step.text

/-- The message and the segments of an error say together what is at fault. -/
structure PointsInto (e : FormatError) (v : Json) : Prop where
  upToLast : ∃ w, v.Reaches e.segments.dropLast w
  missing : e.fault.message = "Missing required field" → ∃ key o, e.segments.getLast? = some key ∧
    v.Reaches e.segments.dropLast (.object o) ∧ Table.get? key o = none
  present : e.fault.message ≠ "Missing required field" → ∃ w, v.Reaches e.segments w
  kind : ∀ kind : Json.Kind, e.fault.message = "Expected " ++ kind.phrase →
    ∃ w, v.Reaches e.segments w ∧ w.hasKind kind = false

theorem LiesIn.exists_follow? {e : FormatError} {v : Json} (h : e.LiesIn v)
    (hmissing : e.fault ≠ .missingField) : ∃ w, v.follow? e.path = some w := by
  obtain ⟨fault, path⟩ := e
  cases fault with
  | missingField => exact absurd rfl hmissing
  | expected kind =>
    obtain ⟨w, hw, -⟩ := h
    exact ⟨w, hw⟩
  | _ => exact h

theorem LiesIn.exists_follow?_dropLast {e : FormatError} {v : Json} (h : e.LiesIn v) :
    ∃ w, v.follow? e.path.dropLast = some w := by
  by_cases hmissing : e.fault = .missingField
  · obtain ⟨fault, path⟩ := e
    obtain rfl : fault = .missingField := hmissing
    obtain ⟨p, key, o, rfl, ho, -⟩ := h
    exact ⟨_, by simpa using ho⟩
  · obtain ⟨w, hw⟩ := h.exists_follow? hmissing
    exact Json.exists_follow?_dropLast hw

theorem LiesIn.pointsInto {e : FormatError} {v : Json} (h : e.LiesIn v) : e.PointsInto v where
  upToLast := by
    obtain ⟨w, hw⟩ := h.exists_follow?_dropLast
    refine ⟨w, ?_⟩
    rw [segments, ← List.map_dropLast]
    exact Json.reaches_texts hw
  missing hmessage := by
    obtain ⟨fault, path⟩ := e
    obtain rfl : fault = .missingField := FormatFault.eq_missingField hmessage
    obtain ⟨p, key, o, rfl, ho, hkey⟩ := h
    refine ⟨key, o, by simp [segments, Json.Step.text], ?_, hkey⟩
    simpa [segments] using Json.reaches_texts ho
  present hmessage := by
    have hmissing : e.fault ≠ .missingField := fun hf => hmessage (by rw [hf]; rfl)
    obtain ⟨w, hw⟩ := h.exists_follow? hmissing
    exact ⟨w, Json.reaches_texts hw⟩
  kind kind hmessage := by
    obtain ⟨fault, path⟩ := e
    obtain rfl : fault = .expected kind := FormatFault.eq_expected hmessage
    obtain ⟨w, hw, hkind⟩ := h
    exact ⟨w, Json.reaches_texts hw, hkind⟩

end FormatError

/-- Whatever is refused as events or as terms is refused at the place where the fault lies. -/
theorem Json.pointsInto_of_refused (v : Json) (e : FormatError) :
    (Event.listOfJson v = .error e → e.PointsInto v) ∧
      (Term.listOfJson v = .error e → e.PointsInto v) :=
  ⟨fun h => (Event.listOfJson_faultsIn v e h).pointsInto,
    fun h => (Term.listOfJson_faultsIn v e h).pointsInto⟩

/-! ## A variable without a sort -/

namespace Unsorted

def unsorted : Json := .object [("$termType", .string "variable"), ("name", .string "x")]

def body : Json := .object
  [("$termType", .string "lambda"), ("arguments", .array []), ("body", unsorted)]

def stream : Json := .array
  [.object [("$event", .string "check-synth")],
    .object [("$event", .string "constraint"), ("constraint", body)]]

theorem stream_pointsInto :
    ∃ e, Event.listOfJson stream = .error e ∧ e.PointsInto stream ∧
      e.segments = ["1", "constraint", "body", "sort"] ∧
    ∃ e', Term.listOfJson body = .error e' ∧ e'.PointsInto body := by
  have hstream : Event.listOfJson stream = .error
      ⟨.missingField, [.index 1, .field "constraint", .field "body", .field "sort"]⟩ := rfl
  have hbody : Term.listOfJson body = .error ⟨.notTerms, []⟩ := rfl
  exact ⟨_, hstream, (Json.pointsInto_of_refused _ _).1 hstream, rfl,
    _, hbody, (Json.pointsInto_of_refused _ _).2 hbody⟩

end Unsorted

end Realizability
