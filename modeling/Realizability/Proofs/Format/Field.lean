import Realizability.Event.Format
import Realizability.Proofs.Outcome

/-!
# Fields that can be read

Which values the readers of fields and lists accept. The readers of terms pass through the members
of an object one by one; they read the same field as those that look it up.
-/

namespace Realizability

theorem within_eq_ok {ε α : Type} {p : Json.Path} {r : Except (Located ε) α} {a : α} :
    within p r = .ok a ↔ r = .ok a := by
  cases r <;> simp

/-! ## Kinds -/

namespace Json

variable {v : Json}

theorem asString_eq_ok {s : String} : v.asString = .ok s ↔ v = .string s := by
  cases v <;> simp [asString, Read.fault]

theorem asObject_eq_ok {o : Members} : v.asObject = .ok o ↔ v = .object o := by
  cases v <;> simp [asObject, Read.fault]

theorem asArray_eq_ok {items : List Json} : v.asArray = .ok items ↔ v = .array items := by
  cases v <;> simp [asArray, Read.fault]

theorem asInteger_eq_ok {n : Int} : v.asInteger = .ok n ↔ v = .int n := by
  cases v <;> simp [asInteger, Read.fault]

end Json

/-! ## Lists -/

section
variable {α β : Type} {f : α → Read β}

theorem readFrom_eq_ok {i : Nat} {xs : List α} {ys : List β} :
    readFrom f i xs = .ok ys ↔ List.Forall₂ (fun x y => f x = .ok y) xs ys := by
  induction xs generalizing i ys with
  | nil => simp [readFrom, eq_comm]
  | cons x xs ih =>
    rw [readFrom, bind_eq_ok, List.forall₂_cons_left_iff]
    simp only [within_eq_ok, bind_eq_ok, ih]
    constructor
    · rintro ⟨y, hy, ys, hys, h⟩
      cases h
      exact ⟨y, ys, hy, hys, rfl⟩
    · rintro ⟨y, ys, hy, hys, rfl⟩
      exact ⟨y, hy, ys, hys, rfl⟩

theorem readEach_eq_ok {xs : List α} {ys : List β} :
    readEach f xs = .ok ys ↔ List.Forall₂ (fun x y => f x = .ok y) xs ys := readFrom_eq_ok

theorem readFrom_map {g : β → α} {i : Nat} {ys : List β} (h : ∀ y ∈ ys, f (g y) = .ok y) :
    readFrom f i (ys.map g) = .ok ys := by
  rw [readFrom_eq_ok, List.forall₂_map_left_iff, List.forall₂_same]
  exact h

theorem readEach_map {g : β → α} {ys : List β} (h : ∀ y ∈ ys, f (g y) = .ok y) :
    readEach f (ys.map g) = .ok ys := readFrom_map h

theorem readEach_eq_map {g : β → α} (h : ∀ x y, f x = .ok y ↔ x = g y) {xs : List α} {ys : List β} :
    readEach f xs = .ok ys ↔ xs = ys.map g := by
  rw [readEach_eq_ok, ← List.forall₂_eq_eq_eq, List.forall₂_map_right_iff]
  simp only [h]

end

/-! ## Fields -/

namespace Members

variable {o : Members} {key : String}

theorem field_eq_ok {v : Json} : o.field key = .ok v ↔ Table.get? key o = some v := by
  unfold field
  cases Table.get? key o <;> simp [Read.fault]

theorem fieldAs_eq_ok {α : Type} {f : Json → Read α} {a : α} :
    fieldAs f o key = .ok a ↔ ∃ v, Table.get? key o = some v ∧ f v = .ok a := by
  simp only [fieldAs, bind_eq_ok, field_eq_ok, within_eq_ok]

theorem stringField_eq_ok {s : String} :
    o.stringField key = .ok s ↔ Table.get? key o = some (.string s) := by
  simp [stringField, fieldAs_eq_ok, Json.asString_eq_ok]

theorem objectField_eq_ok {o' : Members} :
    o.objectField key = .ok o' ↔ Table.get? key o = some (.object o') := by
  simp [objectField, fieldAs_eq_ok, Json.asObject_eq_ok]

theorem arrayField_eq_ok {items : List Json} :
    o.arrayField key = .ok items ↔ Table.get? key o = some (.array items) := by
  simp [arrayField, fieldAs_eq_ok, Json.asArray_eq_ok]

theorem integerField_eq_ok {n : Int} :
    o.integerField key = .ok n ↔ Table.get? key o = some (.int n) := by
  simp [integerField, fieldAs_eq_ok, Json.asInteger_eq_ok]

theorem objectsField_eq_ok {os : List Members} :
    o.objectsField key = .ok os ↔ Table.get? key o = some (.array (os.map .object)) := by
  simp [objectsField, bind_eq_ok, within_eq_ok, arrayField_eq_ok,
    readEach_eq_map fun x y => Json.asObject_eq_ok (v := x) (o := y)]

theorem stringsField_eq_ok {ss : List String} :
    o.stringsField key = .ok ss ↔ Table.get? key o = some (.array (ss.map .string)) := by
  simp [stringsField, bind_eq_ok, within_eq_ok, arrayField_eq_ok,
    readEach_eq_map fun x y => Json.asString_eq_ok (v := x) (s := y)]

theorem identifierField_eq_ok {ident : Identifier} : o.identifierField key = .ok ident ↔
    ∃ v, Table.get? key o = some v ∧ Identifier.ofJson v = .ok ident := fieldAs_eq_ok

theorem identifiersField_eq_ok {idents : List Identifier} : o.identifiersField key = .ok idents ↔
    ∃ items, Table.get? key o = some (.array items) ∧
      List.Forall₂ (fun v ident => Identifier.ofJson v = .ok ident) items idents := by
  simp only [identifiersField, bind_eq_ok, within_eq_ok, arrayField_eq_ok, readEach_eq_ok]

end Members

/-! ## Terms in fields -/

theorem eq_fieldAs {α : Type} {read : Members → Read α} {f : Json → Read α} {key : String}
    (hnil : read [] = Read.fault .missingField [.field key])
    (hcons : ∀ k v o, read ((k, v) :: o) = if k = key then within [.field key] (f v) else read o)
    (o : Members) : read o = o.fieldAs f key := by
  induction o with
  | nil => exact hnil
  | cons e o ih =>
    obtain ⟨k, v⟩ := e
    rw [hcons, ih]
    by_cases h : k = key
    · simp [Members.fieldAs, Members.field, Table.get?, h, bind, Except.bind]
    · simp [Members.fieldAs, Members.field, Table.get?, h]

theorem termMember_eq (key : String) (o : Members) : termMember key o = o.fieldAs Term.ofJson key :=
  eq_fieldAs (by rw [termMember]) (fun k v o => by rw [termMember]) o

theorem termItems_eq (key : String) (o : Members) : termItems key o = o.fieldAs termsOf key :=
  eq_fieldAs (by rw [termItems]) (fun k v o => by rw [termItems]) o

theorem caseItems_eq (key : String) (o : Members) : caseItems key o = o.fieldAs casesOf key :=
  eq_fieldAs (by rw [caseItems]) (fun k v o => by rw [caseItems]) o

theorem eq_readFrom {α β : Type} {read : Nat → List α → Read (List β)} {f : α → Read β}
    (hnil : ∀ i, read i [] = .ok [])
    (hcons : ∀ i x xs, read i (x :: xs) = do
      let y ← within [.index i] (f x)
      let ys ← read (i + 1) xs
      return y :: ys) (i : Nat) (xs : List α) : read i xs = readFrom f i xs := by
  induction xs generalizing i with
  | nil => exact hnil i
  | cons x xs ih => rw [hcons, readFrom, ih]

theorem termsFrom_eq (i : Nat) (items : List Json) :
    termsFrom i items = readFrom Term.ofJson i items :=
  eq_readFrom (fun i => by rw [termsFrom]) (fun i v vs => by rw [termsFrom]) i items

theorem casesFrom_eq (i : Nat) (items : List Json) : casesFrom i items = readFrom caseOf i items :=
  eq_readFrom (fun i => by rw [casesFrom]) (fun i v vs => by rw [casesFrom]) i items

theorem infoValuesFrom_eq (i : Nat) (items : List Json) :
    infoValuesFrom i items = readFrom InfoValue.ofJson i items :=
  eq_readFrom (fun i => by rw [infoValuesFrom]) (fun i v vs => by rw [infoValuesFrom]) i items

end Realizability
