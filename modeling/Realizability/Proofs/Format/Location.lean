import Realizability.Proofs.Format.Term

/-!
# Where faults lie

The path of a fault leads to what is at fault: to an object that lacks the field named last, to a
value of another kind than the one called for, or to any other value that is there.
-/

namespace Realizability

theorem Json.follow?_append (v : Json) (p q : Path) :
    v.follow? (p ++ q) = (v.follow? p).bind (·.follow? q) := by
  induction p generalizing v with
  | nil => rfl
  | cons s p ih =>
    simp only [List.cons_append, follow?]
    cases v.step? s with
    | none => rfl
    | some w => exact ih w

def Json.HasItems (v : Json) (i : Nat) (ws : List Json) : Prop :=
  ∃ items, v = .array items ∧ items.drop i = ws

theorem Json.hasItems_array (items : List Json) : (array items).HasItems 0 items :=
  ⟨items, rfl, rfl⟩

theorem Json.HasItems.head {v w : Json} {i : Nat} {ws : List Json} (h : v.HasItems i (w :: ws)) :
    v.follow? [.index i] = some w := by
  obtain ⟨items, rfl, hdrop⟩ := h
  have hw : items[i]? = some w := by rw [← List.head?_drop, hdrop, List.head?_cons]
  exact follow?_index hw []

theorem Json.HasItems.tail {v w : Json} {i : Nat} {ws : List Json} (h : v.HasItems i (w :: ws)) :
    v.HasItems (i + 1) ws := by
  obtain ⟨items, rfl, hdrop⟩ := h
  exact ⟨items, rfl, by rw [← List.tail_drop, hdrop, List.tail_cons]⟩

/-- The fault is one of the value, at the place that its path leads to. -/
def FormatError.LiesIn (e : FormatError) (v : Json) : Prop :=
  match e.fault with
  | .missingField => ∃ p key o, e.path = p ++ [.field key] ∧ v.follow? p = some (.object o) ∧
      Table.get? key o = none
  | .expected kind => ∃ w, v.follow? e.path = some w ∧ w.hasKind kind = false
  | _ => ∃ w, v.follow? e.path = some w

theorem FormatError.LiesIn.under {e : FormatError} {v w : Json} {p : Json.Path} (h : e.LiesIn w)
    (hp : v.follow? p = some w) : FormatError.LiesIn (Located.under p e) v := by
  obtain ⟨fault, path⟩ := e
  have hpath : ∀ q, v.follow? (p ++ q) = w.follow? q := by
    intro q
    rw [Json.follow?_append, hp, Option.bind_some]
  cases fault with
  | missingField =>
    obtain ⟨q, key, o, hq, ho, hkey⟩ := h
    refine ⟨p ++ q, key, o, ?_, by rw [hpath, ho], hkey⟩
    rw [List.append_assoc]
    exact congrArg (p ++ ·) hq
  | expected kind =>
    obtain ⟨u, hu, hkind⟩ := h
    exact ⟨u, (hpath path).trans hu, hkind⟩
  | _ =>
    obtain ⟨u, hu⟩ := h
    exact ⟨u, (hpath path).trans hu⟩

def FaultsIn {α : Type} (v : Json) (r : Read α) : Prop := ∀ e, r = .error e → e.LiesIn v

namespace FaultsIn

variable {α β : Type} {v w : Json} {o : Members} {key : String}

theorem ok (a : α) : FaultsIn v (.ok a : Read α) := by
  intro e h
  cases h

theorem pure (a : α) : FaultsIn v (Pure.pure a : Read α) := ok a

theorem fault {f : FormatFault} {p : Json.Path} (hp : v.follow? p = some w)
    (hmissing : f ≠ .missingField) (hkind : ∀ kind, f = .expected kind → w.hasKind kind = false) :
    FaultsIn v (Read.fault f p : Read α) := by
  intro e h
  cases h
  cases f with
  | missingField => exact absurd rfl hmissing
  | expected kind => exact ⟨w, hp, hkind kind rfl⟩
  | _ => exact ⟨w, hp⟩

theorem bind {x : Read α} {f : α → Read β} (hx : FaultsIn v x)
    (hf : ∀ a, x = .ok a → FaultsIn v (f a)) : FaultsIn v (x >>= f) := by
  intro e h
  cases hr : x with
  | ok a =>
    rw [hr] at h
    exact hf a hr e h
  | error e' =>
    rw [hr] at h
    cases h
    exact hx e hr

theorem map {x : Read α} {f : α → β} (hx : FaultsIn v x) : FaultsIn v (f <$> x) := by
  intro e h
  cases hr : x with
  | ok a =>
    rw [hr] at h
    cases h
  | error e' =>
    rw [hr] at h
    cases h
    exact hx e hr

theorem under {p : Json.Path} {r : Read α} (h : FaultsIn w r) (hp : v.follow? p = some w) :
    FaultsIn v (within p r) := by
  intro e he
  cases r with
  | ok a => cases he
  | error e' =>
    cases he
    exact (h e' rfl).under hp

theorem lengths {what : Pairing} {xs : List α} {ys : List β} :
    FaultsIn v (sameLength what xs ys) := by
  unfold sameLength
  split
  · exact ok ()
  · exact fault rfl (by simp) (by simp)

/-! ## Kinds -/

theorem asString : FaultsIn v v.asString := by
  cases v with
  | string s => exact ok s
  | _ => exact fault rfl (by simp) (by simp [Json.hasKind])

theorem asObject : FaultsIn v v.asObject := by
  cases v with
  | object o => exact ok o
  | _ => exact fault rfl (by simp) (by simp [Json.hasKind])

theorem asArray : FaultsIn v v.asArray := by
  cases v with
  | array items => exact ok items
  | _ => exact fault rfl (by simp) (by simp [Json.hasKind])

theorem asInteger : FaultsIn v v.asInteger := by
  cases v with
  | int n => exact ok n
  | _ => exact fault rfl (by simp) (by simp [Json.hasKind])

/-! ## Items -/

theorem itemsFrom {f : α → Read β} (g : α → Json) {i : Nat} {xs : List α}
    (hv : v.HasItems i (xs.map g)) (h : ∀ x ∈ xs, FaultsIn (g x) (f x)) :
    FaultsIn v (readFrom f i xs) := by
  induction xs generalizing i with
  | nil => exact ok []
  | cons x xs ih =>
    have hrest := ih hv.tail fun y hy => h y (List.mem_cons_of_mem x hy)
    exact bind ((h x (List.mem_cons_self ..)).under hv.head) fun _ _ => bind hrest fun _ _ => pure _

theorem items {f : α → Read β} {g : α → Json} {xs : List α} (h : ∀ x ∈ xs, FaultsIn (g x) (f x)) :
    FaultsIn (.array (xs.map g)) (readEach f xs) := itemsFrom g (Json.hasItems_array _) h

theorem values {f : Json → Read β} {vs : List Json} (h : ∀ v ∈ vs, FaultsIn v (f v)) :
    FaultsIn (.array vs) (readEach f vs) := by
  simpa using items (g := id) h

/-! ## Fields -/

theorem field : FaultsIn (.object o) (o.field key) := by
  intro e h
  unfold Members.field at h
  cases hv : Table.get? key o with
  | some v => simp [hv] at h
  | none =>
    simp only [hv] at h
    cases h
    exact ⟨[], key, o, rfl, rfl, hv⟩

theorem fieldAs {f : Json → Read α} (h : ∀ v, Table.get? key o = some v → FaultsIn v (f v)) :
    FaultsIn (.object o) (o.fieldAs f key) := by
  refine bind field fun v hv => ?_
  rw [Members.field_eq_ok] at hv
  exact (h v hv).under (Json.follow?_singleton hv)

theorem stringField : FaultsIn (.object o) (o.stringField key) := fieldAs fun _ _ => asString

theorem objectField : FaultsIn (.object o) (o.objectField key) := fieldAs fun _ _ => asObject

theorem arrayField : FaultsIn (.object o) (o.arrayField key) := fieldAs fun _ _ => asArray

theorem integerField : FaultsIn (.object o) (o.integerField key) := fieldAs fun _ _ => asInteger

theorem valuesField {f : Json → Read β} (h : ∀ v, FaultsIn v (f v)) :
    FaultsIn (.object o) (do within [.field key] (readEach f (← o.arrayField key))) :=
  bind arrayField fun _ hitems =>
    (values fun v _ => h v).under (Json.follow?_singleton (Members.arrayField_eq_ok.mp hitems))

theorem objectsField : FaultsIn (.object o) (o.objectsField key) := valuesField fun _ => asObject

theorem stringsField : FaultsIn (.object o) (o.stringsField key) := valuesField fun _ => asString

theorem stringsField? : FaultsIn (.object o) (o.stringsField? key) := by
  unfold Members.stringsField?
  split
  · exact ok none
  · exact ok none
  · exact bind stringsField fun _ _ => pure _

theorem inField {r : Read α} (h : FaultsIn v r) (hv : Table.get? key o = some v) :
    FaultsIn (.object o) (within [.field key] r) := h.under (Json.follow?_singleton hv)

end FaultsIn

end Realizability
