import Realizability.Proofs.Format.Location

/-!
# Where the faults of terms lie

Identifiers, relations, terms and attribute values of any depth are refused at the place that their
fault names.
-/

namespace Realizability

open FaultsIn

/-! ## Identifiers and relations -/

theorem Index.faultsIn (v : Json) : FaultsIn v (Index.ofJson v) := by
  cases v with
  | string s => exact ok _
  | int n => exact ok _
  | _ => exact fault rfl (by simp) (by simp)

theorem Identifier.faultsIn (v : Json) : FaultsIn v (Identifier.ofJson v) := by
  cases v with
  | string s => exact ok _
  | array items =>
    cases items with
    | nil => exact fault rfl (by simp) (by simp)
    | cons head indices =>
      have hindices : (Json.array (head :: indices)).HasItems 1 (indices.map id) :=
        ⟨_, rfl, by simp⟩
      exact bind (asString.under rfl) fun name _ =>
        bind (itemsFrom id hindices fun i _ => Index.faultsIn i) fun _ _ => pure _
  | _ => exact fault rfl (by simp) (by simp)

section
variable {o : Members} {key : String}

theorem identifierField_faultsIn : FaultsIn (.object o) (o.identifierField key) :=
  fieldAs fun v _ => Identifier.faultsIn v

theorem identifiersField_faultsIn : FaultsIn (.object o) (o.identifiersField key) :=
  valuesField Identifier.faultsIn

theorem Relation.faultsIn : FaultsIn (.object o) (Relation.ofMembers o) := by
  refine bind stringField fun name _ => bind arrayField fun signature hsignature => ?_
  refine bind stringsField fun args _ => bind lengths fun _ _ => ?_
  rw [Members.arrayField_eq_ok] at hsignature
  exact bind (inField (values fun v _ => Identifier.faultsIn v) hsignature) fun _ _ => pure _

/-! ## Terms -/

theorem bitsOfJson_faultsIn {v : Json} (hv : Table.get? "value" o = some v) :
    FaultsIn (.object o) (bitsOfJson v) := by
  have hvalue := Json.follow?_singleton hv
  unfold bitsOfJson
  split
  · exact ok _
  · exact fault hvalue (by simp) (by simp)
  · split
    · exact ok _
    · exact fault hvalue (by simp) (by simp)
  · exact fault hvalue (by simp) (by simp)

theorem bindingsOf_faultsIn : FaultsIn (.object o) (bindingsOf o) :=
  bind stringsField fun _ _ => bind identifiersField_faultsIn fun _ _ =>
    bind lengths fun _ _ => pure _

theorem termMember_faultsIn (h : ∀ v, Table.get? key o = some v → FaultsIn v (Term.ofJson v)) :
    FaultsIn (.object o) (termMember key o) := by
  rw [termMember_eq]
  exact fieldAs h

theorem termItems_faultsIn (h : ∀ vs, Table.get? key o = some (.array vs) →
    ∀ v ∈ vs, FaultsIn v (Term.ofJson v)) :
    FaultsIn (.object o) (termItems key o) := by
  rw [termItems_eq]
  refine fieldAs fun v hv => ?_
  cases v with
  | array vs =>
    rw [termsOf, termsFrom_eq]
    exact values (h vs hv)
  | _ => exact fault rfl (by simp) (by simp [Json.hasKind])

theorem caseItems_faultsIn (h : ∀ vs, Table.get? key o = some (.array vs) →
    ∀ v ∈ vs, FaultsIn v (caseOf v)) :
    FaultsIn (.object o) (caseItems key o) := by
  rw [caseItems_eq]
  refine fieldAs fun v hv => ?_
  cases v with
  | array vs =>
    rw [casesOf, casesFrom_eq]
    exact values (h vs hv)
  | _ => exact fault rfl (by simp) (by simp [Json.hasKind])

end

theorem caseOf_faultsIn {v : Json} (h : ∀ o w, v = .object o → Table.get? "child" o = some w →
    FaultsIn w (Term.ofJson w)) : FaultsIn v (caseOf v) := by
  cases v with
  | object o =>
    rw [caseOf]
    refine bind field fun operator hoperator => ?_
    rw [Members.field_eq_ok] at hoperator
    have hrest : ∀ operator, FaultsIn (.object o) (do
        let names ← Members.stringsField o "arguments"
        let result ← termMember "child" o
        return (⟨operator, names, result⟩ : MatchCase Term)) := fun operator =>
      bind stringsField fun _ _ => bind (termMember_faultsIn fun w hw => h o w rfl hw) fun _ _ =>
        pure _
    split
    · exact hrest none
    · exact bind (map (inField asString hoperator)) fun operator _ => hrest operator
  | _ =>
    rw [caseOf]
    · exact fault rfl (by simp) (by simp [Json.hasKind])
    · simp

theorem Term.faultsIn (v : Json) : FaultsIn v (Term.ofJson v) := by
  induction v using Json.induct_below with
  | h v ih =>
    cases v with
    | object o =>
      have hmember : ∀ {key}, FaultsIn (.object o) (termMember key o) :=
        termMember_faultsIn fun v hv => ih _ _ _ (Json.follow?_singleton hv)
      rw [ofJson]
      refine bind stringField fun kind hkind => ?_
      rw [Members.stringField_eq_ok] at hkind
      split
      · refine bind identifierField_faultsIn fun _ _ => bind identifierField_faultsIn fun _ _ => ?_
        refine bind identifiersField_faultsIn fun sorts _ => bind arrayField fun _ _ => ?_
        refine bind lengths fun _ _ => bind (termItems_faultsIn fun vs hvs v hv => ?_) fun _ _ =>
          pure _
        obtain ⟨i, hi⟩ := Json.exists_follow?_item hvs hv
        exact ih _ _ v (hi [])
      · exact bind stringField fun _ _ => bind identifierField_faultsIn fun _ _ => pure _
      · exact bind bindingsOf_faultsIn fun _ _ => bind hmember fun _ _ => pure _
      · exact bind bindingsOf_faultsIn fun _ _ => bind hmember fun _ _ => pure _
      · refine bind hmember fun _ _ => bind objectsField fun _ _ => ?_
        refine bind (caseItems_faultsIn fun vs hvs v hv => caseOf_faultsIn ?_) fun _ _ => pure _
        intro o' w hv' hw
        obtain ⟨i, hi⟩ := Json.exists_follow?_item hvs hv
        subst hv'
        exact ih _ _ w ((hi _).trans (Json.follow?_singleton hw))
      · exact bind stringsField fun _ _ => bind hmember fun _ _ => pure _
      · refine bind integerField fun width hwidth => ?_
        rw [Members.integerField_eq_ok] at hwidth
        split
        · exact fault (Json.follow?_singleton hwidth) (by simp) (by simp)
        · refine bind field fun v hv => bind (bitsOfJson_faultsIn ?_) fun _ _ => pure _
          exact Members.field_eq_ok.mp hv
      · exact fault (Json.follow?_singleton hkind) (by simp) (by simp)
    | int n => rw [ofJson]; exact ok _
    | decimal x => rw [ofJson]; exact ok _
    | string s => rw [ofJson]; exact ok _
    | null => simpa [ofJson] using fault rfl (by simp) (by simp)
    | bool b => simpa [ofJson] using fault rfl (by simp) (by simp)
    | array items => simpa [ofJson] using fault rfl (by simp) (by simp)

/-! ## Attribute values -/

theorem InfoValue.faultsIn (v : Json) : FaultsIn v (InfoValue.ofJson v) := by
  induction v using Json.induct_below with
  | h v ih =>
    cases v with
    | array items =>
      rw [ofJson, infoValuesFrom_eq]
      refine bind (values fun v hv => ?_) fun _ _ => pure _
      obtain ⟨i, hi⟩ := List.mem_iff_getElem?.mp hv
      exact ih _ _ v (Json.follow?_index hi [])
    | object o =>
      rw [ofJson]
      exact bind stringField fun _ _ => pure _
    | _ =>
      rw [ofJson]
      exact ok _

end Realizability
