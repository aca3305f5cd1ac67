import Realizability.Proofs.Format.Printer
import Realizability.Proofs.Format.Term

/-!
# Reading terms that were written

Identifiers, relations, terms and attribute values are read back from what is written for them. A
term that is read from any value at all has bit-vector literals of positive width only.
-/

namespace Realizability

/-! ## Identifiers and relations -/

theorem Index.ofJson_toJson (i : Index) : Index.ofJson i.toJson = .ok i := by
  cases i <;> rfl

theorem Identifier.ofJson_toJson (ident : Identifier) :
    Identifier.ofJson ident.toJson = .ok ident := by
  obtain ⟨name, indices⟩ := ident
  by_cases h : indices = []
  · simp [toJson, ofJson, h]
  · have hindices : readFrom Index.ofJson 1 (indices.map Index.toJson) = .ok indices :=
      readFrom_map fun i _ => i.ofJson_toJson
    simp [toJson, ofJson, h, hindices, Json.asString, bind, Except.bind, pure, Except.pure]

theorem readEach_identifiers (idents : List Identifier) :
    readEach Identifier.ofJson (idents.map Identifier.toJson) = .ok idents :=
  readEach_map fun ident _ => ident.ofJson_toJson

section
variable {o : Members} {key : String}

theorem identifierField_toJson {ident : Identifier} (h : Table.get? key o = some ident.toJson) :
    o.identifierField key = .ok ident := by
  rw [Members.identifierField_eq_ok]
  exact ⟨_, h, ident.ofJson_toJson⟩

theorem identifiersField_toJson {idents : List Identifier}
    (h : Table.get? key o = some (Json.ofIdentifiers idents)) :
    o.identifiersField key = .ok idents := by
  rw [Members.identifiersField_eq_ok]
  exact ⟨_, h, readEach_eq_ok.mp (readEach_identifiers idents)⟩

end

theorem typedVars_map (xs : List TypedVar) :
    typedVars (xs.map TypedVar.name) (xs.map TypedVar.sort) = xs := by
  simp [typedVars]

theorem Relation.ofMembers_members (r : Relation) : Relation.ofMembers r.members = .ok r := by
  have hname : r.members.stringField "name" = .ok r.name := by
    simp [Members.stringField_eq_ok, members, Table.get?]
  have hargs : r.members.stringsField "arguments" = .ok (r.args.map TypedVar.name) := by
    simp [Members.stringsField_eq_ok, members, Table.get?, Json.ofStrings]
  have hsorts : r.members.arrayField "signature" =
      .ok ((r.args.map TypedVar.sort).map Identifier.toJson) := by
    simp [Members.arrayField_eq_ok, members, Table.get?, Json.ofIdentifiers]
  simp only [ofMembers, bind_eq_ok, within_eq_ok, sameLength_eq_ok]
  exact ⟨_, hname, _, hsorts, _, hargs, (), by simp, _, readEach_identifiers _,
    by simp [typedVars_map, pure, Except.pure]⟩

/-! ## Terms -/

theorem Term.ofJson_toJson {t : Term} (h : t.WellFormed) : Term.ofJson t.toJson = .ok t := by
  induction h with
  | var name sort =>
    rw [toJson, ofJson_object]
    exact .var rfl rfl (identifierField_toJson rfl)
  | number n => rw [toJson, ofJson]
  | decimal x => rw [toJson, ofJson]
  | string s => rw [toJson, ofJson]
  | bits value h =>
    rw [toJson, ofJson_object]
    exact .bits rfl rfl h rfl rfl
  | quantified kind bindings h ih =>
    rw [toJson, ofJson_object]
    exact .quantified rfl rfl (identifiersField_toJson rfl) (by simp) (typedVars_map bindings) rfl
      ih
  | @app name sort args h ih =>
    rw [toJson, ofJson_object, argsJson_eq]
    refine .app rfl (identifierField_toJson rfl) (identifierField_toJson rfl)
      (identifiersField_toJson rfl) rfl (by simp) ?_ (List.zip_of_prod rfl rfl).symm
    rw [List.forall₂_map_left_iff, List.forall₂_map_right_iff, List.forall₂_same]
    exact ih
  | matching h hcases ih ihcases =>
    rw [toJson, ofJson_object, casesJson_eq]
    refine .matching rfl rfl ih rfl ?_
    rw [List.forall₂_map_left_iff, List.forall₂_same]
    exact fun c hc => ⟨rfl, rfl, _, rfl, ihcases c hc⟩
  | lambda names h ih =>
    rw [toJson, ofJson_object]
    exact .lambda rfl rfl rfl ih

theorem Term.wellFormed_of_ofJson (v : Json) :
    ∀ t, Term.ofJson v = .ok t → t.WellFormed := by
  induction v using Json.induct_below with
  | h v ih =>
    intro t h
    cases v with
    | null => simp [ofJson, Read.fault] at h
    | bool b => simp [ofJson, Read.fault] at h
    | array items => simp [ofJson, Read.fault] at h
    | int n =>
      obtain rfl : number n = t := by simpa [ofJson] using h
      exact .number n
    | decimal x =>
      obtain rfl : decimal x = t := by simpa [ofJson] using h
      exact .decimal x
    | string s =>
      obtain rfl : string s = t := by simpa [ofJson] using h
      exact .string s
    | object o =>
      have hfield : ∀ {key v t}, Table.get? key o = some v → ofJson v = .ok t → t.WellFormed :=
        fun hv ht => ih (.field _) [] _ (Json.follow?_field hv []) _ ht
      have hitem : ∀ {key items v t}, Table.get? key o = some (.array items) → v ∈ items →
          ofJson v = .ok t → t.WellFormed := by
        intro key items v t hitems hv ht
        obtain ⟨i, hi⟩ := Json.exists_follow?_item hitems hv
        exact ih _ _ v (hi []) t ht
      cases ofJson_object.mp h with
      | var _ _ _ => exact .var _ _
      | bits _ _ hpos _ _ => exact .bits _ hpos
      | quantified _ _ _ _ _ hchild hv => exact .quantified _ _ (hfield hchild hv)
      | lambda _ _ hbody hv => exact .lambda _ (hfield hbody hv)
      | app _ _ _ _ hitems _ hterms hargs =>
        subst hargs
        refine .app fun a ha => ?_
        obtain ⟨v, hv, ht⟩ := exists_of_forall₂ hterms (List.of_mem_zip ha).2
        exact hitem hitems hv ht
      | matching _ hterm hv hbinders hcases =>
        refine .matching (hfield hterm hv) fun c hc => ?_
        obtain ⟨c', hc', hreads⟩ := exists_of_forall₂ hcases hc
        obtain ⟨w, hw, hresult⟩ := hreads.result
        obtain ⟨i, hi⟩ := Json.exists_follow?_item hbinders (List.mem_map_of_mem hc')
        exact ih _ _ w ((hi _).trans (Json.follow?_singleton hw)) _ hresult

/-! ## Attribute values -/

mutual

theorem InfoValue.ofJson_toJson : ∀ x : InfoValue, InfoValue.ofJson x.toJson = .ok x
  | .unit => by rw [InfoValue.toJson, InfoValue.ofJson]
  | .string s => by rw [InfoValue.toJson, InfoValue.ofJson]
  | .int n => by rw [InfoValue.toJson, InfoValue.ofJson]
  | .decimal x => by rw [InfoValue.toJson, InfoValue.ofJson]
  | .keyword name => by
    have hname : Members.stringField [("keyword", .string name)] "keyword" = .ok name :=
      Members.stringField_eq_ok.mpr rfl
    rw [InfoValue.toJson, InfoValue.ofJson, hname]
    rfl
  | .list values => by
    rw [InfoValue.toJson, InfoValue.ofJson, infoValuesFrom_toJson values 0]
    rfl

theorem infoValuesFrom_toJson :
    ∀ (xs : List InfoValue) (i : Nat), infoValuesFrom i (infoValuesJson xs) = .ok xs
  | [], i => by rw [infoValuesJson, infoValuesFrom]
  | x :: xs, i => by
    rw [infoValuesJson, infoValuesFrom, InfoValue.ofJson_toJson x, infoValuesFrom_toJson xs]
    rfl

end

end Realizability
