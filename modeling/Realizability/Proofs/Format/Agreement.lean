import Realizability.Proofs.Format.Term

/-!
# Values that agree on the fields of the format

The members of an object may stand in any order, and an object may have members that the format has
no name for. Values that differ in nothing else, at any depth, are read as the same events and terms
or refused for the same fault at the same place. Here they are read as terms.
-/

namespace Realizability

theorem Table.get?_of_perm {α : Type} {t t' : Table α} {key : String} (hkeys : t.keys.Nodup)
    (h : t.Perm t') : t.get? key = t'.get? key := by
  induction h with
  | nil => rfl
  | cons e _ ih =>
    obtain ⟨k, v⟩ := e
    simp only [get?, ih (List.nodup_cons.mp hkeys).2]
  | swap e f t =>
    obtain ⟨k, v⟩ := e
    obtain ⟨l, w⟩ := f
    have hne : l ≠ k := by
      rintro rfl
      exact (List.nodup_cons.mp hkeys).1 (List.mem_cons_self ..)
    by_cases hk : k = key
    · simp [get?, hk, hk ▸ hne]
    · simp [get?, hk]
  | trans h _ ih ih' => exact (ih hkeys).trans (ih' ((h.map Prod.fst).nodup_iff.mp hkeys))

/-! ## Agreement -/

def formatFields : List String := [
  "$event", "$termType", "argumentSorts", "arguments", "bindingSorts", "binders", "bindings", "body",
  "bodyRelations", "child", "children", "constraint", "constructor", "constructors", "definition",
  "grammar", "head", "inputVariables", "instance", "keyword", "name", "nonTerminals", "occurrences",
  "operator", "outputVariables", "productions", "rank", "returnSort", "signature", "size", "sort",
  "term", "termType", "value", "variables"]

/-- The values differ in the order of members and in members that are no fields of the format. -/
inductive Json.AgreeOnFields : Json → Json → Prop
  | null : AgreeOnFields .null .null
  | bool (b : Bool) : AgreeOnFields (.bool b) (.bool b)
  | int (n : Int) : AgreeOnFields (.int n) (.int n)
  | decimal (x : Binary64) : AgreeOnFields (.decimal x) (.decimal x)
  | string (s : String) : AgreeOnFields (.string s) (.string s)
  | array {vs ws : List Json} (h : List.Forall₂ AgreeOnFields vs ws) :
    AgreeOnFields (.array vs) (.array ws)
  | object {o o' : Members} (h : ∀ key ∈ formatFields,
      Option.Rel AgreeOnFields (Table.get? key o) (Table.get? key o')) :
    AgreeOnFields (.object o) (.object o')

/-- Under every name of a field the objects hold values that agree, or neither holds one. -/
def Members.AgreeOnFields (o o' : Members) : Prop :=
  ∀ key ∈ formatFields, Option.Rel Json.AgreeOnFields (Table.get? key o) (Table.get? key o')

theorem Json.AgreeOnFields.refl (v : Json) : v.AgreeOnFields v := by
  induction v using Json.induct_below with
  | h v ih =>
    cases v with
    | null => exact .null
    | bool b => exact .bool b
    | int n => exact .int n
    | decimal x => exact .decimal x
    | string s => exact .string s
    | array items =>
      refine .array (List.forall₂_same.mpr fun v hv => ?_)
      obtain ⟨i, hi⟩ := List.mem_iff_getElem?.mp hv
      exact ih _ [] v (Json.follow?_index hi [])
    | object o =>
      refine .object fun key _ => ?_
      cases hv : Table.get? key o with
      | none => exact .none
      | some v => exact .some (ih _ [] v (Json.follow?_singleton hv))

theorem forall₂_trans {α : Type} {R : α → α → Prop} {as bs cs : List α}
    (htrans : ∀ a ∈ as, ∀ b c, R a b → R b c → R a c) (h : List.Forall₂ R as bs)
    (h' : List.Forall₂ R bs cs) : List.Forall₂ R as cs := by
  induction h generalizing cs with
  | nil => exact h'
  | cons hab _ ih =>
    cases h' with
    | cons hbc h' =>
      rw [List.forall_mem_cons] at htrans
      exact .cons (htrans.1 _ _ hab hbc) (ih htrans.2 h')

theorem Json.AgreeOnFields.trans {u v w : Json} (h : u.AgreeOnFields v) (h' : v.AgreeOnFields w) :
    u.AgreeOnFields w := by
  induction u using Json.induct_below generalizing v w with
  | h u ih =>
    cases h with
    | @array us vs hvs =>
      cases h' with
      | array hws =>
        refine .array (forall₂_trans (fun u hu v w => ?_) hvs hws)
        obtain ⟨i, hi⟩ := List.mem_iff_getElem?.mp hu
        exact ih _ [] u (Json.follow?_index hi [])
    | @object o o' h =>
      cases h' with
      | @object _ o'' h' =>
        refine .object fun key hkey => ?_
        have hrel := h key hkey
        have hrel' := h' key hkey
        cases hu : Table.get? key o with
        | none =>
          rw [hu] at hrel
          generalize Table.get? key o' = r at hrel hrel'
          cases hrel
          exact hrel'
        | some u =>
          rw [hu] at hrel
          generalize Table.get? key o' = r, Table.get? key o'' = r' at hrel hrel'
          cases hrel with
          | some huv =>
            cases hrel' with
            | some hvw => exact .some (ih _ [] u (Json.follow?_singleton hu) huv hvw)
    | _ => exact h'

namespace Members.AgreeOnFields

variable {o o' : Members} {key : String} {v w : Json}

theorem refl (o : Members) : o.AgreeOnFields o := by
  intro key _
  cases Table.get? key o with
  | none => exact .none
  | some v => exact .some (.refl v)

theorem object (h : o.AgreeOnFields o') : (Json.object o).AgreeOnFields (.object o') := .object h

theorem cons (hv : v.AgreeOnFields w) (h : o.AgreeOnFields o') :
    Members.AgreeOnFields ((key, v) :: o) ((key, w) :: o') := by
  intro name hname
  by_cases hkey : key = name
  · simpa [Table.get?, hkey] using Option.Rel.some hv
  · simpa [Table.get?, hkey] using h name hname

theorem trans {o'' : Members} (h : o.AgreeOnFields o') (h' : o'.AgreeOnFields o'') :
    o.AgreeOnFields o'' := by
  have hobject : (Json.object o).AgreeOnFields (.object o'') :=
    Json.AgreeOnFields.trans (.object h) (.object h')
  cases hobject with
  | object h => exact h

theorem skip (hkey : key ∉ formatFields) (h : o.AgreeOnFields o') :
    Members.AgreeOnFields ((key, v) :: o) o' := by
  intro name hname
  have hne : key ≠ name := fun heq => hkey (heq ▸ hname)
  simpa [Table.get?, hne] using h name hname

theorem of_perm (hkeys : (Table.keys o).Nodup) (h : o.Perm o') : o.AgreeOnFields o' := by
  intro name hname
  rw [← Table.get?_of_perm hkeys h]
  exact refl o name hname

end Members.AgreeOnFields

/-! ## Reading side by side -/

/-- The same fault at the same place, or results that are related. -/
inductive SameRead {α β : Type} (R : α → β → Prop) : Read α → Read β → Prop
  | ok {a : α} {b : β} (h : R a b) : SameRead R (.ok a) (.ok b)
  | error (e : FormatError) : SameRead R (.error e) (.error e)

namespace SameRead

section
variable {α α' β β' : Type} {R : α → α' → Prop} {S : β → β' → Prop} {x : Read α} {x' : Read α'}

theorem refl (x : Read α) : SameRead (· = ·) x x := by
  cases x with
  | ok a => exact .ok rfl
  | error e => exact .error e

theorem eq {y : Read α} (h : SameRead (· = ·) x y) : x = y := by
  cases h with
  | ok h => rw [h]
  | error e => rfl

theorem bind {f : α → Read β} {g : α' → Read β'} (h : SameRead R x x')
    (hf : ∀ a a', R a a' → SameRead S (f a) (g a')) : SameRead S (x >>= f) (x' >>= g) := by
  cases h with
  | ok h => exact hf _ _ h
  | error e => exact .error e

theorem within {p : Json.Path} (h : SameRead R x x') :
    SameRead R (within p x) (Realizability.within p x') := by
  cases h with
  | ok h => exact .ok h
  | error e => exact .error (e.under p)

theorem bind_same {x y : Read α} {f g : α → Read β} (h : x = y) (hf : ∀ a, f a = g a) :
    x >>= f = y >>= g := by
  rw [h, funext hf]

theorem within_same {p : Json.Path} {x y : Read α} (h : x = y) :
    Realizability.within p x = Realizability.within p y := congrArg (Realizability.within p) h

theorem bind_eq {f : α → Read β} {g : α' → Read β} (h : SameRead R x x')
    (hf : ∀ a a', R a a' → f a = g a') : x >>= f = x' >>= g :=
  (h.bind fun a a' ha => by rw [hf a a' ha]; exact refl (g a')).eq

theorem readFrom {f : α → Read β} {g : α' → Read β'} {i : Nat} {as : List α} {as' : List α'}
    (h : List.Forall₂ R as as') (hf : ∀ a a', a ∈ as → R a a' → SameRead S (f a) (g a')) :
    SameRead (List.Forall₂ S) (readFrom f i as) (readFrom g i as') := by
  induction h generalizing i with
  | nil => exact .ok .nil
  | @cons a a' as as' ha _ ih =>
    refine (hf a a' (List.mem_cons_self ..) ha).within.bind fun b b' hb => ?_
    refine (ih fun a a' hmem => hf a a' (List.mem_cons_of_mem _ hmem)).bind fun bs bs' hbs => ?_
    exact .ok (.cons hb hbs)

end

end SameRead

theorem readFrom_agree {α α' β : Type} {R : α → α' → Prop} {f : α → Read β} {g : α' → Read β}
    {i : Nat} {as : List α} {as' : List α'} (h : List.Forall₂ R as as')
    (hf : ∀ a a', a ∈ as → R a a' → f a = g a') : readFrom f i as = readFrom g i as' := by
  have hread : SameRead (List.Forall₂ (· = ·)) (readFrom f i as) (readFrom g i as') :=
    .readFrom h fun a a' hmem ha => by
      rw [hf a a' hmem ha]
      exact .refl (g a')
  rw [List.forall₂_eq_eq_eq] at hread
  exact hread.eq

/-! ## Kinds -/

namespace Json.AgreeOnFields

variable {v w : Json} (h : v.AgreeOnFields w)
include h

theorem asString : v.asString = w.asString := by
  cases h <;> rfl

theorem asInteger : v.asInteger = w.asInteger := by
  cases h <;> rfl

theorem asObject : SameRead Members.AgreeOnFields v.asObject w.asObject := by
  cases h with
  | object h => exact .ok h
  | _ => exact .error _

theorem asArray : SameRead (List.Forall₂ Json.AgreeOnFields) v.asArray w.asArray := by
  cases h with
  | array h => exact .ok h
  | _ => exact .error _

end Json.AgreeOnFields

/-! ## Fields -/

namespace Members.AgreeOnFields

section
variable {o o' : Members} (h : o.AgreeOnFields o') {key : String} (hkey : key ∈ formatFields)
include h hkey

theorem get? : Table.get? key o = none ∧ Table.get? key o' = none ∨
    ∃ v w, Table.get? key o = some v ∧ Table.get? key o' = some w ∧ v.AgreeOnFields w := by
  have hrel := h key hkey
  generalize Table.get? key o = r, Table.get? key o' = r' at hrel
  cases hrel with
  | none => exact .inl ⟨rfl, rfl⟩
  | some hv => exact .inr ⟨_, _, rfl, rfl, hv⟩

theorem field : SameRead Json.AgreeOnFields (o.field key) (o'.field key) := by
  unfold Members.field
  obtain ⟨hnone, hnone'⟩ | ⟨v, w, hv, hw, hvw⟩ := h.get? hkey
  · rw [hnone, hnone']
    exact .error _
  · rw [hv, hw]
    exact .ok hvw

theorem fieldAs_related {α β : Type} {R : α → β → Prop} {f : Json → Read α} {g : Json → Read β}
    (hf : ∀ v w, v.AgreeOnFields w → SameRead R (f v) (g w)) :
    SameRead R (o.fieldAs f key) (o'.fieldAs g key) :=
  (h.field hkey).bind fun v w hvw => (hf v w hvw).within

theorem fieldAs {α : Type} {f g : Json → Read α}
    (hf : ∀ v w, Table.get? key o = some v → v.AgreeOnFields w → f v = g w) :
    o.fieldAs f key = o'.fieldAs g key := by
  unfold Members.fieldAs Members.field
  obtain ⟨hnone, hnone'⟩ | ⟨v, w, hv, hw, hvw⟩ := h.get? hkey
  · rw [hnone, hnone']
    rfl
  · rw [hv, hw]
    exact SameRead.within_same (hf v w hv hvw)

theorem stringField : o.stringField key = o'.stringField key :=
  h.fieldAs hkey fun _ _ _ hvw => hvw.asString

theorem integerField : o.integerField key = o'.integerField key :=
  h.fieldAs hkey fun _ _ _ hvw => hvw.asInteger

theorem objectField : SameRead Members.AgreeOnFields (o.objectField key) (o'.objectField key) :=
  h.fieldAs_related hkey fun _ _ hvw => hvw.asObject

theorem arrayField :
    SameRead (List.Forall₂ Json.AgreeOnFields) (o.arrayField key) (o'.arrayField key) :=
  h.fieldAs_related hkey fun _ _ hvw => hvw.asArray

theorem objectsField :
    SameRead (List.Forall₂ Members.AgreeOnFields) (o.objectsField key) (o'.objectsField key) :=
  (h.arrayField hkey).bind fun _ _ hvs =>
    (SameRead.readFrom hvs fun _ _ _ hvw => hvw.asObject).within

theorem valuesField {β : Type} {f : Json → Read β} (hf : ∀ v w, v.AgreeOnFields w → f v = f w) :
    (do within [.field key] (readEach f (← o.arrayField key))) =
      (do within [.field key] (readEach f (← o'.arrayField key))) :=
  (h.arrayField hkey).bind_eq fun _ _ hvs =>
    SameRead.within_same (readFrom_agree hvs fun v w _ => hf v w)

theorem stringsField : o.stringsField key = o'.stringsField key :=
  h.valuesField hkey fun _ _ hvw => hvw.asString

theorem stringsField? : o.stringsField? key = o'.stringsField? key := by
  unfold Members.stringsField?
  rw [h.stringsField hkey]
  obtain ⟨hnone, hnone'⟩ | ⟨v, w, hv, hw, hvw⟩ := h.get? hkey
  · rw [hnone, hnone']
  · rw [hv, hw]
    cases hvw <;> rfl

end

end Members.AgreeOnFields

/-! ## Identifiers and relations -/

theorem Index.ofJson_agree {v w : Json} (h : v.AgreeOnFields w) : ofJson v = ofJson w := by
  cases h <;> rfl

theorem Identifier.ofJson_agree {v w : Json} (h : v.AgreeOnFields w) : ofJson v = ofJson w := by
  cases h with
  | array h =>
    cases h with
    | nil => rfl
    | cons hhead htail =>
      rw [ofJson, ofJson, hhead.asString, readFrom_agree htail fun _ _ _ => Index.ofJson_agree]
  | _ => rfl

theorem bitsOfJson_agree {v w : Json} (h : v.AgreeOnFields w) : bitsOfJson v = bitsOfJson w := by
  cases h <;> rfl

theorem sameLength_agree {α α' β β' : Type} {what : Pairing} {xs : List α} {xs' : List α'}
    {ys : List β} {ys' : List β'} (h : xs.length = xs'.length) (h' : ys.length = ys'.length) :
    sameLength what xs ys = sameLength what xs' ys' := by
  unfold sameLength
  rw [h, h']

open SameRead

section
variable {o o' : Members} (h : o.AgreeOnFields o')
include h

theorem identifierField_agree {key : String} (hkey : key ∈ formatFields) :
    o.identifierField key = o'.identifierField key :=
  h.fieldAs hkey fun _ _ _ => Identifier.ofJson_agree

theorem identifiersField_agree {key : String} (hkey : key ∈ formatFields) :
    o.identifiersField key = o'.identifiersField key :=
  h.valuesField hkey fun _ _ => Identifier.ofJson_agree

theorem Relation.ofMembers_agree : ofMembers o = ofMembers o' := by
  refine bind_same (h.stringField (by decide)) fun name => ?_
  refine (h.arrayField (by decide)).bind_eq fun vs ws hvs => ?_
  refine bind_same (h.stringsField (by decide)) fun args => ?_
  refine bind_same (sameLength_agree hvs.length_eq rfl) fun _ => ?_
  have hsorts : readEach Identifier.ofJson vs = readEach Identifier.ofJson ws :=
    readFrom_agree hvs fun _ _ _ => Identifier.ofJson_agree
  rw [hsorts]

/-! ## Terms -/

theorem bindingsOf_agree : bindingsOf o = bindingsOf o' :=
  bind_same (h.stringsField (by decide)) fun _ =>
    bind_same (identifiersField_agree h (by decide)) fun _ => rfl

theorem termMember_agree {key : String} (hkey : key ∈ formatFields)
    (hterm : ∀ v w, Table.get? key o = some v → v.AgreeOnFields w → Term.ofJson v = Term.ofJson w) :
    termMember key o = termMember key o' := by
  rw [termMember_eq, termMember_eq]
  exact h.fieldAs hkey hterm

theorem termItems_agree {key : String} (hkey : key ∈ formatFields)
    (hterm : ∀ vs, Table.get? key o = some (.array vs) → ∀ v ∈ vs, ∀ w, v.AgreeOnFields w →
      Term.ofJson v = Term.ofJson w) : termItems key o = termItems key o' := by
  rw [termItems_eq, termItems_eq]
  refine h.fieldAs hkey fun v w hv hvw => ?_
  cases hvw with
  | array hvs =>
    rw [termsOf, termsOf, termsFrom_eq, termsFrom_eq]
    exact readFrom_agree hvs fun v w hmem hvw => hterm _ hv v hmem w hvw
  | _ => rfl

theorem caseItems_agree {key : String} (hkey : key ∈ formatFields)
    (hcase : ∀ vs, Table.get? key o = some (.array vs) → ∀ v ∈ vs, ∀ w, v.AgreeOnFields w →
      caseOf v = caseOf w) : caseItems key o = caseItems key o' := by
  rw [caseItems_eq, caseItems_eq]
  refine h.fieldAs hkey fun v w hv hvw => ?_
  cases hvw with
  | array hvs =>
    rw [casesOf, casesOf, casesFrom_eq, casesFrom_eq]
    exact readFrom_agree hvs fun v w hmem hvw => hcase _ hv v hmem w hvw
  | _ => rfl

end

theorem caseOf_agree {v w : Json} (h : v.AgreeOnFields w)
    (hterm : ∀ o u, v = .object o → Table.get? "child" o = some u → ∀ u', u.AgreeOnFields u' →
      Term.ofJson u = Term.ofJson u') : caseOf v = caseOf w := by
  cases h with
  | @object o o' h =>
    have h : Members.AgreeOnFields o o' := h
    rw [caseOf, caseOf]
    have hrest : ∀ operator : Option String, (do
        let names ← Members.stringsField o "arguments"
        let result ← termMember "child" o
        return (⟨operator, names, result⟩ : MatchCase Term)) = (do
        let names ← Members.stringsField o' "arguments"
        let result ← termMember "child" o'
        return (⟨operator, names, result⟩ : MatchCase Term)) := by
      intro operator
      refine bind_same (h.stringsField (by decide)) fun names => ?_
      have hchild : termMember "child" o = termMember "child" o' :=
        termMember_agree h (by decide) fun u u' hu => hterm o u rfl hu u'
      exact bind_same hchild fun _ => rfl
    refine (h.field (by decide)).bind_eq fun u u' hu => ?_
    cases hu with
    | null => exact hrest none
    | string s => exact hrest (some s)
    | _ => rfl
  | _ => rfl

theorem Term.ofJson_agree {v w : Json} (h : v.AgreeOnFields w) : ofJson v = ofJson w := by
  induction v using Json.induct_below generalizing w with
  | h v ih =>
    cases h with
    | @object o o' h =>
      have h : Members.AgreeOnFields o o' := h
      have hmember : ∀ {key}, key ∈ formatFields → termMember key o = termMember key o' :=
        fun hkey => termMember_agree h hkey fun v w hv hvw => ih _ [] v (Json.follow?_singleton hv) hvw
      rw [ofJson, ofJson]
      refine bind_same (h.stringField (by decide)) fun kind => ?_
      split
      · refine bind_same (identifierField_agree h (by decide)) fun _ => ?_
        refine bind_same (identifierField_agree h (by decide)) fun _ => ?_
        refine bind_same (identifiersField_agree h (by decide)) fun sorts => ?_
        refine (h.arrayField (by decide)).bind_eq fun vs ws hvs => ?_
        refine bind_same (sameLength_agree rfl hvs.length_eq) fun _ => ?_
        refine bind_same (termItems_agree h (by decide) fun vs hvs v hv w hvw => ?_) fun _ => rfl
        obtain ⟨i, hi⟩ := Json.exists_follow?_item hvs hv
        exact ih _ _ v (hi []) hvw
      · exact bind_same (h.stringField (by decide)) fun _ =>
          bind_same (identifierField_agree h (by decide)) fun _ => rfl
      · exact bind_same (bindingsOf_agree h) fun _ => bind_same (hmember (by decide)) fun _ => rfl
      · exact bind_same (bindingsOf_agree h) fun _ => bind_same (hmember (by decide)) fun _ => rfl
      · refine bind_same (hmember (by decide)) fun _ => ?_
        refine (h.objectsField (by decide)).bind_eq fun _ _ _ => ?_
        refine bind_same (caseItems_agree h (by decide) fun vs hvs v hv w hvw => ?_) fun _ => rfl
        obtain ⟨i, hi⟩ := Json.exists_follow?_item hvs hv
        refine caseOf_agree hvw fun o u hv' hu u' huu' => ?_
        subst hv'
        exact ih _ _ u ((hi _).trans (Json.follow?_singleton hu)) huu'
      · exact bind_same (h.stringsField (by decide)) fun _ => bind_same (hmember (by decide)) fun _ => rfl
      · refine bind_same (h.integerField (by decide)) fun width => ?_
        split
        · rfl
        · refine (h.field (by decide)).bind_eq fun v w hvw => ?_
          exact bind_same (bitsOfJson_agree hvw) fun _ => rfl
      · rfl
    | array _ => simp [ofJson]
    | _ => rfl

/-! ## Attribute values -/

theorem InfoValue.ofJson_agree {v w : Json} (h : v.AgreeOnFields w) : ofJson v = ofJson w := by
  induction v using Json.induct_below generalizing w with
  | h v ih =>
    cases h with
    | array hvs =>
      rw [ofJson, ofJson, infoValuesFrom_eq, infoValuesFrom_eq]
      refine bind_same (readFrom_agree hvs fun v w hv hvw => ?_) fun _ => rfl
      obtain ⟨i, hi⟩ := List.mem_iff_getElem?.mp hv
      exact ih _ [] v (Json.follow?_index hi []) hvw
    | @object o o' h =>
      rw [ofJson, ofJson]
      exact bind_same (Members.AgreeOnFields.stringField h (by decide)) fun _ => rfl
    | _ => rfl

end Realizability
