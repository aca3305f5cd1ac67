import Realizability.Proofs.Format.TermLocation

/-!
# Where the faults of events lie

Events of every kind, and lists of events or terms, are refused at the place that their fault
names.
-/

namespace Realizability

open FaultsIn

section
variable {v : Json} {o : Members} {key : String}

/-! ## Functions and constructors -/

theorem functionHead_faultsIn : FaultsIn (.object o) (functionHead o) := by
  refine bind stringField fun name _ => bind objectField fun rank hrank => ?_
  rw [Members.objectField_eq_ok] at hrank
  refine inField ?_ hrank
  exact bind identifierField_faultsIn fun _ _ => bind identifiersField_faultsIn fun _ _ => pure _

theorem definitionOf_faultsIn {sorts : List Identifier} :
    FaultsIn (.object o) (definitionOf sorts o) := by
  refine bind stringsField fun names hnames => ?_
  rw [Members.stringsField_eq_ok] at hnames
  split
  · exact bind (termMember_faultsIn fun v _ => Term.faultsIn v) fun _ _ => pure _
  · exact fault (Json.follow?_singleton hnames) (by simp) (by simp)

theorem datatypeConstructorOf_faultsIn : FaultsIn (.object o) (datatypeConstructorOf o) :=
  bind stringField fun _ _ => bind identifiersField_faultsIn fun _ _ => pure _

theorem constructorOf_faultsIn : FaultsIn (.object o) (constructorOf o) :=
  bind stringField fun _ _ => bind stringsField fun _ _ => pure _

theorem constructorsField_faultsIn {α : Type} {f : Members → Read α}
    (h : ∀ o, FaultsIn (.object o) (f o)) : FaultsIn (.object o) (constructorsField f o) :=
  bind objectsField fun _ hos =>
    inField (items fun o _ => h o) (Members.objectsField_eq_ok.mp hos)

/-! ## Horn clauses -/

theorem clauseConstructorOf_faultsIn : FaultsIn (.object o) (clauseConstructorOf o) := by
  refine bind stringField fun name _ => bind stringField fun termType _ => ?_
  refine bind stringsField fun names _ => bind arrayField fun sorts hsorts => ?_
  rw [Members.arrayField_eq_ok] at hsorts
  refine bind lengths fun _ _ => ?_
  exact bind (inField (values fun v _ => Identifier.faultsIn v) hsorts) fun _ _ => pure _

theorem distinctFrom_faultsIn {seen : List String} {i : Nat} {xs : List String}
    (hv : v.HasItems i (xs.map .string)) : FaultsIn v (distinctFrom seen i xs) := by
  induction xs generalizing seen i with
  | nil => exact ok ()
  | cons x xs ih =>
    rw [distinctFrom]
    split
    · exact fault hv.head (by simp) (by simp)
    · exact ih hv.tail

theorem knownFrom_faultsIn {known : List String} {usage : Usage} {i : Nat} {xs : List String}
    (hv : v.HasItems i (xs.map .string)) : FaultsIn v (knownFrom known usage i xs) := by
  induction xs generalizing i with
  | nil => exact ok ()
  | cons x xs ih =>
    rw [knownFrom]
    split
    · exact ih hv.tail
    · exact fault hv.head (by simp) (by simp)

theorem stringsField?_eq_some {names : List String} (h : o.stringsField? key = .ok (some names)) :
    Table.get? key o = some (.array (names.map .string)) := by
  unfold Members.stringsField? at h
  split at h
  · cases h
  · cases h
  · obtain ⟨ss, hss, h⟩ := bind_eq_ok.mp h
    cases h
    exact Members.stringsField_eq_ok.mp hss

theorem usedVariables_faultsIn {known : List String} {usage : Usage} :
    FaultsIn (.object o) (usedVariables known usage key o) := by
  refine bind stringsField? fun names hnames => ?_
  cases names with
  | none => exact pure _
  | some names =>
    have hused : FaultsIn (.array (names.map .string)) (knownFrom known usage 0 names) :=
      knownFrom_faultsIn (Json.hasItems_array _)
    exact bind (inField hused (stringsField?_eq_some hnames)) fun _ _ => pure _

theorem clauseVariables_faultsIn : FaultsIn (.object o) (clauseVariables o) := by
  refine bind stringsField fun names hnames => ?_
  rw [Members.stringsField_eq_ok] at hnames
  refine bind (inField (distinctFrom_faultsIn (Json.hasItems_array _)) hnames) fun _ _ => ?_
  exact bind usedVariables_faultsIn fun _ _ => bind usedVariables_faultsIn fun _ _ => pure _

theorem hornClauseOf_faultsIn : FaultsIn (.object o) (hornClauseOf o) := by
  refine bind objectField fun constructor hconstructor => ?_
  rw [Members.objectField_eq_ok] at hconstructor
  refine bind (inField clauseConstructorOf_faultsIn hconstructor) fun _ _ => ?_
  refine bind objectField fun head hhead => ?_
  rw [Members.objectField_eq_ok] at hhead
  refine bind (inField Relation.faultsIn hhead) fun _ _ => bind objectsField fun body hbody => ?_
  rw [Members.objectsField_eq_ok] at hbody
  refine bind (inField (items fun _ _ => Relation.faultsIn) hbody) fun _ _ => ?_
  refine bind (termMember_faultsIn fun v _ => Term.faultsIn v) fun _ _ => ?_
  exact bind clauseVariables_faultsIn fun _ _ => pure _

/-! ## Grammars -/

theorem nonterminalOf_faultsIn {declared : List String} :
    FaultsIn (.object o) (nonterminalOf declared o) := by
  refine bind stringField fun name hname => ?_
  rw [Members.stringField_eq_ok] at hname
  split
  · exact fault (Json.follow?_singleton hname) (by simp) (by simp)
  · exact bind stringField fun _ _ => pure _

theorem nonterminalsFrom_faultsIn {declared : List String} {i : Nat} {os : List Members}
    (hv : v.HasItems i (os.map .object)) : FaultsIn v (nonterminalsFrom declared i os) := by
  induction os generalizing declared i with
  | nil => exact ok []
  | cons o os ih =>
    exact bind (nonterminalOf_faultsIn.under hv.head) fun x _ => bind (ih hv.tail) fun _ _ => pure _

theorem childrenFrom_faultsIn {declared : List String} {i : Nat} {xs : List String}
    (hv : v.HasItems i (xs.map .string)) : FaultsIn v (childrenFrom declared i xs) := by
  induction xs generalizing i with
  | nil => exact ok ()
  | cons x xs ih =>
    rw [childrenFrom]
    split
    · exact ih hv.tail
    · exact fault hv.head (by simp) (by simp)

theorem productionOf_faultsIn {declared : List String} {seen : List (String × String)} :
    FaultsIn (.object o) (productionOf declared seen o) := by
  refine bind stringField fun nonterminal hnonterminal => ?_
  refine bind stringField fun operator hoperator => ?_
  refine bind stringsField fun occurrences hoccurrences => ?_
  rw [Members.stringField_eq_ok] at hnonterminal hoperator
  rw [Members.stringsField_eq_ok] at hoccurrences
  split
  · exact fault (Json.follow?_singleton hnonterminal) (by simp) (by simp)
  · split
    · exact fault (Json.follow?_singleton hoperator) (by simp) (by simp)
    · have hchildren : FaultsIn (.array (occurrences.map .string))
          (childrenFrom declared 0 occurrences) := childrenFrom_faultsIn (Json.hasItems_array _)
      exact bind (inField hchildren hoccurrences) fun _ _ => pure _

theorem productionsFrom_faultsIn {declared : List String} {seen : List (String × String)} {i : Nat}
    {os : List Members} (hv : v.HasItems i (os.map .object)) :
    FaultsIn v (productionsFrom declared seen i os) := by
  induction os generalizing seen i with
  | nil => exact ok []
  | cons o os ih =>
    exact bind (productionOf_faultsIn.under hv.head) fun x _ => bind (ih hv.tail) fun _ _ => pure _

theorem grammarOf_faultsIn : FaultsIn (.object o) (grammarOf o) := by
  refine bind objectsField fun heads hheads => bind objectsField fun rules hrules => ?_
  rw [Members.objectsField_eq_ok] at hheads hrules
  refine bind (inField (nonterminalsFrom_faultsIn (Json.hasItems_array _)) hheads) fun _ _ => ?_
  exact bind (inField (productionsFrom_faultsIn (Json.hasItems_array _)) hrules) fun _ _ => pure _

theorem synthFunOf_faultsIn : FaultsIn (.object o) (synthFunOf o) := by
  refine bind stringField fun _ _ => bind stringField fun _ _ => bind objectField fun g hg => ?_
  rw [Members.objectField_eq_ok] at hg
  exact bind (inField grammarOf_faultsIn hg) fun _ _ => pure _

/-! ## Events -/

theorem Event.ofMembers_faultsIn : FaultsIn (.object o) (ofMembers o) := by
  refine bind stringField fun kind hkind => ?_
  rw [Members.stringField_eq_ok] at hkind
  split
  · refine bind stringField fun _ _ => bind ?_ fun _ _ => pure _
    cases hvalue : Table.get? "value" o with
    | some v => exact inField (InfoValue.faultsIn v) hvalue
    | none => exact ok _
  · exact bind functionHead_faultsIn fun _ _ => pure _
  · refine bind functionHead_faultsIn fun _ _ => bind objectField fun definition hdefinition => ?_
    rw [Members.objectField_eq_ok] at hdefinition
    exact bind (inField definitionOf_faultsIn hdefinition) fun _ _ => pure _
  · exact bind stringField fun _ _ => pure _
  · exact bind stringField fun _ _ =>
      bind (constructorsField_faultsIn fun _ => datatypeConstructorOf_faultsIn) fun _ _ => pure _
  · exact bind stringField fun _ _ => pure _
  · exact bind stringField fun _ _ =>
      bind (constructorsField_faultsIn fun _ => constructorOf_faultsIn) fun _ _ => pure _
  · exact hornClauseOf_faultsIn
  · exact bind (termMember_faultsIn fun v _ => Term.faultsIn v) fun _ _ => pure _
  · exact bind synthFunOf_faultsIn fun _ _ => pure _
  · exact pure _
  · exact pure _
  · exact fault (Json.follow?_singleton hkind) (by simp) (by simp)

end

theorem Event.listOfJson_faultsIn (v : Json) : FaultsIn v (listOfJson v) := by
  cases v with
  | array vs =>
    refine bind (values fun _ _ => asObject) fun os hos => ?_
    obtain rfl : vs = os.map .object := (readEach_eq_map fun _ _ => Json.asObject_eq_ok).mp hos
    exact items fun _ _ => ofMembers_faultsIn
  | _ => exact fault rfl (by simp) (by simp)

theorem Term.listOfJson_faultsIn (v : Json) : FaultsIn v (listOfJson v) := by
  cases v with
  | array vs =>
    rw [listOfJson, termsFrom_eq]
    exact values fun v _ => Term.faultsIn v
  | _ => exact fault rfl (by simp) (by simp)

end Realizability
