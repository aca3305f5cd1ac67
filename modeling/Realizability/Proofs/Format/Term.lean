import Realizability.Proofs.Format.Field

/-!
# Terms that can be read

A term is read from an object if and only if the object has the fields of one of the kinds of terms
(`Term.ofJson_object`). What lies below a value is smaller, so that terms of any depth are reached
by induction on the value.
-/

namespace Realizability

/-! ## Values below a value -/

namespace Json

theorem sizeOf_get? {key : String} {o : Members} {v : Json} (h : Table.get? key o = some v) :
    sizeOf v < sizeOf o := by
  induction o with
  | nil => cases h
  | cons e o ih =>
    obtain ⟨k, w⟩ := e
    by_cases hk : k = key
    · obtain rfl : w = v := by simpa [Table.get?, hk] using h
      simp
      omega
    · have : sizeOf v < sizeOf o := ih (by simpa [Table.get?, hk] using h)
      simp
      omega

theorem sizeOf_step? {v w : Json} {s : Step} (h : v.step? s = some w) : sizeOf w < sizeOf v := by
  unfold step? at h
  split at h
  · have := sizeOf_get? h
    simp
    omega
  · have := List.sizeOf_lt_of_mem (List.mem_of_getElem? h)
    simp
    omega
  · cases h

theorem sizeOf_follow? {p : Path} {v w : Json} (h : v.follow? p = some w) :
    sizeOf w ≤ sizeOf v := by
  induction p generalizing v with
  | nil => cases h; exact Nat.le_refl _
  | cons s p ih =>
    obtain ⟨u, hu, h⟩ := Option.bind_eq_some_iff.mp h
    exact Nat.le_trans (ih h) (Nat.le_of_lt (sizeOf_step? hu))

/-- What holds of a value when it holds of all values below it holds of every value. -/
theorem induct_below {P : Json → Prop}
    (h : ∀ v, (∀ s p w, v.follow? (s :: p) = some w → P w) → P v) : ∀ v, P v := by
  have hsize : ∀ n v, sizeOf v ≤ n → P v := by
    intro n
    induction n with
    | zero =>
      intro v hv
      cases v <;> simp at hv
    | succ n ih =>
      intro v hv
      refine h v fun s p w hw => ih w ?_
      obtain ⟨u, hu, hw⟩ := Option.bind_eq_some_iff.mp hw
      have := sizeOf_step? hu
      have := sizeOf_follow? hw
      omega
  exact fun v => hsize (sizeOf v) v (Nat.le_refl _)

theorem follow?_field {o : Members} {key : String} {v : Json} (h : Table.get? key o = some v)
    (p : Path) : (object o).follow? (.field key :: p) = v.follow? p := by
  simp [follow?, step?, h]

theorem follow?_index {items : List Json} {i : Nat} {v : Json} (h : items[i]? = some v) (p : Path) :
    (array items).follow? (.index i :: p) = v.follow? p := by
  simp [follow?, step?, h]

theorem follow?_singleton {o : Members} {key : String} {v : Json} (h : Table.get? key o = some v) :
    (object o).follow? [.field key] = some v := follow?_field h []

theorem exists_follow?_item {o : Members} {key : String} {items : List Json} {v : Json}
    (hitems : Table.get? key o = some (.array items)) (hv : v ∈ items) :
    ∃ i, ∀ p, (object o).follow? (.field key :: .index i :: p) = v.follow? p := by
  obtain ⟨i, hi⟩ := List.mem_iff_getElem?.mp hv
  exact ⟨i, fun p => by rw [follow?_field hitems, follow?_index hi]⟩

end Json

/-! ## Kinds of terms -/

structure CaseReads (o : Members) (c : MatchCase Term) : Prop where
  operator : Table.get? "operator" o = some (c.operator.elim .null .string)
  names : Table.get? "arguments" o = some (.array (c.names.map .string))
  result : ∃ v, Table.get? "child" o = some v ∧ Term.ofJson v = .ok c.result

inductive TermReads (o : Members) : Term → Prop
  | app {name sort : Identifier} {sorts : List Identifier} {items : List Json} {ts : List Term}
    {args : List (Identifier × Term)}
    (kind : Table.get? "$termType" o = some (.string "application"))
    (hname : o.identifierField "name" = .ok name)
    (hsort : o.identifierField "returnSort" = .ok sort)
    (hsorts : o.identifiersField "argumentSorts" = .ok sorts)
    (hitems : Table.get? "arguments" o = some (.array items))
    (hlength : sorts.length = items.length)
    (hterms : List.Forall₂ (fun v t => Term.ofJson v = .ok t) items ts)
    (hargs : sorts.zip ts = args) : TermReads o (.app name sort args)
  | var {name : String} {sort : Identifier}
    (kind : Table.get? "$termType" o = some (.string "variable"))
    (hname : Table.get? "name" o = some (.string name))
    (hsort : o.identifierField "sort" = .ok sort) : TermReads o (.var name sort)
  | quantified {q : Quantifier} {names : List String} {sorts : List Identifier} {v : Json}
    {bindings : List TypedVar} {child : Term}
    (kind : Table.get? "$termType" o = some (.string q.name))
    (hnames : Table.get? "bindings" o = some (.array (names.map .string)))
    (hsorts : o.identifiersField "bindingSorts" = .ok sorts)
    (hlength : names.length = sorts.length) (hbindings : typedVars names sorts = bindings)
    (hchild : Table.get? "child" o = some v) (hv : Term.ofJson v = .ok child) :
    TermReads o (.quantified q bindings child)
  | matching {v : Json} {scrutinee : Term} {os : List Members} {cases : List (MatchCase Term)}
    (kind : Table.get? "$termType" o = some (.string "match"))
    (hterm : Table.get? "term" o = some v) (hv : Term.ofJson v = .ok scrutinee)
    (hbinders : Table.get? "binders" o = some (.array (os.map .object)))
    (hcases : List.Forall₂ CaseReads os cases) : TermReads o (.matching scrutinee cases)
  | lambda {names : List String} {v : Json} {body : Term}
    (kind : Table.get? "$termType" o = some (.string "lambda"))
    (hnames : Table.get? "arguments" o = some (.array (names.map .string)))
    (hbody : Table.get? "body" o = some v) (hv : Term.ofJson v = .ok body) :
    TermReads o (.lambda names body)
  | bits {width value : Nat} {v : Json}
    (kind : Table.get? "$termType" o = some (.string "bitvector"))
    (hwidth : Table.get? "size" o = some (.int width)) (hpos : 0 < width)
    (hvalue : Table.get? "value" o = some v) (hv : bitsOfJson v = .ok value) :
    TermReads o (.bits width value)

section
variable {α β : Type} {o : Members} {key : String}

theorem sameLength_eq_ok {what : Pairing} {xs : List α} {ys : List β} {u : Unit} :
    sameLength what xs ys = .ok u ↔ xs.length = ys.length := by
  unfold sameLength
  split <;> simp_all [Read.fault]

theorem termMember_eq_ok {t : Term} :
    termMember key o = .ok t ↔ ∃ v, Table.get? key o = some v ∧ Term.ofJson v = .ok t := by
  rw [termMember_eq, Members.fieldAs_eq_ok]

theorem termItems_eq_ok {ts : List Term} :
    termItems key o = .ok ts ↔ ∃ items, Table.get? key o = some (.array items) ∧
      List.Forall₂ (fun v t => Term.ofJson v = .ok t) items ts := by
  rw [termItems_eq, Members.fieldAs_eq_ok]
  constructor
  · rintro ⟨v, hv, h⟩
    cases v with
    | array items =>
      rw [termsOf, termsFrom_eq, readFrom_eq_ok] at h
      exact ⟨items, hv, h⟩
    | _ => cases h
  · rintro ⟨items, hv, h⟩
    refine ⟨.array items, hv, ?_⟩
    rwa [termsOf, termsFrom_eq, readFrom_eq_ok]

theorem caseOf_eq_ok {c : MatchCase Term} : caseOf (.object o) = .ok c ↔ CaseReads o c := by
  rw [caseOf, bind_eq_ok]
  constructor
  · intro h
    obtain ⟨v, hv, h⟩ := h
    rw [Members.field_eq_ok] at hv
    split at h
    all_goals
      simp only [bind_eq_ok, Members.stringsField_eq_ok, termMember_eq_ok] at h
      obtain ⟨operator, hoperator, names, hnames, result, hresult, h⟩ := h
      cases h
      refine ⟨?_, hnames, hresult⟩
      rw [hv]
    · cases hoperator
      simp
    · obtain ⟨s, hs, rfl⟩ := map_eq_ok.mp hoperator
      rw [within_eq_ok, Json.asString_eq_ok] at hs
      simp [hs]
  · intro h
    obtain ⟨operator, names, result⟩ := c
    refine ⟨_, Members.field_eq_ok.mpr h.operator, ?_⟩
    have hnames := Members.stringsField_eq_ok.mpr h.names
    have hresult := termMember_eq_ok.mpr h.result
    cases operator with
    | none => simp [hnames, hresult, bind, Except.bind, pure, Except.pure]
    | some s =>
      simp [hnames, hresult, Json.asString, bind, Except.bind, pure, Except.pure, Functor.map,
        Except.map]

theorem caseItems_eq_ok {os : List Members} (h : Table.get? key o = some (.array (os.map .object)))
    {cases : List (MatchCase Term)} :
    caseItems key o = .ok cases ↔ List.Forall₂ CaseReads os cases := by
  rw [caseItems_eq, Members.fieldAs_eq_ok]
  simp only [h, Option.some.injEq, exists_eq_left']
  rw [casesOf, casesFrom_eq, readFrom_eq_ok, List.forall₂_map_left_iff]
  simp only [caseOf_eq_ok]

theorem bindingsOf_eq_ok {xs : List TypedVar} : bindingsOf o = .ok xs ↔ ∃ names sorts,
    Table.get? "bindings" o = some (.array (names.map .string)) ∧
      o.identifiersField "bindingSorts" = .ok sorts ∧ names.length = sorts.length ∧
      xs = typedVars names sorts := by
  simp only [bindingsOf, bind_eq_ok, Members.stringsField_eq_ok, sameLength_eq_ok]
  constructor
  · rintro ⟨names, hnames, sorts, hsorts, -, hlength, h⟩
    exact ⟨names, sorts, hnames, hsorts, hlength, (Except.ok.inj h).symm⟩
  · rintro ⟨names, sorts, hnames, hsorts, hlength, rfl⟩
    exact ⟨names, hnames, sorts, hsorts, (), hlength, rfl⟩

end

theorem Term.ofJson_object {o : Members} {t : Term} :
    Term.ofJson (.object o) = .ok t ↔ TermReads o t := by
  rw [Term.ofJson, bind_eq_ok]
  constructor
  · rintro ⟨kind, hkind, h⟩
    rw [Members.stringField_eq_ok] at hkind
    split at h
    · simp only [bind_eq_ok, Members.arrayField_eq_ok, sameLength_eq_ok, termItems_eq_ok] at h
      obtain ⟨name, hname, sort, hsort, sorts, hsorts, items, hitems, -, hlength, ts, hts, h⟩ := h
      obtain ⟨items', hitems', hterms⟩ := hts
      rw [hitems] at hitems'
      cases hitems'
      cases h
      exact .app hkind hname hsort hsorts hitems hlength hterms rfl
    · simp only [bind_eq_ok, Members.stringField_eq_ok] at h
      obtain ⟨name, hname, sort, hsort, h⟩ := h
      cases h
      exact .var hkind hname hsort
    · simp only [bind_eq_ok, bindingsOf_eq_ok, termMember_eq_ok] at h
      obtain ⟨xs, ⟨names, sorts, hnames, hsorts, hlength, rfl⟩, child, ⟨v, hchild, hv⟩, h⟩ := h
      cases h
      exact .quantified (q := .existential) hkind hnames hsorts hlength rfl hchild hv
    · simp only [bind_eq_ok, bindingsOf_eq_ok, termMember_eq_ok] at h
      obtain ⟨xs, ⟨names, sorts, hnames, hsorts, hlength, rfl⟩, child, ⟨v, hchild, hv⟩, h⟩ := h
      cases h
      exact .quantified (q := .universal) hkind hnames hsorts hlength rfl hchild hv
    · simp only [bind_eq_ok, Members.objectsField_eq_ok, termMember_eq_ok] at h
      obtain ⟨scrutinee, ⟨v, hterm, hv⟩, os, hbinders, cases, hcases, h⟩ := h
      cases h
      exact .matching hkind hterm hv hbinders ((caseItems_eq_ok hbinders).mp hcases)
    · simp only [bind_eq_ok, Members.stringsField_eq_ok, termMember_eq_ok] at h
      obtain ⟨names, hnames, body, ⟨v, hbody, hv⟩, h⟩ := h
      cases h
      exact .lambda hkind hnames hbody hv
    · simp only [bind_eq_ok, Members.integerField_eq_ok] at h
      obtain ⟨width, hwidth, h⟩ := h
      split at h
      · cases h
      · rename_i hpos
        simp only [bind_eq_ok, Members.field_eq_ok] at h
        obtain ⟨v, hvalue, value, hv, h⟩ := h
        cases h
        have hnat : ((width.toNat : Nat) : Int) = width := by omega
        refine .bits hkind (by rw [hnat]; exact hwidth) (by omega) hvalue hv
    · cases h
  · intro h
    cases h with
    | app hkind hname hsort hsorts hitems hlength hterms hargs =>
      subst hargs
      refine ⟨_, Members.stringField_eq_ok.mpr hkind, ?_⟩
      simp only [bind_eq_ok, Members.arrayField_eq_ok, sameLength_eq_ok, termItems_eq_ok]
      exact ⟨_, hname, _, hsort, _, hsorts, _, hitems, (), hlength, _, ⟨_, hitems, hterms⟩, rfl⟩
    | var hkind hname hsort =>
      refine ⟨_, Members.stringField_eq_ok.mpr hkind, ?_⟩
      simp only [bind_eq_ok, Members.stringField_eq_ok]
      exact ⟨_, hname, _, hsort, rfl⟩
    | @quantified q names sorts v bindings child hkind hnames hsorts hlength hbindings hchild hv =>
      refine ⟨_, Members.stringField_eq_ok.mpr hkind, ?_⟩
      have hbindings := bindingsOf_eq_ok.mpr ⟨names, sorts, hnames, hsorts, hlength, hbindings.symm⟩
      have hmember := termMember_eq_ok.mpr ⟨v, hchild, hv⟩
      cases q with
      | existential =>
        simp [Quantifier.name, hbindings, hmember, bind, Except.bind, pure, Except.pure]
      | universal =>
        simp [Quantifier.name, hbindings, hmember, bind, Except.bind, pure, Except.pure]
    | matching hkind hterm hv hbinders hcases =>
      refine ⟨_, Members.stringField_eq_ok.mpr hkind, ?_⟩
      simp only [bind_eq_ok, Members.objectsField_eq_ok, termMember_eq_ok]
      exact ⟨_, ⟨_, hterm, hv⟩, _, hbinders, _, (caseItems_eq_ok hbinders).mpr hcases, rfl⟩
    | lambda hkind hnames hbody hv =>
      refine ⟨_, Members.stringField_eq_ok.mpr hkind, ?_⟩
      simp only [bind_eq_ok, Members.stringsField_eq_ok, termMember_eq_ok]
      exact ⟨_, hnames, _, ⟨_, hbody, hv⟩, rfl⟩
    | @bits width value v hkind hwidth hpos hvalue hv =>
      refine ⟨_, Members.stringField_eq_ok.mpr hkind, ?_⟩
      simp only [bind_eq_ok, Members.integerField_eq_ok]
      refine ⟨_, hwidth, ?_⟩
      rw [if_neg (by omega)]
      simp only [bind_eq_ok, Members.field_eq_ok]
      exact ⟨v, hvalue, value, hv, rfl⟩

end Realizability
