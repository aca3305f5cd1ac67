import Realizability.Proofs.Format.Bits
import Realizability.Proofs.Format.TermRoundTrip

/-!
# The language of terms

Which values denote terms, and which term each of them denotes: a number, a text, or an object of
one of seven kinds with the fields of its kind (`Json.Denotes`). Reading a value yields the term that
it denotes, and fails on every value that denotes none.
-/

namespace Realizability

/-! ## Parts of terms -/

namespace Json

inductive DenotesIndex : Json → Index → Prop
  | name (s : String) : DenotesIndex (.string s) (.name s)
  | number (n : Int) : DenotesIndex (.int n) (.number n)

/-- An identifier is a text, or an array of a text and indices behind it. -/
inductive DenotesIdentifier : Json → Identifier → Prop
  | plain (s : String) : DenotesIdentifier (.string s) ⟨s, []⟩
  | indexed (s : String) {items : List Json} {indices : List Index}
    (h : List.Forall₂ DenotesIndex items indices) :
    DenotesIdentifier (.array (.string s :: items)) ⟨s, indices⟩

inductive DenotesBits : Json → Nat → Prop
  | number (n : Nat) : DenotesBits (.int n) n
  | text {s : String} {n : Nat} (h : BitsText s n) : DenotesBits (.string s) n

/-! ## Terms -/

mutual

/-- The value denotes the term. The fields that a kind does not have are free. -/
inductive Denotes : Json → Term → Prop
  | number (n : Int) : Denotes (.int n) (.number n)
  | decimal (x : Binary64) : Denotes (.decimal x) (.decimal x)
  | string (s : String) : Denotes (.string s) (.string s)
  | application {o : Members} {name sort : Identifier} {u v : Json} {sorts items : List Json}
    {args : List (Identifier × Term)}
    (kind : Table.get? "$termType" o = some (.string "application"))
    (hname : Table.get? "name" o = some u) (hu : u.DenotesIdentifier name)
    (hsort : Table.get? "returnSort" o = some v) (hv : v.DenotesIdentifier sort)
    (hsorts : Table.get? "argumentSorts" o = some (.array sorts))
    (hitems : Table.get? "arguments" o = some (.array items))
    (hargSorts : List.Forall₂ (fun v a => v.DenotesIdentifier a.1) sorts args)
    (hargTerms : List.Forall₂ (fun v a => Denotes v a.2) items args) :
    Denotes (.object o) (.app name sort args)
  | variable {o : Members} {name : String} {sort : Identifier} {v : Json}
    (kind : Table.get? "$termType" o = some (.string "variable"))
    (hname : Table.get? "name" o = some (.string name))
    (hsort : Table.get? "sort" o = some v) (hv : v.DenotesIdentifier sort) :
    Denotes (.object o) (.var name sort)
  | quantified {o : Members} {q : Quantifier} {sorts : List Json} {bindings : List TypedVar}
    {child : Term} {v : Json}
    (kind : Table.get? "$termType" o = some (.string q.name))
    (hnames : Table.get? "bindings" o = some (.array ((bindings.map TypedVar.name).map .string)))
    (hsorts : Table.get? "bindingSorts" o = some (.array sorts))
    (hbindingSorts : List.Forall₂ (fun v x => v.DenotesIdentifier x.sort) sorts bindings)
    (hchild : Table.get? "child" o = some v) (hv : Denotes v child) :
    Denotes (.object o) (.quantified q bindings child)
  | matching {o : Members} {scrutinee : Term} {v : Json} {binders : List Members}
    {cases : List (MatchCase Term)}
    (kind : Table.get? "$termType" o = some (.string "match"))
    (hterm : Table.get? "term" o = some v) (hv : Denotes v scrutinee)
    (hbinders : Table.get? "binders" o = some (.array (binders.map .object)))
    (hcases : List.Forall₂ DenotesCase binders cases) :
    Denotes (.object o) (.matching scrutinee cases)
  | lambda {o : Members} {names : List String} {body : Term} {v : Json}
    (kind : Table.get? "$termType" o = some (.string "lambda"))
    (hnames : Table.get? "arguments" o = some (.array (names.map .string)))
    (hbody : Table.get? "body" o = some v) (hv : Denotes v body) :
    Denotes (.object o) (.lambda names body)
  | bitvector {o : Members} {width n : Nat} {v : Json}
    (kind : Table.get? "$termType" o = some (.string "bitvector"))
    (hwidth : Table.get? "size" o = some (.int width)) (hpos : 0 < width)
    (hvalue : Table.get? "value" o = some v) (hv : v.DenotesBits n) :
    Denotes (.object o) (.bits width n)

/-- The object denotes the case of a match; `null` stands for no operator. -/
inductive DenotesCase : Members → MatchCase Term → Prop
  | case {o : Members} {operator : Option String} {names : List String} {result : Term} {v : Json}
    (hoperator : Table.get? "operator" o = some (operator.elim .null .string))
    (hnames : Table.get? "arguments" o = some (.array (names.map .string)))
    (hchild : Table.get? "child" o = some v) (hv : Denotes v result) :
    DenotesCase o ⟨operator, names, result⟩

end

end Json

/-! ## Reading parts -/

theorem Index.ofJson_eq_ok {v : Json} {i : Index} : ofJson v = .ok i ↔ v.DenotesIndex i := by
  constructor
  · intro h
    cases v with
    | string s => cases h; exact .name s
    | int n => cases h; exact .number n
    | _ => cases h
  · rintro (⟨s⟩ | ⟨n⟩) <;> rfl

theorem Identifier.ofJson_eq_ok {v : Json} {ident : Identifier} :
    ofJson v = .ok ident ↔ v.DenotesIdentifier ident := by
  have harray : ∀ head items, ofJson (.array (head :: items)) = .ok ident ↔
      ∃ s indices, head = .string s ∧ List.Forall₂ Json.DenotesIndex items indices ∧
        ident = ⟨s, indices⟩ := by
    intro head items
    simp only [ofJson, bind_eq_ok, within_eq_ok, Json.asString_eq_ok, readFrom_eq_ok,
      Index.ofJson_eq_ok]
    constructor
    · rintro ⟨s, hs, indices, hindices, h⟩
      exact ⟨s, indices, hs, hindices, (Except.ok.inj h).symm⟩
    · rintro ⟨s, indices, hs, hindices, rfl⟩
      exact ⟨s, hs, indices, hindices, rfl⟩
  constructor
  · intro h
    cases v with
    | string s => cases h; exact .plain s
    | array items =>
      cases items with
      | nil => cases h
      | cons head items =>
        obtain ⟨s, indices, rfl, hindices, rfl⟩ := (harray head items).mp h
        exact .indexed s hindices
    | _ => cases h
  · intro h
    cases h with
    | plain s => rfl
    | indexed s hindices => exact (harray _ _).mpr ⟨s, _, rfl, hindices, rfl⟩

theorem bitsOfJson_eq_ok {v : Json} {n : Nat} : bitsOfJson v = .ok n ↔ v.DenotesBits n := by
  constructor
  · intro h
    unfold bitsOfJson at h
    split at h
    · cases h
      exact .number _
    · cases h
    · split at h
      · rename_i hs
        cases h
        exact .text (bitsOfText?_eq_some.mp hs)
      · cases h
    · cases h
  · intro h
    cases h with
    | number n => rfl
    | text hs => simp [bitsOfJson, bitsOfText?_eq_some.mpr hs]

section
variable {o : Members} {key : String}

theorem identifierField_denotes {ident : Identifier} : o.identifierField key = .ok ident ↔
    ∃ v, Table.get? key o = some v ∧ v.DenotesIdentifier ident := by
  simp only [Members.identifierField_eq_ok, Identifier.ofJson_eq_ok]

theorem identifiersField_denotes {idents : List Identifier} :
    o.identifiersField key = .ok idents ↔ ∃ items, Table.get? key o = some (.array items) ∧
      List.Forall₂ Json.DenotesIdentifier items idents := by
  simp only [Members.identifiersField_eq_ok, Identifier.ofJson_eq_ok]

end

/-! ## Reading terms -/

section
variable {α β : Type} {R S : α → β → Prop}

theorem forall₂_iff {xs : List α} {ys : List β} (h : ∀ x ∈ xs, ∀ y, R x y ↔ S x y) :
    List.Forall₂ R xs ys ↔ List.Forall₂ S xs ys := by
  induction xs generalizing ys with
  | nil => simp
  | cons x xs ih =>
    rw [List.forall_mem_cons] at h
    simp only [List.forall₂_cons_left_iff, h.1, ih h.2]

end

theorem typedVars_names {names : List String} {sorts : List Identifier}
    (h : names.length = sorts.length) : (typedVars names sorts).map TypedVar.name = names := by
  rw [typedVars, ← List.map_uncurry_zip_eq_zipWith, List.map_map]
  exact List.map_fst_zip h.le

theorem typedVars_sorts {names : List String} {sorts : List Identifier}
    (h : names.length = sorts.length) : (typedVars names sorts).map TypedVar.sort = sorts := by
  rw [typedVars, ← List.map_uncurry_zip_eq_zipWith, List.map_map]
  exact List.map_snd_zip h.ge

theorem caseReads_iff_denotes {o : Members} {c : MatchCase Term}
    (h : ∀ v, Table.get? "child" o = some v → ∀ t, Term.ofJson v = .ok t ↔ v.Denotes t) :
    CaseReads o c ↔ Json.DenotesCase o c := by
  constructor
  · rintro ⟨hoperator, hnames, v, hchild, hv⟩
    exact .case hoperator hnames hchild ((h v hchild _).mp hv)
  · rintro ⟨hoperator, hnames, hchild, hv⟩
    exact ⟨hoperator, hnames, _, hchild, (h _ hchild _).mpr hv⟩

/-! An object below which every value is read as the terms that it denotes -/

section
variable {o : Members} {t : Term} {key : String} (h : ∀ s p v,
  (Json.object o).follow? (s :: p) = some v → ∀ t, Term.ofJson v = .ok t ↔ v.Denotes t)
include h

theorem field_denotes {v : Json} (hv : Table.get? key o = some v) :
    Term.ofJson v = .ok t ↔ v.Denotes t := h _ [] v (Json.follow?_singleton hv) t

theorem items_denote {items : List Json} {ts : List Term}
    (hitems : Table.get? key o = some (.array items)) :
    List.Forall₂ (fun v t => Term.ofJson v = .ok t) items ts ↔
      List.Forall₂ Json.Denotes items ts := by
  refine forall₂_iff fun v hv t => ?_
  obtain ⟨i, hi⟩ := Json.exists_follow?_item hitems hv
  exact h _ _ v (hi []) t

theorem cases_denote {os : List Members} {cs : List (MatchCase Term)}
    (hos : Table.get? key o = some (.array (os.map .object))) :
    List.Forall₂ CaseReads os cs ↔ List.Forall₂ Json.DenotesCase os cs := by
  refine forall₂_iff fun o' ho' c => caseReads_iff_denotes fun v hv => ?_
  obtain ⟨i, hi⟩ := Json.exists_follow?_item hos (List.mem_map_of_mem ho')
  exact h _ _ v ((hi _).trans (Json.follow?_singleton hv))

theorem denotes_of_reads (ht : TermReads o t) : (Json.object o).Denotes t := by
  cases ht with
  | @app name sort sorts items ts _ hkind hname hsort hsorts hargs hlength hterms hzip =>
    subst hzip
    obtain ⟨u, hu, hname⟩ := identifierField_denotes.mp hname
    obtain ⟨v, hv, hsort⟩ := identifierField_denotes.mp hsort
    obtain ⟨vs, hvs, hsorts⟩ := identifiersField_denotes.mp hsorts
    have hts : sorts.length = ts.length := hlength.trans hterms.length_eq
    refine .application hkind hu hname hv hsort hvs hargs ?_ ?_
    · rw [← List.forall₂_map_right_iff (f := Prod.fst), List.map_fst_zip hts.le]
      exact hsorts
    · rw [← List.forall₂_map_right_iff (f := Prod.snd), List.map_snd_zip hts.ge]
      exact (items_denote h hargs).mp hterms
  | var hkind hname hsort =>
    obtain ⟨v, hv, hsort⟩ := identifierField_denotes.mp hsort
    exact .variable hkind hname hv hsort
  | quantified hkind hnames hsorts hlength hbindings hchild hv =>
    subst hbindings
    obtain ⟨vs, hvs, hsorts⟩ := identifiersField_denotes.mp hsorts
    rw [← typedVars_names hlength] at hnames
    rw [← typedVars_sorts hlength, List.forall₂_map_right_iff] at hsorts
    exact .quantified hkind hnames hvs hsorts hchild ((field_denotes h hchild).mp hv)
  | matching hkind hterm hv hbinders hreads =>
    exact .matching hkind hterm ((field_denotes h hterm).mp hv) hbinders
      ((cases_denote h hbinders).mp hreads)
  | lambda hkind hnames hbody hv =>
    exact .lambda hkind hnames hbody ((field_denotes h hbody).mp hv)
  | bits hkind hwidth hpos hvalue hv =>
    exact .bitvector hkind hwidth hpos hvalue (bitsOfJson_eq_ok.mp hv)

theorem reads_of_denotes (ht : (Json.object o).Denotes t) : TermReads o t := by
  cases ht with
  | @application _ _ _ _ _ _ items args hkind hname hu hsort hv hsorts hargs hargSorts
      hargTerms =>
    have hterms : List.Forall₂ Json.Denotes items (args.map Prod.snd) :=
      List.forall₂_map_right_iff.mpr hargTerms
    refine .app hkind (identifierField_denotes.mpr ⟨_, hname, hu⟩)
      (identifierField_denotes.mpr ⟨_, hsort, hv⟩)
      (identifiersField_denotes.mpr ⟨_, hsorts, List.forall₂_map_right_iff.mpr hargSorts⟩)
      hargs ?_ ((items_denote h hargs).mpr hterms) (List.zip_of_prod rfl rfl).symm
    rw [hterms.length_eq, List.length_map, List.length_map]
  | «variable» hkind hname hsort hv =>
    exact .var hkind hname (identifierField_denotes.mpr ⟨_, hsort, hv⟩)
  | @quantified _ _ _ bindings _ _ hkind hnames hsorts hbindingSorts hchild hv =>
    exact .quantified hkind hnames
      (identifiersField_denotes.mpr ⟨_, hsorts, List.forall₂_map_right_iff.mpr hbindingSorts⟩)
      (by simp) (typedVars_map bindings) hchild ((field_denotes h hchild).mpr hv)
  | matching hkind hterm hv hbinders hdenotes =>
    exact .matching hkind hterm ((field_denotes h hterm).mpr hv) hbinders
      ((cases_denote h hbinders).mpr hdenotes)
  | lambda hkind hnames hbody hv =>
    exact .lambda hkind hnames hbody ((field_denotes h hbody).mpr hv)
  | bitvector hkind hwidth hpos hvalue hv =>
    exact .bits hkind hwidth hpos hvalue (bitsOfJson_eq_ok.mpr hv)

end

/-- Terms are read from the values that denote terms, and from no others. -/
theorem Term.ofJson_eq_ok_iff_denotes (v : Json) : ∀ t, ofJson v = .ok t ↔ v.Denotes t := by
  induction v using Json.induct_below with
  | h v ih =>
    intro t
    cases v with
    | object o =>
      rw [ofJson_object]
      exact ⟨denotes_of_reads ih, reads_of_denotes ih⟩
    | int n =>
      rw [ofJson]
      constructor
      · rintro ⟨⟩
        exact .number n
      · rintro ⟨⟩
        rfl
    | decimal x =>
      rw [ofJson]
      constructor
      · rintro ⟨⟩
        exact .decimal x
      · rintro ⟨⟩
        rfl
    | string s =>
      rw [ofJson]
      constructor
      · rintro ⟨⟩
        exact .string s
      · rintro ⟨⟩
        rfl
    -- Neither `null` nor a boolean nor an array is a term.
    | null | bool _ | array _ =>
      constructor
      · intro h
        simp [ofJson, Read.fault] at h
      · intro h
        cases h

end Realizability
