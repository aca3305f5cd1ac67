import Realizability.Proofs.Encoding.Table

/-!
# Transposed examples

Examples form a table if they apply one operator to as many arguments, at least two, and all
arguments behind the first are values of supported sorts. The table then has their values column by
column; otherwise the first fault is reported, those of shape before those of values
(`ExampleTable.ofTerms_transposes`).
-/

namespace Realizability

/-! ## Terms that are values -/

mutual

def Term.decimals : Term → List Binary64
  | .decimal x => [x]
  | .app _ _ args => argDecimals args
  | .quantified _ _ child => child.decimals
  | .matching scrutinee cases => scrutinee.decimals ++ caseDecimals cases
  | .lambda _ body => body.decimals
  | .var .. | .number _ | .string _ | .bits .. => []

def argDecimals : List (Identifier × Term) → List Binary64
  | [] => []
  | (_, t) :: args => t.decimals ++ argDecimals args

def caseDecimals : List (MatchCase Term) → List Binary64
  | [] => []
  | ⟨_, _, result⟩ :: cases => result.decimals ++ caseDecimals cases

end

namespace Term

def Finite (t : Term) : Prop := ∀ x ∈ t.decimals, x.isFinite = true

def args : Term → List (Identifier × Term)
  | .app _ _ args => args
  | _ => []

def isNumeric : Term → Bool
  | .number _ | .decimal _ => true
  | _ => false

/-- A literal, a truth value or a negated number. There are no negated bit-vectors. -/
def isValue (s : SmtSort) : Term → Bool
  | .app name _ [] => name.name == "true" || name.name == "false"
  | .app name _ [(_, t)] => name.name == "-" && !s.isBitVec && t.isNumeric
  | t => t.isLiteral

variable {t : Term} {arg : Identifier × Term} {s : SmtSort}

theorem decimals_subset (h : arg ∈ t.args) : arg.2.decimals ⊆ t.decimals := by
  cases t with
  | app ident sort args =>
    have hargs : ∀ args : List (Identifier × Term), arg ∈ args →
        arg.2.decimals ⊆ argDecimals args := by
      intro args hmem
      induction args with
      | nil => cases hmem
      | cons a args ih =>
        rw [argDecimals]
        by_cases ha : arg = a
        · exact ha ▸ List.subset_append_left ..
        · have hrest : arg ∈ args := by simpa [ha] using hmem
          exact List.subset_append_of_subset_right _ (ih hrest)
    rw [decimals]
    exact hargs args h
  | _ => cases h

def FiniteValues (t : Term) : Prop := ∀ arg ∈ t.args.drop 1, arg.2.Finite

theorem Finite.values (h : t.Finite) : t.FiniteValues :=
  fun _ harg x hx => h x (decimals_subset (List.mem_of_mem_drop harg) hx)

end Term

theorem decimalValue_of_isFinite {x : Binary64} (h : x.isFinite = true) :
    ∃ q, decimalValue x = .ok (.real q) := by
  cases x with
  | finite s m e => exact ⟨_, rfl⟩
  | _ => cases h

theorem literal?_of_finite {s : SmtSort} {t : Term} (h : t.Finite) :
    ∃ o, literal? (some s) t = .ok o ∧ o.isSome = t.isValue s := by
  have hdecimal : ∀ x : Binary64, x.isFinite = true →
      ∃ o, some <$> decimalValue x = .ok o ∧ o.isSome = true := by
    intro x hx
    obtain ⟨q, hq⟩ := decimalValue_of_isFinite hx
    exact ⟨some (.real q), by rw [hq]; rfl, rfl⟩
  cases t with
  | number n => exact ⟨_, rfl, rfl⟩
  | decimal x => exact hdecimal x (h x (by simp [Term.decimals]))
  | app ident sort args =>
    rcases args with _ | ⟨⟨_, t⟩, _ | ⟨b, args⟩⟩
    · by_cases htrue : ident.name = "true"
      · simp [literal?, Term.isValue, htrue]
      · by_cases hfalse : ident.name = "false" <;> simp [literal?, Term.isValue, htrue, hfalse]
    · by_cases hneg : ident.name = "-" ∧ s.isBitVec = false
      · cases t with
        | decimal x =>
          have hx : x.neg.isFinite = true := by
            have hfin := h x (by simp [Term.decimals, argDecimals])
            cases x <;> simp_all [Binary64.neg, Binary64.isFinite]
          obtain ⟨o, ho, hsome⟩ := hdecimal x.neg hx
          refine ⟨o, by simpa [literal?, hneg] using ho, ?_⟩
          simp [Term.isValue, hneg, Term.isNumeric, hsome]
        | _ => simp [literal?, Term.isValue, Term.isNumeric, hneg]
      · have hnone : literal? (some s) (.app ident sort [(‹Identifier›, t)]) = .ok none := by
          simp [literal?, hneg]
        refine ⟨none, hnone, ?_⟩
        by_cases hname : ident.name = "-" <;> simp_all [Term.isValue]
    · exact ⟨_, rfl, rfl⟩
  | _ => exact ⟨_, rfl, rfl⟩

/-! ## Faults -/

namespace ExampleTable

def Applies (operator : String) (width : Nat) (t : Term) : Prop :=
  ∃ ident sort, t = .app ident sort t.args ∧ ident.name = operator ∧ t.args.length = width

def Readable (arg : Identifier × Term) : Prop :=
  ∃ s, SmtSort.ofIdentifier arg.1 = .ok s ∧ arg.2.isValue s = true

/-- What keeps an argument from being a value of its own sort. -/
inductive Unreadable (arg : Identifier × Term) : LiteralError → Prop
  | sort {e : SortError} : SmtSort.ofIdentifier arg.1 = .error e → Unreadable arg (.sort e)
  | notLiteral {s : SmtSort} : SmtSort.ofIdentifier arg.1 = .ok s → arg.2.isValue s = false →
    Unreadable arg (.notLiteral arg.2)

/-- The first fault of a list of examples. No row counts for its values as long as the shape of
another one is at fault. -/
inductive Fault (ts : List Term) : ExampleError → Prop
  | notApplication {before after : List Term} {t : Term} {operator : String} {width : Nat} :
    ts = before ++ t :: after → (∀ u ∈ before, Applies operator width u) →
    (∀ operator width, ¬ Applies operator width t) → Fault ts (.notApplication before.length t)
  | otherOperator {before after : List Term} {t : Term} {operator name : String}
    {width width' : Nat} :
    ts = before ++ t :: after → before ≠ [] → (∀ u ∈ before, Applies operator width u) →
    Applies name width' t → name ≠ operator → Fault ts (.otherOperator before.length name operator)
  | otherLength {before after : List Term} {t : Term} {operator : String} {width width' : Nat} :
    ts = before ++ t :: after → before ≠ [] → (∀ u ∈ before, Applies operator width u) →
    Applies operator width' t → width' ≠ width →
    Fault ts (.otherLength before.length width' width)
  | tooNarrow {operator : String} {width : Nat} :
    (∀ u ∈ ts, Applies operator width u) → width < 2 → Fault ts (.tooNarrow operator)
  | value {before after : List Term} {t : Term} {operator : String} {width : Nat}
    {read rest : List (Identifier × Term)} {arg : Identifier × Term} {cause : LiteralError} :
    (∀ u ∈ ts, Applies operator width u) → 2 ≤ width → ts = before ++ t :: after →
    (∀ u ∈ before, ∀ a ∈ u.args.drop 1, Readable a) → t.args.drop 1 = read ++ arg :: rest →
    (∀ a ∈ read, Readable a) → Unreadable arg cause → Fault ts (.value before.length cause)

variable {operator : String} {width : Nat} {t : Term} {ts before : List Term}
  {arg : Identifier × Term} {e : ExampleError} {err : EncodeError}

theorem rowOf_eq_error {i : Nat} (h : rowOf i t = .error e) :
    e = .notApplication i t ∧ ∀ operator width, ¬ Applies operator width t := by
  cases t with
  | app ident sort args => cases h
  | _ =>
    cases h
    refine ⟨rfl, ?_⟩
    rintro operator width ⟨ident, sort, ht, -⟩
    cases ht

theorem applies_app {ident sort : Identifier} {args : List (Identifier × Term)} :
    Applies ident.name args.length (.app ident sort args) := ⟨ident, sort, rfl, rfl, rfl⟩

theorem rowsFrom_eq_ok {i : Nat} {rows : List Row} (h : rowsFrom operator width i ts = .ok rows) :
    (∀ t ∈ ts, Applies operator width t) ∧ rows = ts.map Term.args := by
  induction ts generalizing i rows with
  | nil =>
    cases h
    simp
  | cons t ts ih =>
    obtain ⟨r, ht, h⟩ := bind_eq_ok.mp h
    obtain ⟨ident, sort, args, rfl, rfl⟩ := rowOf_eq_ok.mp ht
    dsimp only at h
    by_cases hname : ident.name = operator
    · by_cases hwidth : args.length = width
      · rw [if_neg (not_not.mpr hname), if_neg (not_not.mpr hwidth)] at h
        obtain ⟨rest, hrest, h⟩ := bind_eq_ok.mp h
        cases h
        obtain ⟨hall, rfl⟩ := ih hrest
        exact ⟨List.forall_mem_cons.mpr ⟨hname ▸ hwidth ▸ applies_app, hall⟩, rfl⟩
      · rw [if_neg (not_not.mpr hname), if_pos hwidth] at h
        cases h
    · rw [if_pos hname] at h
      cases h

theorem fault_of_rowsFrom (hne : before ≠ []) (hb : ∀ u ∈ before, Applies operator width u)
    (h : rowsFrom operator width before.length ts = .error e) : Fault (before ++ ts) e := by
  induction ts generalizing before with
  | nil => cases h
  | cons t ts ih =>
    rcases bind_eq_error.mp h with ht | ⟨r, ht, h⟩
    · obtain ⟨rfl, hno⟩ := rowOf_eq_error ht
      exact .notApplication rfl hb hno
    · obtain ⟨ident, sort, args, rfl, rfl⟩ := rowOf_eq_ok.mp ht
      dsimp only at h
      by_cases hname : ident.name = operator
      · by_cases hwidth : args.length = width
        · rw [if_neg (not_not.mpr hname), if_neg (not_not.mpr hwidth)] at h
          have happ : Applies operator width (.app ident sort args) := hname ▸ hwidth ▸ applies_app
          rcases bind_eq_error.mp h with hrest | ⟨rows, -, h⟩
          · have hnext : before.length + 1 = (before ++ [Term.app ident sort args]).length := by
              simp
            rw [hnext] at hrest
            have hall : ∀ u ∈ before ++ [Term.app ident sort args], Applies operator width u :=
              List.forall_mem_append.mpr ⟨hb, List.forall_mem_singleton.mpr happ⟩
            simpa using ih (by simp) hall hrest
          · cases h
        · rw [if_neg (not_not.mpr hname), if_pos hwidth] at h
          cases h
          exact .otherLength rfl hne hb (hname ▸ applies_app) hwidth
      · rw [if_pos hname] at h
        cases h
        exact .otherOperator rfl hne hb applies_app hname

/-! ## Values -/

theorem reads_iff_readable (hfin : arg.2.Finite) : (∃ e, Reads arg e) ↔ Readable arg := by
  unfold Reads Readable
  constructor
  · rintro ⟨e, s, hs, he⟩
    obtain ⟨o, ho, hvalue⟩ := literal?_of_finite (s := s) hfin
    rw [he] at ho
    cases ho
    exact ⟨s, hs, hvalue.symm⟩
  · rintro ⟨s, hs, hvalue⟩
    obtain ⟨o, ho, hsome⟩ := literal?_of_finite (s := s) hfin
    obtain ⟨e, rfl⟩ := Option.isSome_iff_exists.mp (hsome.trans hvalue)
    exact ⟨e, s, hs, ho⟩

theorem valueOf_eq_error {i : Nat} (hfin : arg.2.Finite) (h : valueOf i arg = .error err) :
    ∃ cause, err = .examples (.value i cause) ∧ Unreadable arg cause := by
  unfold valueOf at h
  cases hs : SmtSort.ofIdentifier arg.1 with
  | error e =>
    rw [hs] at h
    cases h
    exact ⟨_, rfl, .sort hs⟩
  | ok s =>
    obtain ⟨o, ho, hsome⟩ := literal?_of_finite (s := s) hfin
    rw [hs] at h
    dsimp only at h
    rw [ho] at h
    cases o with
    | none =>
      cases h
      exact ⟨_, rfl, .notLiteral hs hsome.symm⟩
    | some e => cases h

theorem readable_of_rowValues {i : Nat} (hfin : t.FiniteValues) {values : List Expr}
    (h : rowValues i t.args = .ok values) : ∀ a ∈ t.args.drop 1, Readable a := by
  intro a ha
  obtain ⟨e, -, he⟩ := exists_of_forall₂ (rowValues_eq_ok.mp h).flip ha
  exact (reads_iff_readable (hfin a ha)).mp ⟨e, he⟩

theorem fault_of_valuesFrom (hwidth : 2 ≤ width)
    (hall : ∀ u ∈ before ++ ts, Applies operator width u) (hfin : ∀ u ∈ ts, u.FiniteValues)
    (hb : ∀ u ∈ before, ∀ a ∈ u.args.drop 1, Readable a)
    (h : valuesFrom before.length (ts.map Term.args) = .error err) :
    ∃ e, err = .examples e ∧ Fault (before ++ ts) e := by
  induction ts generalizing before with
  | nil => cases h
  | cons t ts ih =>
    obtain ⟨ht, hts⟩ := List.forall_mem_cons.mp hfin
    rw [List.map_cons, valuesFrom] at h
    rcases bind_eq_error.mp h with hrow | ⟨values, hrow, h⟩
    · obtain ⟨read, arg, rest, hargs, hread, harg⟩ := split_of_mapM_eq_error hrow
      rw [Term.FiniteValues, hargs] at ht
      obtain ⟨cause, rfl, hcause⟩ := valueOf_eq_error (ht arg (by simp)) harg
      refine ⟨_, rfl, .value hall hwidth rfl hb hargs (fun a ha => ?_) hcause⟩
      obtain ⟨e, he⟩ := hread a ha
      exact (reads_iff_readable (ht a (by simp [ha]))).mp ⟨e, valueOf_eq_ok.mp he⟩
    · rcases bind_eq_error.mp h with hrest | ⟨rest, -, h⟩
      · have hnext : before.length + 1 = (before ++ [t]).length := by simp
        rw [hnext] at hrest
        have hread : ∀ u ∈ before ++ [t], ∀ a ∈ u.args.drop 1, Readable a :=
          List.forall_mem_append.mpr
            ⟨hb, List.forall_mem_singleton.mpr (readable_of_rowValues ht hrow)⟩
        simpa using ih (by simpa using hall) hts hread hrest
      · cases h

/-! ## Columns -/

/-- The table has the values of the examples: the entry for a row in a column is the value of the
argument behind the first that stands at the place of the column in the row. -/
structure Transposed (ts : List Term) (table : ExampleTable) : Prop where
  operator : ∃ operator, table.operator = some operator ∧
    ∀ t ∈ ts, Applies operator (table.inputs.length + 2) t
  height : ∀ column ∈ table.columns, column.length = ts.length
  entry : ∀ (i : Nat) (t : Term), ts[i]? = some t → ∀ (c : Nat) (arg : Identifier × Term),
    t.args[c + 1]? = some arg →
    ∃ column e, table.columns[c]? = some column ∧ column[i]? = some e ∧ Reads arg e

theorem IsRow.applies {values : List Expr} (h : IsRow operator width t values) :
    Applies operator width t := by
  obtain ⟨ident, sort, args, rfl, rfl, rfl, -⟩ := h
  exact applies_app

theorem IsRow.reads {values : List Expr} (h : IsRow operator width t values) :
    List.Forall₂ Reads (t.args.drop 1) values := by
  obtain ⟨ident, sort, args, rfl, -, -, h⟩ := h
  exact h

theorem exists_isRow_iff (hfin : t.FiniteValues) : (∃ values, IsRow operator width t values) ↔
    Applies operator width t ∧ ∀ a ∈ t.args.drop 1, Readable a := by
  constructor
  · rintro ⟨values, h⟩
    exact ⟨h.applies, readable_of_rowValues (i := 0) hfin (rowValues_eq_ok.mpr h.reads)⟩
  · rintro ⟨⟨ident, sort, ht, hname, hwidth⟩, hread⟩
    have hvalues : ∀ a ∈ t.args.drop 1, ∃ e, Reads a e :=
      fun a ha => (reads_iff_readable (hfin a ha)).mpr (hread a ha)
    obtain ⟨values, h⟩ := exists_forall₂ hvalues
    exact ⟨values, ident, sort, t.args, ht, hname, hwidth, h⟩

section
variable {values : List (List Expr)} (hne : ts ≠ []) (hwidth : 2 ≤ width)
  (h : List.Forall₂ (IsRow operator width) ts values)

include hne h in
theorem values_ne_nil : values ≠ [] := by
  rintro rfl
  exact hne (List.forall₂_nil_right_iff.mp h)

include hne h in
theorem length_transpose_of_rows : (transpose values).length = width - 1 := by
  refine length_transpose (values_ne_nil hne h) fun row hrow => ?_
  obtain ⟨t, -, ht⟩ := exists_of_forall₂ h hrow
  exact ht.length

include hne hwidth h

theorem columns_eq_transpose : (ofRows operator values).columns = transpose values := by
  have hlen := length_transpose_of_rows hne h
  have hsome : transpose values ≠ [] := List.ne_nil_of_length_pos (by omega)
  rw [columns, ofRows, List.getLast?_eq_some_getLast hsome, Option.getD_some,
    List.dropLast_concat_getLast]

theorem transposed_ofRows : Transposed ts (ofRows operator values) := by
  have hcolumns := columns_eq_transpose hne hwidth h
  have hlen := length_transpose_of_rows hne h
  have hvalues := values_ne_nil hne h
  refine ⟨⟨operator, rfl, fun t ht => ?_⟩, fun column hcolumn => ?_, fun i t hi c arg hc => ?_⟩
  · obtain ⟨row, -, hrow⟩ := exists_of_forall₂ h.flip ht
    have hinputs : (ofRows operator values).inputs.length + 2 = width := by
      rw [ofRows, List.length_dropLast, hlen]
      omega
    rw [hinputs]
    exact IsRow.applies hrow
  · rw [hcolumns] at hcolumn
    obtain ⟨k, hk⟩ := List.mem_iff_getElem?.mp hcolumn
    rw [getElem?_transpose hvalues, mapM_eq_some] at hk
    rw [← hk.length_eq, h.length_eq]
  · obtain ⟨row, hrow, hr⟩ := get_of_forall₂ h hi
    have hdrop : (t.args.drop 1)[c]? = some arg := by rw [List.getElem?_drop, Nat.add_comm, hc]
    obtain ⟨e, he, hreads⟩ := get_of_forall₂ hr.reads hdrop
    have hc : c < (transpose values).length := by
      have hbound := (List.getElem?_eq_some_iff.mp he).1
      rw [hr.length] at hbound
      omega
    have hcolumn := List.getElem?_eq_getElem hc
    have hentries := hcolumn
    rw [getElem?_transpose hvalues, mapM_eq_some] at hentries
    obtain ⟨e', hentry, he'⟩ := get_of_forall₂ hentries hrow
    rw [he] at he'
    cases he'
    exact ⟨_, e, by rw [hcolumns]; exact hcolumn, hentry, hreads⟩

end

/-! ## Tables -/

theorem ofTerms_ok_iff (hne : ts ≠ []) (hfin : ∀ t ∈ ts, t.FiniteValues) :
    (∃ table, ofTerms ts = .ok table) ↔ ∃ operator width, 2 ≤ width ∧
      ∀ t ∈ ts, Applies operator width t ∧ ∀ a ∈ t.args.drop 1, Readable a := by
  simp only [ofTerms_eq_ok hne]
  constructor
  · rintro ⟨table, operator, width, values, hwidth, h, rfl⟩
    refine ⟨operator, width, hwidth, fun t ht => ?_⟩
    obtain ⟨row, -, hrow⟩ := exists_of_forall₂ h.flip ht
    exact (exists_isRow_iff (hfin t ht)).mp ⟨row, hrow⟩
  · rintro ⟨operator, width, hwidth, h⟩
    obtain ⟨values, hvalues⟩ :=
      exists_forall₂ fun t ht => (exists_isRow_iff (hfin t ht)).mpr (h t ht)
    exact ⟨_, operator, width, values, hwidth, hvalues, rfl⟩

theorem transposed_of_ok {table : ExampleTable} (hne : ts ≠ []) (h : ofTerms ts = .ok table) :
    Transposed ts table := by
  obtain ⟨operator, width, values, hwidth, hrows, rfl⟩ := (ofTerms_eq_ok hne).mp h
  exact transposed_ofRows hne hwidth hrows

theorem fault_of_ofTerms (hfin : ∀ t ∈ ts, t.FiniteValues) (h : ofTerms ts = .error err) :
    ∃ e, err = .examples e ∧ Fault ts e := by
  cases ts with
  | nil => cases h
  | cons t ts =>
    rcases bind_eq_error.mp h with hrow | ⟨r, hrow, h⟩
    · cases hr : rowOf 0 t with
      | ok r =>
        rw [hr] at hrow
        cases hrow
      | error e =>
        rw [hr] at hrow
        cases hrow
        obtain ⟨rfl, hno⟩ := rowOf_eq_error hr
        have hfault : Fault ([] ++ t :: ts) (.notApplication 0 t) :=
          .notApplication rfl (List.forall_mem_nil (Applies "" 0)) hno
        exact ⟨_, rfl, hfault⟩
    · obtain ⟨ident, sort, args, rfl, rfl⟩ := rowOf_eq_ok.mp (mapError_eq_ok.mp hrow)
      have hfirst : ∀ u ∈ [Term.app ident sort args], Applies ident.name args.length u :=
        List.forall_mem_singleton.mpr applies_app
      rcases bind_eq_error.mp h with hrows | ⟨rows, hrows, h⟩
      · cases hr : rowsFrom ident.name args.length 1 ts with
        | ok rows =>
          rw [hr] at hrows
          cases hrows
        | error e =>
          rw [hr] at hrows
          cases hrows
          exact ⟨e, rfl, fault_of_rowsFrom (List.cons_ne_nil _ _) hfirst hr⟩
      · obtain ⟨hall, rfl⟩ := rowsFrom_eq_ok (mapError_eq_ok.mp hrows)
        have hshape : ∀ u ∈ [Term.app ident sort args] ++ ts, Applies ident.name args.length u :=
          List.forall_mem_append.mpr ⟨hfirst, hall⟩
        dsimp only at h
        by_cases hnarrow : args.length < 2
        · rw [if_pos hnarrow] at h
          cases h
          exact ⟨_, rfl, .tooNarrow hshape hnarrow⟩
        · rw [if_neg hnarrow] at h
          rcases bind_eq_error.mp h with hvalues | ⟨values, -, h⟩
          · have hrows : ∀ u ∈ [] ++ Term.app ident sort args :: ts,
                Applies ident.name args.length u := hshape
            have hnone : ∀ u ∈ ([] : List Term), ∀ a ∈ u.args.drop 1, Readable a := by simp
            exact fault_of_valuesFrom (Nat.le_of_not_lt hnarrow) hrows hfin hnone hvalues
          · cases h

end ExampleTable

/-! ## Mean values -/

namespace Means

def integer : Identifier := ⟨"Int", []⟩

def expression : Identifier := ⟨"E", []⟩

def row (x y : Int) (result : Binary64) : Term :=
  .app ⟨"E.Sem", []⟩ ⟨"Bool", []⟩ [(expression, .app ⟨"f", []⟩ expression []), (integer, .number x),
    (integer, .app ⟨"-", []⟩ integer [(integer, .number y)]), (⟨"Real", []⟩, .decimal result)]

/-- The mean of 4 and -1 is one and a half, that of 2 and -5 the negative of it. -/
def rows : List Term := [row 4 1 (.ofDecimal false 15 (-1)), row 2 5 (.ofDecimal true 15 (-1))]

theorem finite_rows : ∀ t ∈ rows, t.Finite := by
  intro t ht x hx
  rcases List.mem_pair.mp ht with rfl | rfl <;>
  · simp only [row, Term.decimals, argDecimals, List.nil_append, List.append_nil,
      List.mem_singleton] at hx
    rw [hx]
    decide

theorem mem_args_row {x y : Int} {result : Binary64} {a : Identifier × Term} :
    a ∈ (row x y result).args.drop 1 ↔ a = (integer, .number x) ∨
      a = (integer, .app ⟨"-", []⟩ integer [(integer, .number y)]) ∨
      a = (⟨"Real", []⟩, .decimal result) := by
  simp [row, Term.args]

theorem readable_row {x y : Int} {result : Binary64} :
    ∀ a ∈ (row x y result).args.drop 1, ExampleTable.Readable a := by
  intro a ha
  rcases mem_args_row.mp ha with rfl | rfl | rfl
  · exact ⟨.int, rfl, rfl⟩
  · exact ⟨.int, rfl, rfl⟩
  · exact ⟨.real, rfl, rfl⟩

theorem ofTerms_rows : ∃ table, ExampleTable.ofTerms rows = .ok table := by
  have hvalues : ∀ t ∈ rows, t.FiniteValues := fun t ht => (finite_rows t ht).values
  refine (ExampleTable.ofTerms_ok_iff (List.cons_ne_nil _ _) hvalues).mpr
    ⟨"E.Sem", 4, by decide, fun t ht => ?_⟩
  rcases List.mem_pair.mp ht with rfl | rfl <;> exact ⟨⟨_, _, rfl, rfl, rfl⟩, readable_row⟩

end Means

end Realizability
