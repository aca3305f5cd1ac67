import Realizability.Proofs.Encoding.Evaluation

/-!
# Tables of examples

A table is formed if all examples apply one operator to as many arguments, literals behind the
first; its columns are the values at one position of all rows. Nothing depends on the place at which
an example stands, except for what an error says.
-/

namespace Realizability

/-! ## Transposition -/

theorem getElem?_transpose {α : Type} {rows : List (List α)} (h : rows ≠ []) (k : Nat) :
    (transpose rows)[k]? = rows.mapM (·[k]?) := by
  induction rows with
  | nil => exact absurd rfl h
  | cons row rows ih =>
    cases rows with
    | nil =>
      rw [transpose, List.getElem?_map, List.mapM_cons, List.mapM_nil]
      cases row[k]? <;> rfl
    | cons row' rows =>
      have hrest := ih (List.cons_ne_nil _ _)
      have htranspose : transpose (row :: row' :: rows) =
        List.zipWith (· :: ·) row (transpose (row' :: rows)) := rfl
      rw [htranspose, List.getElem?_zipWith, hrest]
      generalize row' :: rows = rest
      rw [List.mapM_cons]
      cases row[k]? with
      | none => rfl
      | some x => cases rest.mapM (·[k]?) <;> rfl

theorem mem_transpose {α : Type} {rows : List (List α)} {column : List α} {x : α}
    (hc : column ∈ transpose rows) (hx : x ∈ column) : ∃ row ∈ rows, x ∈ row := by
  have hne : rows ≠ [] := by
    rintro rfl
    cases hc
  obtain ⟨k, hk⟩ := List.mem_iff_getElem?.mp hc
  rw [getElem?_transpose hne, mapM_eq_some] at hk
  obtain ⟨row, hrow, hx⟩ := exists_of_forall₂ hk hx
  exact ⟨row, hrow, List.mem_of_getElem? hx⟩

theorem length_transpose {α : Type} {rows : List (List α)} {n : Nat} (hne : rows ≠ [])
    (h : ∀ row ∈ rows, row.length = n) : (transpose rows).length = n := by
  induction rows with
  | nil => exact absurd rfl hne
  | cons row rows ih =>
    obtain ⟨hrow, hrows⟩ := List.forall_mem_cons.mp h
    cases rows with
    | nil => rw [transpose, List.length_map, hrow]
    | cons row' rows =>
      have hrest := ih (List.cons_ne_nil _ _) hrows
      have htranspose : transpose (row :: row' :: rows) =
        List.zipWith (· :: ·) row (transpose (row' :: rows)) := rfl
      rw [htranspose, List.length_zipWith, hrow, hrest, Nat.min_self]

/-! ## Rows -/

namespace ExampleTable

/-- The expression for an argument that is a literal of its own sort. -/
def Reads (arg : Identifier × Term) (e : Expr) : Prop :=
  ∃ s, SmtSort.ofIdentifier arg.1 = .ok s ∧ literal? (some s) arg.2 = .ok (some e)

theorem valueOf_eq_ok {i : Nat} {arg : Identifier × Term} {e : Expr} :
    valueOf i arg = .ok e ↔ Reads arg e := by
  unfold valueOf Reads
  cases SmtSort.ofIdentifier arg.1 with
  | error _ => simp
  | ok s =>
    dsimp only
    rw [bind_eq_ok]
    constructor
    · rintro ⟨o, ho, h⟩
      cases o with
      | none => cases h
      | some a => cases h; exact ⟨s, rfl, mapError_eq_ok.mp ho⟩
    · rintro ⟨s', hs', h⟩
      cases hs'
      exact ⟨some e, mapError_eq_ok.mpr h, rfl⟩

/-- An example that applies an operator to a number of arguments, and the values behind the first of
these. -/
def IsRow (operator : String) (width : Nat) (t : Term) (values : List Expr) : Prop :=
  ∃ ident sort args, t = .app ident sort args ∧ ident.name = operator ∧ args.length = width ∧
    List.Forall₂ Reads (args.drop 1) values

theorem IsRow.length {operator : String} {width : Nat} {t : Term} {values : List Expr}
    (h : IsRow operator width t values) : values.length = width - 1 := by
  obtain ⟨ident, sort, args, -, -, rfl, hvs⟩ := h
  rw [← hvs.length_eq, List.length_drop]

theorem rowValues_eq_ok {i : Nat} {row : Row} {values : List Expr} :
    rowValues i row = .ok values ↔ List.Forall₂ Reads (row.drop 1) values := by
  unfold rowValues
  rw [mapM_eq_ok]
  simp only [valueOf_eq_ok]

theorem rowOf_eq_ok {i : Nat} {t : Term} {r : String × Row} :
    rowOf i t = .ok r ↔ ∃ ident sort args, t = .app ident sort args ∧ r = (ident.name, args) := by
  constructor
  · intro h
    cases t with
    | app ident sort args => cases h; exact ⟨ident, sort, args, rfl, rfl⟩
    | _ => cases h
  · rintro ⟨ident, sort, args, rfl, rfl⟩
    rfl

theorem rows_eq_ok {operator : String} {width i j : Nat} {ts : List Term} {values : List (List Expr)} :
    (∃ rows, rowsFrom operator width i ts = .ok rows ∧ valuesFrom j rows = .ok values) ↔
      List.Forall₂ (IsRow operator width) ts values := by
  induction ts generalizing i j values with
  | nil =>
    rw [List.forall₂_nil_left_iff]
    constructor
    · rintro ⟨rows, hr, hv⟩
      cases hr
      cases hv
      rfl
    · rintro rfl
      exact ⟨[], rfl, rfl⟩
  | cons t ts ih =>
    rw [List.forall₂_cons_left_iff]
    constructor
    · rintro ⟨rows, hr, hv⟩
      obtain ⟨r, ht, hr⟩ := bind_eq_ok.mp hr
      obtain ⟨ident, sort, args, rfl, rfl⟩ := rowOf_eq_ok.mp ht
      dsimp only at hr
      split at hr
      · cases hr
      · rename_i hname
        split at hr
        · cases hr
        · rename_i hwidth
          obtain ⟨rows', hrows, h⟩ := bind_eq_ok.mp hr
          cases h
          obtain ⟨vs, hvs, hv⟩ := bind_eq_ok.mp hv
          obtain ⟨vss, hvss, hv⟩ := bind_eq_ok.mp hv
          cases hv
          exact ⟨vs, vss, ⟨ident, sort, args, rfl, not_not.mp hname, not_not.mp hwidth,
            rowValues_eq_ok.mp hvs⟩, ih.mp ⟨rows', hrows, hvss⟩, rfl⟩
    · rintro ⟨vs, vss, ⟨ident, sort, args, rfl, rfl, rfl, hvs⟩, hts, rfl⟩
      obtain ⟨rows, hr, hvss⟩ := ih (i := i + 1) (j := j + 1) |>.mpr hts
      refine ⟨args :: rows, ?_, ?_⟩
      · rw [rowsFrom, bind_eq_ok]
        refine ⟨_, rfl, ?_⟩
        dsimp only
        rw [if_neg (not_not.mpr rfl), if_neg (not_not.mpr rfl), hr]
        rfl
      · rw [valuesFrom, rowValues_eq_ok.mpr hvs, hvss]
        rfl

def ofRows (operator : String) (values : List (List Expr)) : ExampleTable :=
  ⟨some operator, (transpose values).dropLast, (transpose values).getLast?.getD []⟩

theorem ofTerms_eq_ok {ts : List Term} (hne : ts ≠ []) {table : ExampleTable} :
    ofTerms ts = .ok table ↔ ∃ operator width values, 2 ≤ width ∧
      List.Forall₂ (IsRow operator width) ts values ∧ table = ofRows operator values := by
  obtain ⟨t, ts, rfl⟩ := List.exists_cons_of_ne_nil hne
  rw [ofTerms, bind_eq_ok]
  constructor
  · rintro ⟨r, hr, h⟩
    obtain ⟨ident, sort, args, rfl, rfl⟩ := rowOf_eq_ok.mp (mapError_eq_ok.mp hr)
    obtain ⟨rows, hrows, h⟩ := bind_eq_ok.mp h
    dsimp only at h
    split at h
    · cases h
    · rename_i hwidth
      obtain ⟨values, hv, h⟩ := bind_eq_ok.mp h
      obtain ⟨vs, hvs, hv⟩ := bind_eq_ok.mp hv
      obtain ⟨vss, hvss, hv⟩ := bind_eq_ok.mp hv
      cases hv
      cases h
      have hrest := rows_eq_ok.mp ⟨rows, mapError_eq_ok.mp hrows, hvss⟩
      refine ⟨ident.name, args.length, vs :: vss, Nat.le_of_not_lt hwidth, ?_, rfl⟩
      exact .cons ⟨ident, sort, args, rfl, rfl, rfl, rowValues_eq_ok.mp hvs⟩ hrest
  · rintro ⟨operator, width, values, hwidth, hrows, rfl⟩
    obtain ⟨vs, vss, ⟨ident, sort, args, rfl, rfl, rfl, hvs⟩, hts, rfl⟩ :=
      List.forall₂_cons_left_iff.mp hrows
    obtain ⟨rows, hr, hvss⟩ := rows_eq_ok (i := 1) (j := 1) |>.mpr hts
    refine ⟨_, rfl, ?_⟩
    dsimp only
    rw [hr, bind_eq_ok]
    refine ⟨rows, rfl, ?_⟩
    rw [if_neg (Nat.not_lt.mpr hwidth), valuesFrom, rowValues_eq_ok.mpr hvs, hvss]
    rfl

theorem ofRows_results (operator : String) {values : List (List Expr)} {n : Nat}
    (hne : values ≠ []) (hn : ∀ row ∈ values, row.length = n + 1) :
    (transpose values)[n]? = some (ofRows operator values).results := by
  have hlen := length_transpose hne hn
  have hlast : (transpose values).getLast? = (transpose values)[n]? := by
    rw [List.getLast?_eq_getElem?, hlen]
    rfl
  have hsome : (transpose values)[n]? = some (transpose values)[n] :=
    List.getElem?_eq_getElem (by omega)
  rw [ofRows, hlast, hsome]
  rfl

theorem size_ofTerms {ts : List Term} {table : ExampleTable} (h : ofTerms ts = .ok table) :
    table.size = ts.length := by
  by_cases hne : ts = []
  · subst hne
    cases h
    rfl
  · obtain ⟨operator, width, values, hwidth, hrows, rfl⟩ := (ofTerms_eq_ok hne).mp h
    have hvalues : values ≠ [] := by
      rintro rfl
      exact hne (List.forall₂_nil_right_iff.mp hrows)
    have hn : ∀ row ∈ values, row.length = width - 2 + 1 := by
      intro row hrow
      obtain ⟨t, -, ht⟩ := exists_of_forall₂ hrows hrow
      have := ht.length
      omega
    have hresults := ofRows_results operator hvalues hn
    rw [getElem?_transpose hvalues, mapM_eq_some] at hresults
    rw [hrows.length_eq, hresults.length_eq, size]

def Literal (table : ExampleTable) : Prop :=
  ∀ column ∈ table.columns, ∀ e ∈ column, ∀ (M : Model) (ν : Valuation), e.Means M ν e.literal

theorem columns_ofRows {operator : String} {values : List (List Expr)} {column : List Expr}
    (h : column ∈ (ofRows operator values).columns) : column ∈ transpose values ∨ column = [] := by
  rcases List.mem_append.mp h with h | h
  · exact .inl ((List.dropLast_subset _) h)
  · rw [List.mem_singleton.mp h]
    cases hlast : (transpose values).getLast? with
    | none => exact .inr (by rw [ofRows, hlast]; rfl)
    | some last => exact .inl (by rw [ofRows, hlast]; exact List.mem_of_getLast? hlast)

theorem exists_literal_of_mem {ts : List Term} {table : ExampleTable}
    (h : ofTerms ts = .ok table) {column : List Expr} (hc : column ∈ table.columns) {e : Expr}
    (he : e ∈ column) : ∃ s t, literal? (some s) t = .ok (some e) := by
  by_cases hne : ts = []
  · subst hne
    cases h
    rw [List.mem_singleton.mp hc] at he
    cases he
  · obtain ⟨operator, width, values, -, hrows, rfl⟩ := (ofTerms_eq_ok hne).mp h
    rcases columns_ofRows hc with hc | rfl
    · obtain ⟨row, hrow, he⟩ := mem_transpose hc he
      obtain ⟨t, -, ident, sort, args, -, -, -, hvs⟩ := exists_of_forall₂ hrows hrow
      obtain ⟨arg, -, s, -, hs⟩ := exists_of_forall₂ hvs he
      exact ⟨s, arg.2, hs⟩
    · cases he

theorem literal_ofTerms {ts : List Term} {table : ExampleTable} (h : ofTerms ts = .ok table) :
    table.Literal := by
  intro column hc e he M ν
  obtain ⟨s, t, hs⟩ := exists_literal_of_mem h hc he
  exact literal?_means hs

end ExampleTable

end Realizability
