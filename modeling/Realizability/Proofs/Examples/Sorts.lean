import Realizability.Proofs.Examples.Transposition

/-!
# Sorts of example values

A value is read at the sort of its argument, but only numbers follow that sort. An accepted value
has the sort it is declared with if and only if it is a literal of that sort
(`ExampleTable.declared_iff`); any other literal is kept at a sort of its own.
-/

namespace Realizability

def Term.fits (s : SmtSort) : Term → Bool
  | .number _ => s.isArith || s.isBitVec
  | .decimal _ => s == .real
  | .string _ => s == .string
  | .bits width _ => s == .bitVec width
  | .app _ _ [] => s == .bool
  | .app _ _ [(_, .number _)] => s.isArith
  | .app _ _ [(_, .decimal _)] => s == .real
  | _ => false

variable {s : SmtSort} {t : Term} {e : Expr}

theorem numberAt_sort {n : Int} :
    (numberAt (some s) n).sort = s ↔ (s.isArith || s.isBitVec) = true := by
  cases s <;> simp [numberAt, Expr.sort, SmtSort.isArith, SmtSort.isBitVec]

theorem eq_iff_beq {s' : SmtSort} : s' = s ↔ (s == s') = true := by
  rw [beq_iff_eq]
  exact eq_comm

theorem decimalValue_sort {x : Binary64} (h : some <$> decimalValue x = .ok (some e)) :
    e.sort = s ↔ (s == .real) = true := by
  obtain ⟨a, ha, rfl⟩ : ∃ a, decimalValue x = .ok a ∧ a = e := by simpa [map_eq_ok] using h
  obtain ⟨q, -, rfl⟩ := decimalValue_eq_ok ha
  exact eq_iff_beq

theorem literal?_sort (h : literal? (some s) t = .ok (some e)) : e.sort = s ↔ t.fits s = true := by
  cases t with
  | number n =>
    cases h
    exact numberAt_sort
  | decimal x => exact decimalValue_sort h
  | string x =>
    cases h
    exact eq_iff_beq
  | bits width value =>
    cases h
    exact eq_iff_beq
  | app ident sort args =>
    rcases args with _ | ⟨⟨_, t⟩, _ | ⟨b, args⟩⟩
    · have htruth : ∀ b, (Expr.truth b).sort = s ↔ (s == .bool) = true := by
        intro b
        cases b <;> exact eq_iff_beq
      by_cases htrue : ident.name = "true"
      · obtain rfl : Expr.truth true = e := by simpa [literal?, htrue] using h
        exact htruth true
      · by_cases hfalse : ident.name = "false"
        · obtain rfl : Expr.truth false = e := by simpa [literal?, htrue, hfalse] using h
          exact htruth false
        · simp [literal?, htrue, hfalse] at h
    · by_cases hneg : ident.name = "-" ∧ s.isBitVec = false
      · cases t with
        | number n =>
          obtain rfl : numberAt (some s) (-n) = e := by simpa [literal?, hneg] using h
          rw [numberAt_sort, hneg.2, Bool.or_false]
          rfl
        | decimal x => exact decimalValue_sort (x := x.neg) (by simpa [literal?, hneg] using h)
        | _ => simp [literal?, hneg] at h
      · simp [literal?, hneg] at h
    · cases h
  | _ => cases h

namespace ExampleTable

/-- The entry of a table for a row in a column has the sort that the argument is declared with. -/
def Declared (table : ExampleTable) (i c : Nat) (arg : Identifier × Term) : Prop :=
  ∃ s column e, SmtSort.ofIdentifier arg.1 = .ok s ∧ table.columns[c]? = some column ∧
    column[i]? = some e ∧ e.sort = s

/-- In an accepted list of examples the value of an argument has its declared sort if and only if
the argument is a literal of that sort. -/
theorem declared_iff {ts : List Term} {table : ExampleTable} (h : ofTerms ts = .ok table)
    {i c : Nat} {t : Term} {arg : Identifier × Term} (ht : ts[i]? = some t)
    (harg : t.args[c + 1]? = some arg) :
    Declared table i c arg ↔ ∃ s, SmtSort.ofIdentifier arg.1 = .ok s ∧ arg.2.fits s = true := by
  have hne : ts ≠ [] := List.ne_nil_of_mem (List.mem_of_getElem? ht)
  obtain ⟨column, e, hcolumn, he, s, hs, hread⟩ := (transposed_of_ok hne h).entry i t ht c arg harg
  have hsort := literal?_sort hread
  constructor
  · rintro ⟨s', column', e', hs', hcolumn', he', hsort'⟩
    obtain rfl : s = s' := Except.ok.inj (hs.symm.trans hs')
    obtain rfl : column = column' := Option.some.inj (hcolumn.symm.trans hcolumn')
    obtain rfl : e = e' := Option.some.inj (he.symm.trans he')
    exact ⟨s, hs, hsort.mp hsort'⟩
  · rintro ⟨s', hs', hfits⟩
    obtain rfl : s = s' := Except.ok.inj (hs.symm.trans hs')
    exact ⟨s, column, e, hs, hcolumn, he, hsort.mpr hfits⟩

end ExampleTable

namespace Means

theorem fits_row {x y : Int} {result : Binary64} : ∀ a ∈ (row x y result).args.drop 1,
    ∃ s, SmtSort.ofIdentifier a.1 = .ok s ∧ a.2.fits s = true := by
  intro a ha
  rcases mem_args_row.mp ha with rfl | rfl | rfl
  · exact ⟨.int, rfl, rfl⟩
  · exact ⟨.int, rfl, rfl⟩
  · exact ⟨.real, rfl, rfl⟩

theorem declared_rows : ∃ table, ExampleTable.ofTerms rows = .ok table ∧
    ∀ (i c : Nat) (t : Term) (arg : Identifier × Term), rows[i]? = some t →
      t.args[c + 1]? = some arg → table.Declared i c arg := by
  obtain ⟨table, h⟩ := ofTerms_rows
  refine ⟨table, h, fun i c t arg ht harg => (ExampleTable.declared_iff h ht harg).mpr ?_⟩
  have hmem : arg ∈ t.args.drop 1 :=
    List.mem_of_getElem? (i := c) (by rw [List.getElem?_drop, Nat.add_comm, harg])
  rcases List.mem_pair.mp (List.mem_of_getElem? ht) with rfl | rfl <;> exact fits_row arg hmem

end Means

/-! ## A number as a string -/

namespace Mistyped

def row : Term :=
  .app ⟨"E.Sem", []⟩ ⟨"Bool", []⟩
    [(⟨"E", []⟩, .app ⟨"f", []⟩ ⟨"E", []⟩ []), (⟨"String", []⟩, .number 5)]

theorem not_declared : ∃ table, ExampleTable.ofTerms [row] = .ok table ∧
    ¬ table.Declared 0 0 (⟨"String", []⟩, .number 5) := by
  refine ⟨⟨some "E.Sem", [], [.int 5]⟩, rfl, ?_⟩
  rintro ⟨s, column, e, hs, hcolumn, he, hsort⟩
  cases hs
  cases hcolumn
  cases he
  cases hsort

end Mistyped

end Realizability
