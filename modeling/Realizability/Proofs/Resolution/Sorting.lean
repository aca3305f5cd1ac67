import Realizability.Proofs.Examples.Transposition
import Realizability.Proofs.Resolution.Place
import Realizability.Proofs.Shape.Clause
import Realizability.Proofs.Theory.Lacking

/-!
# Sorts of terms

The sort of a value can be computed from those of the variables in scope, before anything is
evaluated. A term fits its place if its values exist, as far as sorts can tell, and if it is a truth
value where a premise claims it (`Term.misfits`).
-/

namespace Realizability

/-- The sorts that variables have for one example. -/
abbrev Sorting := String → Option SmtSort

def TypedVar.smtSort? (v : TypedVar) : Option SmtSort := (SmtSort.ofIdentifier v.sort).toOption

/-- The first variable of a name counts. -/
def Sorting.bind (Γ : Sorting) (xs : List TypedVar) : Sorting := fun x =>
  ((xs.find? (·.name = x)).map TypedVar.smtSort?).getD (Γ x)

theorem Sorting.bind_append (Γ : Sorting) (xs ys : List TypedVar) :
    Γ.bind (xs ++ ys) = (Γ.bind ys).bind xs := by
  funext x
  unfold bind
  rw [List.find?_append]
  cases xs.find? (·.name = x) <;> rfl

/-- The sort of an application, which that of any operands of these sorts shares. -/
def Symbol.resultSort? (s : Symbol) (sorts : List SmtSort) : Option SmtSort :=
  (s.apply (sorts.map fun sort => .const ⟨"", none, sort⟩)).toOption.map Expr.sort

mutual

/-- The sort of a term that is read at the sort `hint` if it is a literal. What is no symbol is a
call, which gives a truth value. -/
def Term.sortAt (Γ : Sorting) (hint : Option SmtSort) : Term → Option SmtSort
  | .app ident _ args =>
    match Symbol.ofIdentifier? ident with
    | some s => (argSorts Γ args).bind s.resultSort?
    | none => some .bool
  | .var x _ => Γ x
  | .number n => some (numberAt hint n).sort
  | .decimal _ => some .real
  | .string _ => some .string
  | .bits width _ => some (.bitVec width)
  | .quantified .. | .matching .. | .lambda .. => none

def argSorts (Γ : Sorting) : List (Identifier × Term) → Option (List SmtSort)
  | [] => some []
  | (sort, t) :: args => do return (← t.sortAt Γ (sortHint sort t)) :: (← argSorts Γ args)

end

/-- A decimal that is not finite, or an operator without an operation for its operands. -/
def Term.lacksValue (Γ : Sorting) : Term → Bool
  | .app ident _ args =>
    match Symbol.ofIdentifier? ident, argSorts Γ args with
    | some s, some sorts => s.lacks sorts
    | _, _ => false
  | .decimal x => !x.isFinite
  | _ => false

/-- A term without a value, or a conjunct that is no truth value. -/
def Term.misfits (Γ : Sorting) (q : Place) (t : Term) : Bool :=
  t.lacksValue Γ || (q.conjunctive && t.isConjunct && (t.sortAt Γ none).any (· != .bool))

/-- A subterm fits its place for all examples. -/
def Fits (n : Nat) (Γ : Nat → Sorting) (o : Place × Term) : Prop :=
  ∀ i < n, o.2.misfits ((Γ i).bind o.1.bound) o.1 = false

theorem Symbol.resultSort?_of_apply {s : Symbol} {es : List Expr} {e : Expr}
    (h : s.apply es = .ok e) : s.resultSort? (es.map Expr.sort) = some e.sort := by
  have halike : Expr.AlikeEach es
      ((es.map Expr.sort).map fun sort => .const ⟨"", none, sort⟩) := by
    rw [List.map_map]
    exact List.forall₂_map_right_iff.mpr (List.forall₂_same.mpr fun _ _ => rfl)
  obtain ⟨e', he', hsort⟩ := s.apply_follows halike e h
  rw [resultSort?, he']
  exact congrArg some hsort.symm

section
variable {n i : Nat} {Γ : Nat → Sorting} {q : Place} {t : Term} (hi : i < n)
include hi

theorem Fits.lacksValue (h : Fits n Γ (q, t)) : t.lacksValue ((Γ i).bind q.bound) = false :=
  (Bool.or_eq_false_iff.mp (h i hi)).1

theorem Fits.sort_eq_bool (h : Fits n Γ (q, t)) (hq : q.conjunctive = true)
    (ht : t.isConjunct = true) {s : SmtSort}
    (hs : t.sortAt ((Γ i).bind q.bound) none = some s) : s = .bool := by
  have := (Bool.or_eq_false_iff.mp (h i hi)).2
  simpa [hq, ht, hs] using this

end

/-! ## Sorts in scope -/

/-- Every vector in scope has an entry for each example, of the sort of its variable. -/
def Scopes.Sorted (n : Nat) (Γ : Nat → Sorting) (scopes : Scopes) : Prop :=
  ∀ x es, scopes.find? x = some es →
    es.length = n ∧ ∀ (i : Nat) (e : Expr), es[i]? = some e → Γ i x = some e.sort

/-- The entry is a vector for an element of the given name, with the sorts of that element. -/
structure SortedEntry {α : Type} (n : Nat) (name : α → String) (sort : Nat → α → Option SmtSort)
    (a : α) (entry : String × List Expr) : Prop where
  name : entry.1 = name a
  length : entry.2.length = n
  sorts : ∀ (i : Nat) (e : Expr), entry.2[i]? = some e → sort i a = some e.sort

theorem Scopes.Sorted.cons {α : Type} {n : Nat} {Γ : Nat → Sorting} {scopes : Scopes}
    (h : scopes.Sorted n Γ) {name : α → String} {sort : Nat → α → Option SmtSort} {as : List α}
    {entries : List (String × List Expr)}
    (hentries : List.Forall₂ (SortedEntry n name sort) as entries) :
    Scopes.Sorted n (fun i x => ((as.reverse.find? (name · = x)).map (sort i)).getD (Γ i x))
      (Table.ofEntries entries :: scopes) := by
  intro x es hx
  have hfind : Option.Rel (SortedEntry n name sort) (as.reverse.find? (name · = x))
      (entries.reverse.find? (·.1 = x)) :=
    find?_of_forall₂ ((List.rel_reverse hentries).imp fun a entry ha => ⟨ha, by rw [ha.name]⟩)
  rw [find?_cons, Table.get?_ofEntries] at hx
  dsimp only
  generalize as.reverse.find? (name · = x) = a at hfind
  generalize entries.reverse.find? (·.1 = x) = entry at hfind hx
  cases hfind with
  | none => exact h x es hx
  | some hentry =>
    cases hx
    exact ⟨hentry.length, hentry.sorts⟩

theorem IsCopyVector.sortedEntry {n : Nat} {stamped : Bool} {v : TypedVar} {cs : List Const}
    (h : IsCopyVector n stamped v cs) :
    SortedEntry n TypedVar.name (fun _ => TypedVar.smtSort?) v
      (v.name, cs.map .const) := by
  refine ⟨rfl, by rw [List.length_map, h.length], fun i e he => ?_⟩
  obtain ⟨c, hc, rfl⟩ := List.mem_map.mp (List.mem_of_getElem? he)
  obtain ⟨j, -, hcopy⟩ := exists_of_forall₂ h hc
  rw [TypedVar.smtSort?, hcopy.sort]
  rfl

theorem Signature.sorted_bind {g : Signature} {scopes : Scopes} {Γ : Nat → Sorting} {q : Place}
    (h : scopes.Sorted g.count fun i => (Γ i).bind q.bound) {xs : List TypedVar} {next : Nat}
    {r : List Const × Table (List Expr) × Nat} (hr : g.witnesses next xs = .ok r) :
    Scopes.Sorted g.count (fun i => (Γ i).bind (q.bind xs).bound) (scopeOf r.2.1 :: scopes) := by
  have hentries := (witnesses_entries hr).imp fun v entry hv => by
    obtain ⟨cs, hcs, rfl⟩ := hv
    exact hcs.sortedEntry
  have hbind : ∀ i, (Γ i).bind (q.bind xs).bound = ((Γ i).bind q.bound).bind xs.reverse :=
    fun i => Sorting.bind_append ..
  simp only [hbind]
  exact h.cons hentries

/-! ## Sorts of arguments -/

def Function.argSort? (f : Function) (table : ExampleTable) (i : Nat) (arg : TypedVar × Nat) :
    Option SmtSort :=
  match table.column? f.args.length arg.2 with
  | some column => (column[i]?).map Expr.sort
  | none => arg.1.smtSort?

/-- Of arguments of one name, the last counts. -/
def Function.sorting (f : Function) (table : ExampleTable) (i : Nat) : Sorting := fun x =>
  ((f.positions.reverse.find? (·.1.name = x)).map (f.argSort? table i)).getD none

theorem ExampleTable.length_of_column {ts : List Term} {table : ExampleTable}
    (h : ofTerms ts = .ok table) {n p : Nat} {column : List Expr}
    (hc : table.column? n p = some column) : column.length = table.size := by
  have hmem : column ∈ table.inputs := by
    unfold column? at hc
    split at hc
    · exact List.mem_of_getElem? hc
    · cases hc
  by_cases hne : ts = []
  · subst hne
    cases h
    cases hmem
  · rw [size_ofTerms h]
    exact (transposed_of_ok hne h).height column (List.mem_append_left _ hmem)

theorem Function.sorted_frame {f : Function} {ts : List Term} {table : ExampleTable} {frame : Frame}
    (htable : ExampleTable.ofTerms ts = .ok table) (hlen : 2 ≤ f.args.length)
    (h : f.frame table = .ok frame) :
    Scopes.Sorted table.size (fun i => (f.sorting table i).bind Place.top.bound) [frame.scope] := by
  obtain ⟨r, -, -, hr, -, -, -, -, hscope, -⟩ := frame_eq_ok h
  have hn : f.args.length = 0 + 1 + (f.args.drop 1).length := by
    rw [List.length_drop]
    omega
  have hentries : List.Forall₂ (SortedEntry table.size (fun arg => arg.1.name) (f.argSort? table))
      f.positions r.2 := by
    refine (bindArgs_entries hn hr).imp fun arg entry hentry => ?_
    obtain ⟨name, es⟩ := entry
    obtain ⟨rfl, hes⟩ := hentry
    cases hc : table.column? f.args.length arg.2 with
    | some column =>
      rw [hc] at hes
      obtain rfl : es = column := hes
      refine ⟨rfl, ExampleTable.length_of_column htable hc, fun i e he => ?_⟩
      simp [argSort?, hc, he]
    | none =>
      rw [hc] at hes
      obtain ⟨cs, hcs, rfl⟩ := hes
      have hcopy := hcs.sortedEntry
      refine ⟨rfl, hcopy.length, fun i e he => ?_⟩
      rw [argSort?, hc]
      exact hcopy.sorts i e he
  have hnil : Scopes.Sorted table.size (fun _ _ => none) [] := by
    intro x es hx
    cases hx
  rw [hscope]
  exact hnil.cons hentries

end Realizability
