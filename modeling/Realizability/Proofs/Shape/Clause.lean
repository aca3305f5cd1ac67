import Realizability.Proofs.Encoding.Formulas
import Realizability.Proofs.Shape.Premise

/-!
# What clauses are made of

The clause of a case closes an implication over the copies of the arguments that no column of the
examples fixes and over the witnesses of its premise (`clause_of`). Nothing else stands free in the
implication, so the clause is closed (`closeOver_closed`), and so is the query (`query_over`).
-/

namespace Realizability

open Realizability.Expr

/-! ## Closures -/

namespace Expr

/-- A closure over nothing is the body itself. -/
def closeOver (cs : List Const) (body : Expr) : Expr := if cs = [] then body else .forAll cs body

section
variable {g : Signature} {cs : List Const} {body e : Expr}

theorem close_eq_ok (h : close cs body = .ok e) : e = closeOver cs body := by
  unfold close at h
  by_cases hcs : cs = []
  · simp_all [closeOver]
  · split at h
    · simp_all
    · split at h
      · simp_all [closeOver]
      · cases h

theorem closeOver_closed (h : body.Over g cs) : (closeOver cs body).freeConsts = [] := by
  by_cases hcs : cs = []
  · rw [closeOver, if_pos hcs, List.eq_nil_iff_forall_not_mem]
    intro c hc
    have := h.mem_of_mem_freeConsts hc
    simp [hcs] at this
  · rw [closeOver, if_neg hcs, freeConsts, List.filter_eq_nil_iff]
    intro c hc
    simpa using h.mem_of_mem_freeConsts hc

theorem closeOver_applies (h : body.Over g cs) : (closeOver cs body).Applies g := by
  by_cases hcs : cs = []
  · rw [closeOver, if_pos hcs]
    exact h.applies
  · rw [closeOver, if_neg hcs]
    intro name args hmem
    simp only [parts, List.mem_cons, reduceCtorEq, false_or] at hmem
    exact h.applies name args hmem

end

end Expr

/-! ## Arguments -/

variable {table : ExampleTable}

/-- The input column for the argument at a position of `n`, the first of which is a term and the
last of which is the result. -/
def ExampleTable.column? (table : ExampleTable) (n p : Nat) : Option (List Expr) :=
  if 1 ≤ p ∧ p + 1 < n then table.inputs[p - 1]? else none

def Function.positions (f : Function) : List (TypedVar × Nat) := (f.args.drop 1).zipIdx 1

def Function.freeArgs (f : Function) (table : ExampleTable) : List TypedVar :=
  (f.positions.filter fun a => (table.column? f.args.length a.2).isNone).map Prod.fst

/-- An argument is bound to its column or, without one, to its copies. -/
def ExampleTable.Entry (table : ExampleTable) (n : Nat) (arg : TypedVar × Nat)
    (entry : String × List Expr) : Prop :=
  entry.1 = arg.1.name ∧
    match table.column? n arg.2 with
    | some column => entry.2 = column
    | none => ∃ cs, IsCopyVector table.size false arg.1 cs ∧ entry.2 = cs.map .const

section
variable {i n : Nat} {x : TypedVar} {xs : List TypedVar}
  {r : List Const × List (String × List Expr)}

theorem column?_eq (hn : n = i + 1 + (x :: xs).length) :
    table.column? n (i + 1) = if xs.isEmpty then none else table.inputs[i]? := by
  subst hn
  cases xs with
  | nil => simp [ExampleTable.column?]
  | cons y ys => simp [ExampleTable.column?]

theorem bindArgs_cons (hn : n = i + 1 + (x :: xs).length)
    (h : bindArgs table i (x :: xs) = .ok r) : ∃ fresh es r',
    bindArgs table (i + 1) xs = .ok r' ∧ r = (fresh ++ r'.1, (x.name, es) :: r'.2) ∧
      match table.column? n (i + 1) with
      | some column => fresh = [] ∧ es = column
      | none => es = fresh.map .const ∧
          ∃ s, sortOf x.sort = .ok s ∧ fresh = freshVector x.name s table.size := by
  rw [bindArgs] at h
  dsimp only at h
  rw [← column?_eq (x := x) hn] at h
  cases hc : table.column? n (i + 1) with
  | some column =>
    rw [hc] at h
    obtain ⟨r', hr, h⟩ := bind_eq_ok.mp h
    cases h
    exact ⟨[], column, r', hr, rfl, rfl, rfl⟩
  | none =>
    rw [hc] at h
    obtain ⟨s, hs, h⟩ := bind_eq_ok.mp h
    obtain ⟨r', hr, h⟩ := bind_eq_ok.mp h
    cases h
    exact ⟨freshVector x.name s table.size, _, r', hr, rfl, rfl, s, hs, rfl⟩

theorem bindArgs_entries (hn : n = i + 1 + xs.length) (h : bindArgs table i xs = .ok r) :
    List.Forall₂ (table.Entry n) (xs.zipIdx (i + 1)) r.2 := by
  induction xs generalizing i r with
  | nil =>
    cases h
    exact .nil
  | cons x xs ih =>
    obtain ⟨fresh, es, r', hr, rfl, hx⟩ := bindArgs_cons hn h
    refine .cons ⟨rfl, ?_⟩ (ih (by simp at hn; omega) hr)
    dsimp only
    cases hc : table.column? n (i + 1) with
    | some column =>
      rw [hc] at hx
      exact hx.2
    | none =>
      rw [hc] at hx
      obtain ⟨rfl, s, hs, rfl⟩ := hx
      exact ⟨_, isCopyVector_fresh (Signature.sortOf_eq_ok.mp hs), rfl⟩

theorem bindArgs_copied (hn : n = i + 1 + xs.length) (h : bindArgs table i xs = .ok r) :
    Copied table.size false
      (((xs.zipIdx (i + 1)).filter fun a => (table.column? n a.2).isNone).map Prod.fst) r.1 := by
  induction xs generalizing i r with
  | nil =>
    cases h
    exact .nil
  | cons x xs ih =>
    obtain ⟨fresh, es, r', hr, rfl, hx⟩ := bindArgs_cons hn h
    have hrest := ih (by simp at hn; omega) hr
    cases hc : table.column? n (i + 1) with
    | some column =>
      rw [hc] at hx
      simpa [List.zipIdx_cons, hc, hx.1] using hrest
    | none =>
      rw [hc] at hx
      obtain ⟨-, s, hs, rfl⟩ := hx
      simpa [List.zipIdx_cons, hc] using
        Copied.cons (isCopyVector_fresh (Signature.sortOf_eq_ok.mp hs)) hrest

theorem bindArgs_over {g : Signature} (hl : ∀ column ∈ table.inputs, OverEach g [] column)
    (h : bindArgs table i xs = .ok r) : ∀ entry ∈ r.2, OverEach g r.1 entry.2 := by
  induction xs generalizing i r with
  | nil =>
    cases h
    simp
  | cons x xs ih =>
    obtain ⟨fresh, es, r', hr, rfl, hx⟩ := bindArgs_cons rfl h
    refine List.forall_mem_cons.mpr ⟨?_, ?_⟩
    · split at hx
      · rename_i column hc
        have hmem : column ∈ table.inputs := by
          unfold ExampleTable.column? at hc
          split at hc
          · exact List.mem_of_getElem? hc
          · cases hc
        exact fun e he => (hl column hmem e (hx.2 ▸ he)).mono (List.nil_subset _)
      · exact hx.1 ▸ Scopes.over_consts (List.subset_append_left ..)
    · exact fun entry hentry e he => (ih hr entry hentry e he).mono (List.subset_append_right ..)

theorem bindArgs_last {s : SmtSort} (h : bindArgs table i xs = .ok r)
    (hx : xs.getLast? = some x) (hs : sortOf x.sort = .ok s) :
    freshVector x.name s table.size ⊆ r.1 := by
  induction xs generalizing i r with
  | nil => cases hx
  | cons y xs ih =>
    obtain ⟨fresh, es, r', hr, rfl, hy⟩ := bindArgs_cons rfl h
    cases xs with
    | nil =>
      obtain rfl : y = x := Option.some.inj hx
      -- no column fixes the last argument
      rw [column?_eq rfl] at hy
      obtain ⟨-, s', hs', rfl⟩ := hy
      obtain rfl : s' = s := Except.ok.inj (hs'.symm.trans hs)
      exact List.subset_append_left ..
    | cons z xs => exact fun c hc => List.mem_append_right _ (ih hr hx hc)

end

/-! ## Clauses -/

/-- The constants for arguments, the witnesses, the premise and the copies of the result. -/
structure Clause where
  fresh : List Const
  witnesses : List Const
  premise : Expr
  result : List Const

namespace Clause

def bound (c : Clause) : List Const := c.fresh ++ c.witnesses

def implication (c : Clause) (name : String) : Expr :=
  .app .implies [c.premise, .call name (c.result.map .const)]

def formula (c : Clause) (name : String) : Expr := closeOver c.bound (c.implication name)

/-- The clause is that of a case of a function, with witnesses for the given variables. -/
structure Of (g : Signature) (table : ExampleTable) (f : Function) (t : Term)
    (xs : List TypedVar) (c : Clause) : Prop where
  fresh : Copied g.count false (f.freeArgs table) c.fresh
  witnesses : Copied g.count true xs c.witnesses
  distinct : c.witnesses.Nodup
  result : ∃ x, f.args.getLast? = some x ∧ IsCopyVector g.count false x c.result
  premise : ∃ entries next next', List.Forall₂ (table.Entry f.args.length) f.positions entries ∧
    g.vectorize [Table.ofEntries entries] next t = .ok ⟨c.witnesses, c.premise, next'⟩
  quantifierFree : c.premise.QuantifierFree

end Clause

namespace Signature

variable {g : Signature} {f : Function} {frame : Frame}

theorem clause_of {s : SmtSort} {next : Nat} {t : Term} {r : Expr × Nat}
    (hg : g.count = table.size) (hl : ∀ column ∈ table.inputs, OverEach g [] column)
    (hlen : 2 ≤ f.args.length) (hname : (f.name, s) ∈ g.indicators) (hs : f.resultSort = .ok s)
    (hf : f.frame table = .ok frame) (hc : g.clause frame next t = .ok r) :
    ∃ c : Clause, c.Of g table f t (t.existentials g.discards) ∧
      r.1 = c.formula f.name ∧ (c.implication f.name).Over g c.bound := by
  obtain ⟨b, x, s', hb, hx, hsort, hres, hfresh, hscope, hhead⟩ := Function.frame_eq_ok hf
  obtain rfl : s = s' := Except.ok.inj (hs.symm.trans hres)
  obtain ⟨p, hp, hc⟩ := bind_eq_ok.mp hc
  obtain ⟨implication, himp, hc⟩ := bind_eq_ok.mp hc
  obtain ⟨closed, hclosed, hc⟩ := bind_eq_ok.mp hc
  cases hc
  obtain ⟨-, rfl⟩ := logical_eq_ok (mapError_eq_ok.mp himp)
  have hn : f.args.length = 0 + 1 + (f.args.drop 1).length := by simp; omega
  have hlast : (f.args.drop 1).getLast? = some x := by
    rw [List.getLast?_drop, if_neg (by omega), hx]
  have hscopes : Scopes.Over g b.1 [frame.scope] := by
    have hnil : Scopes.Over g [] [] := Scopes.over_nil
    rw [hscope]
    exact hnil.bind (bindArgs_over hl hb)
  have hpremise : p.formula.Over g (b.1 ++ p.witnesses) := vectorize_over t hscopes hp
  have hcall : (Expr.call f.name ((freshVector x.name s table.size).map .const)).Over g
      (b.1 ++ p.witnesses) := by
    have hsub : freshVector x.name s table.size ⊆ b.1 ++ p.witnesses := fun c hc =>
      List.mem_append_left _ (bindArgs_last hb hlast hsort hc)
    refine .call hname ?_ (Scopes.over_consts hsub)
    rw [List.map_map, hg]
    exact freshVector_sorts
  refine ⟨⟨b.1, p.witnesses, p.formula, freshVector x.name s table.size⟩, ⟨?_, ?_, ?_, ?_, ?_, ?_⟩,
    ?_, over_two _ hpremise hcall⟩
  · rw [hg]
    exact bindArgs_copied hn hb
  · exact vectorize_copied t hp
  · exact (vectorize_stamped t hp).nodup
  · rw [hg]
    exact ⟨x, hx, isCopyVector_fresh (sortOf_eq_ok.mp hsort)⟩
  · exact ⟨b.2, next, p.next, bindArgs_entries hn hb, hscope ▸ hp⟩
  · exact hpremise.quantifierFree
  · rw [hhead, hfresh] at hclosed
    exact close_eq_ok (mapError_eq_ok.mp hclosed)

end Signature

/-! ## The query -/

theorem query_over {g : Signature} {f : Function} {s : SmtSort} {e : Expr}
    (hg : g.count = table.size) (hl : OverEach g [] table.results)
    (hname : (f.name, s) ∈ g.indicators) (hs : f.resultSort = .ok s)
    (h : f.query table = .ok e) : ∃ cs body, e = closeOver cs body ∧ body.Over g cs := by
  obtain ⟨s', hs', h⟩ := bind_eq_ok.mp h
  obtain rfl : s = s' := Except.ok.inj (hs.symm.trans hs')
  obtain ⟨equalities, hequal, h⟩ := bind_eq_ok.mp (mapError_eq_ok.mp h)
  obtain ⟨matched, hmatched, h⟩ := bind_eq_ok.mp h
  obtain ⟨refuted, hrefuted, h⟩ := bind_eq_ok.mp h
  obtain ⟨implication, himp, h⟩ := bind_eq_ok.mp h
  refine ⟨_, implication, close_eq_ok h, ?_⟩
  have hsorts : (freshVector resultName s table.size).map Const.sort =
    List.replicate table.size s := freshVector_sorts
  generalize freshVector resultName s table.size = vector at *
  have hequalities : OverEach g vector equalities := by
    refine Yields.mapM (fun p hp => ?_) equalities hequal
    have hp := List.of_mem_zip hp
    exact mkEq_builds (.const hp.1) ((hl p.2 hp.2).mono (List.nil_subset _))
  have hcall : (Expr.call f.name (vector.map .const)).Over g vector := by
    refine .call hname ?_ (Scopes.over_consts (List.Subset.refl _))
    rw [List.map_map, hg]
    exact hsorts
  have hrefuted := mkNot_over (conjoin_over hequalities matched hmatched) refuted hrefuted
  exact mkImplies_builds hcall hrefuted implication himp

end Realizability
