import Realizability.Proofs.Renaming.Premise
import Realizability.Proofs.Shape.Clause

/-!
# Clauses under changed names

The prefix of a clause lists copies of arguments, which have different names, and then stamped
witnesses, so no constant stands in it twice (`Frame.Distinct.append`). Cases that differ in bound
names get the same clause up to the names in its prefix or none (`Signature.clause_alpha`).
-/

namespace Realizability

open Realizability.Expr

variable {table : ExampleTable}

/-! ## Arguments -/

section
variable {i : Nat} {x y : TypedVar} {xs ys : List TypedVar}
  {r r' : List Const × List (String × List Expr)}

theorem Copies.column {column : List Expr} (hc : ∀ σ : Renaming, column.map (rename σ) = column)
    (h : Copies xs ys r r') :
    Copies (x :: xs) (y :: ys) (r.1, (x.name, column) :: r.2) (r'.1, (y.name, column) :: r'.2) where
  sorts := h.sorts
  names := congrArg _ h.names
  names' := congrArg _ h.names'
  vectors σ τ hr := .cons ((hc σ).trans (hc τ).symm) (h.vectors σ τ hr)

/-- No renaming of constants changes the inputs. -/
def ExampleTable.Fixed (table : ExampleTable) : Prop :=
  ∀ column ∈ table.inputs, ∀ σ : Renaming, column.map (rename σ) = column

theorem ExampleTable.fixed_ofTerms {examples : List Term} (ht : ofTerms examples = .ok table) :
    table.Fixed := by
  intro column hc σ
  refine (List.map_congr_left fun e he => ?_).trans (List.map_id' column)
  obtain ⟨s, t, hs⟩ := exists_literal_of_mem ht (List.mem_append_left _ hc) he
  have hover : e.Over ⟨0, []⟩ [] := literal?_over hs
  exact hover.rename_eq fun c hc => absurd hc List.not_mem_nil

theorem bindArgs_alpha (hl : table.Fixed)
    (hs : xs.map TypedVar.sort = ys.map TypedVar.sort) :
    Together (Copies xs ys) (bindArgs table i xs) (bindArgs table i ys) := by
  induction xs generalizing i ys with
  | nil =>
    obtain rfl : ys = [] := by simpa using hs.symm
    exact .ok .nil
  | cons x xs ih =>
    cases ys with
    | nil => cases hs
    | cons y ys =>
      rw [List.map_cons, List.map_cons, List.cons.injEq] at hs
      have hlast : xs.isEmpty = ys.isEmpty := by
        rw [← List.isEmpty_map (f := TypedVar.sort), hs.2, List.isEmpty_map]
      rw [bindArgs, bindArgs, hlast, hs.1]
      dsimp only
      split
      · rename_i column hc
        have hmem : column ∈ table.inputs := by
          split at hc
          · cases hc
          · exact List.mem_of_getElem? hc
        exact (ih hs.2).bind fun r r' hr => .ok (hr.column (hl column hmem))
      · cases sortOf y.sort with
        | error => exact .error
        | ok s =>
          refine (ih hs.2).bind fun r r' hr => .ok ?_
          exact hr.cons (by rw [freshVector_sorts, freshVector_sorts])

theorem bindArgs_names (h : bindArgs table i xs = .ok r) :
    r.2.map Prod.fst = xs.map TypedVar.name := by
  induction xs generalizing i r with
  | nil =>
    cases h
    rfl
  | cons x xs ih =>
    obtain ⟨fresh, es, r', hr, rfl, -⟩ := bindArgs_cons rfl h
    exact congrArg _ (ih hr)

theorem bindArgs_nodup (h : bindArgs table i xs = .ok r) (hn : (xs.map TypedVar.name).Nodup) :
    r.1.Nodup := by
  induction xs generalizing i r with
  | nil =>
    cases h
    exact List.nodup_nil
  | cons x xs ih =>
    obtain ⟨fresh, es, r', hr, rfl, hx⟩ := bindArgs_cons rfl h
    rw [List.map_cons, List.nodup_cons] at hn
    have hrest := ih hr hn.2
    split at hx
    · rw [hx.1]
      exact hrest
    · obtain ⟨-, s, -, rfl⟩ := hx
      refine List.nodup_append'.mpr ⟨freshVector_nodup, hrest, fun c hc hcr => ?_⟩
      -- the copies of one name are not those of another
      obtain ⟨y, hy, s', hs'⟩ := bindArgs_fresh hr hcr
      rw [bindArgs_names hr] at hy
      refine not_mem_freshVector ?_ hc hs'
      rintro rfl
      exact hn.1 hy

theorem bindArgs_result {s : SmtSort} (h : bindArgs table i xs = .ok r)
    (hx : xs.getLast? = some x) (hs : sortOf x.sort = .ok s) :
    r.2.getLast? = some (x.name, (freshVector x.name s table.size).map .const) := by
  induction xs generalizing i r with
  | nil => cases hx
  | cons y xs ih =>
    obtain ⟨fresh, es, r', hr, rfl, hy⟩ := bindArgs_cons rfl h
    cases xs with
    | nil =>
      obtain rfl : y = x := Option.some.inj hx
      rw [column?_eq rfl] at hy
      obtain ⟨rfl, s', hs', rfl⟩ := hy
      obtain rfl : s' = s := Except.ok.inj (hs'.symm.trans hs)
      cases hr
      rfl
    | cons z xs =>
      rw [List.getLast?_cons, ih hr hx]
      rfl

end

/-! ## Frames -/

/-- No constant of the frame is a witness or stands in it twice. -/
structure Frame.Distinct (F : Frame) : Prop where
  nodup : F.fresh.Nodup
  unstamped : ∀ c ∈ F.fresh, c.stamp = none

theorem Frame.Distinct.append {F : Frame} (h : F.Distinct) {cs : List Const} {next next' : Nat}
    (hc : Stamped next cs next') : (F.fresh ++ cs).Nodup := by
  refine List.nodup_append'.mpr ⟨h.nodup, hc.nodup, fun c hf hcs => ?_⟩
  have := hc.isSome hcs
  rw [h.unstamped c hf] at this
  cases this

theorem Function.frame_distinct {f : Function} {F : Frame} (h : f.frame table = .ok F)
    (hn : (f.args.map TypedVar.name).Nodup) : F.Distinct := by
  obtain ⟨r, x, s, hr, -, -, -, hfresh, -, -⟩ := Function.frame_eq_ok h
  have hdrop : ((f.args.drop 1).map TypedVar.name).Nodup := by
    rw [List.map_drop]
    exact hn.sublist (List.drop_sublist ..)
  refine ⟨hfresh ▸ bindArgs_nodup hr hdrop, fun c hc => ?_⟩
  obtain ⟨y, -, s', hs'⟩ := bindArgs_fresh hr (hfresh ▸ hc)
  exact stamp_of_mem_freshVector hs'

structure Frame.Alpha (bs : Binders) (F F' : Frame) : Prop where
  sorts : F.fresh.map Const.sort = F'.fresh.map Const.sort
  scope : ∀ σ τ : Renaming, F.fresh.map σ.const = F'.fresh.map τ.const →
    Scopes.Agree σ τ bs [F.scope] [F'.scope]
  head : ∀ σ τ : Renaming, F.fresh.map σ.const = F'.fresh.map τ.const →
    F.head.rename σ = F'.head.rename τ

theorem getLast_of_forall₂ {α β : Type} {R : α → β → Prop} {as : List α} {bs : List β} {a : α}
    {b : β} (h : List.Forall₂ R as bs) (ha : as.getLast? = some a) (hb : bs.getLast? = some b) :
    R a b := by
  rw [List.getLast?_eq_getElem?] at ha hb
  obtain ⟨b', hb', hr⟩ := get_of_forall₂ h ha
  rw [h.length_eq, hb] at hb'
  exact Option.some.inj hb' ▸ hr

namespace Function.Renamed

variable {f f' : Function}

theorem cases_together (h : f.Renamed f') :
    Together (fun cs cs' => 2 ≤ f.args.length ∧ List.Forall₂
      (fun c c' => c.result.Alpha (Binders.bind [] f.args f'.args) c'.result) cs cs')
      f.cases f'.cases := by
  obtain ⟨t, t', cs, cs', hb, hb', hcs⟩ := h.cases
  have hlen : f.args.length = f'.args.length := by simpa using congrArg List.length h.sorts
  unfold Function.cases
  rw [← hlen, hb, hb']
  split
  · exact .error
  · exact .ok ⟨by omega, hcs⟩

theorem frame_together (hl : table.Fixed) (h : f.Renamed f') (hlen : 2 ≤ f.args.length) :
    Together (Frame.Alpha (Binders.bind [] f.args f'.args)) (f.frame table) (f'.frame table) := by
  have hsorts := h.sorts
  unfold Function.frame resultArg?
  rw [← h.name]
  cases hxs : f.args with
  | nil => simp [hxs] at hlen
  | cons a xs =>
    cases hys : f'.args with
    | nil => simp [hxs, hys] at hsorts
    | cons b ys =>
      rw [hxs, hys, List.map_cons, List.map_cons, List.cons.injEq] at hsorts
      obtain ⟨x, hx⟩ : ∃ x, xs.getLast? = some x := by
        cases xs with
        | nil => simp [hxs] at hlen
        | cons z xs => exact ⟨_, rfl⟩
      obtain ⟨y, hy, hsort⟩ : ∃ y, ys.getLast? = some y ∧ x.sort = y.sort := by
        have hlast := congrArg List.getLast? hsorts.2
        rw [List.getLast?_map, List.getLast?_map, hx] at hlast
        obtain ⟨y, hy, hs⟩ := Option.map_eq_some_iff.mp hlast.symm
        exact ⟨y, hy, hs.symm⟩
      rw [List.getLast?_cons, List.getLast?_cons, hx, hy, Binders.bind_cons]
      refine (bindArgs_alpha hl hsorts.2).eqs.bind fun r r' ⟨hr, hr', hc⟩ => ?_
      dsimp only [Option.getD_some]
      rw [hsort]
      cases hs : sortOf y.sort with
      | error => exact .error
      | ok s =>
        refine .ok ⟨hc.sorts, fun σ τ he => Scopes.agree_nil.bind hc he, fun σ τ he => ?_⟩
        have hv := getLast_of_forall₂ (hc.vectors σ τ he)
          (bindArgs_result hr hx (hsort ▸ hs)) (bindArgs_result hr' hy hs)
        rw [rename_call, rename_call, hv]

end Function.Renamed

/-! ## Clauses -/

theorem nameless_closeOver (cs : List Const) (op : Op) (es : List Expr) :
    (closeOver cs (.app op es)).nameless =
      (cs.map Const.sort, (Expr.app op es).rename (.position cs)) := by
  unfold closeOver
  split
  · rename_i hcs
    subst hcs
    rfl
  · rfl

theorem close_alpha {cs ds : List Const} (hs : cs.map Const.sort = ds.map Const.sort)
    (hc : cs.Nodup) (hd : ds.Nodup) {op op' : Op} {es es' : List Expr}
    (h : ∀ σ τ : Renaming, cs.map σ.const = ds.map τ.const →
      (Expr.app op es).rename σ = (Expr.app op' es').rename τ) :
    Together (fun e e' => e.nameless = e'.nameless) (close cs (.app op es))
      (close ds (.app op' es')) := by
  have hclosed : Together (Expr.Agree .blind .blind) (close cs (.app op es))
      (close ds (.app op' es')) := by
    refine .of_map_eq ?_
    rw [← close_rename, ← close_rename, Renaming.map_blind hs, h _ _ (Renaming.map_blind hs)]
  refine hclosed.eqs.mono fun e e' ⟨he, he', _⟩ => ?_
  rw [close_eq_ok he, close_eq_ok he', nameless_closeOver, nameless_closeOver, hs,
    h _ _ (Renaming.map_position hs hc hd)]

theorem Stamped.eq_add {next next' : Nat} {cs : List Const} (h : Stamped next cs next') :
    next' = next + cs.length := by
  obtain ⟨k, rfl, hk⟩ := h
  have := congrArg List.length hk
  simp only [List.length_map, List.length_range'] at this
  rw [this]

namespace Signature

variable {g : Signature} {bs : Binders} {F F' : Frame}

theorem clause_alpha (hF : F.Alpha bs F') (hd : F.Distinct) (hd' : F'.Distinct) {t t' : Term}
    (ht : t.Alpha bs t') (next next' : Nat) :
    Together (fun r r' => r.1.nameless = r'.1.nameless ∧ (next = next' → r.2 = r'.2))
      (g.clause F next t) (g.clause F' next' t') := by
  have hscope := hF.scope .blind .blind (Renaming.map_blind hF.sorts)
  refine (vectorize_alpha t hscope ht).eqs.bind fun p p' ⟨hp, hp', hpp⟩ => ?_
  have hstamped := vectorize_stamped t hp
  have hstamped' := vectorize_stamped t' hp'
  have hsorts : (F.fresh ++ p.witnesses).map Const.sort =
      (F'.fresh ++ p'.witnesses).map Const.sort := by
    rw [List.map_append, List.map_append, hF.sorts, hpp.sorts]
  -- the implications agree whenever the constants of the prefixes do
  have himp : ∀ σ τ : Renaming,
      (F.fresh ++ p.witnesses).map σ.const = (F'.fresh ++ p'.witnesses).map τ.const →
      Together (Expr.Agree σ τ) (formed (mkImplies p.formula F.head))
        (formed (mkImplies p'.formula F'.head)) := by
    intro σ τ hc
    obtain ⟨hfresh, hw⟩ := append_map_inj (by simpa using congrArg List.length hF.sorts) hc
    have hformula := hpp.formulas σ τ ⟨hF.scope σ τ hfresh, hw⟩
    refine Together.mapError (.of_map_eq ?_)
    rw [← mkImplies_natural, ← mkImplies_natural, hF.head σ τ hfresh,
      List.singleton_inj.mp hformula]
  have himp' := Together.forall₂ (i := .blind) (k := .blind) (Renaming.map_blind hsorts) himp
  refine himp'.eqs.bind fun e e' ⟨he, he', h⟩ => ?_
  obtain ⟨-, rfl⟩ := logical_eq_ok (mapError_eq_ok.mp he)
  obtain ⟨-, rfl⟩ := logical_eq_ok (mapError_eq_ok.mp he')
  have hclosed := close_alpha hsorts (hd.append hstamped) (hd'.append hstamped') h
  refine hclosed.mapError.bind fun c c' hc => .ok ⟨hc, ?_⟩
  rintro rfl
  have hlen : p.witnesses.length = p'.witnesses.length := by
    simpa using congrArg List.length hpp.sorts
  rw [hstamped.eq_add, hstamped'.eq_add, hlen]

theorem clauses_alpha (hF : F.Alpha bs F') (hd : F.Distinct) (hd' : F'.Distinct) {f f' : Function}
    {cs cs' : List (MatchCase Term)}
    (h : List.Forall₂ (fun c c' => c.result.Alpha bs c'.result) cs cs') (next next' : Nat) :
    Together
      (fun r r' => r.1.map nameless = r'.1.map nameless ∧ (next = next' → r.2 = r'.2))
      (g.clauses f F next cs).outcome (g.clauses f' F' next' cs').outcome := by
  induction h generalizing next next' with
  | nil => exact .ok ⟨rfl, id⟩
  | cons ht _ ih =>
    rw [clauses, clauses]
    simp only [Logged.outcome_bind, Logged.outcome_write]
    refine (clause_alpha hF hd hd' ht next next').bind fun r r' hr => ?_
    refine (ih r.2 r'.2).bind fun rest rest' hrest => .ok ⟨?_, fun hn => hrest.2 (hr.2 hn)⟩
    rw [List.map_cons, List.map_cons, hr.1, hrest.1]

end Signature

end Realizability
