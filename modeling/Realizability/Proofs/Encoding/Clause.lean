import Realizability.Proofs.Encoding.Premise
import Realizability.Proofs.Encoding.Table

/-!
# Clauses

The clause of a case holds if its function has every vector that the case gives (`clause_holds`):
values for the constants of a clause are bindings for the arguments together with values for the
witnesses of the premise, and both can be chosen freely.
-/

namespace Realizability

variable {M : Model} {ν : Valuation} {table : ExampleTable}

/-! ## Bindings of arguments -/

section
variable {i : Nat} {xs : List TypedVar} {r : List Const × List (String × List Expr)}

theorem bindArgs_fresh (h : bindArgs table i xs = .ok r) {c : Const} (hc : c ∈ r.1) :
    ∃ x ∈ r.2.map Prod.fst, ∃ s, c ∈ freshVector x s table.size := by
  induction xs generalizing i r with
  | nil => cases h; exact absurd hc List.not_mem_nil
  | cons x xs ih =>
    rw [bindArgs] at h
    dsimp only at h
    split at h
    · obtain ⟨r', hr, h⟩ := bind_eq_ok.mp h
      cases h
      obtain ⟨y, hy, s, hs⟩ := ih hr hc
      exact ⟨y, List.mem_cons_of_mem _ hy, s, hs⟩
    · obtain ⟨s, -, h⟩ := bind_eq_ok.mp h
      obtain ⟨r', hr, h⟩ := bind_eq_ok.mp h
      cases h
      rcases List.mem_append.mp hc with hc | hc
      · exact ⟨x.name, List.mem_cons_self .., s, hc⟩
      · obtain ⟨y, hy, s, hs⟩ := ih hr hc
        exact ⟨y, List.mem_cons_of_mem _ hy, s, hs⟩

theorem means_literals (hl : table.Literal) {column : List Expr}
    (h : table.inputs[i]? = some column) : MeanEach M ν column (column.map Expr.literal) := by
  have hmem : column ∈ table.columns := List.mem_append_left _ (List.mem_of_getElem? h)
  exact List.forall₂_map_right_iff.mpr (List.forall₂_same.mpr fun e he => hl column hmem e he M ν)

variable {x : TypedVar} {s : SmtSort}

theorem bindArgs_binds (hl : table.Literal) (h : bindArgs table i xs = .ok r)
    (hx : xs.getLast? = some x) (hs : sortOf x.sort = .ok s) :
    ∃ bs, Binds table ((freshVector x.name s table.size).map ν.value) i xs bs ∧
      BindAlike M ν r.2 bs := by
  induction xs generalizing i r with
  | nil => cases hx
  | cons y xs ih =>
    rw [bindArgs] at h
    dsimp only at h
    cases xs with
    | nil =>
      obtain rfl : y = x := Option.some.inj hx
      obtain ⟨s', hs', h⟩ := bind_eq_ok.mp h
      rw [hs] at hs'
      cases hs'
      cases h
      exact ⟨_, .result, .cons (fun _ => means_consts _) .nil⟩
    | cons z xs =>
      split at h
      · rename_i column hc
        obtain ⟨r', hr, h⟩ := bind_eq_ok.mp h
        cases h
        obtain ⟨bs, hb, ha⟩ := ih hr hx
        exact ⟨_, .fixed hc hb, .cons (fun _ => means_literals hl hc) ha⟩
      · rename_i hc
        obtain ⟨s', hs', h⟩ := bind_eq_ok.mp h
        obtain ⟨r', hr, h⟩ := bind_eq_ok.mp h
        cases h
        obtain ⟨bs, hb, ha⟩ := ih hr hx
        have hv : IsVector table.size s' ((freshVector y.name s' table.size).map ν.value) :=
          isVector_values freshVector_sorts
        exact ⟨_, .free hc (mapError_eq_ok.mp hs') hv hb, .cons (fun _ => means_consts _) ha⟩

theorem binds_bindArgs (hl : table.Literal) (h : bindArgs table i xs = .ok r)
    (hx : xs.getLast? = some x) (hs : sortOf x.sort = .ok s) {v : List Value}
    (hv : IsVector table.size s v) {bs : List Binding} (hb : Binds table v i xs bs) (ν : Valuation) :
    ∃ ν' : Valuation, ν.AgreeOff r.1 ν' ∧ BindAlike M ν' r.2 bs ∧
      (freshVector x.name s table.size).map ν'.value = v := by
  induction hb generalizing r ν with
  | @result i y =>
    obtain rfl : y = x := Option.some.inj hx
    rw [bindArgs] at h
    obtain ⟨s', hs', h⟩ := bind_eq_ok.mp h
    rw [hs] at hs'
    cases hs'
    cases h
    obtain ⟨ν', ha, hν⟩ := ν.exists_assign freshVector_nodup (hv.sorts.trans freshVector_sorts.symm)
    refine ⟨ν', ?_, .cons (fun _ => ?_) .nil, hν⟩
    · exact ha.mono (List.subset_append_left ..)
    · exact hν ▸ means_consts _
  | @fixed i y z xs column bs hc _ ih =>
    rw [bindArgs] at h
    dsimp only at h
    rw [if_neg (by simp), hc] at h
    obtain ⟨r', hr, h⟩ := bind_eq_ok.mp h
    cases h
    obtain ⟨ν', ha, hb, hν⟩ := ih hr hx ν
    exact ⟨ν', ha, .cons (fun _ => means_literals hl hc) hb, hν⟩
  | @free i y z xs t ws bs hc ht hw _ ih =>
    rw [bindArgs] at h
    dsimp only at h
    rw [if_neg (by simp), hc] at h
    obtain ⟨t', ht', h⟩ := bind_eq_ok.mp h
    obtain ⟨r', hr, h⟩ := bind_eq_ok.mp h
    cases h
    obtain rfl : t' = t := Except.ok.inj ((mapError_eq_ok.mp ht').symm.trans ht)
    obtain ⟨ν₁, ha₁, hν₁⟩ := ν.exists_assign freshVector_nodup (hw.sorts.trans freshVector_sorts.symm)
    obtain ⟨ν', ha, hb, hν⟩ := ih hr hx ν₁
    refine ⟨ν', ha₁.trans ha, .cons (fun hy => ?_) hb, hν⟩
    -- no argument that follows has copies of this name
    have hoff : ∀ c ∈ freshVector y.name t' table.size, c ∉ r'.1 := by
      intro c hc hcr
      obtain ⟨x', hx', s', hs'⟩ := bindArgs_fresh hr hcr
      refine not_mem_freshVector ?_ hc hs'
      rintro rfl
      exact hy hx'
    rw [← hν₁, ← ha.map_eq hoff]
    exact means_consts _

end

/-! ## Closures -/

theorem Expr.close_holds {cs : List Const} {body e : Expr} (h : close cs body = .ok e) :
    e.Holds M ν ↔ ∀ ν' : Valuation, ν.AgreeOff cs ν' → body.Holds M ν' := by
  unfold close at h
  split at h
  · rename_i hcs
    cases h
    rw [List.isEmpty_iff.mp hcs]
    constructor
    · intro hh ν' ha
      rwa [Valuation.agreeOff_nil ha]
    · intro hh
      exact hh ν fun _ _ => rfl
  · split at h
    · cases h
      exact holds_forAll
    · cases h

/-! ## Cases -/

namespace Function

variable {f : Function}

theorem frame_eq_ok {frame : Frame} (h : f.frame table = .ok frame) :
    ∃ r x s, bindArgs table 0 (f.args.drop 1) = .ok r ∧ f.args.getLast? = some x ∧
      sortOf x.sort = .ok s ∧ f.resultSort = .ok s ∧ frame.fresh = r.1 ∧
      frame.scope = Table.ofEntries r.2 ∧
      frame.head = .call f.name ((freshVector x.name s table.size).map .const) := by
  unfold Function.frame resultArg? at h
  obtain ⟨r, hr, h⟩ := bind_eq_ok.mp h
  dsimp only at h
  split at h
  · cases h
  · rename_i x hx
    obtain ⟨s, hs, h⟩ := bind_eq_ok.mp h
    cases h
    refine ⟨r, x, s, hr, hx, hs, ?_, rfl, rfl, rfl⟩
    rw [resultSort, resultArg?, hx]
    exact hs

theorem cases_eq_ok {cases : List (MatchCase Term)} (h : f.cases = .ok cases) :
    2 ≤ f.args.length ∧ f.matchCases = cases := by
  unfold Function.cases at h
  split at h
  · cases h
  · rename_i hlen
    refine ⟨Nat.le_of_not_lt hlen, ?_⟩
    unfold matchCases
    cases hb : f.body with
    | matching scrutinee cs =>
      rw [hb] at h
      cases h
      rfl
    | _ =>
      rw [hb] at h
      cases h

end Function

theorem Signature.clause_holds {g : Signature} {f : Function} {frame : Frame} {c : MatchCase Term}
    {next : Nat} {r : Expr × Nat} (hl : table.Literal)
    (hlen : 2 ≤ f.args.length) (hf : f.frame table = .ok frame)
    (hc : g.clause frame next c.result = .ok r) :
    r.1.Holds M ν ↔
      ∀ v, g.CaseGives M (callsIn M.relations) table f c v → M.relations f.name v := by
  obtain ⟨b, x, s, hb, hx, hs, hres, hfresh, hscope, hhead⟩ := Function.frame_eq_ok hf
  obtain ⟨p, hp, hc⟩ := bind_eq_ok.mp hc
  obtain ⟨implication, himp, hc⟩ := bind_eq_ok.mp hc
  obtain ⟨closed, hclosed, hc⟩ := bind_eq_ok.mp hc
  cases hc
  rw [Expr.close_holds (mapError_eq_ok.mp hclosed)]
  have hlast : (f.args.drop 1).getLast? = some x := by
    rw [List.getLast?_drop, if_neg (by omega), hx]
  have hstand : ∀ ν' bs, BindAlike M ν' b.2 bs →
      Scopes.Stand M ν' [frame.scope] (Environment.empty.bind bs) := by
    intro ν' bs hbs
    rw [hscope]
    have hempty : Scopes.Stand M ν' [] Environment.empty := fun _ => .none
    exact hempty.bind hbs
  have hcall : ∀ ν', frame.head.Holds M ν' ↔
      M.relations f.name ((freshVector x.name s table.size).map ν'.value) := by
    intro ν'
    rw [hhead, (Expr.means_call (means_consts _)).holds_iff, Value.ofProp_eq_yes]
  constructor
  · rintro h v ⟨⟨s', hs', hv⟩, bs, hbs, hh⟩
    obtain rfl : s = s' := Except.ok.inj (hres.symm.trans hs')
    obtain ⟨ws, hws, hφ⟩ := vectorize_complete c.result hp hh
    have hstamp := vectorize_stamped c.result hp
    obtain ⟨ν₁, ha₁, hν₁⟩ := ν.exists_assign hstamp.nodup hws
    obtain ⟨ν', ha, hb', hν⟩ := binds_bindArgs hl hb hlast hs hv hbs ν₁
    have hagree : ν.AgreeOff (frame.fresh ++ p.witnesses) ν' := by
      refine (ha₁.trans ha).mono ?_
      rw [hfresh]
      exact List.append_subset.mpr ⟨List.subset_append_right .., List.subset_append_left ..⟩
    -- witnesses are stamped, the constants for arguments are not
    have hw : p.witnesses.map ν'.value = ws := by
      rw [ha.map_eq, hν₁]
      intro d hd hdb
      obtain ⟨y, -, t, ht⟩ := bindArgs_fresh hb hdb
      have := hstamp.isSome hd
      rw [stamp_of_mem_freshVector ht] at this
      cases this
    have hhead := (Expr.mkImplies_holds (mapError_eq_ok.mp himp)).mp (h ν' hagree)
      (hφ ν' (hstand ν' bs hb') hw _ (List.mem_singleton_self _))
    rwa [hcall, hν] at hhead
  · intro h ν' _
    rw [Expr.mkImplies_holds (mapError_eq_ok.mp himp)]
    intro hφ
    obtain ⟨bs, hbs, ha⟩ := bindArgs_binds (M := M) (ν := ν') hl hb hlast hs
    rw [hcall]
    have hv : IsVector table.size s ((freshVector x.name s table.size).map ν'.value) :=
      isVector_values freshVector_sorts
    exact h _ ⟨⟨s, hres, hv⟩, bs, hbs, vectorize_sound c.result (hstand ν' bs ha) hp hφ⟩

end Realizability
