import Realizability.Proofs.Grammar.Closure
import Realizability.Proofs.Grammar.Graph
import Realizability.Proofs.Grammar.Tree
import Realizability.Proofs.Problem.Integrity

/-!
# Nonterminals without finite terms

A nonterminal is productive if and only if a tree is derived from it (`mem_productive`): a pass adds
a nonterminal when its children have trees, and what no pass adds to has a place for every tree.
What is unproductive depends on which productions there are and not on their order.
-/

namespace Realizability

/-! ## Derived trees -/

/-- The trees that a nonterminal derives: an operator of one of its productions above trees that the
children of the production derive. -/
inductive Derives (ns : List Nonterminal) : String → Tree → Prop
  | node {n : Nonterminal} {q : Production} {ts : List Tree} (hn : n ∈ ns) (hq : q ∈ n.productions)
    (hlength : ts.length = q.children.length)
    (hts : ∀ (i : Nat) (x : String) (t : Tree), q.children[i]? = some x → ts[i]? = some t →
      Derives ns x t) :
    Derives ns n.name (.node q.operator ts)

variable {ns ns' : List Nonterminal} {n : Nonterminal} {q : Production} {s : List String} {x : String}

theorem exists_derives (hn : n ∈ ns) (hq : q ∈ n.productions)
    (h : ∀ x ∈ q.children, ∃ t, Derives ns x t) : ∃ t, Derives ns n.name t := by
  obtain ⟨ts, hts⟩ := exists_forall₂ h
  refine ⟨_, .node hn hq hts.length_eq.symm fun i x t hx ht => ?_⟩
  obtain ⟨t', ht', hd⟩ := get_of_forall₂ hts hx
  rw [ht] at ht'
  cases ht'
  exact hd

theorem Derives.mono (h : ∀ n ∈ ns, ∃ m ∈ ns', m.name = n.name ∧ n.productions ⊆ m.productions)
    {t : Tree} (hd : Derives ns x t) : Derives ns' x t := by
  induction hd with
  | node hn hq hlength _ ih =>
    obtain ⟨m, hm, hname, hsub⟩ := h _ hn
    exact hname ▸ .node hm (hsub hq) hlength ih

theorem Derives.mem_names {t : Tree} (h : Derives ns x t) : x ∈ ns.map Nonterminal.name := by
  cases h with
  | node hn _ _ _ => exact List.mem_map_of_mem hn

/-! ## Productive nonterminals -/

theorem extends_spreadProductive_step (s : List String) : ∀ n ∈ ns,
    Extends (ns.map Nonterminal.name) s
      (if !s.contains n.name && n.productions.any (·.children.all s.contains) then s ++ [n.name]
        else s) := by
  intro n hn
  split
  · rename_i h
    exact .one (List.mem_map_of_mem hn) (by simp_all)
  · exact .refl

theorem productive_fixed (ns : List Nonterminal) :
    spreadProductive ns (productive ns) = productive ns := by
  refine saturate_fixed (extends_foldl extends_spreadProductive_step) ?_
  rw [← List.length_map (f := Nonterminal.name)]
  exact List.length_filter_le _ _

theorem mem_productive_of_children (hn : n ∈ ns) (hq : q ∈ n.productions)
    (h : ∀ x ∈ q.children, x ∈ productive ns) : n.name ∈ productive ns := by
  have hstep := (foldl_eq_self_iff extends_spreadProductive_step).mp (productive_fixed ns) n hn
  by_contra hname
  have hany : n.productions.any (·.children.all (productive ns).contains) = true := by
    simpa using ⟨q, hq, h⟩
  simp [hname, hany] at hstep

theorem spreadProductive_derives (h : ∀ x ∈ s, ∃ t, Derives ns x t) :
    ∀ x ∈ spreadProductive ns s, ∃ t, Derives ns x t := by
  refine List.foldlRecOn (motive := fun s => ∀ x ∈ s, ∃ t, Derives ns x t) ns _ h ?_
  intro s hs n hn
  split
  · rename_i hcond
    rw [Bool.and_eq_true, List.any_eq_true] at hcond
    obtain ⟨-, q, hq, hchildren⟩ := hcond
    intro x hx
    rcases List.mem_append.mp hx with hx | hx
    · exact hs x hx
    · rw [List.mem_singleton.mp hx]
      refine exists_derives hn hq fun y hy => hs y ?_
      simpa using List.all_eq_true.mp hchildren y hy
  · exact hs

theorem mem_productive : x ∈ productive ns ↔ ∃ t, Derives ns x t := by
  constructor
  · exact saturate_induction (P := fun s => ∀ x ∈ s, ∃ t, Derives ns x t)
      (fun _ => spreadProductive_derives) _ (by simp) x
  · rintro ⟨t, ht⟩
    induction ht with
    | node hn hq hlength hts ih =>
      refine mem_productive_of_children hn hq fun y hy => ?_
      obtain ⟨i, hi⟩ := List.mem_iff_getElem?.mp hy
      obtain ⟨hlt, -⟩ := List.getElem?_eq_some_iff.mp hi
      exact ih i y _ hi (List.getElem?_eq_getElem (hlength ▸ hlt))

/-! ## Unproductive nonterminals -/

theorem mem_unproductive :
    x ∈ unproductive ns ↔ x ∈ ns.map Nonterminal.name ∧ ∀ t, ¬ Derives ns x t := by
  simp [unproductive, mem_sorted, mem_productive]

/-- The second list has the productions of the first in another order. -/
def Reordered (ns ns' : List Nonterminal) : Prop :=
  ∃ ms, ns.Perm ms ∧
    List.Forall₂ (fun n m => m.name = n.name ∧ m.productions.Perm n.productions) ms ns'

theorem Reordered.names (h : Reordered ns ns') :
    (ns'.map Nonterminal.name).Perm (ns.map Nonterminal.name) := by
  obtain ⟨ms, hperm, hms⟩ := h
  have : ms.map Nonterminal.name = ns'.map Nonterminal.name := by
    rw [← List.forall₂_eq_eq_eq, List.forall₂_map_left_iff, List.forall₂_map_right_iff]
    exact hms.imp fun n m h => h.1.symm
  exact this ▸ (hperm.map _).symm

theorem Reordered.derives_iff (h : Reordered ns ns') {t : Tree} :
    Derives ns' x t ↔ Derives ns x t := by
  obtain ⟨ms, hperm, hms⟩ := h
  constructor
  · refine Derives.mono fun m hm => ?_
    obtain ⟨n, hn, hname, hproductions⟩ := exists_of_forall₂ hms hm
    exact ⟨n, hperm.mem_iff.mpr hn, hname.symm, hproductions.subset⟩
  · refine Derives.mono fun n hn => ?_
    obtain ⟨m, hm, hname, hproductions⟩ := exists_of_forall₂ hms.flip (hperm.mem_iff.mp hn)
    exact ⟨m, hm, hname, hproductions.symm.subset⟩

theorem unproductive_pairwise (h : (ns.map Nonterminal.name).Nodup) :
    (unproductive ns).Pairwise (· < ·) := sorted_pairwise (h.filter _)

/-- The unproductive nonterminals are found by a number of passes no larger than that of the
nonterminals, and another pass adds nothing. They are, in the order of their code points, those
that derive no tree, whatever the order of nonterminals and productions is. -/
theorem unproductive_exact (h : (ns.map Nonterminal.name).Nodup) :
    (∃ k ≤ ns.length, productive ns = (spreadProductive ns)^[k] []) ∧
    spreadProductive ns (productive ns) = productive ns ∧
    (unproductive ns).Pairwise (· < ·) ∧
    (∀ x, x ∈ unproductive ns ↔ x ∈ ns.map Nonterminal.name ∧ ∀ t, ¬ Derives ns x t) ∧
    ∀ ns', Reordered ns ns' → unproductive ns' = unproductive ns := by
  refine ⟨saturate_eq_iterate .., productive_fixed ns, unproductive_pairwise h,
    fun x => mem_unproductive, fun ns' hr => ?_⟩
  refine eq_of_sorted (unproductive_pairwise (hr.names.nodup_iff.mpr h)) (unproductive_pairwise h)
    fun x => ?_
  rw [mem_unproductive, mem_unproductive, hr.names.mem_iff]
  simp only [hr.derives_iff]

/-- The loop never ends, but can be avoided. -/
theorem Looping.only_loop_unproductive : (nonterminals.map Nonterminal.name).Nodup ∧
    (∀ t, ¬ Derives nonterminals "Loop" t) ∧ ∃ t, Derives nonterminals "Start" t := by
  have hnames : (nonterminals.map Nonterminal.name).Nodup := by decide
  have hfound : unproductive nonterminals = ["Loop"] := by cbv
  obtain ⟨-, -, -, hmem, -⟩ := unproductive_exact hnames
  refine ⟨hnames, ((hmem "Loop").mp (by simp [hfound])).2, ?_⟩
  by_contra hnone
  have : "Start" ∈ unproductive nonterminals :=
    (hmem "Start").mpr ⟨by decide, not_exists.mp hnone⟩
  simp [hfound] at this

/-! ## Trees of problems -/

namespace Problem

variable {p : Problem}

theorem nonterminal?_eq_some (h : (p.nonterminals.map Nonterminal.name).Nodup) :
    p.nonterminal? x = some n ↔ n ∈ p.nonterminals ∧ n.name = x := by
  constructor
  · intro hn
    exact ⟨List.mem_of_find?_eq_some hn, by simpa using List.find?_some hn⟩
  · rintro ⟨hn, rfl⟩
    exact find?_of_nodup h hn

/-- The trees that a nonterminal derives are those that the problem generates for it. -/
theorem generates_iff_derives (h : (p.nonterminals.map Nonterminal.name).Nodup)
    (hn : n ∈ p.nonterminals) {t : Tree} :
    p.Generates n t ↔ Derives p.nonterminals n.name t := by
  constructor
  · intro ht
    induction ht with
    | node hq hns hlength _ ih =>
      have hchildren := mapM_eq_some.mp hns
      refine .node hn hq (hlength.trans hchildren.length_eq.symm) fun i x t hx hi => ?_
      obtain ⟨m, hm, hfound⟩ := get_of_forall₂ hchildren hx
      obtain ⟨hmem, rfl⟩ := (nonterminal?_eq_some h).mp hfound
      exact ih i m t hm hi hmem
  · intro ht
    generalize hname : n.name = x at ht
    induction ht generalizing n with
    | @node m q ts hm hq hlength hts ih =>
      have hnm : n = m := Option.some.inj
        (((nonterminal?_eq_some h).mpr ⟨hn, hname⟩).symm.trans ((nonterminal?_eq_some h).mpr ⟨hm, rfl⟩))
      have hchild : ∀ y ∈ q.children, ∃ m, p.nonterminal? y = some m := by
        intro y hy
        obtain ⟨i, hi⟩ := List.mem_iff_getElem?.mp hy
        obtain ⟨hlt, -⟩ := List.getElem?_eq_some_iff.mp hi
        have hd := hts i y _ hi (List.getElem?_eq_getElem (hlength ▸ hlt))
        obtain ⟨m, hm, rfl⟩ := List.mem_map.mp hd.mem_names
        exact ⟨m, (nonterminal?_eq_some h).mpr ⟨hm, rfl⟩⟩
      obtain ⟨ms, hms⟩ := exists_forall₂ hchild
      refine hnm ▸ .node hq (mapM_eq_some.mpr hms) (hlength.trans hms.length_eq) fun i m t hm ht => ?_
      obtain ⟨y, hy, hfound⟩ := get_of_forall₂ hms.flip hm
      obtain ⟨hmem, hy'⟩ := (nonterminal?_eq_some h).mp hfound
      exact ih i y t hy ht hmem hy'

theorem generates_all_iff (h : (p.nonterminals.map Nonterminal.name).Nodup) :
    (∀ n ∈ p.nonterminals, ∃ t, p.Generates n t) ↔ unproductive p.nonterminals = [] := by
  rw [List.eq_nil_iff_forall_not_mem]
  simp only [mem_unproductive, List.mem_map]
  constructor
  · rintro hall x ⟨⟨n, hn, rfl⟩, hnone⟩
    obtain ⟨t, ht⟩ := hall n hn
    exact hnone t ((generates_iff_derives h hn).mp ht)
  · intro hnone n hn
    by_contra hall
    refine hnone n.name ⟨⟨n, hn, rfl⟩, fun t ht => hall ⟨t, (generates_iff_derives h hn).mpr ht⟩⟩

end Problem

end Realizability
