import Mathlib.Logic.Relation
import Realizability.Proofs.Grammar.Closure
import Realizability.Proofs.Grammar.Graph
import Realizability.Proofs.Problem.Integrity

/-!
# Paths in a grammar's graph

A search of a graph is relied on to find the ends of paths and the sets of nodes that lead to each
other (`GraphSearch.Sound`). Then the reachable nonterminals are those on paths from the root, and
the recursive ones, collected from the components, are those on cycles; both are said of the
productions of a finished problem. Closing sets by passes finds what paths lead to
(`GrammarGraph.mem_closure`), and so it makes a search to rely on (`GraphSearch.byPasses_sound`).
-/

open Relation (ReflTransGen TransGen)

namespace Realizability

namespace GrammarGraph

variable {g : GrammarGraph} {s : List String} {x y : String}

/-! ## Closures -/

theorem extends_spread_step (hg : g.Whole) (s : List String) : ∀ e ∈ g.edges,
    Extends g.names s
      (if s.contains e.source && !s.contains e.target then s ++ [e.target] else s) := by
  intro e he
  split
  · rename_i h
    exact .one (hg e he).2 (by simp_all)
  · exact .refl

theorem closure_induction {P : List String → Prop}
    (hadd : ∀ t, ∀ e ∈ g.edges, e.source ∈ t → e.target ∉ t → P t → P (t ++ [e.target]))
    (h : P s) : P (g.closure s) := by
  refine saturate_induction (fun t ht => ?_) _ h
  refine List.foldlRecOn g.edges _ ht fun u hu e he => ?_
  split
  · rename_i hcond
    simp only [List.contains_iff_mem, Bool.and_eq_true, Bool.not_eq_true'] at hcond
    exact hadd u e he hcond.1 (by simpa using hcond.2) hu
  · exact hu

theorem subset_closure : s ⊆ g.closure s :=
  closure_induction (P := (s ⊆ ·)) (fun _ _ _ _ _ ht => List.subset_append_of_subset_left _ ht)
    (List.Subset.refl s)

theorem nodup_closure (h : s.Nodup) : (g.closure s).Nodup := by
  refine closure_induction (P := List.Nodup) (fun t e _ _ hnew ht => ?_) h
  rw [List.nodup_append_comm]
  exact List.nodup_cons.mpr ⟨hnew, ht⟩

theorem closure_closed (hg : g.Whole) (hx : x ∈ g.closure s) (h : g.Leads x y) :
    y ∈ g.closure s := by
  have hsteps := extends_spread_step hg
  have hfixed : g.spread (g.closure s) = g.closure s := by
    refine saturate_fixed (fun t => extends_foldl hsteps t) ?_
    rw [← List.length_map (f := Prod.fst)]
    exact List.length_filter_le _ _
  obtain ⟨e, he, rfl, rfl⟩ := h
  have hstep := (foldl_eq_self_iff hsteps).mp hfixed e he
  by_contra hy
  simp [hx, hy] at hstep

theorem mem_closure (hg : g.Whole) : x ∈ g.closure s ↔ ∃ y ∈ s, ReflTransGen g.Leads y x := by
  constructor
  · refine closure_induction (P := fun t => ∀ x ∈ t, ∃ y ∈ s, ReflTransGen g.Leads y x)
      (fun t e he hsource _ ht x hx => ?_) (fun x hx => ⟨x, hx, .refl⟩) x
    rcases List.mem_append.mp hx with hx | hx
    · exact ht x hx
    · obtain ⟨y, hy, hpath⟩ := ht e.source hsource
      exact ⟨y, hy, hpath.tail ⟨e, he, rfl, (List.mem_singleton.mp hx).symm⟩⟩
  · rintro ⟨y, hy, hpath⟩
    induction hpath with
    | refl => exact subset_closure hy
    | tail _ hedge ih => exact closure_closed hg ih hedge

end GrammarGraph

theorem mem_unite {s t : List String} {x : String} : x ∈ unite s t ↔ x ∈ s ∨ x ∈ t := by
  by_cases hx : x ∈ s <;> simp [unite, hx]

theorem nodup_unite {s t : List String} (hs : s.Nodup) (ht : t.Nodup) : (unite s t).Nodup := by
  refine hs.append (ht.filter _) fun x hx hx' => ?_
  simp [hx] at hx'

/-! ## Searches -/

namespace GraphSearch

/-- The search answers as it is documented to: what paths of one edge or more lead to from a node,
other than the node, and the largest sets of nodes that lead to each other, one for every node. -/
structure Sound (search : GraphSearch) (g : GrammarGraph) : Prop where
  descendants : ∀ root ∈ g.names, ∀ x,
    x ∈ search.descendants g root ↔ x ≠ root ∧ TransGen g.Leads root x
  distinct : ∀ root ∈ g.names, (search.descendants g root).Nodup
  covered : ∀ x ∈ g.names, ∃ c ∈ search.components g, x ∈ c.nodes
  component : ∀ c ∈ search.components g, c.nodes.Nodup ∧ ∀ x ∈ c.nodes, x ∈ g.names ∧
    ∀ y, y ∈ c.nodes ↔ y ∈ g.names ∧ ReflTransGen g.Leads x y ∧ ReflTransGen g.Leads y x

variable {search : GraphSearch} {g : GrammarGraph} {x y root : String} {c : Component}

theorem mem_reachable (h : search.Sound g) (hroot : root ∈ g.names) :
    x ∈ search.reachable g root ↔ x = root ∨ TransGen g.Leads root x := by
  rw [reachable, mem_unite, List.mem_singleton, h.descendants root hroot]
  by_cases hx : x = root <;> simp [hx]

theorem mem_unreachable :
    x ∈ search.unreachable g root ↔ x ∈ g.names ∧ x ∉ search.reachable g root := by
  simp [unreachable, mem_sorted]

theorem unreachable_pairwise (hnames : g.names.Nodup) (root : String) :
    (search.unreachable g root).Pairwise (· < ·) := sorted_pairwise (hnames.filter _)

theorem reachable_append_unreachable (h : search.Sound g) (hg : g.Whole) (hnames : g.names.Nodup)
    (hroot : root ∈ g.names) :
    (search.reachable g root ++ search.unreachable g root).Perm g.names := by
  have hsub : ∀ x ∈ search.reachable g root, x ∈ g.names := by
    intro x hx
    rcases (mem_reachable h hroot).mp hx with rfl | hpath
    · exact hroot
    · obtain ⟨y, -, e, he, -, rfl⟩ := TransGen.tail'_iff.mp hpath
      exact (hg e he).2
  have hreachable : (search.reachable g root).Nodup :=
    nodup_unite (List.nodup_singleton root) (h.distinct root hroot)
  have hunreachable : (search.unreachable g root).Nodup :=
    (unreachable_pairwise hnames root).imp fun hlt => ne_of_lt hlt
  have hdisjoint : (search.reachable g root).Disjoint (search.unreachable g root) :=
    fun x hx hx' => (mem_unreachable.mp hx').2 hx
  refine (List.perm_ext_iff_of_nodup (hreachable.append hunreachable hdisjoint) hnames).mpr
    fun x => ?_
  rw [List.mem_append, mem_unreachable]
  constructor
  · rintro (hx | hx)
    · exact hsub x hx
    · exact hx.1
  · intro hx
    by_cases hmem : x ∈ search.reachable g root
    · exact .inl hmem
    · exact .inr ⟨hx, hmem⟩

/-! ## Components -/

theorem hasEdge_iff : g.hasEdge x y = true ↔ g.Leads x y := by
  simp [GrammarGraph.hasEdge, GrammarGraph.Leads]

theorem nodup_cyclic (hc : c.nodes.Nodup) : (cyclic g c).Nodup := by
  unfold cyclic
  split
  · exact hc
  · split <;> simp

theorem mem_recursive_iff :
    x ∈ search.recursive g ↔ ∃ c ∈ search.components g, x ∈ cyclic g c := by
  have hfold : ∀ (cs : List Component) (s : List String),
      x ∈ cs.foldl (fun s c => unite s (cyclic g c)) s ↔ x ∈ s ∨ ∃ c ∈ cs, x ∈ cyclic g c := by
    intro cs
    induction cs with
    | nil => simp
    | cons c cs ih =>
      intro s
      rw [List.foldl_cons, ih, mem_unite, List.exists_mem_cons_iff, or_assoc]
  rw [recursive, mem_sorted, hfold]
  simp

theorem recursive_pairwise (h : search.Sound g) : (search.recursive g).Pairwise (· < ·) := by
  refine sorted_pairwise (List.foldlRecOn _ _ List.nodup_nil fun s hs c hc => ?_)
  exact nodup_unite hs (nodup_cyclic (h.component c hc).1)

theorem exists_other (hdistinct : c.nodes.Nodup) (hseveral : 1 < c.nodes.length) (x : String) :
    ∃ y ∈ c.nodes, y ≠ x := by
  obtain ⟨first, others⟩ := c
  cases others with
  | nil => simp [Component.nodes] at hseveral
  | cons z rest =>
    have hne : first ≠ z := fun heq =>
      (List.nodup_cons.mp hdistinct).1 (heq ▸ List.mem_cons_self ..)
    by_cases hx : first = x
    · exact ⟨z, by simp [Component.nodes], fun hz => hne (hx.trans hz.symm)⟩
    · exact ⟨first, by simp [Component.nodes], hx⟩

theorem leads_back_of_several (h : search.Sound g) (hc : c ∈ search.components g)
    (hseveral : 1 < c.nodes.length) (hx : x ∈ c.nodes) : TransGen g.Leads x x := by
  obtain ⟨hdistinct, hmutual⟩ := h.component c hc
  obtain ⟨y, hy, hne⟩ := exists_other hdistinct hseveral x
  obtain ⟨-, hxy, hyx⟩ := ((hmutual x hx).2 y).mp hy
  have hforth : TransGen g.Leads x y :=
    (Relation.reflTransGen_iff_eq_or_transGen.mp hxy).resolve_left hne
  exact hforth.trans_left hyx

theorem leads_back_iff_of_single (h : search.Sound g) (hg : g.Whole)
    (hc : c ∈ search.components g) (hnodes : c.nodes = [c.first]) :
    TransGen g.Leads c.first c.first ↔ g.Leads c.first c.first := by
  obtain ⟨-, hmutual⟩ := h.component c hc
  refine ⟨fun hcycle => ?_, .single⟩
  obtain ⟨y, hedge, hback⟩ := TransGen.head'_iff.mp hcycle
  -- what the single node leads to on its way back is in its component, and so it is the node
  have hy : y ∈ c.nodes := by
    obtain ⟨e, he, -, rfl⟩ := id hedge
    exact ((hmutual c.first (List.mem_cons_self ..)).2 e.target).mpr
      ⟨(hg e he).2, .single hedge, hback⟩
  rw [hnodes, List.mem_singleton] at hy
  exact hy ▸ hedge

/-- All members of a component of several nodes lead back to themselves, and a single member does if
it has an edge to itself. -/
theorem mem_cyclic (h : search.Sound g) (hg : g.Whole) (hc : c ∈ search.components g) :
    x ∈ cyclic g c ↔ x ∈ c.nodes ∧ TransGen g.Leads x x := by
  by_cases hseveral : 1 < c.nodes.length
  · rw [cyclic, if_pos hseveral]
    exact ⟨fun hx => ⟨hx, leads_back_of_several h hc hseveral hx⟩, And.left⟩
  · have hnodes : c.nodes = [c.first] := by
      have hothers : c.others.length = 0 := by
        simp only [Component.nodes, List.length_cons] at hseveral
        omega
      rw [Component.nodes, List.eq_nil_of_length_eq_zero hothers]
    have hloop := leads_back_iff_of_single h hg hc hnodes
    rw [cyclic, if_neg hseveral, hnodes, List.mem_singleton]
    by_cases hedge : g.hasEdge c.first c.first = true
    · rw [if_pos hedge, List.mem_singleton]
      exact ⟨fun hx => ⟨hx, hx ▸ hloop.mpr (hasEdge_iff.mp hedge)⟩, And.left⟩
    · rw [if_neg hedge]
      refine ⟨by simp, ?_⟩
      rintro ⟨rfl, hcycle⟩
      exact absurd (hasEdge_iff.mpr (hloop.mp hcycle)) hedge

theorem mem_recursive (h : search.Sound g) (hg : g.Whole) :
    x ∈ search.recursive g ↔ TransGen g.Leads x x := by
  rw [mem_recursive_iff]
  constructor
  · rintro ⟨c, hc, hx⟩
    exact ((mem_cyclic h hg hc).mp hx).2
  · intro hcycle
    obtain ⟨y, ⟨e, he, rfl, -⟩, -⟩ := TransGen.head'_iff.mp hcycle
    obtain ⟨c, hc, hx⟩ := h.covered e.source (hg e he).1
    exact ⟨c, hc, (mem_cyclic h hg hc).mpr ⟨hx, hcycle⟩⟩

/-! ## What all searches agree on -/

section
variable {search' : GraphSearch} (h : search.Sound g) (h' : search'.Sound g)
include h h'

theorem unreachable_eq (hnames : g.names.Nodup) (hroot : root ∈ g.names) :
    search.unreachable g root = search'.unreachable g root := by
  refine eq_of_sorted (unreachable_pairwise hnames _) (unreachable_pairwise hnames _) fun x => ?_
  rw [mem_unreachable, mem_unreachable, mem_reachable h hroot, mem_reachable h' hroot]

theorem recursive_eq (hg : g.Whole) : search.recursive g = search'.recursive g := by
  refine eq_of_sorted (recursive_pairwise h) (recursive_pairwise h') fun x => ?_
  rw [mem_recursive h hg, mem_recursive h' hg]

end

/-! ## Searching by passes -/

theorem mem_closure_singleton (hg : g.Whole) :
    x ∈ g.closure [root] ↔ ReflTransGen g.Leads root x := by
  rw [GrammarGraph.mem_closure hg]
  simp

theorem mem_peers (hg : g.Whole) : y ∈ g.peers x ↔
    y ∈ g.names ∧ ReflTransGen g.Leads x y ∧ ReflTransGen g.Leads y x := by
  simp [GrammarGraph.peers, mem_closure_singleton hg]

theorem peers_congr (hg : g.Whole) (hxy : ReflTransGen g.Leads x y)
    (hyx : ReflTransGen g.Leads y x) : g.peers x = g.peers y := by
  refine List.filter_congr fun z _ => ?_
  rw [Bool.eq_iff_iff]
  simp only [Bool.and_eq_true, List.contains_iff_mem, mem_closure_singleton hg]
  exact ⟨fun ⟨h, h'⟩ => ⟨hyx.trans h, h'.trans hxy⟩, fun ⟨h, h'⟩ => ⟨hxy.trans h, h'.trans hyx⟩⟩

theorem mem_components : c ∈ g.components ↔ c.first ∈ g.names ∧ g.peers c.first = c.nodes := by
  rw [GrammarGraph.components, List.mem_filterMap]
  constructor
  · rintro ⟨x, hx, hpeers⟩
    split at hpeers
    · cases hpeers
    · rename_i y others heq
      split at hpeers
      · rename_i hyx
        cases hpeers
        exact ⟨hx, by rw [heq, hyx, Component.nodes]⟩
      · cases hpeers
  · rintro ⟨hfirst, hpeers⟩
    refine ⟨c.first, hfirst, ?_⟩
    rw [hpeers]
    simp [Component.nodes]

/-- Closing sets by passes finds what there is to find. -/
theorem byPasses_sound (hg : g.Whole) (hnames : g.names.Nodup) : byPasses.Sound g where
  descendants root _ x := by
    show x ∈ (g.closure [root]).filter _ ↔ _
    rw [List.mem_filter, mem_closure_singleton hg, Relation.reflTransGen_iff_eq_or_transGen]
    by_cases hx : x = root <;> simp [hx]
  distinct root _ := (GrammarGraph.nodup_closure (List.nodup_singleton root)).filter _
  covered x hx := by
    have hself : x ∈ g.peers x := (mem_peers hg).mpr ⟨hx, .refl, .refl⟩
    obtain ⟨y, others, hpeers⟩ := List.exists_cons_of_ne_nil (List.ne_nil_of_mem hself)
    obtain ⟨hy, hxy, hyx⟩ := (mem_peers hg).mp (hpeers ▸ List.mem_cons_self : y ∈ g.peers x)
    refine ⟨⟨y, others⟩, mem_components.mpr ⟨hy, ?_⟩, ?_⟩
    · rw [← peers_congr hg hxy hyx, hpeers, Component.nodes]
    · rw [Component.nodes, ← hpeers]
      exact hself
  component c hc := by
    obtain ⟨-, hpeers⟩ := mem_components.mp hc
    rw [← hpeers]
    refine ⟨hnames.filter _, fun x hx => ?_⟩
    obtain ⟨hname, hto, hfrom⟩ := (mem_peers hg).mp hx
    rw [peers_congr hg hto hfrom]
    exact ⟨hname, fun y => mem_peers hg⟩

/-! ## Grammars -/

/-- A search tells which nonterminals of a grammar lead to which: the components that it finds are
what recursion is about, and any other search tells the same. -/
structure TracksPaths (search : GraphSearch) (g : GrammarGraph) (ns : List Nonterminal) : Prop where
  distinct : (ns.map Nonterminal.name).Nodup
  partition : ∀ n ∈ ns,
    (search.reachable g n.name ++ search.unreachable g n.name).Perm (ns.map Nonterminal.name)
  reachable : ∀ n ∈ ns, ∀ x,
    x ∈ search.reachable g n.name ↔ x = n.name ∨ TransGen (LeadsTo ns) n.name x
  unreachable_sorted : ∀ n ∈ ns, (search.unreachable g n.name).Pairwise (· < ·)
  recursive : ∀ x, x ∈ search.recursive g ↔ TransGen (LeadsTo ns) x x
  recursive_sorted : (search.recursive g).Pairwise (· < ·)
  logged : (∀ n ∈ ns, search.unreachable g n.name = g.unreachable n.name) ∧
    search.recursive g = g.recursive

theorem tracksPaths_ofNonterminals {ns : List Nonterminal} (h : ClosedGrammar ns)
    (hsearch : search.Sound (.ofNonterminals ns)) : search.TracksPaths (.ofNonterminals ns) ns := by
  have hg : (GrammarGraph.ofNonterminals ns).Whole := GrammarGraph.whole_ofNonterminals h
  have hnames : (GrammarGraph.ofNonterminals ns).names = ns.map Nonterminal.name :=
    GrammarGraph.names_ofNonterminals
  have hdistinct : (GrammarGraph.ofNonterminals ns).names.Nodup := hnames ▸ h.names
  have hroot : ∀ n ∈ ns, n.name ∈ (GrammarGraph.ofNonterminals ns).names :=
    fun n hn => hnames ▸ List.mem_map_of_mem hn
  have hleads : LeadsTo ns = (GrammarGraph.ofNonterminals ns).Leads := by
    funext x y
    exact propext (GrammarGraph.leads_iff x y).symm
  have hpasses : byPasses.Sound (.ofNonterminals ns) := byPasses_sound hg hdistinct
  constructor
  case distinct => exact h.names
  case partition =>
    intro n hn
    rw [← hnames]
    exact reachable_append_unreachable hsearch hg hdistinct (hroot n hn)
  case reachable =>
    intro n hn x
    rw [mem_reachable hsearch (hroot n hn), hleads]
  case unreachable_sorted => exact fun n _ => unreachable_pairwise hdistinct n.name
  case recursive =>
    intro x
    rw [mem_recursive hsearch hg, hleads]
  case recursive_sorted => exact recursive_pairwise hsearch
  case logged =>
    exact ⟨fun n hn => unreachable_eq hsearch hpasses hdistinct (hroot n hn),
      recursive_eq hsearch hpasses hg⟩

end GraphSearch

/-! ## Finished problems -/

theorem Draft.closed_of_finish {d : Draft} {f : SynthFun} {p : Problem} (h : d.finish = .ok p)
    (hf : d.synthFun = some f) (hkeyed : f.Keyed) : ClosedGrammar p.nonterminals := by
  obtain ⟨f', ns, hf', -, hns, -, heq⟩ := finish_eq_ok.mp h
  rw [hf] at hf'
  cases hf'
  have hnonterminals : p.nonterminals = ns := by rw [heq]
  rw [hnonterminals]
  have hread : ∀ n ∈ ns, ∃ n' ∈ f.grammar, n'.productions.mapM (d.production f.grammar n') =
      .ok n.productions := by
    intro n hn
    obtain ⟨n', hn', hm⟩ := exists_of_forall₂ (mapM_eq_ok.mp hns) hn
    obtain ⟨ps, hps, rfl⟩ := nonterminal_eq_ok.mp hm
    exact ⟨n', hn', hps⟩
  refine ⟨?_, fun n hn => ?_, fun n hn q hq x hx => ?_⟩
  · rw [names_nonterminals hns]
    exact hkeyed.nonterminals
  · obtain ⟨n', hn', hps⟩ := hread n hn
    rw [operators_productions hps]
    exact hkeyed.productions n' hn'
  · obtain ⟨n', hn', hps⟩ := hread n hn
    obtain ⟨q', hq', hm⟩ := exists_of_forall₂ (mapM_eq_ok.mp hps) hq
    obtain ⟨rfl, -⟩ := production_eq_ok hm
    obtain ⟨m, hm⟩ := children_of_nonterminals hns hn' hq' hx
    rw [names_nonterminals hns]
    exact List.mem_map.mpr ⟨m, List.mem_of_find?_eq_some hm, by simpa using List.find?_some hm⟩

/-- Any search that answers as documented tells which nonterminals of a finished problem lead to
which. -/
theorem Draft.finish_tracksPaths {search : GraphSearch} {d : Draft} {f : SynthFun} {p : Problem}
    (h : d.finish = .ok p) (hf : d.synthFun = some f) (hkeyed : f.Keyed)
    (hsearch : search.Sound p.graph) : search.TracksPaths p.graph p.nonterminals :=
  GraphSearch.tracksPaths_ofNonterminals (closed_of_finish h hf hkeyed) hsearch

/-! ## A grammar with a loop and a cycle -/

namespace Winding

def grammar : SynthFun := ⟨"f", "E", [
  ⟨"Start", "E", [⟨"$+", ["Sum", "Leaf"]⟩]⟩,
  ⟨"Sum", "E", [⟨"$+", ["Sum", "Leaf"]⟩, ⟨"$1", []⟩]⟩,
  ⟨"Leaf", "E", [⟨"$x", []⟩]⟩,
  ⟨"There", "E", [⟨"$+", ["Back", "Start"]⟩]⟩,
  ⟨"Back", "E", [⟨"$+", ["There", "Leaf"]⟩]⟩]⟩

def events : List Event := [
  .declareTermType "E",
  .defineTermType "E" [⟨"$x", []⟩, ⟨"$1", []⟩, ⟨"$+", ["E", "E"]⟩],
  .synthFun grammar]

def draft : Draft := events.foldl (fun d e => (d.consume e).1) {}

theorem grammar_keyed : grammar.Keyed := ⟨by decide, by decide⟩

theorem grammar_tracksPaths : ∃ p, draft.finish = .ok p ∧ draft.synthFun = some grammar ∧
    grammar.Keyed ∧ GraphSearch.byPasses.Sound p.graph ∧
    GraphSearch.byPasses.components p.graph =
      [⟨"Start", []⟩, ⟨"Sum", []⟩, ⟨"Leaf", []⟩, ⟨"There", ["Back"]⟩] ∧
    GraphSearch.byPasses.TracksPaths p.graph p.nonterminals ∧
    (∀ x ∈ ["Sum", "There", "Back"], x ∈ GraphSearch.byPasses.recursive p.graph) ∧
    "Back" ∈ GraphSearch.byPasses.unreachable p.graph "Start" := by
  have hgrammar : draft.synthFun = some grammar := rfl
  obtain ⟨p, hp⟩ : ∃ p, draft.finish = .ok p := ⟨_, rfl⟩
  have hclosed : ClosedGrammar p.nonterminals := Draft.closed_of_finish hp hgrammar grammar_keyed
  have hsound : GraphSearch.byPasses.Sound p.graph :=
    GraphSearch.byPasses_sound (GrammarGraph.whole_ofNonterminals hclosed)
      (GrammarGraph.names_ofNonterminals ▸ hclosed.names)
  have hpaths := Draft.finish_tracksPaths hp hgrammar grammar_keyed hsound
  cases hp
  refine ⟨_, rfl, hgrammar, grammar_keyed, hsound, by decide, hpaths, ?_, ?_⟩
  · intro x hx
    rw [GraphSearch.mem_recursive_iff]
    revert x
    decide
  · rw [GraphSearch.mem_unreachable]
    decide

end Winding

end Realizability
