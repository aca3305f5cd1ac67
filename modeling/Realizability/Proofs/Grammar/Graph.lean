import Mathlib.Data.List.Induction
import Mathlib.Data.List.Nodup
import Realizability.Problem.Graph

/-!
# Edges of a grammar's graph

Every occurrence of a child is visited, production by production. The table of the children of a
nonterminal groups what is visited: children and operators stand in the order in which they come
first (`Grouped`). When operators are different, this gives the edges outright
(`Nonterminal.outgoing_eq`).
-/

namespace Realizability

/-! ## Lists without repetition -/

theorem nodup_eraseDups {α : Type} [DecidableEq α] (xs : List α) : xs.eraseDups.Nodup := by
  induction xs using List.reverseRecOn with
  | nil => simp
  | append_singleton xs x ih =>
    rw [eraseDups_concat]
    split
    · exact ih
    · rename_i hx
      refine List.nodup_append.mpr ⟨ih, by simp, fun y hy z hz heq => hx ?_⟩
      rw [← List.mem_singleton.mp hz, ← heq]
      exact List.mem_eraseDups.mp hy

/-- What comes in blocks of its own counts once for every block that is not empty. -/
theorem eraseDups_blocks {α β : Type} [DecidableEq β] {f : α → β} (k : α → Nat) {xs : List α}
    (h : (xs.map f).Nodup) : (xs.flatMap fun x => List.replicate (k x) (f x)).eraseDups =
      (xs.filter (0 < k ·)).map f := by
  induction xs with
  | nil => rfl
  | cons x xs ih =>
    rw [List.map_cons, List.nodup_cons] at h
    have hrest : (xs.flatMap fun y => List.replicate (k y) (f y)).removeAll
        (List.replicate (k x) (f x)) = xs.flatMap fun y => List.replicate (k y) (f y) := by
      refine List.filter_eq_self.mpr fun b hb => ?_
      obtain ⟨y, hy, hb⟩ := List.mem_flatMap.mp hb
      obtain rfl := List.eq_of_mem_replicate hb
      have : f y ≠ f x := fun heq => h.1 (heq ▸ List.mem_map_of_mem hy)
      simp [this]
    rw [List.flatMap_cons, List.eraseDups_append, hrest, ih h.2]
    cases hk : k x with
    | zero => simp [hk]
    | succ m => simp [hk, List.replicate_succ, List.eraseDups_cons]

/-! ## Grouped visits -/

/-- A table of the operators of each name visited, all without repetition and as they come first. -/
structure Grouped (t : Table (List String)) (visits : List (String × String)) : Prop where
  keys : t.keys = (visits.map Prod.fst).eraseDups
  value : ∀ x, (t.get? x).getD [] = ((visits.filter (·.1 = x)).map Prod.snd).eraseDups

namespace Grouped

variable {t : Table (List String)} {visits : List (String × String)}

theorem nil : Grouped [] [] := ⟨rfl, fun _ => rfl⟩

theorem addOperator (h : Grouped t visits) (x operator : String) :
    Grouped (addOperator t x operator) (visits ++ [(x, operator)]) where
  keys := by
    simp only [Realizability.addOperator, Table.keys_put, h.keys, List.map_append, List.map_cons,
      List.map_nil, eraseDups_concat, List.mem_eraseDups]
  value y := by
    simp only [Realizability.addOperator, Table.get?_put, h.value, List.filter_append]
    by_cases hx : x = y
    · subst hx
      simp [eraseDups_concat]
    · simp [hx, h.value]

theorem foldl (h : Grouped t visits) (more : List (String × String)) :
    Grouped (more.foldl (fun t v => Realizability.addOperator t v.1 v.2) t) (visits ++ more) := by
  induction more generalizing t visits with
  | nil => simpa using h
  | cons v more ih => simpa using ih (h.addOperator v.1 v.2)

end Grouped

/-! ## Children of a nonterminal -/

namespace Nonterminal

variable (n : Nonterminal)

def visits : List (String × String) :=
  n.productions.flatMap fun q => q.children.map fun x => (x, q.operator)

def targets : List String := (n.productions.flatMap Production.children).eraseDups

def operatorsTo (x : String) : List String :=
  (n.productions.filter (x ∈ ·.children)).map Production.operator

theorem outgoing_grouped : Grouped n.outgoing n.visits := by
  have h := Grouped.nil.foldl n.visits
  rw [List.nil_append, visits, List.foldl_flatMap] at h
  simp only [List.foldl_map] at h
  exact h

theorem keys_outgoing : n.outgoing.keys = n.targets := by
  rw [n.outgoing_grouped.keys, visits, List.map_flatMap]
  simp [targets, Function.comp_def]

variable {n}

theorem mem_targets {x : String} : x ∈ n.targets ↔ ∃ q ∈ n.productions, x ∈ q.children := by
  simp [targets]

theorem visits_filter (x : String) : ((n.visits.filter (·.1 = x)).map Prod.snd) =
    n.productions.flatMap fun q => List.replicate (q.children.count x) q.operator := by
  have hblock : ∀ q : Production, ((q.children.map fun y => (y, q.operator)).filter (·.1 = x)).map
      Prod.snd = List.replicate (q.children.count x) q.operator := by
    intro q
    simp [List.filter_map, Function.comp_def, List.map_const', List.count_eq_length_filter,
      beq_eq_decide]
  simp only [visits, List.filter_flatMap, List.map_flatMap, hblock]

theorem get?_outgoing (h : (n.productions.map Production.operator).Nodup) {x : String}
    (hx : x ∈ n.targets) : n.outgoing.get? x = some (n.operatorsTo x) := by
  have hvalue := n.outgoing_grouped.value x
  rw [visits_filter, eraseDups_blocks _ h] at hvalue
  rw [← n.keys_outgoing, ← Table.has_iff_mem_keys, Table.has, Option.isSome_iff_exists] at hx
  obtain ⟨operators, hx⟩ := hx
  rw [hx] at hvalue ⊢
  simpa [operatorsTo, List.count_pos_iff] using hvalue

theorem outgoing_eq (h : (n.productions.map Production.operator).Nodup) :
    n.outgoing = n.targets.map fun x => (x, n.operatorsTo x) := by
  rw [← n.keys_outgoing]
  refine Table.eq_map_keys ?_ fun x hx => ?_
  · rw [n.keys_outgoing]
    exact nodup_eraseDups _
  · exact get?_outgoing h (n.keys_outgoing ▸ hx)

end Nonterminal

/-! ## Grammars -/

/-- Nonterminals of different names, with productions of different operators and children among
them. -/
structure ClosedGrammar (ns : List Nonterminal) : Prop where
  names : (ns.map Nonterminal.name).Nodup
  operators : ∀ n ∈ ns, (n.productions.map Production.operator).Nodup
  children : ∀ n ∈ ns, ∀ q ∈ n.productions, ∀ x ∈ q.children, x ∈ ns.map Nonterminal.name

/-- Some production of the first nonterminal has the second as a child. -/
def LeadsTo (ns : List Nonterminal) (x y : String) : Prop :=
  ∃ n ∈ ns, n.name = x ∧ ∃ q ∈ n.productions, y ∈ q.children

namespace GrammarGraph

def Whole (g : GrammarGraph) : Prop := ∀ e ∈ g.edges, e.source ∈ g.names ∧ e.target ∈ g.names

def Leads (g : GrammarGraph) (x y : String) : Prop := ∃ e ∈ g.edges, e.source = x ∧ e.target = y

/-- The nodes are the nonterminals. The edges lead from each of them to the children of its
productions, in the order in which they come first, with the operators of those productions. -/
structure Depicts (g : GrammarGraph) (ns : List Nonterminal) : Prop where
  nodes : g.nodes = ns.map fun n => (n.name, n.termType)
  whole : g.Whole
  edges : ∀ x y, g.Leads x y ↔ LeadsTo ns x y
  operators : ∀ n ∈ ns, ∀ e ∈ g.edges, e.source = n.name →
    e.operators = (n.productions.filter (e.target ∈ ·.children)).map Production.operator ∧
      e.operators.Nodup
  order : ∀ n ∈ ns, (g.edges.filter (·.source = n.name)).map Edge.target =
    (n.productions.flatMap Production.children).eraseDups

variable {ns : List Nonterminal}

theorem names_ofNonterminals : (ofNonterminals ns).names = ns.map Nonterminal.name := by
  simp [names, ofNonterminals, Function.comp_def]

theorem mem_edges {e : Edge} : e ∈ (ofNonterminals ns).edges ↔
    ∃ n ∈ ns, ∃ o ∈ n.outgoing, e = ⟨n.name, o.1, o.2⟩ := by
  simp [ofNonterminals, eq_comm]

theorem leads_iff (x y : String) : (ofNonterminals ns).Leads x y ↔ LeadsTo ns x y := by
  have hout : ∀ n : Nonterminal, (∃ o ∈ n.outgoing, o.1 = y) ↔ ∃ q ∈ n.productions, y ∈ q.children := by
    intro n
    rw [← Nonterminal.mem_targets, ← n.keys_outgoing, Table.keys, List.mem_map]
  constructor
  · rintro ⟨e, he, rfl, htarget⟩
    obtain ⟨n, hn, o, ho, rfl⟩ := mem_edges.mp he
    exact ⟨n, hn, rfl, (hout n).mp ⟨o, ho, htarget⟩⟩
  · rintro ⟨n, hn, rfl, hq⟩
    obtain ⟨o, ho, htarget⟩ := (hout n).mpr hq
    exact ⟨_, mem_edges.mpr ⟨n, hn, o, ho, rfl⟩, rfl, htarget⟩

theorem whole_ofNonterminals (h : ClosedGrammar ns) : (ofNonterminals ns).Whole := by
  intro e he
  obtain ⟨n, hn, hname, q, hq, hx⟩ := (leads_iff e.source e.target).mp ⟨e, he, rfl, rfl⟩
  rw [names_ofNonterminals, ← hname]
  exact ⟨List.mem_map_of_mem hn, h.children n hn q hq _ hx⟩

theorem edges_from (h : (ns.map Nonterminal.name).Nodup) {n : Nonterminal} (hn : n ∈ ns) :
    (ofNonterminals ns).edges.filter (·.source = n.name) =
      n.outgoing.map fun o => ⟨n.name, o.1, o.2⟩ := by
  have hown : ∀ m : Nonterminal, ((m.outgoing.map fun o => Edge.mk m.name o.1 o.2).filter
      (·.source = n.name)) = if m.name = n.name then m.outgoing.map fun o => ⟨m.name, o.1, o.2⟩
        else [] := by
    intro m
    by_cases hm : m.name = n.name <;> simp [List.filter_map, Function.comp_def, hm]
  rw [ofNonterminals, List.filter_flatMap]
  simp only [hown]
  induction ns with
  | nil => cases hn
  | cons m ns ih =>
    obtain ⟨hm, hns⟩ := List.nodup_cons.mp h
    rw [List.flatMap_cons]
    have hother : ∀ m' ∈ ns, m'.name ≠ m.name :=
      fun m' hm' heq => hm (heq ▸ List.mem_map_of_mem hm')
    rcases List.mem_cons.mp hn with rfl | hn
    · rw [if_pos rfl, List.append_right_eq_self, List.flatMap_eq_nil_iff]
      exact fun m' hm' => if_neg (hother m' hm')
    · rw [if_neg (hother n hn).symm, List.nil_append]
      exact ih hns hn

/-- The graph of a grammar depicts it. -/
theorem ofNonterminals_depicts (h : ClosedGrammar ns) : (ofNonterminals ns).Depicts ns := by
  have hfrom : ∀ n ∈ ns, (ofNonterminals ns).edges.filter (·.source = n.name) =
      n.targets.map fun x => ⟨n.name, x, n.operatorsTo x⟩ := by
    intro n hn
    rw [edges_from h.names hn, Nonterminal.outgoing_eq (h.operators n hn), List.map_map]
    rfl
  refine ⟨rfl, whole_ofNonterminals h, leads_iff, fun n hn e he hsource => ?_, fun n hn => ?_⟩
  · have hmem : e ∈ (ofNonterminals ns).edges.filter (·.source = n.name) :=
      List.mem_filter.mpr ⟨he, by simpa using hsource⟩
    rw [hfrom n hn] at hmem
    obtain ⟨x, -, rfl⟩ := List.mem_map.mp hmem
    exact ⟨rfl, (h.operators n hn).sublist (List.filter_sublist.map _)⟩
  · rw [hfrom n hn, List.map_map]
    exact List.map_id' _

end GrammarGraph

/-! ## A grammar with repeated children and a loop -/

namespace Looping

def nonterminals : List Nonterminal := [
  ⟨"Start", "E", [⟨"$+", ["Loop", "Leaf"], []⟩, ⟨"$*", ["Leaf", "Leaf"], []⟩]⟩,
  ⟨"Loop", "E", [⟨"$+", ["Loop", "Loop"], []⟩]⟩,
  ⟨"Leaf", "E", [⟨"$x", [], []⟩]⟩]

theorem nonterminals_depicted : ClosedGrammar nonterminals ∧
    (GrammarGraph.ofNonterminals nonterminals).Depicts nonterminals := by
  have hclosed : ClosedGrammar nonterminals := ⟨by decide, by decide, by decide⟩
  exact ⟨hclosed, GrammarGraph.ofNonterminals_depicts hclosed⟩

example : (GrammarGraph.ofNonterminals nonterminals).edges = [⟨"Start", "Loop", ["$+"]⟩,
    ⟨"Start", "Leaf", ["$+", "$*"]⟩, ⟨"Loop", "Loop", ["$+"]⟩] := by decide

end Looping

end Realizability
