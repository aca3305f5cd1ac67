import Mathlib.Data.List.Nodup
import Realizability.Proofs.Format.Field
import Realizability.Proofs.Format.Printer

/-!
# Reading grammars that were written

A grammar is read from the list of its nonterminals and the list of its productions. It is read back
from what is written for it, and the grammars that are read are the well-formed ones.
-/

namespace Realizability

/-! ## Nonterminals and productions -/

section
variable {declared : List String} {i : Nat}

theorem childrenFrom_eq_ok {xs : List String} {u : Unit} :
    childrenFrom declared i xs = .ok u ↔ ∀ x ∈ xs, x ∈ declared := by
  induction xs generalizing i with
  | nil => simp [childrenFrom]
  | cons x xs ih => by_cases hx : x ∈ declared <;> simp [childrenFrom, hx, ih, Read.fault]

theorem nonterminalOf_eq_ok {o : Members} {x : String × String} :
    nonterminalOf declared o = .ok x ↔ Table.get? "name" o = some (.string x.1) ∧
      Table.get? "termType" o = some (.string x.2) ∧ x.1 ∉ declared := by
  simp only [nonterminalOf, bind_eq_ok, Members.stringField_eq_ok]
  constructor
  · intro h
    obtain ⟨name, hname, h⟩ := h
    by_cases hd : name ∈ declared
    · simp [hd, Read.fault] at h
    · simp only [hd, if_false, bind_eq_ok, Members.stringField_eq_ok] at h
      obtain ⟨termType, htype, h⟩ := h
      cases h
      exact ⟨hname, htype, hd⟩
  · intro h
    refine ⟨_, h.1, ?_⟩
    simp only [h.2.2, if_false, bind_eq_ok, Members.stringField_eq_ok]
    exact ⟨_, h.2.1, rfl⟩

theorem nonterminalsFrom_eq_ok {os : List Members} {xs : List (String × String)} :
    nonterminalsFrom declared i os = .ok xs ↔
      List.Forall₂ (fun o x => Table.get? "name" o = some (.string x.1) ∧
        Table.get? "termType" o = some (.string x.2)) os xs ∧
      (xs.map Prod.fst).Nodup ∧ ∀ x ∈ xs.map Prod.fst, x ∉ declared := by
  induction os generalizing declared i xs with
  | nil =>
    simp only [nonterminalsFrom, List.forall₂_nil_left_iff, Except.ok.injEq]
    constructor
    · intro h
      subst h
      simp
    · exact fun h => h.1.symm
  | cons o os ih =>
    simp only [nonterminalsFrom, bind_eq_ok, within_eq_ok, nonterminalOf_eq_ok, ih,
      List.forall₂_cons_left_iff]
    constructor
    · intro h
      obtain ⟨x, ⟨hname, htype, hx⟩, xs', ⟨hreads, hnodup, hnew⟩, h⟩ := h
      cases h
      refine ⟨⟨x, xs', ⟨hname, htype⟩, hreads, rfl⟩, ?_, ?_⟩
      · grind
      · grind
    · intro h
      obtain ⟨⟨x, xs', ⟨hname, htype⟩, hreads, rfl⟩, hnodup, hnew⟩ := h
      refine ⟨x, ⟨hname, htype, by grind⟩, xs', ⟨hreads, by grind, by grind⟩, rfl⟩

def ruleKey (r : String × ProductionDecl) : String × String := (r.1, r.2.operator)

structure RuleReads (o : Members) (r : String × ProductionDecl) : Prop where
  nonterminal : Table.get? "instance" o = some (.string r.1)
  operator : Table.get? "operator" o = some (.string r.2.operator)
  occurrences : Table.get? "occurrences" o = some (Json.ofStrings r.2.occurrences)

structure RuleDeclared (declared : List String) (r : String × ProductionDecl) : Prop where
  nonterminal : r.1 ∈ declared
  occurrences : ∀ x ∈ r.2.occurrences, x ∈ declared

theorem productionOf_eq_ok {seen : List (String × String)} {o : Members}
    {r : String × ProductionDecl} :
    productionOf declared seen o = .ok r ↔
      RuleReads o r ∧ RuleDeclared declared r ∧ ruleKey r ∉ seen := by
  simp only [productionOf, bind_eq_ok, Members.stringField_eq_ok, Members.stringsField_eq_ok]
  constructor
  · intro h
    obtain ⟨nonterminal, hnonterminal, operator, hoperator, occurrences, hoccurrences, h⟩ := h
    by_cases hd : nonterminal ∈ declared
    · by_cases hs : (nonterminal, operator) ∈ seen
      · simp [hd, hs, Read.fault] at h
      · simp only [hd, hs, not_true, if_false, bind_eq_ok, within_eq_ok, childrenFrom_eq_ok] at h
        obtain ⟨-, hchildren, h⟩ := h
        cases h
        exact ⟨⟨hnonterminal, hoperator, hoccurrences⟩, ⟨hd, hchildren⟩, hs⟩
    · simp [hd, Read.fault] at h
  · intro h
    obtain ⟨hreads, hdeclared, hnew⟩ := h
    refine ⟨_, hreads.nonterminal, _, hreads.operator, _, hreads.occurrences, ?_⟩
    have hoperator : (r.1, r.2.operator) ∉ seen := hnew
    rw [if_neg (not_not.mpr hdeclared.nonterminal), if_neg hoperator]
    simp only [bind_eq_ok, within_eq_ok, childrenFrom_eq_ok]
    exact ⟨(), hdeclared.occurrences, rfl⟩

theorem productionsFrom_eq_ok {seen : List (String × String)} {os : List Members}
    {rs : List (String × ProductionDecl)} :
    productionsFrom declared seen i os = .ok rs ↔
      List.Forall₂ RuleReads os rs ∧ (∀ r ∈ rs, RuleDeclared declared r) ∧
      (rs.map ruleKey).Nodup ∧ ∀ k ∈ rs.map ruleKey, k ∉ seen := by
  induction os generalizing seen i rs with
  | nil =>
    simp only [productionsFrom, List.forall₂_nil_left_iff, Except.ok.injEq]
    constructor
    · intro h
      subst h
      simp
    · exact fun h => h.1.symm
  | cons o os ih =>
    simp only [productionsFrom, bind_eq_ok, within_eq_ok, productionOf_eq_ok, ih,
      List.forall₂_cons_left_iff]
    constructor
    · intro h
      obtain ⟨r, ⟨hr, hd, hs⟩, rs', ⟨hreads, hdeclared, hnodup, hnew⟩, h⟩ := h
      cases h
      refine ⟨⟨r, rs', hr, hreads, rfl⟩, by grind, ?_, ?_⟩
      · grind [ruleKey]
      · grind [ruleKey]
    · intro h
      obtain ⟨⟨r, rs', hr, hreads, rfl⟩, hdeclared, hnodup, hnew⟩ := h
      refine ⟨r, ⟨hr, by grind, by grind⟩, rs', ⟨hreads, by grind, by grind, ?_⟩, rfl⟩
      grind [ruleKey]

end

/-! ## Grammars -/

theorem grammarOf_eq_ok {o : Members} {ns : List NonterminalDecl} : grammarOf o = .ok ns ↔
    ∃ os ps heads rules, Table.get? "nonTerminals" o = some (.array (os.map .object)) ∧
      Table.get? "productions" o = some (.array (ps.map .object)) ∧
      nonterminalsFrom [] 0 os = .ok heads ∧
      productionsFrom (heads.map Prod.fst) [] 0 ps = .ok rules ∧
      heads.map (fun h => ⟨h.1, h.2, productionsOf h.1 rules⟩) = ns := by
  simp only [grammarOf, bind_eq_ok, within_eq_ok, Members.objectsField_eq_ok]
  constructor
  · intro h
    obtain ⟨os, hos, ps, hps, heads, hheads, rules, hrules, h⟩ := h
    exact ⟨os, ps, heads, rules, hos, hps, hheads, hrules, Except.ok.inj h⟩
  · intro h
    obtain ⟨os, ps, heads, rules, hos, hps, hheads, hrules, rfl⟩ := h
    exact ⟨os, hos, ps, hps, heads, hheads, rules, hrules, rfl⟩

theorem nodup_productionsOf {name : String} {rules : List (String × ProductionDecl)}
    (h : (rules.map ruleKey).Nodup) :
    ((productionsOf name rules).map ProductionDecl.operator).Nodup := by
  rw [productionsOf, List.map_map, List.Nodup, List.pairwise_map]
  rw [List.Nodup, List.pairwise_map] at h
  refine (h.filter _).imp_of_mem fun hr hr' hne heq => hne ?_
  simp only [List.mem_filter, decide_eq_true_eq] at hr hr'
  exact Prod.ext (hr.2.trans hr'.2.symm) heq

theorem wellFormed_of_grammarOf {o : Members} {ns : List NonterminalDecl}
    (h : grammarOf o = .ok ns) : GrammarWellFormed ns := by
  obtain ⟨os, ps, heads, rules, -, -, hheads, hrules, rfl⟩ := grammarOf_eq_ok.mp h
  obtain ⟨-, hnames, -⟩ := nonterminalsFrom_eq_ok.mp hheads
  obtain ⟨-, hdeclared, hkeys, -⟩ := productionsFrom_eq_ok.mp hrules
  constructor
  · simpa [Function.comp_def] using hnames
  · intro n hn
    obtain ⟨h, -, rfl⟩ := List.mem_map.mp hn
    exact nodup_productionsOf hkeys
  · intro n hn p hp x hx
    obtain ⟨h, -, rfl⟩ := List.mem_map.mp hn
    obtain ⟨r, hr, rfl⟩ := List.mem_map.mp hp
    have hmem := (hdeclared r (List.mem_of_mem_filter hr)).occurrences x hx
    simpa [Function.comp_def] using hmem

theorem productionsOf_grammarRules {ns : List NonterminalDecl}
    (h : (ns.map NonterminalDecl.name).Nodup) {n : NonterminalDecl} (hn : n ∈ ns) :
    productionsOf n.name (grammarRules ns) = n.productions := by
  induction ns with
  | nil => cases hn
  | cons m ns ih =>
    rw [List.map_cons, List.nodup_cons] at h
    have happ : productionsOf n.name (grammarRules (m :: ns)) =
        productionsOf n.name (m.productions.map fun p => (m.name, p)) ++
          productionsOf n.name (grammarRules ns) := by
      simp [productionsOf, grammarRules]
    rw [happ]
    cases hn with
    | head =>
      have hrest : productionsOf n.name (grammarRules ns) = [] := by
        simp only [productionsOf, grammarRules, List.map_eq_nil_iff, List.filter_eq_nil_iff,
          List.mem_flatMap, List.mem_map]
        grind
      rw [hrest, productionsOf, List.filter_eq_self.mpr (by simp)]
      simp [Function.comp_def]
    | tail _ hn =>
      have hne : m.name ≠ n.name := fun heq => h.1 (heq ▸ List.mem_map_of_mem hn)
      rw [ih h.2 hn]
      simp [productionsOf, hne]

theorem nodup_grammarRules {ns : List NonterminalDecl} (h : GrammarWellFormed ns) :
    ((grammarRules ns).map ruleKey).Nodup := by
  rw [grammarRules, List.map_flatMap, List.nodup_flatMap]
  constructor
  · intro n hn
    have hkeys : (n.productions.map fun p => (n.name, p)).map ruleKey =
        (n.productions.map ProductionDecl.operator).map fun x => (n.name, x) := by
      simp [ruleKey, Function.comp_def]
    rw [hkeys]
    exact (h.operators n hn).map fun _ _ heq => (Prod.mk.inj heq).2
  · refine (List.pairwise_map.mp h.names).imp fun hne k hk hk' => ?_
    simp only [List.mem_map] at hk hk'
    grind [ruleKey]

theorem grammarOf_members {ns : List NonterminalDecl} (h : GrammarWellFormed ns) :
    grammarOf (grammarMembers ns) = .ok ns := by
  have hheads : nonterminalsFrom [] 0 (ns.map NonterminalDecl.members) =
      .ok (ns.map fun n => (n.name, n.termType)) := by
    rw [nonterminalsFrom_eq_ok, List.forall₂_map_left_iff, List.forall₂_map_right_iff,
      List.forall₂_same]
    exact ⟨fun n _ => ⟨rfl, rfl⟩, by simpa [Function.comp_def] using h.names, by simp⟩
  have hrules : productionsFrom ((ns.map fun n => (n.name, n.termType)).map Prod.fst) [] 0
      ((grammarRules ns).map ruleMembers) = .ok (grammarRules ns) := by
    rw [productionsFrom_eq_ok, List.forall₂_map_left_iff, List.forall₂_same]
    refine ⟨fun r _ => ⟨rfl, rfl, rfl⟩, fun r hr => ?_, nodup_grammarRules h, by simp⟩
    simp only [grammarRules, List.mem_flatMap, List.mem_map] at hr
    obtain ⟨n, hn, p, hp, rfl⟩ := hr
    refine ⟨?_, fun x hx => ?_⟩
    · simpa [Function.comp_def] using ⟨n, hn, rfl⟩
    · simpa [Function.comp_def] using h.occurrences n hn p hp x hx
  refine grammarOf_eq_ok.mpr ⟨_, _, _, _, rfl, rfl, hheads, hrules, ?_⟩
  rw [List.map_map, List.map_congr_left (g := id), List.map_id]
  intro n hn
  simp [productionsOf_grammarRules h.names hn]

end Realizability
