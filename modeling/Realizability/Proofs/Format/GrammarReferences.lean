import Realizability.Proofs.Format.GrammarRoundTrip
import Realizability.Proofs.Format.Offence

/-!
# References within a grammar

Productions refer to nonterminals by name, whether these are declared before or after. Which grammars
are accepted and what is read from them is said on the entries of the two lists alone, and so is the
first offence, which is the one reported (`grammarOf_crossReferences`).
-/

namespace Realizability

/-! ## Entries -/

structure HeadReads (o : Members) (h : String × String) : Prop where
  name : Table.get? "name" o = some (.string h.1)
  termType : Table.get? "termType" o = some (.string h.2)

/-- The two lists of a grammar, all of whose fields are of the kinds asked for. -/
structure GrammarReads (o : Members) (heads : List (String × String))
    (rules : List (String × ProductionDecl)) : Prop where
  nonterminals : ∃ os, Table.get? "nonTerminals" o = some (.array (os.map .object)) ∧
    List.Forall₂ HeadReads os heads
  productions : ∃ ps, Table.get? "productions" o = some (.array (ps.map .object)) ∧
    List.Forall₂ RuleReads ps rules

/-- What is wrong with a production of a grammar that has certain productions already, and at which
of its fields. -/
inductive RuleOffends (declared : List String) (taken : List (String × String))
    (r : String × ProductionDecl) : FormatError → Prop
  | nonterminal (h : r.1 ∉ declared) :
    RuleOffends declared taken r ⟨.unknownNonterminal r.1, [.field "instance"]⟩
  | operator (hdeclared : r.1 ∈ declared) (h : ruleKey r ∈ taken) :
    RuleOffends declared taken r ⟨.duplicateProduction r.2.operator r.1, [.field "operator"]⟩
  | occurrence (hdeclared : r.1 ∈ declared) (hnew : ruleKey r ∉ taken) {j : Nat} {x : String}
    (h : FirstUnknown declared r.2.occurrences j x) :
    RuleOffends declared taken r ⟨.unknownChild x, [.field "occurrences", .index j]⟩

abbrev FirstOffendingRule (declared : List String) :
    List (String × ProductionDecl) → Nat → String × ProductionDecl → Prop :=
  FirstOffence fun before r => ∃ e, RuleOffends declared (before.map ruleKey) r e

/-- What is wrong with a grammar: a repeated name, or else a production. -/
inductive GrammarOffends (heads : List (String × String))
    (rules : List (String × ProductionDecl)) : FormatError → Prop
  | name {i : Nat} {x : String} (h : FirstRepeated (heads.map Prod.fst) i x) :
    GrammarOffends heads rules
      ⟨.duplicateNonterminal x, [.field "nonTerminals", .index i, .field "name"]⟩
  | production (hnames : (heads.map Prod.fst).Nodup) {i : Nat} {r : String × ProductionDecl}
    {e : FormatError} (h : FirstOffendingRule (heads.map Prod.fst) rules i r)
    (he : RuleOffends (heads.map Prod.fst) ((rules.take i).map ruleKey) r e) :
    GrammarOffends heads rules (e.under [.field "productions", .index i])

/-! ## Reading entries -/

section
variable {declared : List String} {o : Members} {e : FormatError}

theorem nonterminalOf_eq {h : String × String} (hread : HeadReads o h) :
    nonterminalOf declared o =
      if h.1 ∈ declared then Read.fault (.duplicateNonterminal h.1) [.field "name"] else .ok h := by
  have hname := Members.stringField_eq_ok.mpr hread.name
  have htermType := Members.stringField_eq_ok.mpr hread.termType
  simp only [nonterminalOf, hname, htermType, bind, Except.bind]
  rfl

theorem HeadReads.unique {h h' : String × String} (hread : HeadReads o h) (hread' : HeadReads o h') :
    h = h' := by
  have hname := hread.name.symm.trans hread'.name
  have htermType := hread.termType.symm.trans hread'.termType
  simp only [Option.some.injEq, Json.string.injEq] at hname htermType
  exact Prod.ext hname htermType

theorem nonterminalsFrom_reads {os : List Members} {heads xs : List (String × String)}
    (h : List.Forall₂ HeadReads os heads) :
    nonterminalsFrom [] 0 os = .ok xs ↔ xs = heads ∧ (heads.map Prod.fst).Nodup := by
  have hunique : Relator.RightUnique HeadReads := fun _ _ _ h h' => h.unique h'
  rw [nonterminalsFrom_eq_ok]
  constructor
  · rintro ⟨hreads, hnodup, -⟩
    obtain rfl := List.right_unique_forall₂' hunique (hreads.imp fun _ _ hx => ⟨hx.1, hx.2⟩) h
    exact ⟨rfl, hnodup⟩
  · rintro ⟨rfl, hnodup⟩
    exact ⟨h.imp fun _ _ hx => ⟨hx.name, hx.termType⟩, hnodup, by simp⟩

theorem nonterminalsFrom_eq_error {os : List Members} {heads : List (String × String)}
    (h : List.Forall₂ HeadReads os heads) : nonterminalsFrom [] 0 os = .error e ↔
      ∃ k x, FirstRepeated (heads.map Prod.fst) k x ∧
        e = ⟨.duplicateNonterminal x, [.index k, .field "name"]⟩ := by
  rw [readBehind_eq_error nonterminalsFrom nonterminalOf Prod.fst
    (fun seen h e => h.1 ∈ seen ∧ e = ⟨.duplicateNonterminal h.1, [.field "name"]⟩)
    (fun _ _ => rfl) (fun _ _ _ _ => rfl) ?_ ?_ h]
  · simp only [firstOffence_map, List.append_nil, List.mem_reverse, exists_and_left, exists_eq,
      and_true]
    constructor
    · rintro ⟨k, h, hfirst, _, ⟨-, rfl⟩, rfl⟩
      exact ⟨k, h.1, ⟨h, rfl, hfirst⟩, by simp [Located.under]⟩
    · rintro ⟨k, _, ⟨h, rfl, hfirst⟩, rfl⟩
      exact ⟨k, h, hfirst, _, ⟨hfirst.offends, rfl⟩, by simp [Located.under]⟩
  · intro seen o h h' hread hok
    rw [nonterminalOf_eq hread] at hok
    split at hok
    · cases hok
    · exact (Except.ok.inj hok).symm
  · intro seen o h e hread
    rw [nonterminalOf_eq hread]
    by_cases hmem : h.1 ∈ seen
    · simp [hmem, Read.fault, eq_comm]
    · simp [hmem]

theorem RuleReads.unique {r r' : String × ProductionDecl} (h : RuleReads o r) (h' : RuleReads o r') :
    r = r' := by
  obtain ⟨nonterminal, operator, occurrences⟩ := r
  obtain ⟨nonterminal', operator', occurrences'⟩ := r'
  have hnonterminal := h.nonterminal.symm.trans h'.nonterminal
  have hoperator := h.operator.symm.trans h'.operator
  have hoccurrences := h.occurrences.symm.trans h'.occurrences
  simp only [Option.some.injEq, Json.string.injEq] at hnonterminal hoperator
  simp only [Option.some.injEq, Json.ofStrings, Json.array.injEq] at hoccurrences
  rw [hnonterminal, hoperator, List.map_injective_iff.mpr (fun _ _ => Json.string.inj) hoccurrences]

theorem RuleOffends.mono {taken taken' : List (String × String)} {r : String × ProductionDecl}
    (h : ∀ k, k ∈ taken ↔ k ∈ taken') (he : RuleOffends declared taken r e) :
    RuleOffends declared taken' r e := by
  cases he with
  | nonterminal hunknown => exact .nonterminal hunknown
  | operator hdeclared hkey => exact .operator hdeclared ((h _).mp hkey)
  | occurrence hdeclared hnew hx => exact .occurrence hdeclared (fun hkey => hnew ((h _).mpr hkey)) hx

theorem productionOf_eq_error {taken : List (String × String)} {r : String × ProductionDecl}
    (hread : RuleReads o r) :
    productionOf declared taken o = .error e ↔ RuleOffends declared taken r e := by
  have hinstance := Members.stringField_eq_ok.mpr hread.nonterminal
  have hoperator := Members.stringField_eq_ok.mpr hread.operator
  have hoccurrences := Members.stringsField_eq_ok.mpr hread.occurrences
  have hchildren : ∀ e, within [.field "occurrences"] (childrenFrom declared 0 r.2.occurrences) =
      .error e ↔ ∃ j x, FirstUnknown declared r.2.occurrences j x ∧
        e = ⟨.unknownChild x, [.field "occurrences", .index j]⟩ := by
    intro e
    rw [within_eq_error]
    simp only [childrenFrom_eq_error]
    constructor
    · rintro ⟨_, ⟨j, x, hx, rfl⟩, rfl⟩
      exact ⟨j, x, hx, by simp [Located.under]⟩
    · rintro ⟨j, x, hx, rfl⟩
      exact ⟨_, ⟨j, x, hx, rfl⟩, by simp [Located.under]⟩
  rw [productionOf, hinstance]
  simp only [hoperator, hoccurrences, bind, Except.bind]
  by_cases hdeclared : r.1 ∈ declared
  · rw [if_neg (not_not.mpr hdeclared)]
    by_cases hkey : (r.1, r.2.operator) ∈ taken
    · rw [if_pos hkey]
      constructor
      · rintro ⟨⟩
        exact .operator hdeclared hkey
      · intro h
        cases h with
        | nonterminal hunknown => exact absurd hdeclared hunknown
        | operator => rfl
        | occurrence _ hnew => exact absurd hkey hnew
    · rw [if_neg hkey]
      refine (bind_eq_error (f := fun _ => pure r)).trans ?_
      constructor
      · rintro (h | ⟨_, -, h⟩)
        · obtain ⟨j, x, hx, rfl⟩ := (hchildren e).mp h
          exact .occurrence hdeclared hkey hx
        · cases h
      · intro h
        cases h with
        | nonterminal hunknown => exact absurd hdeclared hunknown
        | operator _ htaken => exact absurd htaken hkey
        | occurrence _ _ hx => exact .inl ((hchildren _).mpr ⟨_, _, hx, rfl⟩)
  · rw [if_pos hdeclared]
    constructor
    · rintro ⟨⟩
      exact .nonterminal hdeclared
    · intro h
      cases h with
      | nonterminal => rfl
      | operator hmem | occurrence hmem => exact absurd hmem hdeclared

theorem productionsFrom_reads {ps : List Members} {rules rs : List (String × ProductionDecl)}
    (h : List.Forall₂ RuleReads ps rules) : productionsFrom declared [] 0 ps = .ok rs ↔
      rs = rules ∧ (∀ r ∈ rules, RuleDeclared declared r) ∧ (rules.map ruleKey).Nodup := by
  have hunique : Relator.RightUnique RuleReads := fun _ _ _ h h' => h.unique h'
  rw [productionsFrom_eq_ok]
  constructor
  · rintro ⟨hreads, hdeclared, hnodup, -⟩
    obtain rfl := List.right_unique_forall₂' hunique hreads h
    exact ⟨rfl, hdeclared, hnodup⟩
  · rintro ⟨rfl, hdeclared, hnodup⟩
    exact ⟨h, hdeclared, hnodup, by simp⟩

theorem productionsFrom_eq_error {ps : List Members} {rules : List (String × ProductionDecl)}
    (h : List.Forall₂ RuleReads ps rules) : productionsFrom declared [] 0 ps = .error e ↔
      ∃ k r e', FirstOffendingRule declared rules k r ∧
        RuleOffends declared ((rules.take k).map ruleKey) r e' ∧ e = e'.under [.index k] := by
  have hreverse : ∀ (before : List (String × ProductionDecl)) (k : String × String),
      k ∈ (before.map ruleKey).reverse ++ [] ↔ k ∈ before.map ruleKey := by simp
  have hoffends : ∀ (before : List (String × ProductionDecl)) r e,
      RuleOffends declared ((before.map ruleKey).reverse ++ []) r e ↔
        RuleOffends declared (before.map ruleKey) r e := fun before r e =>
    ⟨.mono (hreverse before), .mono fun k => (hreverse before k).symm⟩
  rw [readBehind_eq_error (productionsFrom declared) (productionOf declared) ruleKey
    (RuleOffends declared) (fun _ _ => rfl) (fun _ _ _ _ => rfl) ?_ ?_ h]
  · simp only [hoffends, Nat.zero_add]
  · exact fun taken o r r' hread hok => (productionOf_eq_ok.mp hok).1.unique hread
  · exact fun taken o r e hread => productionOf_eq_error hread

end

/-! ## Grammars -/

section
variable {o : Members} {heads : List (String × String)} {rules : List (String × ProductionDecl)}

theorem grammarOf_reads (h : GrammarReads o heads rules) {ns : List NonterminalDecl} :
    grammarOf o = .ok ns ↔ (heads.map Prod.fst).Nodup ∧
      (∀ r ∈ rules, RuleDeclared (heads.map Prod.fst) r) ∧ (rules.map ruleKey).Nodup ∧
      ns = heads.map fun h => ⟨h.1, h.2, productionsOf h.1 rules⟩ := by
  obtain ⟨⟨os, hos, hheads⟩, ps, hps, hrules⟩ := h
  simp only [grammarOf, bind_eq_ok, within_eq_ok, Members.objectsField_eq_ok.mpr hos,
    Members.objectsField_eq_ok.mpr hps, Except.ok.injEq, exists_eq_left',
    nonterminalsFrom_reads hheads, productionsFrom_reads hrules]
  constructor
  · rintro ⟨_, ⟨rfl, hnames⟩, _, ⟨rfl, hdeclared, hkeys⟩, hns⟩
    exact ⟨hnames, hdeclared, hkeys, (Except.ok.inj hns).symm⟩
  · rintro ⟨hnames, hdeclared, hkeys, rfl⟩
    exact ⟨_, ⟨rfl, hnames⟩, _, ⟨rfl, hdeclared, hkeys⟩, rfl⟩

theorem grammarOf_eq_error (h : GrammarReads o heads rules) {e : FormatError} :
    grammarOf o = .error e ↔ GrammarOffends heads rules e := by
  obtain ⟨⟨os, hos, hheads⟩, ps, hps, hrules⟩ := h
  simp only [grammarOf, bind_eq_error, within_eq_ok, within_eq_error,
    Members.objectsField_eq_ok.mpr hos, Members.objectsField_eq_ok.mpr hps, Except.ok.injEq,
    exists_eq_left', reduceCtorEq, false_or, nonterminalsFrom_reads hheads,
    nonterminalsFrom_eq_error hheads]
  constructor
  · rintro (⟨_, ⟨k, x, hx, rfl⟩, rfl⟩ | ⟨_, ⟨rfl, hnames⟩, ⟨e', he', rfl⟩ | ⟨_, -, hend⟩⟩)
    · exact .name hx
    · obtain ⟨k, r, e, hfirst, he, rfl⟩ := (productionsFrom_eq_error hrules).mp he'
      rw [Located.under_under]
      exact .production hnames hfirst he
    · cases hend
  · intro h
    cases h with
    | name hx => exact .inl ⟨_, ⟨_, _, hx, rfl⟩, rfl⟩
    | production hnames hfirst he =>
      have hrules := (productionsFrom_eq_error hrules).mpr ⟨_, _, _, hfirst, he, rfl⟩
      exact .inr ⟨heads, ⟨rfl, hnames⟩, .inl ⟨_, hrules, rfl⟩⟩

/-- A grammar is accepted if and only if its references are right; every nonterminal then has its
own productions, in the order in which they stand, and otherwise the first offence is reported. -/
theorem grammarOf_crossReferences (h : GrammarReads o heads rules) :
    ((∃ ns, grammarOf o = .ok ns) ↔ (heads.map Prod.fst).Nodup ∧
      (∀ r ∈ rules, RuleDeclared (heads.map Prod.fst) r) ∧ (rules.map ruleKey).Nodup) ∧
    (∀ ns, grammarOf o = .ok ns → ns = heads.map fun h =>
      ⟨h.1, h.2, (rules.filter fun r => r.1 = h.1).map Prod.snd⟩) ∧
    ∀ e, grammarOf o = .error e ↔ GrammarOffends heads rules e := by
  refine ⟨?_, fun ns hns => ((grammarOf_reads h).mp hns).2.2.2, fun e => grammarOf_eq_error h⟩
  simp only [grammarOf_reads h]
  constructor
  · rintro ⟨ns, hnames, hdeclared, hkeys, -⟩
    exact ⟨hnames, hdeclared, hkeys⟩
  · rintro ⟨hnames, hdeclared, hkeys⟩
    exact ⟨_, hnames, hdeclared, hkeys, rfl⟩

end

/-! ## Interwoven productions -/

namespace Interwoven

def heads : List (String × String) := [("Start", "E"), ("Guard", "B")]

/-- Both nonterminals use the other one, and both have an operator `$x`. -/
def rules : List (String × ProductionDecl) := [
  ("Start", ⟨"$ite", ["Guard", "Start", "Start"]⟩), ("Guard", ⟨"$x", []⟩),
  ("Start", ⟨"$x", []⟩), ("Guard", ⟨"$<", ["Start", "Start"]⟩)]

/-- Three things are wrong with the last production but one, and another with the last one. -/
def broken : List (String × ProductionDecl) :=
  rules ++ [("Guard", ⟨"$x", ["Start", "Else", "Other"]⟩), ("Other", ⟨"$x", []⟩)]

def grammar (rules : List (String × ProductionDecl)) : Members :=
  [("nonTerminals", .array (heads.map fun h =>
      .object [("name", .string h.1), ("termType", .string h.2)])),
    ("productions", .array ((rules.map ruleMembers).map .object))]

theorem grammar_reads (rules : List (String × ProductionDecl)) :
    GrammarReads (grammar rules) heads rules where
  nonterminals := ⟨_, rfl, .cons ⟨rfl, rfl⟩ (.cons ⟨rfl, rfl⟩ .nil)⟩
  productions := by
    refine ⟨_, rfl, ?_⟩
    rw [List.forall₂_map_left_iff, List.forall₂_same]
    exact fun r _ => ⟨rfl, rfl, rfl⟩

theorem grammar_crossReferences :
    (GrammarReads (grammar rules) heads rules ∧ grammarOf (grammar rules) = .ok
      [⟨"Start", "E", [⟨"$ite", ["Guard", "Start", "Start"]⟩, ⟨"$x", []⟩]⟩,
        ⟨"Guard", "B", [⟨"$x", []⟩, ⟨"$<", ["Start", "Start"]⟩]⟩]) ∧
    GrammarReads (grammar broken) heads broken ∧ GrammarOffends heads broken
      ⟨.duplicateProduction "$x" "Guard", [.field "productions", .index 4, .field "operator"]⟩ := by
  have hread := grammarOf_crossReferences (grammar_reads rules)
  have hbroken := grammarOf_crossReferences (grammar_reads broken)
  have hdeclared : ∀ r ∈ rules, r.1 ∈ heads.map Prod.fst ∧
      ∀ x ∈ r.2.occurrences, x ∈ heads.map Prod.fst := by decide
  obtain ⟨ns, hns⟩ := hread.1.mpr
    ⟨by decide, fun r hr => ⟨(hdeclared r hr).1, (hdeclared r hr).2⟩, by decide⟩
  refine ⟨⟨grammar_reads rules, ?_⟩, grammar_reads broken, (hbroken.2.2 _).mp rfl⟩
  rw [hns, hread.2.1 ns hns]
  rfl

end Interwoven

end Realizability
