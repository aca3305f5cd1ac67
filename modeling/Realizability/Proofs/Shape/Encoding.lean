import Realizability.Proofs.Encoding.Correctness
import Realizability.Proofs.Shape.Clause

/-!
# The shape of encodings

An encoding has one indicator per function and one clause per case, and all its formulas are closed
(`Problem.encode_shaped`). There are witnesses for the variables of all existentials of a case,
except for those in arguments that a call discards.
-/

namespace Realizability

open Realizability.Expr

/-- The encoding is formed from the functions of the problem and the examples, with witnesses for
the variables that `bound` gives for the result of a case. -/
structure Encoding.Shaped (e : Encoding) (p : Problem) (examples : List Term)
    (bound : Term → List TypedVar) : Prop where
  table : ExampleTable.ofTerms examples = .ok e.examples
  size : e.examples.size = examples.length
  indicators : List.Forall₂ (fun f i => i.1 = f.name ∧
    ∃ x, f.args.getLast? = some x ∧ SmtSort.ofIdentifier x.sort = .ok i.2)
    p.functions.values e.indicators
  clauses : List.Forall₂ (fun f entry => entry.1 = f.name ∧ List.Forall₂ (fun c φ =>
      ∃ k : Clause, k.Of ⟨examples.length, e.indicators⟩ e.examples f c.result (bound c.result) ∧
        φ = k.formula f.name) f.matchCases entry.2)
    p.functions.values e.clauses
  applied : ∀ φ ∈ e.formulas, φ.Applies ⟨examples.length, e.indicators⟩
  closed : ∀ φ ∈ e.formulas, φ.freeConsts = []

/-! ## Functions -/

theorem Function.resultSort_eq_ok {f : Function} {s : SmtSort} (h : f.resultSort = .ok s) :
    ∃ x, f.args.getLast? = some x ∧ SmtSort.ofIdentifier x.sort = .ok s := by
  unfold resultSort resultArg? at h
  split at h
  · cases h
  · rename_i x hx
    exact ⟨x, hx, mapError_eq_ok.mp h⟩

theorem Problem.mem_of_targetFunction {p : Problem} {table : ExampleTable} {f : Function}
    (h : p.targetFunction table = .ok f) : f ∈ p.functions.values := by
  unfold targetFunction at h
  split at h
  · split at h
    · rename_i f' hf
      cases h
      exact List.mem_map_of_mem (Table.mem_of_get? hf)
    · cases h
  · dsimp only at h
    split at h
    · rename_i f' hf
      cases h
      exact List.mem_of_find?_eq_some hf
    · cases h

namespace Signature

variable {g : Signature} {table : ExampleTable} {f : Function} {frame : Frame} {next : Nat}

def IsClause (g : Signature) (table : ExampleTable) (f : Function) (c : MatchCase Term) (φ : Expr) :
    Prop :=
  ∃ k : Clause, k.Of g table f c.result (c.result.existentials g.discards) ∧
    φ = k.formula f.name ∧ (k.implication f.name).Over g k.bound

theorem clauses_each {P : MatchCase Term → Expr → Prop} {cs : List (MatchCase Term)}
    {r : List Expr × Nat}
    (hP : ∀ (c : MatchCase Term) (next : Nat) (r : Expr × Nat),
      g.clause frame next c.result = .ok r → P c r.1)
    (hr : (g.clauses f frame next cs).outcome = .ok r) : List.Forall₂ P cs r.1 := by
  induction cs generalizing next r with
  | nil =>
    cases hr
    exact .nil
  | cons c cs ih =>
    obtain ⟨r', rest, hr', hrest, rfl⟩ := clauses_cons_eq_ok.mp hr
    exact .cons (hP c next r' hr') (ih hrest)

theorem functions_each {P : Function → MatchCase Term → Expr → Prop} {fs : List Function}
    {clauses : Table (List Expr)}
    (hP : ∀ f ∈ fs, 2 ≤ f.args.length → ∀ (frame : Frame), f.frame table = .ok frame →
      ∀ (c : MatchCase Term) (next : Nat) (r : Expr × Nat),
        g.clause frame next c.result = .ok r → P f c r.1)
    (h : (g.encodeFunctions table next fs).outcome = .ok clauses) :
    List.Forall₂ (fun f entry => entry.1 = f.name ∧ List.Forall₂ (P f) f.matchCases entry.2)
      fs clauses := by
  induction fs generalizing next clauses with
  | nil =>
    cases h
    exact .nil
  | cons f fs ih =>
    obtain ⟨cases, frame, r, rest, hcases, hframe, hr, hrest, rfl⟩ :=
      encodeFunctions_cons_eq_ok.mp h
    obtain ⟨hlen, rfl⟩ := Function.cases_eq_ok hcases
    obtain ⟨hf, hfs⟩ := List.forall_mem_cons.mp hP
    exact .cons ⟨rfl, clauses_each (hf hlen frame hframe) hr⟩ (ih hfs hrest)

end Signature

/-! ## Encodings -/

namespace Problem

variable {p : Problem} {examples : Option (List Term)} {e : Encoding} {target : Function}

theorem Encodes.declared (h : p.Encodes examples target e) {f : Function}
    (hf : f ∈ p.functions.values) : ∃ s, (f.name, s) ∈ e.indicators ∧ f.resultSort = .ok s := by
  obtain ⟨⟨name, s⟩, hi, rfl, hs⟩ :=
    exists_of_forall₂ (declareIndicators_eq_ok.mp h.indicators).flip hf
  exact ⟨s, hi, hs⟩

theorem Encodes.literals (h : p.Encodes examples target e) (g : Signature) :
    ∀ column ∈ e.examples.columns, OverEach g [] column := by
  intro column hc x hx
  obtain ⟨s, t, ht⟩ := ExampleTable.exists_literal_of_mem h.table hc hx
  exact literal?_over ht

theorem Encodes.inputs (h : p.Encodes examples target e) (g : Signature) :
    ∀ column ∈ e.examples.inputs, OverEach g [] column :=
  fun column hc => h.literals g column (List.mem_append_left _ hc)

theorem Encodes.clauses_of (h : p.Encodes examples target e) :
    List.Forall₂ (fun f entry => entry.1 = f.name ∧ List.Forall₂
      (Signature.IsClause ⟨e.examples.size, e.indicators⟩ e.examples f) f.matchCases entry.2)
      p.functions.values e.clauses := by
  refine Signature.functions_each (fun f hf hlen frame hframe c next r hr => ?_) h.clauses
  obtain ⟨s, hname, hs⟩ := h.declared hf
  exact Signature.clause_of rfl (h.inputs _) hlen hname hs hframe hr

theorem Encodes.formulas_over (h : p.Encodes examples target e) {φ : Expr} (hφ : φ ∈ e.formulas) :
    ∃ cs body, φ = closeOver cs body ∧ body.Over ⟨e.examples.size, e.indicators⟩ cs := by
  rcases List.mem_append.mp hφ with hφ | hφ
  · obtain ⟨φs, hφs, hφ⟩ := List.mem_flatten.mp hφ
    obtain ⟨entry, hentry, rfl⟩ := List.mem_map.mp hφs
    obtain ⟨f, -, -, hcases⟩ := exists_of_forall₂ h.clauses_of hentry
    obtain ⟨c, -, k, -, rfl, hk⟩ := exists_of_forall₂ hcases hφ
    exact ⟨_, _, rfl, hk⟩
  · obtain rfl := List.mem_singleton.mp hφ
    obtain ⟨s, hname, hs⟩ := h.declared (mem_of_targetFunction h.chosen)
    have hresults := h.literals ⟨e.examples.size, e.indicators⟩ _
      (List.mem_append_right _ (List.mem_singleton_self _))
    exact query_over rfl hresults hname hs h.query

/-- Every encoding has the shape, with witnesses for the variables of all existentials that no call
discards. -/
theorem encode_shaped (h : (p.encode examples).outcome = .ok e) :
    e.Shaped p (examples.getD p.constraints)
      (Term.existentials (Signature.discards ⟨e.examples.size, e.indicators⟩)) := by
  obtain ⟨target, he⟩ := encode_eq_ok.mp h
  have hsize := ExampleTable.size_ofTerms he.table
  refine ⟨he.table, hsize, ?_, ?_, ?_, ?_⟩
  · refine (declareIndicators_eq_ok.mp he.indicators).imp fun f i hi => ?_
    exact ⟨hi.1, Function.resultSort_eq_ok hi.2⟩
  · rw [← hsize]
    refine he.clauses_of.imp fun f entry hf => ⟨hf.1, hf.2.imp fun c φ hc => ?_⟩
    obtain ⟨k, hk, hφ, -⟩ := hc
    exact ⟨k, hk, hφ⟩
  · intro φ hφ
    obtain ⟨cs, body, rfl, hbody⟩ := he.formulas_over hφ
    exact hsize ▸ closeOver_applies hbody
  · intro φ hφ
    obtain ⟨cs, body, rfl, hbody⟩ := he.formulas_over hφ
    exact closeOver_closed hbody

end Problem

theorem Sums.successors_shaped :
    ∃ e, ((problem grammar).encode (some [row 1 2, row 2 3])).outcome = .ok e ∧
      e.Shaped (problem grammar) [row 1 2, row 2 3]
        (Term.existentials (Signature.discards ⟨e.examples.size, e.indicators⟩)) := by
  obtain ⟨e, h, -⟩ := encode_successors
  exact ⟨e, h, Problem.encode_shaped h⟩

/-! ## Discarded arguments -/

namespace Dropped

open Sums (integer truth expression equation)

def valued (t input result : Term) : Term :=
  .app ⟨"E.Sem", []⟩ truth [(expression, t), (truth, input), (integer, result)]

/-- An existential stands in front of the last argument of a call. -/
def wrapped : Term :=
  valued (.var "t1" expression)
    (.quantified .existential [⟨"y", integer⟩] (equation "y" (.var "y" integer)))
    (.var "r" integer)

def semantics : Function where
  name := "E.Sem"
  args := [⟨"t", expression⟩, ⟨"b", truth⟩, ⟨"r", integer⟩]
  body := .matching (.var "t" expression) [
    ⟨some "$1", [], equation "r" (.number 1)⟩,
    ⟨some "$wrap", ["t1"], wrapped⟩]

def problem : Problem where
  targetName := "f"
  target := ⟨"Start", "E", [⟨"$1", [], []⟩, ⟨"$wrap", ["Start"], []⟩]⟩
  nonterminals := [⟨"Start", "E", [⟨"$1", [], []⟩, ⟨"$wrap", ["Start"], []⟩]⟩]
  constraints := []
  metadata := []
  datatypes := []
  functions := [("E.Sem", semantics)]

def row : Term := valued (.app ⟨"f", []⟩ expression []) (.app ⟨"true", []⟩ truth []) (.number 1)

def result : Const := ⟨copyName 0 "r", none, .int⟩

theorem encode_row : ∃ e φ, (problem.encode (some [row])).outcome = .ok e ∧
    e.clauses = [("E.Sem", [φ, .forAll [result]
      (.app .implies [.call "E.Sem" [.const result], .call "E.Sem" [.const result]])])] ∧
    e.examples = ⟨some "E.Sem", [[Expr.truth true]], [.int 1]⟩ :=
  ⟨_, _, rfl, rfl, rfl⟩

theorem not_shaped : ∃ e, (problem.encode (some [row])).outcome = .ok e ∧
    ¬ e.Shaped problem [row] (Term.existentials fun _ => false) := by
  obtain ⟨e, φ, h, hclauses, htable⟩ := encode_row
  refine ⟨e, h, fun hs => ?_⟩
  have hall := hs.clauses
  rw [hclauses] at hall
  obtain ⟨⟨-, hcases⟩, -⟩ := List.forall₂_cons.mp hall
  obtain ⟨-, hcases⟩ := List.forall₂_cons.mp hcases
  obtain ⟨⟨k, hk, hφ⟩, -⟩ := List.forall₂_cons.mp hcases
  have hfresh := hk.fresh.length
  have hwitnesses := hk.witnesses.length
  rw [htable] at hfresh
  have hlength : k.bound.length = 2 := by
    rw [Clause.bound, List.length_append, hfresh, hwitnesses]
    rfl
  have hbound : k.bound = [result] := by
    unfold Clause.formula closeOver at hφ
    split at hφ
    · cases hφ
    · exact (Expr.forAll.inj hφ).1.symm
  rw [hbound] at hlength
  cases hlength

end Dropped

end Realizability
