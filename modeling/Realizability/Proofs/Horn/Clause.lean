import Realizability.Proofs.Horn.Premise
import Realizability.Proofs.Shape.Encoding

/-!
# Horn clauses

A clause is a Horn clause if its premise applies indicators in positive positions only. Horn clauses
have least models (`Expr.exists_least_of_isHorn`). An encoding consists of Horn clauses where the
results of the cases call functions in positive positions only (`Problem.isHorn_iff`); other results
are encoded as well.
-/

namespace Realizability

open Realizability.Expr

/-- An implication whose conclusion is the application of an indicator and whose premise applies
indicators in positive positions only, closed or not. -/
def Expr.isHorn : Expr → Bool
  | forAll _ body => body.isHorn
  | app .implies [premise, call _ args] => premise.positive && args.all callFree
  | _ => false

/-! ## Least models -/

namespace Expr

variable {zero : ZeroDivision} {R R' : Relations} {ν : Valuation} {a b c : Expr} {es : List Expr}

mutual

theorem value_of_callFree : ∀ (e : Expr) {ν : Valuation}, e.callFree = true →
    e.value ⟨zero, R⟩ ν = e.value ⟨zero, R'⟩ ν
  | call .., _, h => by simp [callFree] at h
  | app op args, ν, h => by
    rw [callFree] at h
    rw [value, value, values_of_callFree args h]
  | forAll vars body, ν, h => by
    rw [callFree] at h
    refine Value.ofProp_congr (forall_congr' fun ν' => ?_)
    rw [value_of_callFree body h]
  | int _, _, _ | real _, _, _ | bits .., _, _ | text _, _, _ | const _, _, _ => rfl

theorem values_of_callFree : ∀ (es : List Expr) {ν : Valuation}, callFreeEach es = true →
    valuesOf ⟨zero, R⟩ ν es = valuesOf ⟨zero, R'⟩ ν es
  | [], _, _ => rfl
  | e :: es, ν, h => by
    rw [callFreeEach, Bool.and_eq_true] at h
    rw [valuesOf, valuesOf, value_of_callFree e h.1, values_of_callFree es h.2]

end

section
variable {M : Model}

theorem holds_and : (app .and es).Holds M ν ↔ ∀ e ∈ es, e.Holds M ν := by
  simp [Holds, value, Op.value, valuesOf_eq_map]

theorem holds_or : (app .or es).Holds M ν ↔ ∃ e ∈ es, e.Holds M ν := by
  simp [Holds, value, Op.value, valuesOf_eq_map]

theorem holds_implies : (app .implies [a, b]).Holds M ν ↔ (a.Holds M ν → b.Holds M ν) := by
  simp [Holds, value, Op.value, valuesOf]

theorem holds_call {name : String} :
    (call name es).Holds M ν ↔ M.relations name (valuesOf M ν es) := by
  simp [Holds, value]

theorem holds_ite : (app .ite [c, a, b]).Holds M ν ↔
    (c.value M ν = .yes ∧ a.Holds M ν) ∨ (c.value M ν = .no ∧ b.Holds M ν) := by
  simp only [Holds, value, Op.value, valuesOf]
  cases hc : c.value M ν with
  | bool t => cases t <;> simp [Value.select]
  | _ => simp [Value.select, Value.stray]

end

theorem positive_app_cases {op : Op} (h : (app op es).positive = true) :
    (op = .and ∧ positiveEach es = true) ∨ (op = .or ∧ positiveEach es = true) ∨
      (∃ a b, op = .implies ∧ es = [a, b] ∧ a.callFree = true ∧ b.positive = true) ∨
      (∃ c a b, op = .ite ∧ es = [c, a, b] ∧ c.callFree = true ∧ a.positive = true ∧
        b.positive = true) ∨ callFreeEach es = true := by
  unfold positive at h
  split at h <;> simp_all

mutual

/-- A formula with calls in positive positions is monotone in what indicators hold of. -/
theorem holds_mono (hR : ∀ name vs, R name vs → R' name vs) : ∀ (e : Expr) {ν : Valuation},
    e.positive = true → e.Holds ⟨zero, R⟩ ν → e.Holds ⟨zero, R'⟩ ν
  | call name args, ν, hp, h => by
    rw [positive] at hp
    rw [holds_call] at h ⊢
    exact hR name _ (values_of_callFree args hp ▸ h)
  | app op args, ν, hp, h => by
    rcases positive_app_cases hp with ⟨rfl, hs⟩ | ⟨rfl, hs⟩ | ⟨a, b, rfl, rfl, ha, hb⟩ |
      ⟨c, a, b, rfl, rfl, hc, ha, hb⟩ | hs
    · rw [holds_and] at h ⊢
      exact fun a hmem => each_holds_mono hR args hs a hmem (h a hmem)
    · rw [holds_or] at h ⊢
      obtain ⟨a, hmem, h⟩ := h
      exact ⟨a, hmem, each_holds_mono hR args hs a hmem h⟩
    · rw [holds_implies] at h ⊢
      intro hpremise
      exact holds_mono hR b hb (h ((value_of_callFree a ha).trans hpremise))
    · rw [holds_ite] at h ⊢
      rw [value_of_callFree c hc]
      exact h.imp (And.imp_right (holds_mono hR a ha)) (And.imp_right (holds_mono hR b hb))
    · rw [Holds, value, values_of_callFree args hs]
      exact h
  | forAll vars body, ν, hp, h => by
    rw [positive] at hp
    rw [holds_forAll] at h ⊢
    exact fun ν' hν => holds_mono hR body hp (h ν' hν)
  | int _, _, _, h | real _, _, _, h | bits .., _, _, h | text _, _, _, h | const _, _, _, h => h

theorem each_holds_mono (hR : ∀ name vs, R name vs → R' name vs) : ∀ (es : List Expr)
    {ν : Valuation}, positiveEach es = true → ∀ e ∈ es, e.Holds ⟨zero, R⟩ ν → e.Holds ⟨zero, R'⟩ ν
  | [], _, _ => by simp
  | e :: es, ν, hp => by
    rw [positiveEach, Bool.and_eq_true] at hp
    exact List.forall_mem_cons.mpr ⟨holds_mono hR e hp.1, each_holds_mono hR es hp.2⟩

end

/-- What some relations have in common makes a Horn clause true if each of them does. -/
theorem isHorn_inter {S : Set Relations} : ∀ (e : Expr) {ν : Valuation}, e.isHorn = true →
    (∀ R ∈ S, e.Holds ⟨zero, R⟩ ν) → e.Holds ⟨zero, fun name vs => ∀ R ∈ S, R name vs⟩ ν
  | forAll vars body, ν, hh, h => by
    rw [isHorn] at hh
    rw [holds_forAll]
    exact fun ν' hν => isHorn_inter body hh fun R hR => holds_forAll.mp (h R hR) ν' hν
  | app .implies [premise, call name args], ν, hh, h => by
    rw [isHorn, Bool.and_eq_true] at hh
    rw [holds_implies, holds_call]
    intro hpremise R hR
    have hbelow := holds_mono (fun name vs hall => hall R hR) premise hh.1 hpremise
    have hcall := holds_call.mp (holds_implies.mp (h R hR) hbelow)
    rwa [values_of_callFree args (by simpa using hh.2)]

theorem exists_least_of_isHorn {clauses : List Expr} (h : ∀ φ ∈ clauses, φ.isHorn = true)
    (zero : ZeroDivision) (ν : Valuation) :
    ∃ R, IsLeast {R | ∀ φ ∈ clauses, φ.Holds ⟨zero, R⟩ ν} R := by
  refine ⟨fun name vs => ∀ R ∈ {R | ∀ φ ∈ clauses, φ.Holds ⟨zero, R⟩ ν}, R name vs, ?_, ?_⟩
  · exact fun φ hφ => isHorn_inter φ (h φ hφ) fun R hR => hR φ hφ
  · exact fun R hR name vs hall => hall R hR

end Expr

/-! ## Clauses of cases -/

theorem isHorn_closeOver {cs : List Const} {premise : Expr} {name : String} {result : List Const} :
    (closeOver cs (.app .implies [premise, .call name (result.map .const)])).isHorn =
      premise.positive := by
  have hresult : (result.map Expr.const).all callFree = true := by simp [callFree]
  by_cases hcs : cs = []
  · rw [closeOver, if_pos hcs, isHorn, hresult, Bool.and_true]
  · rw [closeOver, if_neg hcs, isHorn, isHorn, hresult, Bool.and_true]

theorem Signature.clause_isHorn {g : Signature} {table : ExampleTable} {f : Function}
    {frame : Frame} {next : Nat} {t : Term} {r : Expr × Nat}
    (hl : ∀ column ∈ table.inputs, OverEach ⟨g.count, []⟩ [] column)
    (hf : f.frame table = .ok frame) (hr : g.clause frame next t = .ok r) :
    r.1.isHorn = true ↔ g.count = 0 ∨ t.positive = true := by
  obtain ⟨b, x, s, hb, -, -, -, -, hscope, hhead⟩ := Function.frame_eq_ok hf
  obtain ⟨p, hp, hr⟩ := bind_eq_ok.mp hr
  obtain ⟨implication, himp, hr⟩ := bind_eq_ok.mp hr
  obtain ⟨closed, hclosed, hr⟩ := bind_eq_ok.mp hr
  cases hr
  obtain ⟨hbool, rfl⟩ := logical_eq_ok (mapError_eq_ok.mp himp)
  have hsort := sort_of_isBool (hbool p.formula (by simp))
  rw [close_eq_ok (mapError_eq_ok.mp hclosed), hhead, isHorn_closeOver]
  by_cases hn : g.count = 0
  · simp [hn, vectorize_positive_of_zero hn t hp hsort]
  · have hscopes : Scopes.Over ⟨g.count, []⟩ ([] ++ b.1) [frame.scope] := by
      rw [hscope]
      exact Scopes.over_nil.bind (bindArgs_over hl hb)
    simp [hn, vectorize_positive (Nat.pos_of_ne_zero hn) t hscopes hp hsort]

/-- With examples, the clause of a case is a Horn clause iff the case calls functions in positive
positions only. -/
theorem Problem.isHorn_iff {p : Problem} {examples : Option (List Term)} {e : Encoding}
    (h : (p.encode examples).outcome = .ok e) :
    List.Forall₂ (fun f entry => entry.1 = f.name ∧
        List.Forall₂ (fun c φ => φ.isHorn = true ↔
          e.examples.size = 0 ∨ c.result.positive = true) f.matchCases entry.2)
      p.functions.values e.clauses := by
  obtain ⟨target, he⟩ := encode_eq_ok.mp h
  refine Signature.functions_each (fun f _ _ frame hframe c next r hr => ?_) he.clauses
  exact Signature.clause_isHorn (he.inputs _) hframe hr

theorem Sums.successors_isHorn_iff :
    ∃ e, ((problem grammar).encode (some [row 1 2, row 2 3])).outcome = .ok e ∧
      List.Forall₂ (fun f entry => entry.1 = f.name ∧
          List.Forall₂ (fun c φ => φ.isHorn = true ↔
            e.examples.size = 0 ∨ c.result.positive = true) f.matchCases entry.2)
        (problem grammar).functions.values e.clauses := by
  obtain ⟨e, h, -⟩ := encode_successors
  exact ⟨e, h, Problem.isHorn_iff h⟩

/-! ## Negated calls -/

namespace Negated

open Sums (truth expression equation)

def valued (t input result : Term) : Term :=
  .app ⟨"E.Sem", []⟩ truth [(expression, t), (truth, input), (truth, result)]

def negation : Term :=
  .app ⟨"not", []⟩ truth
    [(truth, valued (.var "t1" expression) (.var "x" truth) (.var "r" truth))]

def semantics : Function where
  name := "E.Sem"
  args := [⟨"t", expression⟩, ⟨"x", truth⟩, ⟨"r", truth⟩]
  body := .matching (.var "t" expression) [
    ⟨some "$x", [], .app ⟨"=", []⟩ truth [(truth, .var "r" truth), (truth, .var "x" truth)]⟩,
    ⟨some "$not", ["t1"], negation⟩]

def problem : Problem where
  targetName := "f"
  target := ⟨"Start", "E", [⟨"$x", [], []⟩, ⟨"$not", ["Start"], []⟩]⟩
  nonterminals := [⟨"Start", "E", [⟨"$x", [], []⟩, ⟨"$not", ["Start"], []⟩]⟩]
  constraints := []
  metadata := []
  datatypes := []
  functions := [("E.Sem", semantics)]

def constant (name : String) : Term := .app ⟨name, []⟩ truth []

def row (input result : String) : Term :=
  valued (.app ⟨"f", []⟩ expression []) (constant input) (constant result)

def result : Const := ⟨copyName 0 "r", none, .bool⟩

/-- A clause with two positive literals. -/
def clause : Expr :=
  .forAll [result] (.app .implies [
    .app .not [.call "E.Sem" [.const result]], .call "E.Sem" [.const result]])

theorem encode_row : ∃ e φ, (problem.encode (some [row "true" "false"])).outcome = .ok e ∧
    e.clauses = [("E.Sem", [φ, clause])] := ⟨_, _, rfl, rfl⟩

theorem not_isHorn : ∃ e, (problem.encode (some [row "true" "false"])).outcome = .ok e ∧
    ∃ φ ∈ e.clauses.values.flatten, φ.isHorn = false := by
  obtain ⟨e, φ, h, hclauses⟩ := encode_row
  refine ⟨e, h, clause, ?_, by decide⟩
  rw [hclauses]
  simp [Table.values]

end Negated

end Realizability
