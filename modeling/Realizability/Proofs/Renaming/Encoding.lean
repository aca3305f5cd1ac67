import Realizability.Proofs.Encoding.Correctness
import Realizability.Proofs.Renaming.Clause

/-!
# Encodings under changed names

Functions that differ in bound names get the same clauses up to the names in their prefixes
(`Signature.encodeFunctions_nameless`). The rest of an encoding does not depend on bound names
(`Problem.encode_renamed`).
-/

namespace Realizability

open Realizability.Expr

/-! ## Functions -/

namespace Signature

variable {g : Signature} {table : ExampleTable}

def clausesOf (g : Signature) (table : ExampleTable) (next : Nat) (f : Function) :
    Except EncodeError (List Expr × Nat) := do
  let cases ← f.cases
  let frame ← f.frame table
  (g.clauses f frame next cases).outcome

theorem encodeFunctions_cons (f : Function) (fs : List Function) (next : Nat) :
    (g.encodeFunctions table next (f :: fs)).outcome = (do
      let r ← g.clausesOf table next f
      let rest ← (g.encodeFunctions table r.2 fs).outcome
      return (f.name, r.1) :: rest) := by
  rw [encodeFunctions, clausesOf]
  simp only [Logged.outcome_bind, bind_assoc]
  rfl

section
variable (hl : table.Fixed)
include hl

theorem clausesOf_renamed {f f' : Function} (h : f.Renamed f') (next next' : Nat) :
    Together
      (fun r r' => r.1.map Expr.nameless = r'.1.map Expr.nameless ∧ (next = next' → r.2 = r'.2))
      (g.clausesOf table next f) (g.clausesOf table next' f') := by
  refine h.cases_together.bind fun cs cs' ⟨hlen, hcs⟩ => ?_
  refine (h.frame_together hl hlen).eqs.bind fun F F' ⟨hF, hF', hFF⟩ => ?_
  exact clauses_alpha hFF (Function.frame_distinct hF h.distinct)
    (Function.frame_distinct hF' h.distinct') hcs next next'

/-- The clauses of each function without the names of their prefixes. -/
def nameless (clauses : Table (List Expr)) : Table (List (List SmtSort × Expr)) :=
  clauses.map fun entry => (entry.1, entry.2.map Expr.nameless)

/-- Functions that are left as they are need the stamps to be the same as well. -/
theorem encodeFunctions_alpha {P : Prop} {fs fs' : List Function}
    (h : List.Forall₂ (fun f f' => f.Renamed f' ∨ f = f' ∧ P) fs fs') {next next' : Nat}
    (hn : P → next = next') :
    Together (fun t t' => nameless t = nameless t') (g.encodeFunctions table next fs).outcome
      (g.encodeFunctions table next' fs').outcome := by
  induction h generalizing next next' with
  | nil => exact .ok rfl
  | @cons f f' fs fs' hf _ ih =>
    have hhead : f.name = f'.name ∧ Together
        (fun r r' => r.1.map Expr.nameless = r'.1.map Expr.nameless ∧ (P → r.2 = r'.2))
        (g.clausesOf table next f) (g.clausesOf table next' f') := by
      rcases hf with hf | ⟨rfl, hs⟩
      · refine ⟨hf.name, (clausesOf_renamed hl hf next next').mono fun r r' hr => ?_⟩
        exact ⟨hr.1, fun hs => hr.2 (hn hs)⟩
      · obtain rfl := hn hs
        exact ⟨rfl, .of_eq fun r => ⟨rfl, fun _ => rfl⟩⟩
    rw [encodeFunctions_cons, encodeFunctions_cons]
    refine hhead.2.bind fun r r' hr => (ih hr.2).bind fun rest rest' hrest => .ok ?_
    exact congrArg₂ List.cons (congrArg₂ Prod.mk hhead.1 hr.1) hrest

end

/-- Functions that differ in bound names get the same clauses up to the names in their prefixes, or
none of them can be encoded, on any examples and whatever stamps are free. -/
theorem encodeFunctions_nameless {examples : List Term}
    (ht : ExampleTable.ofTerms examples = .ok table) {fs fs' : List Function}
    (h : List.Forall₂ Function.Renamed fs fs') (next next' : Nat) :
    Together (fun t t' => nameless t = nameless t') (g.encodeFunctions table next fs).outcome
      (g.encodeFunctions table next' fs').outcome :=
  encodeFunctions_alpha (P := False) (ExampleTable.fixed_ofTerms ht) (h.imp fun _ _ => .inl)
    False.elim

end Signature

/-! Quantifiers side by side and inside of each other -/

namespace Shadowing

open Sums (integer truth expression row)

def exist (x : String) (ts : List Term) : Term :=
  .quantified .existential [⟨x, integer⟩] (.app ⟨"and", []⟩ truth (ts.map (truth, ·)))

def less (x y : String) : Term :=
  .app ⟨"<", []⟩ truth [(integer, .var x integer), (integer, .var y integer)]

def valued (t x k r : String) : Term :=
  .app ⟨"E.Sem", []⟩ truth [(expression, .var t expression), (integer, .var x integer),
    (integer, .var k integer), (integer, .var r integer)]

/-- A case over the arguments `x`, `k` and `r`. The quantifiers of `a` and `b` stand side by side,
that of `c` stands in that of `b`. -/
def result (x k r a b c : String) : Term :=
  .app ⟨"and", []⟩ truth [
    (truth, exist a [valued "t1" a k a, less a r]),
    (truth, exist b [less b k, exist c [valued "t2" k c c, less c r]]),
    (truth, less x k)]

def function (x k r a b c : String) : Function where
  name := "E.Sem"
  args := [⟨"t", expression⟩, ⟨x, integer⟩, ⟨k, integer⟩, ⟨r, integer⟩]
  body := .matching (.var "t" expression) [⟨some "$f", ["t1", "t2"], result x k r a b c⟩]

def original : Function := function "x" "k" "r" "x" "x" "x"

/-- The arguments trade places, and the variables look like copies of arguments. -/
def renamed : Function := function "0_x" "x" "k" "0_x" "1_k" "0_x"

theorem less_alpha {bs : Binders} {x y x' y' : String} (hx : SameBinder bs x x')
    (hy : SameBinder bs y y') : (less x y).Alpha bs (less x' y') :=
  .symbol rfl (.cons (.var hx) (.cons (.var hy) .nil))

theorem valued_alpha {bs : Binders} {t x k r t' x' k' r' : String} (hr : SameBinder bs r r') :
    (valued t x k r).Alpha bs (valued t' x' k' r') :=
  .call rfl (.skip (.skip (.skip (.last (.var hr)))))

theorem exist_alpha {bs : Binders} {a a' : String} {s t s' t' : Term}
    (hs : s.Alpha ((a, a') :: bs) s') (ht : t.Alpha ((a, a') :: bs) t') :
    (exist a [s, t]).Alpha bs (exist a' [s', t']) :=
  .quantified rfl (.symbol rfl (.cons hs (.cons ht .nil)))

theorem original_renamed : original.Renamed renamed where
  name := rfl
  sorts := rfl
  distinct := by decide
  distinct' := by decide
  cases := by
    refine ⟨_, _, _, _, rfl, rfl, .cons (.symbol rfl (.cons ?_ (.cons ?_ (.cons ?_ .nil)))) .nil⟩
    · exact exist_alpha (valued_alpha (by decide)) (less_alpha (by decide) (by decide))
    · refine exist_alpha (less_alpha (by decide) (by decide)) ?_
      exact exist_alpha (valued_alpha (by decide)) (less_alpha (by decide) (by decide))
    · exact less_alpha (by decide) (by decide)

def signature : Signature := ⟨2, [("E.Sem", .int)]⟩

def table : ExampleTable := ⟨some "E.Sem", [[.int 1, .int 3]], [.int 2, .int 5]⟩

theorem original_nameless : ExampleTable.ofTerms [row 1 2, row 3 5] = .ok table ∧
    List.Forall₂ Function.Renamed [original] [renamed] ∧
    (signature.encodeFunctions table 0 [original]).outcome.isOk = true ∧
    Together (fun t t' => Signature.nameless t = Signature.nameless t')
      (signature.encodeFunctions table 0 [original]).outcome
      (signature.encodeFunctions table 7 [renamed]).outcome := by
  have ht : ExampleTable.ofTerms [row 1 2, row 3 5] = .ok table := rfl
  have hf : List.Forall₂ Function.Renamed [original] [renamed] := .cons original_renamed .nil
  refine ⟨ht, hf, ?_, Signature.encodeFunctions_nameless ht hf 0 7⟩
  decide +kernel

end Shadowing

/-! ## Problems -/

/-- All that the rest of an encoding sees of a function. -/
structure Function.SameInterface (f f' : Function) : Prop where
  name : f.name = f'.name
  sorts : f.args.map TypedVar.sort = f'.args.map TypedVar.sort

namespace Function.SameInterface

variable {f f' : Function}

theorem of_renamed (h : f.Renamed f' ∨ f = f') : f.SameInterface f' := by
  rcases h with h | rfl
  · exact ⟨h.name, h.sorts⟩
  · exact ⟨rfl, rfl⟩

theorem resultSort (h : f.SameInterface f') : f.resultSort = f'.resultSort := by
  have hlast := congrArg List.getLast? h.sorts
  rw [List.getLast?_map, List.getLast?_map] at hlast
  unfold Function.resultSort resultArg?
  rw [h.name]
  cases hx : f.args.getLast? <;> cases hy : f'.args.getLast? <;> simp_all

theorem query (h : f.SameInterface f') (table : ExampleTable) : f.query table = f'.query table := by
  rw [Function.query, Function.query, h.resultSort, h.name]

theorem declareIndicators {fs fs' : List Function} (h : List.Forall₂ SameInterface fs fs') :
    (declareIndicators fs).outcome = (declareIndicators fs').outcome := by
  induction h with
  | nil => rfl
  | cons h _ ih =>
    rw [Realizability.declareIndicators, Realizability.declareIndicators, h.resultSort, h.name]
    simp only [Logged.outcome_bind, ih]

end Function.SameInterface

/-- The encodings have the same parts, but for the names in the prefixes of clauses. -/
structure Encoding.SameNameless (e e' : Encoding) : Prop where
  indicators : e.indicators = e'.indicators
  clauses : Signature.nameless e.clauses = Signature.nameless e'.clauses
  query : e.query = e'.query
  examples : e.examples = e'.examples
  target : e.target = e'.target

namespace Problem

/-- The problems differ in bound names of their functions. -/
structure Renamed (p p' : Problem) : Prop where
  target : p.target.termType = p'.target.termType
  constraints : p.constraints = p'.constraints
  functions : List.Forall₂ (fun e e' => e.1 = e'.1 ∧ (e.2.Renamed e'.2 ∨ e.2 = e'.2))
    p.functions p'.functions

variable {p p' : Problem} {table : ExampleTable}

theorem Renamed.values (h : p.Renamed p') :
    List.Forall₂ (fun f f' => f.Renamed f' ∨ f = f') p.functions.values p'.functions.values := by
  refine List.forall₂_map_left_iff.mpr (List.forall₂_map_right_iff.mpr ?_)
  exact h.functions.imp fun _ _ => And.right

theorem get?_of_forall₂ {α β : Type} {R : α → β → Prop} {t : Table α} {t' : Table β}
    (h : List.Forall₂ (fun e e' => e.1 = e'.1 ∧ R e.2 e'.2) t t') (key : String) :
    Option.Rel R (t.get? key) (t'.get? key) := by
  induction h with
  | nil => exact .none
  | @cons e e' t t' he _ ih =>
    rw [Table.get?, Table.get?, he.1]
    split
    · exact .some he.2
    · exact ih

theorem together_of_rel {ε α β : Type} {R : α → β → Prop} {o : Option α} {o' : Option β} (e : ε)
    (h : Option.Rel R o o') : Together R (o.elim (.error e) .ok) (o'.elim (.error e) .ok) := by
  cases h with
  | some h => exact .ok h
  | none => exact .error

def isOver (type : String) (f : Function) : Bool :=
  match f.args with
  | [] => false
  | arg :: _ => arg.sort.name == type

theorem targetFunction_some {name : String} (h : table.operator = some name) :
    p.targetFunction table = (p.function? name).elim (.error (.unknownFunction name)) .ok := by
  unfold targetFunction
  rw [h]
  dsimp only
  cases p.function? name <;> rfl

theorem targetFunction_none (h : table.operator = none) :
    p.targetFunction table = (p.functions.values.find? (isOver p.target.termType)).elim
      (.error (.noFunction p.target.termType)) .ok := by
  unfold targetFunction
  rw [h]
  dsimp only
  split
  all_goals
    rename_i hf
    have hfind : p.functions.values.find? (isOver p.target.termType) = _ := hf
    rw [hfind]
    rfl

theorem Renamed.targetFunction (h : p.Renamed p') (table : ExampleTable) :
    Together Function.SameInterface (p.targetFunction table) (p'.targetFunction table) := by
  have hget : List.Forall₂ (fun e e' => e.1 = e'.1 ∧ e.2.SameInterface e'.2) p.functions
      p'.functions := h.functions.imp fun _ _ he => ⟨he.1, .of_renamed he.2⟩
  have hover : List.Forall₂ (fun f f' => f.SameInterface f' ∧
      isOver p.target.termType f = isOver p.target.termType f')
      p.functions.values p'.functions.values := by
    refine h.values.imp fun f f' hf => ⟨.of_renamed hf, ?_⟩
    have hs := (Function.SameInterface.of_renamed hf).sorts
    unfold isOver
    cases hx : f.args <;> cases hy : f'.args <;> simp_all
  cases ho : table.operator with
  | some name =>
    rw [targetFunction_some ho, targetFunction_some ho]
    exact together_of_rel _ (get?_of_forall₂ hget name)
  | none =>
    rw [targetFunction_none ho, targetFunction_none ho, ← h.target]
    exact together_of_rel _ (find?_of_forall₂ hover)

theorem encode_outcome (p : Problem) (examples : Option (List Term)) :
    (p.encode examples).outcome = (do
      let table ← ExampleTable.ofTerms (examples.getD p.constraints)
      let indicators ← (declareIndicators p.functions.values).outcome
      let target ← p.targetFunction table
      let clauses ← (Signature.encodeFunctions ⟨table.size, indicators⟩ table 0
        p.functions.values).outcome
      let query ← target.query table
      return ⟨indicators, clauses, query, table, target.name⟩) := by
  rw [encode]
  simp only [Logged.outcome_bind, Logged.outcome_writeAll, Logged.outcome_write]
  rfl

theorem encode_renamed (h : p.Renamed p') (examples : Option (List Term)) :
    Together Encoding.SameNameless (p.encode examples).outcome (p'.encode examples).outcome := by
  have hindicators := Function.SameInterface.declareIndicators (h.values.imp fun _ _ => .of_renamed)
  rw [encode_outcome, encode_outcome, ← h.constraints, ← hindicators]
  cases ht : ExampleTable.ofTerms (examples.getD p.constraints) with
  | error => exact .error
  | ok table =>
    cases (declareIndicators p.functions.values).outcome with
    | error => exact .error
    | ok indicators =>
      refine (h.targetFunction table).bind fun target target' hf => ?_
      have hclauses := Signature.encodeFunctions_alpha (P := True) (g := ⟨table.size, indicators⟩)
        (ExampleTable.fixed_ofTerms ht)
        (h.values.imp fun _ _ hf => hf.imp_right fun heq => ⟨heq, trivial⟩) (fun _ => (rfl : 0 = 0))
      refine hclauses.bind fun clauses clauses' hc => ?_
      rw [← hf.query table]
      cases target.query table with
      | error => exact .error
      | ok query => exact .ok ⟨rfl, hc, rfl, rfl, hf.name⟩

end Problem

end Realizability
