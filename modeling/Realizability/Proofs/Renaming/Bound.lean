import Mathlib.Data.List.Forall2
import Realizability.Encoding.Literal
import Realizability.Problem.Basic
import Realizability.Proofs.Renaming.Expression

/-!
# Bound names

The arguments of a function and the variables of the quantifiers in its cases can be renamed as long
as every name still refers to the same binder. Only names that are looked up count: a call looks at
its last argument alone, and matches and lambdas inside of a case are refused unseen.
-/

namespace Realizability

/-! ## Names -/

/-- The names of the binders around a place on either side, the innermost first. -/
abbrev Binders := List (String × String)

/-- Two names refer to the same binder, or are free and equal. -/
def SameBinder : Binders → String → String → Prop
  | [], x, y => x = y
  | (a, b) :: bs, x, y => (x = a ∧ y = b) ∨ (x ≠ a ∧ y ≠ b ∧ SameBinder bs x y)

instance decidableSameBinder : (bs : Binders) → (x y : String) → Decidable (SameBinder bs x y)
  | [], x, y => inferInstanceAs (Decidable (x = y))
  | (a, b) :: bs, x, y =>
    have := decidableSameBinder bs x y
    inferInstanceAs (Decidable ((x = a ∧ y = b) ∨ (x ≠ a ∧ y ≠ b ∧ SameBinder bs x y)))

/-- A free name is not captured. -/
example : ¬ SameBinder [("x", "y")] "y" "y" := by decide

/-- Of variables that are bound together the last one is the innermost. -/
def Binders.bind (bs : Binders) (xs ys : List TypedVar) : Binders :=
  ((xs.map TypedVar.name).zip (ys.map TypedVar.name)).reverse ++ bs

theorem Binders.bind_cons (bs : Binders) (x y : TypedVar) (xs ys : List TypedVar) :
    bs.bind (x :: xs) (y :: ys) = Binders.bind ((x.name, y.name) :: bs) xs ys := by
  simp [Binders.bind]

/-! ## Terms -/

mutual

/-- The terms differ in the names of their binders only. -/
inductive Term.Alpha : Binders → Term → Term → Prop
  | var {bs x y sort} : SameBinder bs x y → Term.Alpha bs (.var x sort) (.var y sort)
  | literal {bs t} : t.isLiteral = true → Term.Alpha bs t t
  | symbol {bs ident sort s args args'} : Symbol.ofIdentifier? ident = some s →
    AlphaEach bs args args' → Term.Alpha bs (.app ident sort args) (.app ident sort args')
  | call {bs ident sort args args'} : Symbol.ofIdentifier? ident = none →
    AlphaLast bs args args' → Term.Alpha bs (.app ident sort args) (.app ident sort args')
  | quantified {bs kind xs ys t t'} : xs.map TypedVar.sort = ys.map TypedVar.sort →
    Term.Alpha (bs.bind xs ys) t t' →
    Term.Alpha bs (.quantified kind xs t) (.quantified kind ys t')
  | matching {bs t t' cases cases'} : Term.Alpha bs (.matching t cases) (.matching t' cases')
  | lambda {bs names names' t t'} : Term.Alpha bs (.lambda names t) (.lambda names' t')

inductive AlphaEach : Binders → List (Identifier × Term) → List (Identifier × Term) → Prop
  | nil {bs} : AlphaEach bs [] []
  | cons {bs sort t t' args args'} : Term.Alpha bs t t' → AlphaEach bs args args' →
    AlphaEach bs ((sort, t) :: args) ((sort, t') :: args')

/-- There are as many arguments, and the last ones differ in the names of their binders only. -/
inductive AlphaLast : Binders → List (Identifier × Term) → List (Identifier × Term) → Prop
  | nil {bs} : AlphaLast bs [] []
  | last {bs sort t t'} : Term.Alpha bs t t' → AlphaLast bs [(sort, t)] [(sort, t')]
  | skip {bs a a' b b' args args'} : AlphaLast bs (b :: args) (b' :: args') →
    AlphaLast bs (a :: b :: args) (a' :: b' :: args')

end

section
variable {bs : Binders}

theorem Term.Alpha.isLiteral {t t' : Term} (h : t.Alpha bs t') : t.isLiteral = t'.isLiteral := by
  cases h <;> rfl

theorem Term.Alpha.hint {t t' : Term} (h : t.Alpha bs t') (sort : Identifier) :
    sortHint sort t = sortHint sort t' := by
  rw [sortHint, sortHint, h.isLiteral]

theorem AlphaEach.isEmpty {args args' : List (Identifier × Term)} (h : AlphaEach bs args args') :
    args.isEmpty = args'.isEmpty := by
  cases h <;> rfl

end

/-! ## Functions -/

/-- The functions differ in the names of their arguments, which are all different, and in bound
names of their cases. -/
structure Function.Renamed (f f' : Function) : Prop where
  name : f.name = f'.name
  sorts : f.args.map TypedVar.sort = f'.args.map TypedVar.sort
  distinct : (f.args.map TypedVar.name).Nodup
  distinct' : (f'.args.map TypedVar.name).Nodup
  cases : ∃ t t' cs cs', f.body = .matching t cs ∧ f'.body = .matching t' cs' ∧
    List.Forall₂ (fun c c' => c.result.Alpha (Binders.bind [] f.args f'.args) c'.result) cs cs'

/-! ## Clauses without names -/

/-- The constants of a prefix are written as their positions, without a name. All others have one. -/
def Renaming.position (cs : List Const) : Renaming where
  const c := if c ∈ cs then ⟨"", some (cs.idxOf c), c.sort⟩ else { c with base := "." ++ c.base }
  sort_const c := by split <;> rfl

/-- The sorts of the prefix of a closure, and its body without the names of the prefix. -/
def Expr.nameless : Expr → List SmtSort × Expr
  | .forAll cs body => (cs.map Const.sort, body.rename (.position cs))
  | e => ([], e.rename (.position []))

theorem Renaming.map_position {cs ds : List Const} (hs : cs.map Const.sort = ds.map Const.sort)
    (hc : cs.Nodup) (hd : ds.Nodup) :
    cs.map (Renaming.position cs).const = ds.map (Renaming.position ds).const := by
  have hlen : cs.length = ds.length := by simpa using congrArg List.length hs
  refine List.ext_getElem (by simpa using hlen) fun i hi hi' => ?_
  rw [List.length_map] at hi hi'
  have hsort : cs[i].sort = ds[i].sort := by
    have := List.getElem_of_eq hs (i := i) (by simpa using hi)
    simpa using this
  simp [position, hc.idxOf_getElem, hd.idxOf_getElem, hsort]

end Realizability
