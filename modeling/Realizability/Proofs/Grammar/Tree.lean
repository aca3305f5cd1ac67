import Realizability.Proofs.Encoding.Correctness

/-!
# Terms of a grammar

Finite trees of operators that the productions of a nonterminal generate, and the vectors of values
that functions have on a tree: at a node only the cases of its operator are used and those without
an operator, and a call has its value on the subtree that its first argument names.
-/

namespace Realizability

inductive Tree
  | node (operator : String) (children : List Tree)

def Tree.children : Tree → List Tree
  | node _ ts => ts

namespace Problem

inductive Generates (p : Problem) : Nonterminal → Tree → Prop
  | node {n : Nonterminal} {q : Production} {ns : List Nonterminal} {ts : List Tree} :
    q ∈ n.productions → q.children.mapM p.nonterminal? = some ns → ts.length = ns.length →
    (∀ (i : Nat) (m : Nonterminal) (t : Tree), ns[i]? = some m → ts[i]? = some t →
      p.Generates m t) →
    p.Generates n (.node q.operator ts)

end Problem

/-! ## Subtrees that calls are about -/

namespace MatchCase

variable (c : MatchCase Term)

def child? : List (Identifier × Term) → Option Nat
  | (_, .var x _) :: _ => c.names.idxOf? x
  | _ => none

/-- The subtree that the first argument of a call names in a case for a tree: a child, or the tree
itself by the first argument of the function or by a name in a case without an operator. -/
def subject? (f : Function) (t : Tree) : List (Identifier × Term) → Option Tree
  | (_, .var x _) :: _ =>
    match c.names.idxOf? x with
    | some i => if c.operator.isSome then t.children[i]? else some t
    | none => if f.args.head?.map TypedVar.name = some x then some t else none
  | _ => none

variable {c}

theorem subject?_child {f : Function} {t : Tree} {args : List (Identifier × Term)} {i : Nat}
    (hc : c.operator.isSome = true) (hi : c.child? args = some i) :
    c.subject? f t args = t.children[i]? := by
  unfold child? at hi
  unfold subject?
  split at hi
  · rw [hi]
    exact if_pos hc
  · cases hi

end MatchCase

namespace Signature

variable (g : Signature)

mutual

def callsOf : Term → List (String × List (Identifier × Term))
  | .quantified .existential _ child => callsOf child
  | .app ident _ args =>
    if ident = ⟨"and", []⟩ ∧ args.isEmpty = false then callsOfAll args
    else if g.calls ident ∧ (Operator.ofName? ident.name).isNone then [(ident.name, args)]
    else []
  | _ => []

def callsOfAll : List (Identifier × Term) → List (String × List (Identifier × Term))
  | [] => []
  | (_, t) :: args => callsOf t ++ callsOfAll args

end

abbrev CallsHave (C : Calls) (calls : List (String × List (Identifier × Term)))
    (vectors : List (List Value)) : Prop :=
  List.Forall₂ (fun call vs => C call.1 call.2 vs) calls vectors

variable {g} {M : Model} {C C' : Calls}

theorem callsHave_append {xs ys : List (String × List (Identifier × Term))}
    {us vs : List (List Value)} (hlen : us.length = xs.length) (h : CallsHave C (xs ++ ys) (us ++ vs)) :
    CallsHave C xs us ∧ CallsHave C ys vs := by
  induction xs generalizing us with
  | nil =>
    obtain rfl : us = [] := List.length_eq_zero_iff.mp hlen
    exact ⟨.nil, h⟩
  | cons x xs ih =>
    cases us with
    | nil => cases hlen
    | cons u us =>
      cases h with
      | cons hx h =>
        obtain ⟨hxs, hys⟩ := ih (Nat.succ.inj hlen) h
        exact ⟨.cons hx hxs, hys⟩

mutual

theorem exists_vectors : ∀ (t : Term) {ρ : Environment}, g.Holds M C ρ t →
    ∃ vectors, CallsHave C (g.callsOf t) vectors ∧
      ∀ C', CallsHave C' (g.callsOf t) vectors → g.Holds M C' ρ t
  | .quantified .existential xs t, ρ, h => by
    obtain ⟨bs, hb, h⟩ := h
    obtain ⟨vectors, hvectors, hall⟩ := exists_vectors t h
    exact ⟨vectors, hvectors, fun C' hC => ⟨bs, hb, hall C' hC⟩⟩
  | .app ident sort args, ρ, h => by
    rw [Holds] at h
    by_cases hand : ident = ⟨"and", []⟩ ∧ args.isEmpty = false
    · rw [if_pos hand] at h
      obtain ⟨vectors, hvectors, hall⟩ := existsAll_vectors args h
      rw [callsOf, if_pos hand]
      refine ⟨vectors, hvectors, fun C' hC => ?_⟩
      rw [Holds, if_pos hand]
      exact hall C' hC
    · rw [if_neg hand] at h
      rw [callsOf, if_neg hand]
      by_cases hcall : g.calls ident ∧ (Operator.ofName? ident.name).isNone
      · rw [if_pos hcall] at h ⊢
        obtain ⟨vs, ws, hvs, hws, hc⟩ := h
        refine ⟨[ws], .cons hc .nil, fun C' hC => ?_⟩
        rw [Holds, if_neg hand, if_pos hcall]
        cases hC with
        | cons hc' _ => exact ⟨vs, ws, hvs, hws, hc'⟩
      · rw [if_neg hcall] at h ⊢
        refine ⟨[], .nil, fun C' _ => ?_⟩
        rw [Holds, if_neg hand, if_neg hcall]
        exact h
  | .quantified .universal .., _, h | .var .., _, h | .number _, _, h | .decimal _, _, h
  | .string _, _, h | .bits .., _, h | .matching .., _, h | .lambda .., _, h =>
    ⟨[], .nil, fun _ _ => h⟩

theorem existsAll_vectors : ∀ (args : List (Identifier × Term)) {ρ : Environment},
    g.HoldAll M C ρ args →
    ∃ vectors, CallsHave C (g.callsOfAll args) vectors ∧
      ∀ C', CallsHave C' (g.callsOfAll args) vectors → g.HoldAll M C' ρ args
  | [], _, _ => ⟨[], .nil, fun _ _ => trivial⟩
  | (_, t) :: args, ρ, h => by
    obtain ⟨us, hus, hterm⟩ := exists_vectors t h.1
    obtain ⟨vs, hvs, hargs⟩ := existsAll_vectors args h.2
    refine ⟨us ++ vs, List.rel_append hus hvs, fun C' hC => ?_⟩
    obtain ⟨hC₁, hC₂⟩ := callsHave_append hus.length_eq.symm hC
    exact ⟨hterm C' hC₁, hargs C' hC₂⟩

end

end Signature

/-! ## Values on trees -/

namespace Problem

variable (p : Problem) (table : ExampleTable) (zero : ZeroDivision)

def callsOn (E : Tree → Relations) (f : Function) (c : MatchCase Term) (t : Tree) :
    Signature.Calls :=
  fun name args vs => ∃ s, c.subject? f t args = some s ∧ E s name vs

/-- The relations hold on every tree of what a case for its operator gives. -/
def ClosedOn (E : Tree → Relations) : Prop :=
  ∀ f ∈ p.functions.values, ∀ c ∈ f.matchCases, ∀ operator ts,
    c.operator = none ∨ c.operator = some operator → ∀ v,
    (p.signature table.size).CaseGives ⟨zero, fun _ _ => False⟩
      (callsOn E f c (.node operator ts)) table f c v → E (.node operator ts) f.name v

/-- What all relations on trees have in common that are closed. -/
def Evaluates (t : Tree) : Relations := fun name v => ∀ E, p.ClosedOn table zero E → E t name v

variable {p table zero}

theorem evaluates_closedOn (h : p.ConjunctiveCalls table.size) :
    p.ClosedOn table zero (p.Evaluates table zero) := by
  intro f hf c hc operator ts hop v hv E hE
  refine hE f hf c hc operator ts hop v (caseGives_mono (h f hf c hc) ?_ hv)
  rintro name args vs ⟨s, hs, he⟩
  exact ⟨s, hs, he E hE⟩

theorem derived_of_evaluates (h : p.ConjunctiveCalls table.size) {t : Tree} {name : String}
    {v : List Value} (he : p.Evaluates table zero t name v) : p.Derived table zero name v := by
  refine he (fun _ => p.Derived table zero) ?_
  intro f hf c hc operator ts _ v hv
  refine derived_closed h f hf c hc v (caseGives_mono (h f hf c hc) ?_ hv)
  rintro name args vs ⟨s, -, hd⟩
  exact hd

end Problem

end Realizability
