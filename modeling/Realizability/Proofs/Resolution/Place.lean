import Realizability.Proofs.Shape.Clause

/-!
# Places of subterms

Which subterms of a case its premise depends on, with the place of each: whether the case claims it
as a conjunct, and which variables the existentials around it bind. The arguments that a call
discards are left out, for nothing ever looks at them.
-/

namespace Realizability

/-- The bound variables are listed from the innermost outwards. -/
structure Place where
  conjunctive : Bool
  bound : List TypedVar

namespace Place

def top : Place := ⟨true, []⟩

def inner (q : Place) : Place := { q with conjunctive := false }

def bind (q : Place) (xs : List TypedVar) : Place := { q with bound := xs.reverse ++ q.bound }

/-- Only conjunctions hand their own place down. -/
def below (q : Place) (ident : Identifier) : Place := if ident = ⟨"and", []⟩ then q else q.inner

@[simp] theorem inner_bound (q : Place) : q.inner.bound = q.bound := rfl

@[simp] theorem inner_conjunctive (q : Place) : q.inner.conjunctive = false := rfl

@[simp] theorem bind_conjunctive (q : Place) (xs : List TypedVar) :
    (q.bind xs).conjunctive = q.conjunctive := rfl

@[simp] theorem below_bound (q : Place) (ident : Identifier) : (q.below ident).bound = q.bound := by
  unfold below
  split <;> rfl

theorem below_of_ne {q : Place} {ident : Identifier} (h : ident ≠ ⟨"and", []⟩) :
    q.below ident = q.inner := if_neg h

end Place

mutual

/-- A term and its subterms from left to right. Of the arguments of a call, only the last counts. -/
def Term.occurrences (calls : Identifier → Bool) (q : Place) : Term → List (Place × Term)
  | .app ident sort args => (q, .app ident sort args) ::
      if (Symbol.ofIdentifier? ident).isNone && calls ident then finalOccurrences calls q.inner args
      else argOccurrences calls (q.below ident) args
  | .quantified .existential xs child =>
    (q, .quantified .existential xs child) :: child.occurrences calls (q.bind xs)
  | .quantified .universal xs child =>
    (q, .quantified .universal xs child) :: child.occurrences calls q.inner
  | .matching scrutinee cases => (q, .matching scrutinee cases) ::
      (scrutinee.occurrences calls q.inner ++ caseOccurrences calls q.inner cases)
  | .lambda names body => (q, .lambda names body) :: body.occurrences calls q.inner
  | .var x sort => [(q, .var x sort)]
  | .number n => [(q, .number n)]
  | .decimal x => [(q, .decimal x)]
  | .string s => [(q, .string s)]
  | .bits width value => [(q, .bits width value)]

def argOccurrences (calls : Identifier → Bool) (q : Place) :
    List (Identifier × Term) → List (Place × Term)
  | [] => []
  | (_, t) :: args => t.occurrences calls q ++ argOccurrences calls q args

def finalOccurrences (calls : Identifier → Bool) (q : Place) :
    List (Identifier × Term) → List (Place × Term)
  | [] => []
  | [(_, t)] => t.occurrences calls q
  | _ :: args => finalOccurrences calls q args

def caseOccurrences (calls : Identifier → Bool) (q : Place) :
    List (MatchCase Term) → List (Place × Term)
  | [] => []
  | ⟨_, _, result⟩ :: cases => result.occurrences calls q ++ caseOccurrences calls q cases

end

section
variable {calls : Identifier → Bool} {q : Place} {ident sort : Identifier}
  {args : List (Identifier × Term)} {t : Term}

theorem Term.mem_occurrences_self (t : Term) : (q, t) ∈ t.occurrences calls q := by
  cases t with
  | quantified kind xs child => cases kind <;> exact List.mem_cons_self ..
  | _ => exact List.mem_cons_self ..

theorem occurrences_symbol {s : Symbol} (h : Symbol.ofIdentifier? ident = some s) :
    (Term.app ident sort args).occurrences calls q =
      (q, .app ident sort args) :: argOccurrences calls (q.below ident) args := by
  simp [Term.occurrences, h]

theorem occurrences_call (h : Symbol.ofIdentifier? ident = none) (hc : calls ident = true) :
    (Term.app ident sort args).occurrences calls q =
      (q, .app ident sort args) :: finalOccurrences calls q.inner args := by
  simp [Term.occurrences, h, hc]

mutual

theorem occurrences_inner : ∀ (t : Term) {q : Place}, q.conjunctive = false →
    ∀ o ∈ t.occurrences calls q, o.1.conjunctive = false
  | .app ident sort args, q, hq, o, ho => by
    have hbelow : (q.below ident).conjunctive = false := by
      unfold Place.below
      split
      · exact hq
      · rfl
    rcases List.mem_cons.mp (by rwa [Term.occurrences] at ho) with rfl | ho
    · exact hq
    · split at ho
      · exact finalOccurrences_inner args rfl o ho
      · exact argOccurrences_inner args hbelow o ho
  | .quantified .existential xs child, q, hq, o, ho => by
    rcases List.mem_cons.mp ho with rfl | ho
    · exact hq
    · exact occurrences_inner child (q := q.bind xs) hq o ho
  | .quantified .universal xs child, q, hq, o, ho => by
    rcases List.mem_cons.mp ho with rfl | ho
    · exact hq
    · exact occurrences_inner child rfl o ho
  | .matching scrutinee cases, q, hq, o, ho => by
    rcases List.mem_cons.mp ho with rfl | ho
    · exact hq
    · rcases List.mem_append.mp ho with ho | ho
      · exact occurrences_inner scrutinee rfl o ho
      · exact caseOccurrences_inner cases rfl o ho
  | .lambda names body, q, hq, o, ho => by
    rcases List.mem_cons.mp ho with rfl | ho
    · exact hq
    · exact occurrences_inner body rfl o ho
  | .var .., q, hq, o, ho | .number _, q, hq, o, ho | .decimal _, q, hq, o, ho
  | .string _, q, hq, o, ho | .bits .., q, hq, o, ho => by
    rw [List.mem_singleton.mp ho]
    exact hq

theorem argOccurrences_inner : ∀ (args : List (Identifier × Term)) {q : Place},
    q.conjunctive = false → ∀ o ∈ argOccurrences calls q args, o.1.conjunctive = false
  | [], _, _, _, ho => by cases ho
  | (_, t) :: args, q, hq, o, ho => by
    rcases List.mem_append.mp ho with ho | ho
    · exact occurrences_inner t hq o ho
    · exact argOccurrences_inner args hq o ho

theorem finalOccurrences_inner : ∀ (args : List (Identifier × Term)) {q : Place},
    q.conjunctive = false → ∀ o ∈ finalOccurrences calls q args, o.1.conjunctive = false
  | [], _, _, _, ho => by cases ho
  | [(_, t)], q, hq, o, ho => occurrences_inner t hq o ho
  | _ :: a :: args, q, hq, o, ho => finalOccurrences_inner (a :: args) hq o ho

theorem caseOccurrences_inner : ∀ (cases : List (MatchCase Term)) {q : Place},
    q.conjunctive = false → ∀ o ∈ caseOccurrences calls q cases, o.1.conjunctive = false
  | [], _, _, _, ho => by cases ho
  | ⟨_, _, result⟩ :: cases, q, hq, o, ho => by
    rcases List.mem_append.mp ho with ho | ho
    · exact occurrences_inner result hq o ho
    · exact caseOccurrences_inner cases hq o ho

end

def Term.isConjunct : Term → Bool
  | .app ident _ args => !(ident == ⟨"and", []⟩ && !args.isEmpty)
  | .quantified .existential _ _ => false
  | _ => true

theorem Term.isConjunct_app : (Term.app ident sort args).isConjunct = true ↔
    ¬ (ident = ⟨"and", []⟩ ∧ args.isEmpty = false) := by
  by_cases h : ident = ⟨"and", []⟩ <;> simp [isConjunct, h]

theorem eq_of_conjunctive (h : t.isConjunct = true) {o : Place × Term}
    (ho : o ∈ t.occurrences calls q) (hc : o.1.conjunctive = true) : o = (q, t) := by
  cases t with
  | app ident sort args =>
    rcases List.mem_cons.mp (by rwa [Term.occurrences] at ho) with rfl | ho
    · rfl
    · exfalso
      split at ho
      · simp [finalOccurrences_inner args rfl o ho] at hc
      · by_cases hand : ident = ⟨"and", []⟩
        · obtain rfl : args = [] := by simpa [Term.isConjunct_app, hand] using h
          cases ho
        · rw [Place.below_of_ne hand] at ho
          simp [argOccurrences_inner args rfl o ho] at hc
  | quantified kind xs child =>
    cases kind with
    | existential => cases h
    | universal =>
      rcases List.mem_cons.mp ho with rfl | ho
      · rfl
      · simp [occurrences_inner child rfl o ho] at hc
  | matching scrutinee cases =>
    rcases List.mem_cons.mp ho with rfl | ho
    · rfl
    · exfalso
      rcases List.mem_append.mp ho with ho | ho
      · simp [occurrences_inner scrutinee rfl o ho] at hc
      · simp [caseOccurrences_inner cases rfl o ho] at hc
  | lambda names body =>
    rcases List.mem_cons.mp ho with rfl | ho
    · rfl
    · simp [occurrences_inner body rfl o ho] at hc
  | _ => exact List.mem_singleton.mp ho

end

/-! ## Defined functions -/

def Problem.defines (p : Problem) (ident : Identifier) : Bool :=
  ident.indices.isEmpty && p.functions.values.any (·.name == ident.name)

theorem calls_eq_defines {p : Problem} {n : Nat} {indicators : Table SmtSort}
    (h : (declareIndicators p.functions.values).outcome = .ok indicators) :
    Signature.calls ⟨n, indicators⟩ = p.defines := by
  funext ident
  have hnames := declareIndicators_eq_ok.mp h
  have hkeys : indicators.has ident.name = p.functions.values.any (·.name == ident.name) := by
    rw [Bool.eq_iff_iff, Table.has_iff_mem_keys, List.any_eq_true]
    constructor
    · intro hmem
      obtain ⟨i, hi, hname⟩ := List.mem_map.mp hmem
      obtain ⟨f, hf, hfi, -⟩ := exists_of_forall₂ hnames hi
      exact ⟨f, hf, by rw [← hfi, hname, beq_self_eq_true]⟩
    · rintro ⟨f, hf, hname⟩
      obtain ⟨i, hi, hfi, -⟩ := exists_of_forall₂ hnames.flip hf
      exact List.mem_map.mpr ⟨i, hi, hfi.trans (beq_iff_eq.mp hname)⟩
  rw [Signature.calls, hkeys, Problem.defines]

/-! ## Names in scope -/

theorem Table.get?_ofEntries {α : Type} (entries : List (String × α)) (x : String) :
    (ofEntries entries).get? x = (entries.reverse.find? (·.1 = x)).map Prod.snd := by
  rw [(records_ofEntries entries).value, ← List.head?_filter, List.filter_reverse,
    List.head?_reverse]

theorem Table.mem_of_get?_ofEntries {α : Type} {entries : List (String × α)} {x : String} {a : α}
    (h : (ofEntries entries).get? x = some a) : (x, a) ∈ entries := by
  rw [get?_ofEntries, Option.map_eq_some_iff] at h
  obtain ⟨⟨y, b⟩, hfind, rfl⟩ := h
  obtain rfl : y = x := by simpa using List.find?_some hfind
  exact List.mem_reverse.mp (List.mem_of_find?_eq_some hfind)

theorem Signature.witnesses_entries {g : Signature} {xs : List TypedVar} {next : Nat}
    {r : List Const × Table (List Expr) × Nat} (h : g.witnesses next xs = .ok r) :
    List.Forall₂ (fun v entry => ∃ cs, IsCopyVector g.count true v cs ∧
      entry = (v.name, cs.map .const)) xs r.2.1 := by
  induction xs generalizing next r with
  | nil =>
    cases h
    exact .nil
  | cons v xs ih =>
    obtain ⟨s, hs, h⟩ := bind_eq_ok.mp h
    obtain ⟨r', hr, h⟩ := bind_eq_ok.mp h
    cases h
    exact .cons ⟨_, isCopyVector_witness (sortOf_eq_ok.mp hs), rfl⟩ (ih hr)

end Realizability
