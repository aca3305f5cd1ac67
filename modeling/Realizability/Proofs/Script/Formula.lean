import Realizability.Proofs.Script.Command

/-!
# Written formulas

Formulas are written as one expression each, whatever numbers and texts they hold, if their names
can stand between bars.
-/

namespace Realizability

namespace Script

/-- The text is one expression, with nothing behind it and nothing left open. -/
def Balanced (s : String) : Prop := ∃ x, Writes s x

def exprOf (s : String) : SExpr := ((exprs s).bind List.head?).getD (.list [])

theorem Balanced.writes {s : String} (h : Balanced s) : Writes s (exprOf s) := by
  obtain ⟨x, hx⟩ := h
  have : exprOf s = x := by simp [exprOf, hx.exprs]
  rwa [this]

theorem Balanced.list {parts : List String} (h : ∀ s ∈ parts, Balanced s) :
    Balanced (writtenList parts) := by
  obtain ⟨xs, hxs⟩ := exists_forall₂ h
  exact ⟨.list xs, Writes.list hxs⟩

theorem balanced_atom {s : String} {a : Atom} (h : Spells s [.atom a]) : Balanced s := ⟨.atom a, h⟩

theorem balanced_writtenSymbol {name : String} (h : Quotable name) :
    Balanced (writtenSymbol name) := by
  obtain ⟨a, ha, -⟩ := spells_writtenSymbol h
  exact balanced_atom ha

theorem balanced_numeral (n : Nat) : Balanced (toString n) := balanced_atom (spells_numeral n)

/-! ## Numbers -/

theorem isConstant_decimal {c : Char} {cs : List Char} (hc : c.isDigit)
    (hcs : ∀ d ∈ cs, d.isDigit) : isConstant (c :: cs ++ ['.', '0']) := by
  have hdrop : (c :: cs ++ ['.', '0']).dropWhile Char.isDigit = ['.', '0'] := by
    rw [List.dropWhile_append_of_pos (List.forall_mem_cons.mpr ⟨hc, hcs⟩)]
    rfl
  unfold isConstant
  split
  · rename_i h
    obtain rfl := (List.cons.inj h).1
    cases hc
  · rename_i h
    obtain rfl := (List.cons.inj h).1
    cases hc
  · rename_i h
    obtain rfl := (List.cons.inj h).1
    cases hc
  · rw [hdrop]
    simp [hc]

theorem balanced_decimal (n : Nat) : Balanced (toString n ++ ".0") := by
  have hd (c : Char) (hc : c ∈ (toString n).toList) := isDigit_of_mem_toString hc
  have hchars : (toString n ++ ".0").toList = (toString n).toList ++ ['.', '0'] := by
    rw [String.toList_append]
    rfl
  obtain ⟨c, cs, hcs⟩ := toString_eq_cons n
  rw [hcs] at hd hchars
  rw [List.forall_mem_cons] at hd
  have ha : atomOf (toString n ++ ".0").toList =
      some (.constant (String.ofList (c :: cs ++ ['.', '0']))) := by
    rw [hchars, List.cons_append, atomOf_of_digit hd.1, ← List.cons_append,
      isConstant_decimal hd.1 hd.2]
    simp
  refine balanced_atom (spells_word (fun d hm => ?_) ha)
  have hdot : isWordChar '.' := by decide
  have hzero : isWordChar '0' := by decide
  simp only [hchars, List.mem_append, List.mem_cons, List.not_mem_nil, or_false] at hm
  rcases hm with (rfl | hm) | rfl | rfl
  · simp [isWordChar, hd.1]
  · simp [isWordChar, hd.2 d hm]
  · exact hdot
  · exact hzero

theorem balanced_writtenInt (n : Int) : Balanced (writtenInt n) := by
  have hminus : Balanced "-" := balanced_atom (a := .symbol "-") (by decide)
  unfold writtenInt
  split
  · exact Balanced.list (List.forall_mem_cons.mpr
      ⟨hminus, List.forall_mem_singleton.mpr (balanced_numeral _)⟩)
  · exact balanced_numeral _

theorem balanced_writtenReal (q : Rat) : Balanced (writtenReal q) := by
  have hminus : Balanced "-" := balanced_atom (a := .symbol "-") (by decide)
  have hslash : Balanced "/" := balanced_atom (a := .symbol "/") (by decide)
  have hsize : Balanced (if q.den = 1 then toString q.num.natAbs ++ ".0"
      else writtenList ["/", toString q.num.natAbs ++ ".0", toString q.den ++ ".0"]) := by
    split
    · exact balanced_decimal _
    · exact Balanced.list (List.forall_mem_cons.mpr ⟨hslash, List.forall_mem_cons.mpr
        ⟨balanced_decimal _, List.forall_mem_singleton.mpr (balanced_decimal _)⟩⟩)
  show Balanced (if q.num < 0 then writtenList ["-", if q.den = 1 then _ else _]
    else if q.den = 1 then _ else _)
  by_cases h : q.num < 0
  · rw [if_pos h]
    exact Balanced.list (List.forall_mem_cons.mpr ⟨hminus, List.forall_mem_singleton.mpr hsize⟩)
  · rw [if_neg h]
    exact hsize

theorem balanced_word {s : String} (h : isSimple s.toList) : Balanced s :=
  balanced_atom (spells_simple h)

theorem balanced_value (value : Nat) : Balanced ("bv" ++ toString value) := by
  refine balanced_word ?_
  rw [String.toList_append]
  have hd (c : Char) (hc : c ∈ (toString value).toList) := isDigit_of_mem_toString hc
  simp only [String.reduceToList, List.cons_append, List.nil_append, isSimple, List.all_cons,
    Bool.and_eq_true, List.all_eq_true]
  exact ⟨rfl, rfl, fun c hc => by simp [hd c hc]⟩

/-! ## Texts -/

theorem scan_text {cs ds : List Char} (h : '"' ∉ ds) :
    scan (.text cs) ds = some (.text (cs ++ ds), []) := by
  induction ds generalizing cs with
  | nil => simp
  | cons d ds ih =>
    rw [List.mem_cons, not_or] at h
    simp [scan, Mode.next, Ne.symm h.1, ih h.2]

theorem quote_not_mem_toDigits (n : Nat) : '"' ∉ Nat.toDigits 16 n := by
  induction n using Nat.strongRecOn with
  | ind n ih =>
    rw [Nat.toDigits_eq_if (by omega)]
    split
    · simp
    · simpa using ih (n / 16) (by omega)

theorem scan_writtenCode (cs : List Char) (code : Nat) :
    ∃ ds, scan (.text cs) (writtenCode code) = some (.text ds, []) := by
  unfold writtenCode
  split
  · exact ⟨cs ++ ['"'], by simp [scan, Mode.next]⟩
  · rename_i hq
    split
    · rename_i hcode
      have hquote : ∀ n < 127, n ≠ 34 → '"' ≠ Char.ofNat n := by decide
      have hne := hquote code hcode.2.1 hq
      exact ⟨_, scan_text (by simpa using hne)⟩
    · refine ⟨_, scan_text ?_⟩
      simp [quote_not_mem_toDigits]

theorem scan_writtenCodes (cs : List Char) (codes : List Nat) :
    ∃ ds, scan (.text cs) (codes.flatMap writtenCode) = some (.text ds, []) := by
  induction codes generalizing cs with
  | nil => exact ⟨cs, rfl⟩
  | cons code codes ih =>
    obtain ⟨ds, hds⟩ := scan_writtenCode cs code
    obtain ⟨es, hes⟩ := ih ds
    refine ⟨es, ?_⟩
    rw [List.flatMap_cons, scan_append, hds, Option.bind_some, hes]
    rfl

theorem balanced_writtenText (codes : List Nat) : Balanced (writtenText codes) := by
  obtain ⟨ds, hds⟩ := scan_writtenCodes [] codes
  refine balanced_atom (a := .text (String.ofList ds)) (spells_iff.mpr
    ⟨.textEnd ds, [], _, ?_, rfl, nofun, rfl, rfl⟩)
  rw [writtenText, String.toList_ofList]
  show prepend [] (scan (.text []) (codes.flatMap writtenCode ++ ['"'])) = _
  rw [scan_append, hds]
  simp [scan, Mode.next]

end Script

open Script

/-! ## Expressions -/

namespace Expr

mutual

def symbols : Expr → List String
  | const c => [c.name]
  | call name args => name :: symbolsOf args
  | app _ args => symbolsOf args
  | forAll vars body => vars.map Const.name ++ body.symbols
  | int _ => []
  | real _ => []
  | bits .. => []
  | text _ => []

def symbolsOf : List Expr → List String
  | [] => []
  | e :: es => e.symbols ++ symbolsOf es

end

end Expr

theorem Op.isSimple_symbol (op : Op) : isSimple op.symbol.1.toList := by
  cases op with
  | extract high low => exact (by decide : isSimple "extract".toList)
  | zeroExtend n => exact (by decide : isSimple "zero_extend".toList)
  | signExtend n => exact (by decide : isSimple "sign_extend".toList)
  | _ => rfl

theorem Op.balanced_written (op : Op) : Balanced op.written := by
  have hname := balanced_word op.isSimple_symbol
  unfold written
  split
  · rename_i h
    rwa [h] at hname
  · rename_i name indices _ h
    rw [h] at hname
    have hindices : ∀ s ∈ indices.map toString, Balanced s :=
      List.forall_mem_map.mpr fun n _ => balanced_numeral n
    exact Balanced.list (List.forall_mem_cons.mpr ⟨balanced_atom (a := .reserved "_") (by decide),
      List.forall_mem_cons.mpr ⟨hname, hindices⟩⟩)

mutual

theorem Expr.balanced_written : ∀ (φ : Expr), (∀ name ∈ φ.symbols, Quotable name) →
    Balanced φ.written
  | .int n, _ => balanced_writtenInt n
  | .real q, _ => balanced_writtenReal q
  | .bits width value, _ => Balanced.list (List.forall_mem_cons.mpr
      ⟨balanced_atom (a := .reserved "_") (by decide), List.forall_mem_cons.mpr
        ⟨balanced_value value, List.forall_mem_singleton.mpr (balanced_numeral width)⟩⟩)
  | .text codes, _ => balanced_writtenText codes
  | .const c, h => balanced_writtenSymbol (h c.name (by simp [Expr.symbols]))
  | .call name [], h => balanced_writtenSymbol (h name (by simp [Expr.symbols]))
  | .call name (e :: es), h => by
      have hname := balanced_writtenSymbol (h name (by simp [Expr.symbols]))
      have hargs := balanced_writtenArgs (e :: es) fun n hn => h n (by simp [Expr.symbols, hn])
      exact Balanced.list (List.forall_mem_cons.mpr ⟨hname, hargs⟩)
  | .app op [], _ => op.balanced_written
  | .app op (e :: es), h => by
      have hargs := balanced_writtenArgs (e :: es) fun n hn => h n (by simp [Expr.symbols, hn])
      exact Balanced.list (List.forall_mem_cons.mpr ⟨op.balanced_written, hargs⟩)
  | .forAll vars body, h => by
      have hbody := body.balanced_written fun n hn => h n (by simp [Expr.symbols, hn])
      have hvars : ∀ s ∈ vars.map (fun c => writtenList [c.written, c.sort.text]), Balanced s := by
        refine List.forall_mem_map.mpr fun c hc => Balanced.list (List.forall_mem_cons.mpr
          ⟨?_, List.forall_mem_singleton.mpr ⟨_, writes_sort c.sort⟩⟩)
        refine balanced_writtenSymbol (h c.name ?_)
        rw [Expr.symbols]
        exact List.mem_append_left _ (List.mem_map_of_mem hc)
      exact Balanced.list (List.forall_mem_cons.mpr
        ⟨balanced_atom (a := .reserved "forall") (by decide), List.forall_mem_cons.mpr
          ⟨Balanced.list hvars, List.forall_mem_singleton.mpr hbody⟩⟩)

theorem balanced_writtenArgs : ∀ (es : List Expr), (∀ name ∈ Expr.symbolsOf es, Quotable name) →
    ∀ s ∈ writtenArgs es, Balanced s
  | [], _ => by simp [writtenArgs]
  | e :: es, h => by
      rw [writtenArgs, List.forall_mem_cons]
      exact ⟨e.balanced_written fun n hn => h n (by simp [Expr.symbolsOf, hn]),
        balanced_writtenArgs es fun n hn => h n (by simp [Expr.symbolsOf, hn])⟩

end

end Realizability
