import Realizability.Encoding.Script
import Realizability.Proofs.Encoding.Correctness
import Realizability.Proofs.Script.Formula
import Realizability.Proofs.Script.Line

/-!
# The script of an encoding

A script sets the logic, declares the indicators and asserts the formulas, with comments between
the clauses of one function and the next. Names are written into declarations and comments, so
these lines decide whether the script says what the encoding says.
-/

namespace Realizability

open Script

namespace Script

/-! ## Commands -/

theorem writes_setLogic {logic : String} (h : Spells logic [.atom (.symbol logic)]) :
    Writes ("(set-logic " ++ logic ++ ")") (Command.setLogic logic).expr := by
  have hlist : "(set-logic " ++ logic ++ ")" = writtenList ["set-logic", logic] := by
    simp [writtenList, ← String.append_assoc]
  rw [hlist]
  exact Writes.list (.cons (by decide) (.cons h .nil))

theorem writes_assertion {write : Expr → String} {φ : Expr} {x : SExpr} (h : Writes (write φ) x) :
    Writes (Encoding.assertion write φ) (Command.assert x).expr := by
  have hlist : Encoding.assertion write φ = writtenList ["assert", write φ] := by
    simp [Encoding.assertion, writtenList, ← String.append_assoc]
  rw [hlist]
  exact Writes.list (.cons (by decide) (.cons h .nil))

/-! ## Declarations -/

def declared (a : Atom) (args : List SmtSort) (result : SmtSort) : SExpr :=
  .list [.atom (.reserved "declare-fun"), .atom a, .list (args.map sortExpr), sortExpr result]

theorem declared_tokens_inj {a b : Atom} {args : List SmtSort} {result : SmtSort} :
    (declared a args result).tokens = (declared b args result).tokens ↔ a = b := by
  simp [declared, SExpr.tokens]

theorem length_declared_tokens {a b : Atom} {args : List SmtSort} {result : SmtSort} :
    (declared a args result).tokens.length = (declared b args result).tokens.length := by
  simp [declared, SExpr.tokens]

theorem writes_declared {symbol : String} {a : Atom} (h : Spells symbol [.atom a])
    (args : List SmtSort) (result : SmtSort) :
    Writes ("(declare-fun " ++ symbol ++ " " ++ writtenList (args.map SmtSort.text) ++ " " ++
      result.text ++ ")") (declared a args result) := by
  have hlist (parts result : String) : "(declare-fun " ++ symbol ++ " " ++ parts ++ " " ++ result ++
      ")" = writtenList ["declare-fun", symbol, parts, result] := by
    simp [writtenList, ← String.append_assoc]
  have hargs : List.Forall₂ Writes (args.map SmtSort.text) (args.map sortExpr) := by
    rw [List.forall₂_map_left_iff, List.forall₂_map_right_iff, List.forall₂_same]
    exact fun sort _ => writes_sort sort
  rw [hlist]
  exact Writes.list (.cons (by decide) (.cons h
    (.cons (Writes.list hargs) (.cons (writes_sort result) .nil))))

end Script

/-! ## Encodings -/

namespace Encoding

variable {write : Expr → String} {meaning : Expr → SExpr} {logic : String} {e : Encoding}

def declareIndicator (e : Encoding) (name : String) (sort : SmtSort) : Command :=
  .declareFun name (List.replicate e.examples.size sort) .bool

/-- A declaration has the tokens of its command up to the atom for the name, which is the name
itself if that is kept. -/
theorem declaration_read {name : String} (hq : Quotable name) (sort : SmtSort) :
    Legible (e.declaration name sort) [e.declareIndicator name sort] ∧
      (readScript (e.declaration name sort) = some [e.declareIndicator name sort] ↔ Kept name) := by
  obtain ⟨a, ha, hkept⟩ := spells_writtenSymbol hq
  have htokens := (writes_declared ha (List.replicate e.examples.size sort) .bool).tokens
  rw [List.map_replicate] at htokens
  change tokens (e.declaration name sort) = _ at htokens
  have hcommand : commandTokens [e.declareIndicator name sort] =
      (declared (.symbol name) (List.replicate e.examples.size sort) .bool).tokens := by
    simp [commandTokens, declareIndicator, Command.expr, declared]
  refine ⟨⟨not_leavesOpen_of_tokens htokens, fun ts hts => ?_⟩, ?_⟩
  · rw [htokens] at hts
    cases hts
    rw [hcommand]
    exact Nat.le_of_eq length_declared_tokens
  · rw [readScript_eq_some, ← commandTokens, htokens, hcommand, Option.some_inj,
      declared_tokens_inj, hkept]

/-- The commands that an encoding stands for, formulas given by their meaning. -/
def commands (meaning : Expr → SExpr) (logic : String) (e : Encoding) : List Command :=
  (if logic.isEmpty then [] else [.setLogic logic]) ++
  e.indicators.map (fun i => e.declareIndicator i.1 i.2) ++
  e.formulas.map (fun φ => .assert (meaning φ)) ++ [.checkSat]

def commented (e : Encoding) : List String := e.clauses.keys ++ [e.target]

/-- The lines of a script with the commands that they stand for. -/
def statements (write : Expr → String) (meaning : Expr → SExpr) (logic : String) (e : Encoding) :
    List (String × List Command) :=
  (if logic.isEmpty then [] else [("(set-logic " ++ logic ++ ")", [.setLogic logic])]) ++
  e.indicators.map (fun i => (e.declaration i.1 i.2, [e.declareIndicator i.1 i.2])) ++
  e.clauses.flatMap (fun c => ("; " ++ c.1, []) ::
    c.2.map fun φ => (assertion write φ, [.assert (meaning φ)])) ++
  [("; query for " ++ e.target, []), (assertion write e.query, [.assert (meaning e.query)]),
    ("(check-sat)", [.checkSat])]

theorem statements_lines : (e.statements write meaning logic).map Prod.fst =
    e.scriptLines write logic := by
  by_cases h : logic.isEmpty <;>
    simp [statements, scriptLines, h, List.map_flatMap, Function.comp_def]

theorem statements_commands : ((e.statements write meaning logic).map Prod.snd).flatten =
    e.commands meaning logic := by
  have hsingle {α : Type} (f : α → Command) (as : List α) :
      (as.map fun a => [f a]).flatten = as.map f := by
    rw [← List.flatMap_def, List.map_eq_flatMap]
  have hclauses : (e.clauses.flatMap fun c => ([] : List Command) ::
      c.2.map fun φ => [.assert (meaning φ)]).flatten =
        e.clauses.values.flatten.map fun φ => .assert (meaning φ) := by
    induction e.clauses with
    | nil => rfl
    | cons c cs ih => simp_all [Table.values]
  by_cases h : logic.isEmpty <;>
    simp [statements, commands, formulas, h, List.map_flatMap, Function.comp_def, hclauses, hsingle]

theorem forall_statements {P : String → List Command → Prop} :
    (∀ l ∈ e.statements write meaning logic, P l.1 l.2) ↔
      (logic ≠ "" → P ("(set-logic " ++ logic ++ ")") [.setLogic logic]) ∧
      (∀ i ∈ e.indicators, P (e.declaration i.1 i.2) [e.declareIndicator i.1 i.2]) ∧
      (∀ name ∈ e.clauses.keys, P ("; " ++ name) []) ∧ P ("; query for " ++ e.target) [] ∧
      (∀ φ ∈ e.formulas, P (assertion write φ) [.assert (meaning φ)]) ∧
      P "(check-sat)" [.checkSat] := by
  have hlogic : (∀ l ∈ (if logic.isEmpty then [] else
      [("(set-logic " ++ logic ++ ")", [.setLogic logic])] : List (String × List Command)),
        P l.1 l.2) ↔ (logic ≠ "" → P ("(set-logic " ++ logic ++ ")") [.setLogic logic]) := by
    by_cases h : logic = "" <;> simp [h]
  simp only [statements, formulas, List.forall_mem_append, hlogic, List.forall_mem_map,
    List.forall_mem_flatMap, List.forall_mem_flatten, List.forall_mem_cons, Table.keys,
    Table.values, forall_and]
  simp only [List.not_mem_nil, false_implies, implies_true, and_true]
  tauto

section
variable (hlogic : logic ≠ "" → Spells logic [.atom (.symbol logic)])
  (hwrite : ∀ φ ∈ e.formulas, Writes (write φ) (meaning φ))
include hlogic hwrite

theorem legible_statements (hnames : ∀ name ∈ e.indicators.keys, Quotable name)
    (hopen : ∀ name ∈ e.commented, ¬ LeavesOpen ("; " ++ name)) :
    ∀ l ∈ e.statements write meaning logic, Legible l.1 l.2 := by
  rw [commented, List.forall_mem_append, List.forall_mem_singleton] at hopen
  refine forall_statements.mpr ⟨fun h => ?_, fun i hi => ?_, fun name hn =>
    legible_comment (hopen.1 name hn), legible_queryComment hopen.2, fun φ hφ => ?_, ?_⟩
  · exact .of_readScript (readScript_of_writes (writes_setLogic (hlogic h)))
  · exact (declaration_read (hnames i.1 (List.mem_map_of_mem hi)) i.2).1
  · exact .of_readScript (readScript_of_writes (writes_assertion (hwrite φ hφ)))
  · exact .of_readScript (readScript_of_writes (c := .checkSat) (by decide))

theorem readScript_script_iff_lines (hnames : ∀ name ∈ e.indicators.keys, Quotable name)
    (hopen : ∀ name ∈ e.commented, ¬ LeavesOpen ("; " ++ name)) :
    readScript (e.script write logic) = some (e.commands meaning logic) ↔
      (∀ i ∈ e.indicators, readScript (e.declaration i.1 i.2) = some [e.declareIndicator i.1 i.2]) ∧
      ∀ name ∈ e.commented, readScript ("; " ++ name) = some [] := by
  have hset (h : logic ≠ "") := readScript_of_writes (writes_setLogic (hlogic h))
  have hassert (φ : Expr) (h : φ ∈ e.formulas) :=
    readScript_of_writes (writes_assertion (hwrite φ h))
  have hcheck : readScript "(check-sat)" = some [.checkSat] := readScript_of_writes (by decide)
  have hne : e.statements write meaning logic ≠ [] := by simp [statements]
  rw [script, ← statements_lines, ← statements_commands,
    readScript_lines_iff hne (legible_statements hlogic hwrite hnames hopen),
    forall_statements (P := fun l cs => readScript l = some cs), readScript_queryComment,
    commented, List.forall_mem_append, List.forall_mem_singleton]
  exact ⟨fun ⟨_, hi, hc, ht, _⟩ => ⟨hi, hc, ht⟩, fun ⟨hi, hc, ht⟩ =>
    ⟨hset, hi, hc, ht, hassert, hcheck⟩⟩

end

/-- The comments of a script leave nothing open and the script is read as the commands of the
encoding, if and only if the names that it declares are kept and the names in its comments are
comments to their ends. -/
theorem readScript_script_iff (hnames : ∀ name ∈ e.indicators.keys, Quotable name)
    (hlogic : logic ≠ "" → Spells logic [.atom (.symbol logic)])
    (hwrite : ∀ φ ∈ e.formulas, Writes (write φ) (meaning φ)) :
    (∀ name ∈ e.commented, ¬ LeavesOpen ("; " ++ name)) ∧
        readScript (e.script write logic) = some (e.commands meaning logic) ↔
      (∀ name ∈ e.indicators.keys, Kept name) ∧
        ∀ name ∈ e.commented, readScript ("; " ++ name) = some [] := by
  have hkept : (∀ i ∈ e.indicators, readScript (e.declaration i.1 i.2) =
      some [e.declareIndicator i.1 i.2]) ↔ ∀ name ∈ e.indicators.keys, Kept name := by
    rw [Table.keys, List.forall_mem_map]
    exact forall₂_congr fun i hi => (declaration_read (hnames i.1 (List.mem_map_of_mem hi)) i.2).2
  constructor
  · rintro ⟨hopen, h⟩
    rwa [readScript_script_iff_lines hlogic hwrite hnames hopen, hkept] at h
  · intro h
    -- a comment that leaves something open is not read at all
    have hopen (name : String) (hn : name ∈ e.commented) :=
      (Legible.of_readScript (h.2 name hn)).closed
    rw [readScript_script_iff_lines hlogic hwrite hnames hopen, hkept]
    exact ⟨hopen, h⟩

end Encoding

/-! ## Titles of functions -/

namespace Titled

open Sums (truth integer expression equation)

def valued (title : String) (t input result : Term) : Term :=
  .app ⟨title, []⟩ truth [(expression, t), (integer, input), (integer, result)]

/-- A function with the value of its input. -/
def identity (title : String) : Function where
  name := title
  args := [⟨"t", expression⟩, ⟨"x", integer⟩, ⟨"r", integer⟩]
  body := .matching (.var "t" expression) [⟨some "$x", [], equation "r" (.var "x" integer)⟩]

def grammar : Nonterminal := ⟨"Start", "E", [⟨"$x", [], []⟩]⟩

def problem (title : String) : Problem where
  targetName := "f"
  target := grammar
  nonterminals := [grammar]
  constraints := []
  metadata := []
  datatypes := []
  functions := [(title, identity title)]

def row (title : String) : Term :=
  valued title (.app ⟨"f", []⟩ expression []) (.number 2) (.number 2)

def entry (base : String) : Const := ⟨base, none, .int⟩

def encoding (title : String) : Encoding where
  indicators := [(title, .int)]
  clauses := [(title, [.forAll [entry "0_r"] (.app .implies [
    .app .eq [.int 2, .const (entry "0_r")], .call title [.const (entry "0_r")]])])]
  query := .forAll [entry "0_res"] (.app .implies [.call title [.const (entry "0_res")],
    .app .not [.app .eq [.int 2, .const (entry "0_res")]]])
  examples := ⟨some title, [[.int 2]], [.int 2]⟩
  target := title

theorem symbols_formulas {title name : String} {φ : Expr} (hφ : φ ∈ (encoding title).formulas)
    (h : name ∈ φ.symbols) : name ∈ [title, "0_r", "0_res"] := by
  simp only [Encoding.formulas, encoding, Table.values, List.map_cons, List.map_nil,
    List.flatten_cons, List.flatten_nil, List.append_nil, List.mem_append,
    List.mem_singleton] at hφ
  rcases hφ with rfl | rfl <;>
    simp [Expr.symbols, Expr.symbolsOf, entry, Const.name] at h ⊢ <;> tauto

theorem writes_formulas {title : String} (h : Quotable title) :
    ∀ φ ∈ (encoding title).formulas, Writes φ.written (exprOf φ.written) := by
  have hnames : ∀ name ∈ [title, "0_r", "0_res"], Quotable name :=
    List.forall_mem_cons.mpr ⟨h, by decide⟩
  exact fun φ hφ => (φ.balanced_written fun name hn => hnames name (symbols_formulas hφ hn)).writes

theorem forall_commented {title : String} {P : String → Prop} (h : P title) :
    ∀ name ∈ (encoding title).commented, P name := by
  simpa [encoding, Encoding.commented, Table.keys] using h

/-- A title that has to stand between bars. -/
theorem title_read :
    ((problem "E; Sem").encode (some [row "E; Sem"])).outcome = .ok (encoding "E; Sem") ∧
    (∀ name ∈ (encoding "E; Sem").commented, ¬ LeavesOpen ("; " ++ name)) ∧
      readScript ((encoding "E; Sem").script Expr.written "HORN") =
        some ((encoding "E; Sem").commands (fun φ => exprOf φ.written) "HORN") := by
  have hquotable : ∀ name ∈ (encoding "E; Sem").indicators.keys, Quotable name := by decide
  have hlogic : Spells "HORN" [.atom (.symbol "HORN")] := by decide
  have hkept : Kept "E; Sem" := kept_of_getLast? (by decide) (by decide)
  refine ⟨rfl, (Encoding.readScript_script_iff hquotable (fun _ => hlogic)
    (writes_formulas (by decide))).mpr ⟨?_, forall_commented ?_⟩⟩
  · simpa [encoding, Table.keys] using hkept
  · rw [readScript_eq_some, tokens_comment (by decide) (by decide)]
    rfl

/-- A title that is a reserved word makes a script that is not read as the encoding. -/
theorem reserved_not_read :
    ((problem "let").encode (some [row "let"])).outcome = .ok (encoding "let") ∧
    (∀ name ∈ (encoding "let").indicators.keys, Quotable name) ∧
    (∀ φ ∈ (encoding "let").formulas, Writes φ.written (exprOf φ.written)) ∧
      readScript ((encoding "let").script Expr.written "HORN") ≠
        some ((encoding "let").commands (fun φ => exprOf φ.written) "HORN") := by
  have hquotable : ∀ name ∈ (encoding "let").indicators.keys, Quotable name := by decide
  have hlogic : Spells "HORN" [.atom (.symbol "HORN")] := by decide
  have hformulas : ∀ φ ∈ (encoding "let").formulas, Writes φ.written (exprOf φ.written) :=
    writes_formulas (by decide)
  have hopen : ∀ name ∈ (encoding "let").commented, ¬ LeavesOpen ("; " ++ name) :=
    forall_commented (not_leavesOpen (by decide) (by decide))
  refine ⟨rfl, hquotable, hformulas, fun h => ?_⟩
  have hdeclared := ((Encoding.readScript_script_iff_lines (fun _ => hlogic) hformulas hquotable
    hopen).mp h).1 ("let", .int) (List.mem_singleton_self _)
  have hkept := (Encoding.declaration_read (by decide) .int).2.mp hdeclared
  exact hkept.1 (by decide)

end Titled

end Realizability
