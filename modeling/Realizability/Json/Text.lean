import Realizability.Json.Basic
import Realizability.Text.Digit
import Realizability.Text.Half

/-!
# Json text

Reads a value from text. A fault names the place where reading stopped, by line and column and by
the count of characters before it. Every scanner hands back the rest of the text together with the
fact that it is shorter, which is what makes the reader end.
-/

namespace Realizability.Json

inductive TextFault
  | expectingValue
  | expectingComma
  | expectingColon
  | expectingName
  | extraData
  | unterminatedString
  | controlCharacter
  | badEscape
  | badUnicodeEscape
  | byteOrderMark
  deriving DecidableEq, Repr

def TextFault.message : TextFault → String
  | expectingValue => "Expecting value"
  | expectingComma => "Expecting ',' delimiter"
  | expectingColon => "Expecting ':' delimiter"
  | expectingName => "Expecting property name enclosed in double quotes"
  | extraData => "Extra data"
  | unterminatedString => "Unterminated string starting at"
  | controlCharacter => "Invalid control character at"
  | badEscape => "Invalid \\escape"
  | badUnicodeEscape => "Invalid \\uXXXX escape"
  | byteOrderMark => "Unexpected UTF-8 BOM (decode using utf-8-sig)"

/-- A fault and the number of characters before it; lines and columns count from one. -/
structure TextError where
  fault : TextFault
  line : Nat
  column : Nat
  offset : Nat
  deriving DecidableEq, Repr

def TextError.message (e : TextError) : String :=
  e.fault.message ++ ": line " ++ toString e.line ++ " column " ++ toString e.column ++
    " (char " ++ toString e.offset ++ ")"

/-- A fault and what was left of the text when it was found. -/
structure Stop where
  fault : TextFault
  rest : List Char

def TextError.ofStop (text : List Char) (s : Stop) : TextError :=
  let offset := text.length - s.rest.length
  let before := text.take offset
  { fault := s.fault
    line := before.count '\n' + 1
    column := (before.reverse.takeWhile (· != '\n')).length + 1
    offset := offset }

/-- What is left of `s` behind something that was read from it. -/
abbrev Rest (s : List Char) := { r : List Char // r.length < s.length }

def Rest.widen {t s : List Char} (rest : Rest t) (h : t.length ≤ s.length) : Rest s :=
  ⟨rest.1, Nat.lt_of_lt_of_le rest.2 h⟩

/-! ## Blanks, words and numbers -/

def isSpace (c : Char) : Bool := c == ' ' || c == '\t' || c == '\n' || c == '\r'

def skip (s : List Char) : List Char := s.dropWhile isSpace

theorem length_skip_le (s : List Char) : (skip s).length ≤ s.length :=
  (List.dropWhile_sublist isSpace).length_le

theorem length_lt_of_skip {c : Char} {s r : List Char} (h : skip s = c :: r) :
    r.length < s.length := by
  have hs := length_skip_le s
  rw [h] at hs
  exact hs

theorem length_skip_lt {c : Char} {s r : List Char} (h : skip s = c :: r) :
    (skip r).length < s.length :=
  Nat.lt_of_le_of_lt (length_skip_le r) (length_lt_of_skip h)

theorem length_drop_le (n : Nat) (s : List Char) : (s.drop n).length ≤ s.length :=
  (List.drop_sublist n s).length_le

def words : List (List Char × Json) :=
  [("null".toList, .null), ("true".toList, .bool true), ("false".toList, .bool false),
    ("NaN".toList, .decimal .nan), ("Infinity".toList, .decimal (.infinite false)),
    ("-Infinity".toList, .decimal (.infinite true))]

def word? (s : List Char) : Option (Json × Nat) :=
  (words.find? fun w => w.1.isPrefixOf s).map fun w => (w.2, w.1.length)

def digits (s : List Char) : List Char := s.takeWhile Char.isDigit

def digitsValue (ds : List Char) : Nat := ds.foldl (fun n d => 10 * n + (d.toNat - 48)) 0

def fraction (s : List Char) : List Char :=
  match s with
  | '.' :: r => digits r
  | _ => []

/-- Sign, digits and length of an exponent, if it has at least one digit. -/
def exponent? (s : List Char) : Option (Bool × List Char × Nat) :=
  match s with
  | e :: r =>
    if e = 'e' ∨ e = 'E' then
      match r with
      | '-' :: r => let ds := digits r; if ds.isEmpty then none else some (true, ds, ds.length + 2)
      | '+' :: r => let ds := digits r; if ds.isEmpty then none else some (false, ds, ds.length + 2)
      | r => let ds := digits r; if ds.isEmpty then none else some (false, ds, ds.length + 1)
    else none
  | [] => none

/-- The longest number at the front and its length; a leading zero stands alone. -/
def number? (s : List Char) : Option (Json × Nat) :=
  let negative := s.head? == some '-'
  let r := if negative then s.tail else s
  let whole := match r with
    | '0' :: _ => ['0']
    | r => digits r
  if whole.isEmpty then none else
    let r := r.drop whole.length
    let places := fraction r
    let point := if places.isEmpty then 0 else places.length + 1
    let power := exponent? (r.drop point)
    let length := (if negative then 1 else 0) + whole.length + point
    match places, power with
    | [], none =>
      let n := digitsValue whole
      some (.int (if negative then -n else n), length)
    | places, power =>
      let (down, ds, size) := power.getD (false, [], 0)
      let e : Int := digitsValue ds
      let value := Binary64.ofDecimal negative (digitsValue (whole ++ places))
        ((if down then -e else e) - places.length)
      some (.decimal value, length + size)

/-! ## Strings -/

def hexQuad? (a b c d : Char) : Option Nat := do
  let a ← Text.hexValue? a
  let b ← Text.hexValue? b
  let c ← Text.hexValue? c
  let d ← Text.hexValue? d
  return ((a * 16 + b) * 16 + c) * 16 + d

def isHighSurrogate (n : Nat) : Bool := 0xd800 ≤ n && n < 0xdc00
def isLowSurrogate (n : Nat) : Bool := 0xdc00 ≤ n && n < 0xe000

def joinSurrogates (high low : Nat) : Nat := 0x10000 + (high - 0xd800) * 0x400 + (low - 0xdc00)

def charOf (n : Nat) : Char :=
  if isHighSurrogate n || isLowSurrogate n then Text.half n else Char.ofNat n

def shortEscape? : Char → Option Char
  | '"' => some '"'
  | '\\' => some '\\'
  | '/' => some '/'
  | 'b' => some (Char.ofNat 8)
  | 'f' => some (Char.ofNat 12)
  | 'n' => some '\n'
  | 'r' => some '\r'
  | 't' => some '\t'
  | _ => none

/-- The code point of a `\u` escape whose digits lead `s`, and how many characters it takes. A
character has to follow the digits; a pair of escapes is joined if it is a surrogate pair. -/
def unicodeEscape (s : List Char) : Except Stop (Char × Nat) :=
  match s with
  | a :: b :: c :: d :: e :: r =>
    match hexQuad? a b c d with
    | none => .error ⟨.badUnicodeEscape, 'u' :: s⟩
    | some high =>
      if isHighSurrogate high && e == '\\' then
        match r with
        | 'u' :: a :: b :: c :: d :: _ :: _ =>
          match hexQuad? a b c d with
          | none => .error ⟨.badUnicodeEscape, r⟩
          | some low =>
            if isLowSurrogate low then .ok (charOf (joinSurrogates high low), 10)
            else .ok (charOf high, 4)
        | _ => .ok (charOf high, 4)
      else .ok (charOf high, 4)
  | _ => .error ⟨.badUnicodeEscape, 'u' :: s⟩

/-- The string whose first character leads `s`, behind the quote that leads `start`. -/
def stringBody (start s : List Char) : Except Stop (List Char × Rest s) :=
  match s with
  | [] => .error ⟨.unterminatedString, start⟩
  | '"' :: r => .ok ([], ⟨r, Nat.lt_succ_self _⟩)
  | '\\' :: [] => .error ⟨.unterminatedString, start⟩
  | '\\' :: 'u' :: r => do
    let (c, n) ← unicodeEscape r
    let (cs, rest) ← stringBody start (r.drop n)
    return (c :: cs, rest.widen (Nat.le_succ_of_le (Nat.le_succ_of_le (length_drop_le n r))))
  | '\\' :: e :: r =>
    match shortEscape? e with
    | none => .error ⟨.badEscape, s⟩
    | some c => do
      let (cs, rest) ← stringBody start r
      return (c :: cs, rest.widen (Nat.le_add_right _ 2))
  | c :: r =>
    if c.toNat < 0x20 then .error ⟨.controlCharacter, s⟩ else do
      let (cs, rest) ← stringBody start r
      return (c :: cs, rest.widen (Nat.le_succ _))
termination_by s.length

/-! ## Values -/

mutual

def value (s : List Char) : Except Stop (Json × Rest s) :=
  match s with
  | [] => .error ⟨.expectingValue, []⟩
  | '"' :: r => do
    let (cs, rest) ← stringBody ('"' :: r) r
    return (.string (String.ofList cs), rest.widen (Nat.le_succ _))
  | '[' :: r =>
    match h : skip r with
    | ']' :: r' => .ok (.array [], ⟨r', Nat.lt_succ_of_lt (length_lt_of_skip h)⟩)
    | _ => do
      let (vs, rest) ← items (skip r)
      return (.array vs, rest.widen (Nat.le_succ_of_le (length_skip_le r)))
  | '{' :: r =>
    match h : skip r with
    | '}' :: r' => .ok (.object [], ⟨r', Nat.lt_succ_of_lt (length_lt_of_skip h)⟩)
    | _ => do
      let (ms, rest) ← members (skip r)
      return (.object (Table.ofEntries ms), rest.widen (Nat.le_succ_of_le (length_skip_le r)))
  | c :: r =>
    match word? (c :: r) <|> number? (c :: r) with
    | some (v, n) => .ok (v, ⟨r.drop (n - 1), Nat.lt_succ_of_le (length_drop_le _ r)⟩)
    | none => .error ⟨.expectingValue, c :: r⟩
termination_by 2 * s.length
decreasing_by
  all_goals
    have := length_skip_le r
    simp only [List.length_cons]
    omega

def items (s : List Char) : Except Stop (List Json × Rest s) := do
  let (v, rest) ← value s
  match h : skip rest.1 with
  | ']' :: r => return ([v], ⟨r, Nat.lt_trans (length_lt_of_skip h) rest.2⟩)
  | ',' :: r =>
    have hr := Nat.lt_trans (length_skip_lt h) rest.2
    let (vs, rest) ← items (skip r)
    return (v :: vs, rest.widen (Nat.le_of_lt hr))
  | r => .error ⟨.expectingComma, r⟩
termination_by 2 * s.length + 1
decreasing_by
  · exact Nat.lt_succ_self _
  · omega

def members (s : List Char) : Except Stop (List (String × Json) × Rest s) :=
  match s with
  | '"' :: r => do
    let (cs, rest) ← stringBody ('"' :: r) r
    match h : skip rest.1 with
    | ':' :: r₁ =>
      have h₁ := Nat.lt_succ_of_lt (Nat.lt_trans (length_skip_lt h) rest.2)
      let (v, rest) ← value (skip r₁)
      have hv := Nat.lt_trans rest.2 h₁
      match h' : skip rest.1 with
      | '}' :: r₂ =>
        return ([(String.ofList cs, v)], ⟨r₂, Nat.lt_trans (length_lt_of_skip h') hv⟩)
      | ',' :: r₂ =>
        have h₂ := Nat.lt_trans (length_skip_lt h') hv
        let (ms, rest) ← members (skip r₂)
        return ((String.ofList cs, v) :: ms, rest.widen (Nat.le_of_lt h₂))
      | r₂ => .error ⟨.expectingComma, r₂⟩
    | r₁ => .error ⟨.expectingColon, r₁⟩
  | s => .error ⟨.expectingName, s⟩
termination_by 2 * s.length + 1
decreasing_by
  all_goals
    simp only [List.length_cons]
    omega

end

def ofChars (s : List Char) : Except TextError Json :=
  let outcome : Except Stop Json :=
    if s.head? = some (Char.ofNat 0xfeff) then .error ⟨.byteOrderMark, s⟩ else do
      let (v, rest) ← value (skip s)
      match skip rest.1 with
      | [] => return v
      | r => .error ⟨.extraData, r⟩
  outcome.mapError (TextError.ofStop s)

/-- The value that a text holds, with nothing but blanks around it. -/
def ofText (text : String) : Except TextError Json := ofChars text.toList

end Realizability.Json
