import Realizability.Text.Half
import Realizability.Text.Printable

/-!
# Quoted text

A text is shown between single quotes, or between double quotes if it holds single quotes only.
The quote and the backslash are escaped, and so is every character that does not print. A text that
is written to a stream stands as it is, which a strict stream refuses where it holds a half of a
surrogate pair.
-/

namespace Realizability.Text

def hexDigit (n : Nat) : Char :=
  if n < 10 then Char.ofNat (48 + n) else Char.ofNat (87 + n)

/-- The last `width` hexadecimal digits of `n`. -/
def hex : Nat → Nat → List Char
  | 0, _ => []
  | width + 1, n => hex width (n / 16) ++ [hexDigit (n % 16)]

def escape (mark : Char) (c : Char) : List Char :=
  if c = mark ∨ c = '\\' then ['\\', c]
  else if c = '\t' then ['\\', 't']
  else if c = '\n' then ['\\', 'n']
  else if c = '\r' then ['\\', 'r']
  else if isPrintable c then [c]
  else if codeOf c < 0x100 then '\\' :: 'x' :: hex 2 (codeOf c)
  else if codeOf c < 0x10000 then '\\' :: 'u' :: hex 4 (codeOf c)
  else '\\' :: 'U' :: hex 8 (codeOf c)

def quoteMark (cs : List Char) : Char :=
  if cs.contains '\'' && !cs.contains '"' then '"' else '\''

def quoted (s : String) : String :=
  let mark := quoteMark s.toList
  String.ofList (mark :: s.toList.flatMap (escape mark) ++ [mark])

def quotedList (ss : List String) : String :=
  "[" ++ ", ".intercalate (ss.map quoted) ++ "]"

/-! ## Streams -/

/-- What a strict stream says of a text that it cannot encode: it names the first halves. -/
def encodingFault? (s : String) : Option String :=
  (s.toList.findIdx? isHalf).map fun i =>
    let last := i + ((s.toList.drop i).takeWhile isHalf).length - 1
    let place :=
      if last = i then "character " ++ quoted (String.ofList ((s.toList.drop i).take 1)) ++
        " in position " ++ toString i
      else "characters in position " ++ toString i ++ "-" ++ toString last
    "'utf-8' codec can't encode " ++ place ++ ": surrogates not allowed"

/-- A text as a lenient stream takes it, where halves are escaped. -/
def backslashed (s : String) : String :=
  String.ofList (s.toList.flatMap fun c =>
    if isHalf c then '\\' :: 'u' :: hex 4 (codeOf c) else [c])

end Realizability.Text
