/-!
# Lines and columns

Texts as sequences of lines, which a line feed separates, and as cells of a given width.
-/

namespace Realizability.Text

/-- The text with `n` blanks in front of every line. -/
def indented (n : Nat) (s : String) : String :=
  "\n".intercalate ((s.splitOn "\n").map fun line => "".pushn ' ' n ++ line)

/-- The text of a file, where a carriage return ends a line as well, alone or with a line feed. -/
def unifyLineEnds : List Char → List Char
  | [] => []
  | '\r' :: '\n' :: cs => '\n' :: unifyLineEnds cs
  | '\r' :: cs => '\n' :: unifyLineEnds cs
  | c :: cs => c :: unifyLineEnds cs

def padLeft (width : Nat) (s : String) : String := "".pushn ' ' (width - s.length) ++ s

def padRight (width : Nat) (s : String) : String := s.pushn ' ' (width - s.length)

end Realizability.Text
