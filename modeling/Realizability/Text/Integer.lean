import Realizability.Text.Blank
import Realizability.Text.Digit

/-!
# Integers in text

An integer is written with an optional sign and decimal digits of any script, single underscores
between digits, and blanks around it. The separators U+001C to U+001F are not among those blanks.
-/

namespace Realizability.Text

def isPadding (c : Char) : Bool := isBlank c && !(0x1c ≤ c.toNat && c.toNat ≤ 0x1f)

def unpadded (cs : List Char) : List Char :=
  ((cs.dropWhile isPadding).reverse.dropWhile isPadding).reverse

/-- The value of digits behind a digit; an underscore has to stand between two of them. -/
def moreDigits? (value : Nat) : List Char → Option Nat
  | [] => some value
  | '_' :: c :: cs => do moreDigits? (value * 10 + (← digitValue? c)) cs
  | c :: cs => do moreDigits? (value * 10 + (← digitValue? c)) cs

def natural? : List Char → Option Nat
  | [] => none
  | c :: cs => do moreDigits? (← digitValue? c) cs

def integer? (s : String) : Option Int :=
  match unpadded s.toList with
  | '-' :: cs => (natural? cs).map fun n => -(n : Int)
  | '+' :: cs => (natural? cs).map fun n => (n : Int)
  | cs => (natural? cs).map fun n => (n : Int)

end Realizability.Text
