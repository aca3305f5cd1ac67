/-!
# Halves of surrogate pairs

A text may hold a half of a surrogate pair on its own. It keeps its code point but is stored as the
private-use character 0x100000 places behind it, since a character of its own it is not.
-/

namespace Realizability.Text

/-- The half of a surrogate pair with the code point `n`. -/
def half (n : Nat) : Char := Char.ofNat (0x100000 + n)

def isHalf (c : Char) : Bool := 0x10d800 ≤ c.toNat && c.toNat < 0x10e000

def codeOf (c : Char) : Nat := if isHalf c then c.toNat - 0x100000 else c.toNat

end Realizability.Text
