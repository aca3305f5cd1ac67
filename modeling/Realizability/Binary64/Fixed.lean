import Realizability.Binary64.Basic

/-!
# Numbers with a fixed count of places

The exact value is rounded to the given number of places, a half going to the even digit; a sign
stays even when only zeros are left.
-/

namespace Realizability.Binary64

def fixedDigits (places : Nat) (n : Nat) : List Char :=
  let ds := Nat.toDigits 10 n
  let ds := List.replicate (places + 1 - ds.length) '0' ++ ds
  ds.take (ds.length - places) ++ '.' :: ds.drop (ds.length - places)

def fixed (places : Nat) : Binary64 → String
  | finite s m e =>
    let p := scale m e
    let body := fixedDigits places (roundDiv (p.1 * Nat.pow 10 places) p.2)
    String.ofList (if s then '-' :: body else body)
  | infinite s => if s then "-inf" else "inf"
  | nan => "nan"

end Realizability.Binary64
