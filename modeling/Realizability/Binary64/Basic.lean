/-!
# Binary64 numbers

A finite number is a significand times a power of two; the significand has at most 53 bits and the
exponent is at least -1074. Every operation is exact and then rounds once, to the nearest number
and on a tie to the even significand.
-/

namespace Realizability

inductive Binary64
  | finite (negative : Bool) (significand : Nat) (exponent : Int)
  | infinite (negative : Bool)
  | nan
  deriving DecidableEq, Repr, Inhabited

namespace Binary64

def minExponent : Int := -1074
def maxExponent : Int := 971

/-- The quotient to the nearest natural number, a half going to the even neighbour. -/
def roundDiv (num den : Nat) : Nat :=
  let q := num / den
  let twice := 2 * (num % den)
  if twice < den then q else if den < twice then q + 1 else q + q % 2

def scale (n : Nat) (e : Int) : Nat × Nat :=
  if 0 ≤ e then (n * Nat.pow 2 e.toNat, 1) else (n, Nat.pow 2 (-e).toNat)

def floorLog2 (num den : Nat) : Int :=
  let e : Int := (num.log2 : Int) - den.log2
  let p := scale den e
  if p.1 ≤ num * p.2 then e else e - 1

def zero (negative : Bool) : Binary64 := finite negative 0 minExponent

/-- The number nearest to `num / den`. -/
def ofRatio (negative : Bool) (num den : Nat) : Binary64 :=
  if num = 0 then zero negative else
    let q := max (floorLog2 num den - 52) minExponent
    let p := scale den q
    let m := roundDiv (num * p.2) p.1
    let r : Nat × Int := if m = Nat.pow 2 53 then (Nat.pow 2 52, q + 1) else (m, q)
    if maxExponent < r.2 then infinite negative else finite negative r.1 r.2

def decimalLength (n : Nat) : Nat := (Nat.toDigits 10 n).length

/-- The number nearest to `digits * 10 ^ exponent`. What lies far outside the range is cut off
before the power of ten is formed. -/
def ofDecimal (negative : Bool) (digits : Nat) (exponent : Int) : Binary64 :=
  if digits = 0 then zero negative
  else if 400 < exponent + decimalLength digits then infinite negative
  else if exponent + decimalLength digits < -400 then zero negative
  else if 0 ≤ exponent then ofRatio negative (digits * Nat.pow 10 exponent.toNat) 1
  else ofRatio negative digits (Nat.pow 10 (-exponent).toNat)

def neg : Binary64 → Binary64
  | finite s m e => finite (!s) m e
  | infinite s => infinite (!s)
  | nan => nan

def isFinite : Binary64 → Bool
  | finite .. => true
  | _ => false

def signed (negative : Bool) (n : Nat) : Int := if negative then -n else n

def add : Binary64 → Binary64 → Binary64
  | finite s₁ m₁ e₁, finite s₂ m₂ e₂ =>
    let e := min e₁ e₂
    let n := signed s₁ (m₁ * Nat.pow 2 (e₁ - e).toNat) +
      signed s₂ (m₂ * Nat.pow 2 (e₂ - e).toNat)
    if n = 0 then zero (s₁ && s₂) else
      let p := scale n.natAbs e
      ofRatio (n < 0) p.1 p.2
  | infinite s₁, infinite s₂ => if s₁ = s₂ then infinite s₁ else nan
  | infinite s, finite .. => infinite s
  | finite .., infinite s => infinite s
  | nan, _ => nan
  | _, nan => nan

def sub (x y : Binary64) : Binary64 := add x y.neg

end Binary64

end Realizability
