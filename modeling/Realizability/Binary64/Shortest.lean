import Realizability.Binary64.Basic

/-!
# The shortest decimal of a number

Of all decimals that round to a number, the one with the fewest digits is taken, and of several
with as few digits the nearest. It is written positionally from 0.0001 to below 10^16 and with an
exponent of two digits or more elsewhere.
-/

namespace Realizability.Binary64

def onGrid (m : Nat) (e k : Int) : Nat × Nat :=
  let p := scale m e
  if 0 ≤ k then (p.1, p.2 * Nat.pow 10 k.toNat) else (p.1 * Nat.pow 10 (-k).toNat, p.2)

def floorLog10 (m : Nat) (e : Int) : Int :=
  let start := (((m.log2 : Int) + e) * 30103).fdiv 100000 - 1
  go 4 start
where
  go : Nat → Int → Int
    | 0, k => k
    | n + 1, k =>
      let p := onGrid m e (k + 1)
      if p.2 ≤ p.1 then go n (k + 1) else k

/-- The numbers that round to `m * 2 ^ e` lie between these two, in units of `2 ^ (e - 2)`. -/
def neighbourhood (m : Nat) (e : Int) : Nat × Nat :=
  (if m = Nat.pow 2 52 ∧ minExponent < e then 4 * m - 1 else 4 * m - 2, 4 * m + 2)

/-- The decimal on the grid of `10 ^ k` that rounds to `m * 2 ^ e` and is nearest to it. -/
def nearestOnGrid (m : Nat) (e k : Int) : Option Nat :=
  let near := neighbourhood m e
  let v := onGrid (4 * m) (e - 2) k
  let lo := onGrid near.1 (e - 2) k
  let hi := onGrid near.2 (e - 2) k
  let below := v.1 / v.2
  let inside (a : Nat) : Bool :=
    if m % 2 = 0 then decide (lo.1 ≤ a * lo.2 ∧ a * hi.2 ≤ hi.1)
    else decide (lo.1 < a * lo.2 ∧ a * hi.2 < hi.1)
  let twice := 2 * (v.1 % v.2)
  if inside below && inside (below + 1) then
    some (if twice < v.2 then below else if v.2 < twice then below + 1 else below + below % 2)
  else if inside below then some below
  else if inside (below + 1) then some (below + 1)
  else none

/-- Digits and exponent of the shortest decimal; seventeen digits always suffice. -/
def shortest (m : Nat) (e : Int) : Nat × Int :=
  if m = 0 then (0, 0) else go 17 (floorLog10 m e)
where
  go : Nat → Int → Nat × Int
    | 0, k => ((onGrid m e k).1 / (onGrid m e k).2, k)
    | n + 1, k =>
      match nearestOnGrid m e k with
      | some d => (d, k)
      | none => go n (k - 1)

def stripZeros (cs : List Char) : List Char := (cs.reverse.dropWhile (· == '0')).reverse

/-- Digits without closing zeros, and the position of the point behind the first of them. -/
def shortestDigits (m : Nat) (e : Int) : List Char × Int :=
  let s := shortest m e
  let ds := Nat.toDigits 10 s.1
  if m = 0 then (['0'], 1) else (stripZeros ds, ds.length + s.2)

def zeros (n : Nat) : List Char := List.replicate n '0'

def positional (ds : List Char) (point : Int) : List Char :=
  if point ≤ 0 then '0' :: '.' :: zeros (-point).toNat ++ ds
  else
    let p := point.toNat
    if ds.length ≤ p then ds ++ zeros (p - ds.length) ++ ['.', '0']
    else ds.take p ++ '.' :: ds.drop p

def withExponent (ds : List Char) (point : Int) : List Char :=
  let e := point - 1
  let size := Nat.toDigits 10 e.natAbs
  let tail := if ds.length ≤ 1 then [] else '.' :: ds.drop 1
  ds.take 1 ++ tail ++ 'e' :: (if e < 0 then '-' else '+') :: (zeros (2 - size.length) ++ size)

def text : Binary64 → String
  | finite s m e =>
    let d := shortestDigits m e
    let body := if -4 < d.2 ∧ d.2 ≤ 16 then positional d.1 d.2 else withExponent d.1 d.2
    String.ofList (if s then '-' :: body else body)
  | infinite s => if s then "-inf" else "inf"
  | nan => "nan"

/-- The exact value of the shortest decimal; infinities and nan have none. -/
def decimalValue? : Binary64 → Option Rat
  | finite s m e =>
    let d := shortest m e
    let q : Nat × Nat :=
      if 0 ≤ d.2 then (d.1 * Nat.pow 10 d.2.toNat, 1) else (d.1, Nat.pow 10 (-d.2).toNat)
    some (mkRat (signed s q.1) q.2)
  | _ => none

end Realizability.Binary64
