import TreePaths.Number.Power

/-!
Binary floating-point numbers of 64 bits, by their values. Arithmetic is exact and then rounded to
the nearest number, a half going to the even neighbour.
-/

namespace TreePaths

/-- A finite number is `± m * 2 ^ q` with `m < 2 ^ 53` and `-1074 ≤ q ≤ 971`, and `2 ^ 52 ≤ m`
unless `q = -1074`. The two zeros differ. -/
inductive Double where
  | nan
  | infinite (negative : Bool)
  | finite (negative : Bool) (m : Nat) (q : Int)
  deriving DecidableEq, Repr

namespace Double

def zero (negative : Bool) : Double :=
  .finite negative 0 (-1074)

/-- `n / d` to the nearest integer, a half to the even one. -/
def roundDiv (n d : Nat) : Nat :=
  let a := n / d
  let r := 2 * (n % d)
  if d < r || (r == d && a % 2 == 1) then a + 1 else a

/-- Numerator and denominator of `n / d * 2 ^ (-q)`. -/
def scaled (n d : Nat) (q : Int) : Nat × Nat :=
  if 0 ≤ q then (n, d * twoTo q.toNat) else (n * twoTo (-q).toNat, d)

/-- The exponent that gives `n / d` a significand of 53 bits, or the least exponent there is. -/
def exponentFor (n d : Nat) : Int :=
  let q : Int := (n.log2 : Int) - (d.log2 : Int) - 53
  let (a, b) := scaled n d q
  max (-1074) (if a / b < twoTo 53 then q else q + 1)

/-- `± n / d` to the nearest number. -/
def ofRatio (negative : Bool) (n d : Nat) : Double :=
  if n = 0 then
    zero negative
  else
    let q := exponentFor n d
    let (a, b) := scaled n d q
    let m := roundDiv a b
    let (m, q) := if m = twoTo 53 then (twoTo 52, q + 1) else (m, q)
    if 971 < q then .infinite negative else .finite negative m q

/-- `± n * 10 ^ e` to the nearest number. Exponents far outside the range are not computed. -/
def ofDecimal (negative : Bool) (n : Nat) (e : Int) : Double :=
  let size : Int := (n.log2 : Int) * 3 / 10 + e
  if n = 0 || size < -400 then zero negative
  else if 400 < size then .infinite negative
  else if 0 ≤ e then ofRatio negative (n * tenTo e.toNat) 1
  else ofRatio negative n (tenTo (-e).toNat)

def ofInt (i : Int) : Double :=
  ofRatio (i < 0) i.natAbs 1

def ofShifted (negative : Bool) (m : Nat) (q : Int) : Double :=
  if 0 ≤ q then ofRatio negative (m * twoTo q.toNat) 1 else ofRatio negative m (twoTo (-q).toNat)

def neg : Double → Double
  | nan => nan
  | infinite s => infinite !s
  | finite s m q => finite (!s) m q

def signed (negative : Bool) (m : Nat) : Int :=
  if negative then -m else m

def add : Double → Double → Double
  | nan, _ => nan
  | _, nan => nan
  | infinite s, infinite t => if s = t then infinite s else nan
  | infinite s, finite .. => infinite s
  | finite .., infinite t => infinite t
  | finite s m p, finite t n q =>
    let low := min p q
    let total := signed s (m * twoTo (p - low).toNat) + signed t (n * twoTo (q - low).toNat)
    if total = 0 then zero (s && t) else ofShifted (total < 0) total.natAbs low

def mul : Double → Double → Double
  | nan, _ => nan
  | _, nan => nan
  | infinite s, infinite t => infinite (s != t)
  | infinite s, finite t n _ => if n = 0 then nan else infinite (s != t)
  | finite s m _, infinite t => if m = 0 then nan else infinite (s != t)
  | finite s m p, finite t n q => ofShifted (s != t) (m * n) (p + q)

def toInt? : Double → Option Int
  | finite s m q =>
    if 0 ≤ q then some (signed s (m * twoTo q.toNat))
    else if m % twoTo (-q).toNat = 0 then some (signed s (m / twoTo (-q).toNat))
    else none
  | _ => none

/-- Numerical equality: a NaN differs from itself and the zeros are equal. -/
def same : Double → Double → Bool
  | nan, _ => false
  | finite s m p, finite t n q => (m = 0 && n = 0) || (s = t && m = n && p = q)
  | x, y => x = y

end Double

end TreePaths
