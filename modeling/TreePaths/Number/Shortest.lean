import TreePaths.Number.Double

/-!
The fewest decimal digits that read back to a number, and their text.
-/

namespace TreePaths

/-- Digits `ds` and point position `k` stand for `0.ds * 10 ^ k`. -/
structure Decimal where
  digits : List Char
  point : Int

namespace Double

structure Fraction where
  num : Nat
  den : Nat

namespace Fraction

def le (a b : Fraction) : Bool :=
  a.num * b.den ≤ b.num * a.den

def lt (a b : Fraction) : Bool :=
  !b.le a

def ofDecimal (n : Nat) (e : Int) : Fraction :=
  if 0 ≤ e then ⟨n * tenTo e.toNat, 1⟩ else ⟨n, tenTo (-e).toNat⟩

/-- The integer part of `a / 10 ^ e`. -/
def floorDiv (a : Fraction) (e : Int) : Nat :=
  if 0 ≤ e then a.num / (a.den * tenTo e.toNat) else a.num * tenTo (-e).toNat / a.den

end Fraction

/-- The values that round to a number: all between `low` and `high`, the ends too if `closed`. -/
structure Interval where
  value : Fraction
  low : Fraction
  high : Fraction
  closed : Bool

/-- The values that round to `m * 2 ^ q`. Below a power of two the gap is half as wide. -/
def interval (m : Nat) (q : Int) : Interval :=
  let unit := twoTo q.toNat
  let den := 4 * twoTo (-q).toNat
  let below := if m = twoTo 52 && q ≠ -1074 then unit else 2 * unit
  { value := ⟨4 * m * unit, den⟩
    low := ⟨4 * m * unit - below, den⟩
    high := ⟨4 * m * unit + 2 * unit, den⟩
    closed := m % 2 = 0 }

def Interval.holds (i : Interval) (a : Fraction) : Bool :=
  if i.closed then i.low.le a && a.le i.high else i.low.lt a && a.lt i.high

/-- The least `k` from `start` on with `a < 10 ^ k`, at most `fuel` steps away. -/
def scaleFrom (a : Fraction) (start : Int) : Nat → Int
  | 0 => start
  | fuel + 1 => if a.lt (.ofDecimal 1 start) then start else scaleFrom a (start + 1) fuel

/-- The least `k` with `a < 10 ^ k`. The estimate from the binary logarithms is never too high. -/
def scale (a : Fraction) : Int :=
  let bits : Int := (a.num.log2 : Int) - (a.den.log2 : Int) - 1
  scaleFrom a (bits * 30103 / 100000 - 1) 6

/-- Of the two neighbours of the value on the grid of `10 ^ e`, the one to print: the only one that
reads back, else the nearer one, else the even one. -/
def Interval.pick? (i : Interval) (e : Int) : Option Nat :=
  let n := i.value.floorDiv e
  match i.holds (.ofDecimal n e), i.holds (.ofDecimal (n + 1) e) with
  | false, false => none
  | true, false => some n
  | false, true => some (n + 1)
  | true, true =>
    let middle := Fraction.ofDecimal (2 * n + 1) e
    let twice : Fraction := ⟨2 * i.value.num, i.value.den⟩
    if twice.lt middle || (twice.le middle && n % 2 = 0) then some n else some (n + 1)

def Interval.search (i : Interval) (k : Int) (digits : Nat) : Nat → Nat × Int
  | 0 => (i.value.floorDiv (k - digits), k - digits)
  | fuel + 1 =>
    match i.pick? (k - digits) with
    | some n => (n, k - digits)
    | none => i.search k (digits + 1) fuel

/-- The shortest digits of `m * 2 ^ q`, without zeros at the end. -/
def shortest (m : Nat) (q : Int) : Decimal :=
  if m = 0 then
    ⟨['0'], 1⟩
  else
    let i := interval m q
    let (n, e) := i.search (scale i.value) 1 17
    let ds := Nat.toDigits 10 n
    ⟨(ds.reverse.dropWhile (· = '0')).reverse, ds.length + e⟩

end Double

def Decimal.scientific (d : Decimal) : List Char :=
  let e := d.point - 1
  let es := Nat.toDigits 10 e.natAbs
  let mantissa :=
    match d.digits with
    | [] => ['0']
    | [c] => [c]
    | c :: cs => c :: '.' :: cs
  mantissa ++ 'e' :: (if e < 0 then '-' else '+') :: (if es.length < 2 then '0' :: es else es)

def Decimal.positional (d : Decimal) : List Char :=
  if d.point ≤ 0 then
    '0' :: '.' :: (List.replicate (-d.point).toNat '0' ++ d.digits)
  else
    let k := d.point.toNat
    let whole := d.digits.take k
    let rest := d.digits.drop k
    whole ++ List.replicate (k - whole.length) '0' ++ '.' :: (if rest.isEmpty then ['0'] else rest)

/-- Numbers from `10 ^ -4` up to, but without, `10 ^ 16` are written positionally. -/
def Decimal.text (d : Decimal) : List Char :=
  if -4 < d.point && d.point ≤ 16 then d.positional else d.scientific

structure SpecialNumbers where
  nan : String
  infinite : String

def Double.textWith (names : SpecialNumbers) : Double → String
  | .nan => names.nan
  | .infinite s => (if s then "-" else "") ++ names.infinite
  | .finite s m q => (if s then "-" else "") ++ .ofList (Double.shortest m q).text

def Double.text : Double → String :=
  textWith ⟨"nan", "inf"⟩

end TreePaths
