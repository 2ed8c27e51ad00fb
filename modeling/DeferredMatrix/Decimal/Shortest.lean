import DeferredMatrix.Binary.Format

/-!
# The shortest decimal that reads back

A decimal reads back as a binary number when it lies in the interval of reals that round to
that number. `shortest` looks at coarser decimal grids first and stops at the first one with
a point in the interval; only the two neighbours of the number can be such points. Of two
hits the nearer one is taken, and `Tie` settles an exact tie.
-/

namespace DeferredMatrix

/-- The number `digits * 10 ^ exponent`. -/
structure Decimal where
  digits : Nat
  exponent : Int
  deriving DecidableEq

namespace Decimal

open Binary

/-- Which of two equally near decimals is taken: the one with the even last digit, or the one
farther from zero. -/
inductive Tie where
  | even
  | away
  deriving DecidableEq

/-- The number of decimal digits, none for zero. -/
def digitCount (n : Nat) : Nat := if n = 0 then 0 else (Nat.toDigits 10 n).length

/-- The exponent `k` with `10 ^ k ≤ num / den < 10 ^ (k + 1)`, for positive `num` and `den`. -/
def log10Quotient (num den : Nat) : Int :=
  if den ≤ num then (digitCount (num / den) : Int) - 1
  else -(digitCount ((den + num - 1) / num - 1) : Int)

/-- The power of ten of the first digit. -/
def magnitude (d : Decimal) : Int := d.exponent + digitCount d.digits - 1

/-! ## The interval of a binary number -/

/-- The reals that round to `center * 2 ^ exponent` reach from `low` to `high` in the same
unit, ends included if `closed`. -/
structure Interval where
  low : Nat
  center : Nat
  high : Nat
  exponent : Int
  closed : Bool

/-- The interval of the member of `f` with the given code, in quarters of its last place. -/
def Interval.ofCode (f : Format) (code : Nat) : Interval :=
  let m := f.mantissa code
  { low := 4 * m - (if f.isBinadeStart code then 1 else 2)
    center := 4 * m
    high := 4 * m + 2
    exponent := f.exponent code - 2
    closed := m % 2 == 0 }

/-- Factors `(p, q)` that bring both grids to whole numbers: `x * 2 ^ e` and `y * 10 ^ k`
compare as `x * p` and `y * q`. -/
def commonScale (e k : Int) : Nat × Nat :=
  (Nat.pow 2 e.toNat * Nat.pow 10 (-k).toNat, Nat.pow 10 k.toNat * Nat.pow 2 (-e).toNat)

/-- Whether `candidate * 10 ^ k` lies in the interval. -/
def Interval.holds (i : Interval) (k : Int) (candidate : Nat) : Bool :=
  let (p, q) := commonScale i.exponent k
  if i.closed then i.low * p ≤ candidate * q && candidate * q ≤ i.high * p
  else i.low * p < candidate * q && candidate * q < i.high * p

/-- The last point of the grid of step `10 ^ k` that is not above the center. -/
def Interval.below (i : Interval) (k : Int) : Nat :=
  let (p, q) := commonScale i.exponent k
  i.center * p / q

/-- Of the two neighbours `n` and `n + 1` of the center, the nearer one. -/
def Interval.nearer (i : Interval) (tie : Tie) (k : Int) : Nat :=
  let (p, q) := commonScale i.exponent k
  let n := i.below k
  let gapBelow := i.center * p - n * q
  let gapAbove := (n + 1) * q - i.center * p
  if gapBelow < gapAbove then n
  else if gapAbove < gapBelow then n + 1
  else match tie with
    | .even => if n % 2 = 0 then n else n + 1
    | .away => n + 1

/-- The point of the grid of step `10 ^ k` that stands for the interval, if there is one. -/
def Interval.pick (i : Interval) (tie : Tie) (k : Int) : Option Nat :=
  let n := i.below k
  match i.holds k n, i.holds k (n + 1) with
  | true, true => some (i.nearer tie k)
  | true, false => some n
  | false, true => some (n + 1)
  | false, false => none

/-! ## The search -/

/-- Refines the grid from step `10 ^ k` on, at most `places` times. -/
def Interval.search (i : Interval) (tie : Tie) : Nat → Int → Decimal
  | 0, k => ⟨i.nearer tie k, k⟩
  | places + 1, k =>
    match i.pick tie k with
    | some n => if n = 10 then ⟨1, k + 1⟩ else ⟨n, k⟩
    | none => i.search tie places (k - 1)

/-- The shortest decimal that reads back as the given member of `f`. A binary number of `p`
significant bits needs fewer than `p` decimal digits. -/
def shortest (f : Format) (tie : Tie) (code : Nat) : Decimal :=
  let (num, den) := f.quotient code
  (Interval.ofCode f code).search tie f.precision (log10Quotient num den)

end Decimal

end DeferredMatrix
