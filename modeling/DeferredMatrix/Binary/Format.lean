/-!
# Binary floating-point formats

A format is a grid of dyadic numbers with a fixed number of significant bits. Its
nonnegative members are numbered from zero upwards in the order of their values; the
number of a member is its *code*, which is also its bit pattern without the sign.

* `Format.nearest` gives the code of the member nearest to a quotient of naturals, a tie
  going to the even code, and `Format.infinity` beyond the largest member.
* `Format.mantissa` and `Format.exponent` say which dyadic number a code stands for.
-/

namespace DeferredMatrix.Binary

/-- A format with `precision` significant bits whose smallest step is `2 ^ minExponent` and
whose codes from `infinity` on stand for no number. -/
structure Format where
  precision : Nat
  minExponent : Int
  infinity : Nat
  deriving DecidableEq

/-- Thirty-two bits: 24 significant ones. -/
def Format.single : Format := ⟨24, -149, 0x7f800000⟩

/-- Sixty-four bits: 53 significant ones. -/
def Format.double : Format := ⟨53, -1074, 0x7ff0000000000000⟩

/-- The bit that holds the sign, above the codes of `Format.single`. -/
def singleSignBit : Nat := 0x80000000

/-- The number of codes for which the step stays the same. -/
def Format.binade (f : Format) : Nat := Nat.pow 2 (f.precision - 1)

/-! ## Rounding -/

/-- The natural nearest to `num / den`, a half going to the even neighbour. -/
def roundHalfEven (num den : Nat) : Nat :=
  let q := num / den
  let twice := 2 * (num % den)
  if den < twice || (twice == den && q % 2 == 1) then q + 1 else q

/-- `num / den` divided by `2 ^ e`, as a numerator and a denominator. -/
def scaleDown (num den : Nat) (e : Int) : Nat × Nat :=
  if 0 ≤ e then (num, den * Nat.pow 2 e.toNat) else (num * Nat.pow 2 (-e).toNat, den)

/-- The exponent `k` with `2 ^ k ≤ num / den < 2 ^ (k + 1)`, for positive `num` and `den`. -/
def log2Quotient (num den : Nat) : Int :=
  let k : Int := (Nat.log2 num : Int) - Nat.log2 den
  let (n, d) := scaleDown num den k
  if d ≤ n then k else k - 1

namespace Format

/-- The exponent of the last place of the members of `f` next to `num / den`. -/
def lastPlace (f : Format) (num den : Nat) : Int :=
  max f.minExponent (log2Quotient num den - (f.precision - 1))

/-- The code of the member of `f` nearest to `num / den`. Codes are consecutive, so the code
is the mantissa plus a full binade for every exponent above the least one; a mantissa that
rounds up to the next power of two carries into the exponent by itself. -/
def nearest (f : Format) (num den : Nat) : Nat :=
  if num = 0 then 0
  else
    let e := f.lastPlace num den
    let (n, d) := scaleDown num den e
    let code := (e - f.minExponent).toNat * f.binade + roundHalfEven n d
    min code f.infinity

/-! ## The number behind a code -/

/-- Codes below one binade are subnormal: they share the least exponent and have no hidden
bit. -/
def isSubnormal (f : Format) (code : Nat) : Bool := code < f.binade

/-- The mantissa of a code, hidden bit included. -/
def mantissa (f : Format) (code : Nat) : Nat :=
  if f.isSubnormal code then code else f.binade + code % f.binade

/-- The exponent of a code: it stands for `mantissa * 2 ^ exponent`. -/
def exponent (f : Format) (code : Nat) : Int :=
  if f.isSubnormal code then f.minExponent
  else f.minExponent + (code / f.binade : Nat) - 1

/-- The number that a code stands for, as a numerator and a denominator. -/
def quotient (f : Format) (code : Nat) : Nat × Nat :=
  let e := f.exponent code
  if 0 ≤ e then (f.mantissa code * Nat.pow 2 e.toNat, 1)
  else (f.mantissa code, Nat.pow 2 (-e).toNat)

/-- The step below a power of two is half the step above it, except at the bottom of the
range. -/
def isBinadeStart (f : Format) (code : Nat) : Bool :=
  code % f.binade == 0 && 2 * f.binade ≤ code

end Format

end DeferredMatrix.Binary
