import DeferredMatrix.Decimal.Shortest

/-!
# Layouts of floating-point text

A `Layout` holds the decisions that a way of writing floats makes once the digits are known:
which magnitudes are written positionally, what a whole number and an exponent look like, and
the words for the values that are no numbers.
-/

namespace DeferredMatrix.Decimal

open Binary

/-- How floats are written. Magnitudes from `positionalFrom` to `positionalTo` are written
without an exponent; a missing bound is no bound. -/
structure Layout where
  positionalFrom : Option Int
  positionalTo : Option Int
  /-- A whole number written positionally ends in `.0`. -/
  keepsFraction : Bool
  /-- A positive exponent has a sign. -/
  signsExponent : Bool
  tie : Tie
  nan : String
  infinity : String
  negInfinity : String

namespace Layout

/-- Whether a number whose first digit has the power of ten `magnitude` gets no exponent. -/
def isPositional (l : Layout) (magnitude : Int) : Bool :=
  l.positionalFrom.all (· ≤ magnitude) && l.positionalTo.all (magnitude ≤ ·)

/-- `digits` with the decimal point after the place of power zero, the first digit having the
power `magnitude`. -/
def positional (l : Layout) (digits : List Char) (magnitude : Int) : List Char :=
  if magnitude < 0 then
    '0' :: '.' :: (List.replicate (-magnitude - 1).toNat '0' ++ digits)
  else
    let whole := magnitude.toNat + 1
    if digits.length ≤ whole then
      digits ++ List.replicate (whole - digits.length) '0' ++
        (if l.keepsFraction then ['.', '0'] else [])
    else digits.take whole ++ '.' :: digits.drop whole

/-- The exponent part. -/
def exponentPart (l : Layout) (magnitude : Int) : List Char :=
  let sign := if magnitude < 0 then ['-'] else if l.signsExponent then ['+'] else []
  'e' :: (sign ++ Nat.toDigits 10 magnitude.natAbs)

/-- One digit before the point, then the exponent. -/
def scientific (l : Layout) (digits : List Char) (magnitude : Int) : List Char :=
  let fraction := digits.drop 1
  digits.take 1 ++ (if fraction.isEmpty then [] else '.' :: fraction) ++ l.exponentPart magnitude

/-- A decimal that is not negative. -/
def writeDecimal (l : Layout) (d : Decimal) : List Char :=
  let digits := Nat.toDigits 10 d.digits
  if d.digits = 0 then l.positional digits 0
  else if l.isPositional d.magnitude then l.positional digits d.magnitude
  else l.scientific digits d.magnitude

/-- The member of `f` with the given sign and code; the code of infinity and those above it
have words of their own. -/
def write (l : Layout) (f : Format) (negative : Bool) (code : Nat) : String :=
  if f.infinity < code then l.nan
  else if code = f.infinity then if negative then l.negInfinity else l.infinity
  else
    let d : Decimal := if code = 0 then ⟨0, 0⟩ else shortest f l.tie code
    let body := l.writeDecimal d
    String.ofList (if negative then '-' :: body else body)

/-- A 32-bit float. -/
def float32 (l : Layout) (x : Float32) : String :=
  let bits := x.toBits.toNat
  l.write .single (singleSignBit ≤ bits) (bits % singleSignBit)

end Layout

end DeferredMatrix.Decimal
