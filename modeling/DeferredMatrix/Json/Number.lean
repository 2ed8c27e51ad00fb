import DeferredMatrix.Json.Lexeme

/-!
# Reading numbers

An integer that fits in 64 bits is read exactly. Every other number becomes a double: as many
leading digits as fit in an unsigned 64-bit word form a significand, which is rounded and then
multiplied or divided by a rounded power of ten. `Number.toFloat32` rounds once more.
-/

namespace DeferredMatrix.Json

open Binary

/-- The largest significand. -/
def maxWord : Nat := 0xffffffffffffffff

/-- The largest magnitude of a written exponent that is still evaluated. -/
def maxExponent : Nat := 0x7fffffff

/-! ## Doubles from significand and exponent -/

namespace Double

/-- The product of two doubles. -/
def mul (a b : Nat) : Nat :=
  let (n, d) := Format.double.quotient a
  let (n', d') := Format.double.quotient b
  Format.double.nearest (n * n') (d * d')

/-- The quotient of two doubles, the second not zero. -/
def div (a b : Nat) : Nat :=
  let (n, d) := Format.double.quotient a
  let (n', d') := Format.double.quotient b
  Format.double.nearest (n * d') (d * n')

/-- The double nearest to a power of ten. -/
def pow10 (n : Nat) : Nat := Format.double.nearest (Nat.pow 10 n) 1

/-- The largest exponent whose power of ten is a double. -/
def maxPow10 : Nat := 308

/-- Division by `10 ^ n`, in steps that a double can hold. -/
def divPow10 (code : Nat) (n : Nat) : Nat :=
  if n ≤ maxPow10 then div code (pow10 n)
  else if code = 0 then 0
  else divPow10 (div code (pow10 maxPow10)) (n - maxPow10)
termination_by n
decreasing_by simp only [maxPow10] at *; omega

/-- `significand * 10 ^ exponent`, or nothing if that is out of range. -/
def ofParts (significand : Nat) (exponent : Int) : Option Nat :=
  let code := Format.double.nearest significand 1
  if exponent < 0 then some (divPow10 code exponent.natAbs)
  else if exponent.toNat ≤ maxPow10 then
    let product := mul code (pow10 exponent.toNat)
    if product < Format.double.infinity then some product else none
  else if code = 0 then some 0
  else none

end Double

/-! ## Digits -/

/-- Appends digits to `significand` as long as it fits in a word. Returns the significand, the
number of digits taken and the rest. -/
def takeDigits (significand : Nat) : Bytes → Nat × Nat × Bytes
  | [] => (significand, 0, [])
  | b :: s =>
    if Byte.isDigit b && significand * 10 + Byte.digit b ≤ maxWord then
      let (value, count, rest) := takeDigits (significand * 10 + Byte.digit b) s
      (value, count + 1, rest)
    else (significand, 0, b :: s)

/-- Passes over digits, counting them. -/
def passDigits : Bytes → Nat × Bytes
  | [] => (0, [])
  | b :: s =>
    if Byte.isDigit b then
      let (count, rest) := passDigits s
      (count + 1, rest)
    else (0, b :: s)

/-- The value of a written exponent, or nothing if it is too large, with the rest. -/
def takeExponent (value : Nat) : Bytes → Option Nat × Bytes
  | [] => (some value, [])
  | b :: s =>
    if Byte.isDigit b then
      if value * 10 + Byte.digit b ≤ maxExponent then
        takeExponent (value * 10 + Byte.digit b) s
      else (none, s)
    else (some value, b :: s)

/-! ## The parts of a number -/

/-- The double with the given parts, read up to `rest`. -/
def finish (isNegative : Bool) (significand : Nat) (exponent : Int) (rest : Bytes) :
    Except Mistake (Number × Bytes) :=
  match Double.ofParts significand exponent with
  | some code => .ok (.double isNegative code, rest)
  | none => .error ⟨.numberOutOfRange, rest.length⟩

/-- An optional exponent. One that is too large makes the number zero or puts it out of
range. -/
def readExponent (isNegative : Bool) (significand : Nat) (exponent : Int) (s : Bytes) :
    Except Mistake (Number × Bytes) :=
  match s with
  | [] => finish isNegative significand exponent []
  | mark :: s =>
    if Byte.isExponentMark mark then
      let falls := startsWith (· == Byte.minus) s
      let digits := if falls || startsWith (· == Byte.plus) s then s.tail else s
      match digits with
      | [] => .error ⟨.endOfValue, 0⟩
      | b :: rest =>
        if Byte.isDigit b then
          match takeExponent (Byte.digit b) rest with
          | (some value, rest) =>
            finish isNegative significand (if falls then exponent - value else exponent + value)
              rest
          | (none, rest) =>
            if significand ≠ 0 && !falls then .error ⟨.numberOutOfRange, rest.length⟩
            else .ok (.double isNegative 0, (passDigits rest).2)
        else .error ⟨.invalidNumber, rest.length⟩
    else finish isNegative significand exponent (mark :: s)

/-- The digits after the point, then an optional exponent. Digits that do not fit in the
significand are ignored. -/
def readFraction (isNegative : Bool) (significand : Nat) (exponent : Int) (s : Bytes) :
    Except Mistake (Number × Bytes) :=
  let (value, count, rest) := takeDigits significand s
  if startsWith Byte.isDigit rest then
    readExponent isNegative value (exponent - count) (passDigits rest).2
  else if count = 0 then
    .error (mistakeAt (if rest.isEmpty then .endOfValue else .invalidNumber) rest)
  else readExponent isNegative value (exponent - count) rest

/-- What follows the digits before the point, `exponent` of which were left out. -/
def readTail (isNegative : Bool) (significand : Nat) (exponent : Int) (s : Bytes) :
    Except Mistake (Number × Bytes) :=
  match s with
  | Byte.point :: rest => readFraction isNegative significand exponent rest
  | s => readExponent isNegative significand exponent s

/-- A number without fraction and exponent. Negative zero is no integer. -/
def wholeNumber (isNegative : Bool) (significand : Nat) : Number :=
  if !isNegative then .natural significand
  else if significand ≠ 0 && significand ≤ 0x8000000000000000 then .negative significand
  else .double true (Format.double.nearest significand 1)

/-- What follows the digits before the point when they all fit. -/
def readRest (isNegative : Bool) (significand : Nat) (s : Bytes) :
    Except Mistake (Number × Bytes) :=
  if startsWith (fun b => b == Byte.point || Byte.isExponentMark b) s then
    readTail isNegative significand 0 s
  else .ok (wholeNumber isNegative significand, s)

/-- A number from its first digit on. -/
def readMagnitude (isNegative : Bool) (s : Bytes) : Except Mistake (Number × Bytes) :=
  match s with
  | [] => .error ⟨.endOfValue, 0⟩
  | b :: s =>
    if b = Byte.zero then
      if startsWith Byte.isDigit s then .error (mistakeAt .invalidNumber s)
      else readRest isNegative 0 s
    else if Byte.isDigit b then
      let (value, _, rest) := takeDigits (Byte.digit b) s
      if startsWith Byte.isDigit rest then
        let (count, rest) := passDigits rest
        readTail isNegative value count rest
      else readRest isNegative value rest
    else .error ⟨.invalidNumber, s.length⟩

/-- Whether a byte starts a number. -/
def startsNumber (b : UInt8) : Bool := b == Byte.minus || Byte.isDigit b

def readNumber (s : Bytes) : Except Mistake (Number × Bytes) :=
  match s with
  | Byte.minus :: rest => readMagnitude true rest
  | s => readMagnitude false s

/-! ## Numbers as 32-bit floats -/

/-- The float with the given sign and code. -/
def singleOfCode (isNegative : Bool) (code : Nat) : Float32 :=
  Float32.ofBits (UInt32.ofNat (if isNegative then singleSignBit + code else code))

/-- The float nearest to a number; beyond the largest one it is infinite. -/
def Number.toFloat32 : Number → Float32
  | natural n => singleOfCode false (Format.single.nearest n 1)
  | negative n => singleOfCode true (Format.single.nearest n 1)
  | double isNegative code =>
    let (num, den) := Format.double.quotient code
    singleOfCode isNegative (Format.single.nearest num den)

end DeferredMatrix.Json
