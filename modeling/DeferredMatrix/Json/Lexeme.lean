import DeferredMatrix.Json.Error

/-!
# Blanks, words and bytes

The reader works on the bytes that are left. A reading function returns what it read together
with the rest, or a mistake.
-/

namespace DeferredMatrix.Json

namespace Byte

@[match_pattern] abbrev quote : UInt8 := 0x22
@[match_pattern] abbrev plus : UInt8 := 0x2b
@[match_pattern] abbrev comma : UInt8 := 0x2c
@[match_pattern] abbrev minus : UInt8 := 0x2d
@[match_pattern] abbrev point : UInt8 := 0x2e
@[match_pattern] abbrev slash : UInt8 := 0x2f
@[match_pattern] abbrev zero : UInt8 := 0x30
@[match_pattern] abbrev colon : UInt8 := 0x3a
@[match_pattern] abbrev openList : UInt8 := 0x5b
@[match_pattern] abbrev backslash : UInt8 := 0x5c
@[match_pattern] abbrev closeList : UInt8 := 0x5d
@[match_pattern] abbrev letterB : UInt8 := 0x62
@[match_pattern] abbrev letterF : UInt8 := 0x66
@[match_pattern] abbrev letterN : UInt8 := 0x6e
@[match_pattern] abbrev letterR : UInt8 := 0x72
@[match_pattern] abbrev letterT : UInt8 := 0x74
@[match_pattern] abbrev letterU : UInt8 := 0x75
@[match_pattern] abbrev openObject : UInt8 := 0x7b
@[match_pattern] abbrev closeObject : UInt8 := 0x7d

/-- Space, tab, line feed and carriage return. -/
def isBlank (b : UInt8) : Bool := b == 0x20 || b == 0x09 || b == 0x0a || b == 0x0d

def isDigit (b : UInt8) : Bool := 0x30 ≤ b && b ≤ 0x39

def digit (b : UInt8) : Nat := b.toNat - 0x30

/-- The letter that starts an exponent, in either case. -/
def isExponentMark (b : UInt8) : Bool := b == 0x65 || b == 0x45

/-- Bytes below the space, which strings may not hold. -/
def isControl (b : UInt8) : Bool := b < 0x20

/-- The value of a hexadecimal digit. -/
def hexDigit? (b : UInt8) : Option Nat :=
  if isDigit b then some (digit b)
  else if 0x41 ≤ b && b ≤ 0x46 then some (b.toNat - 0x41 + 10)
  else if 0x61 ≤ b && b ≤ 0x66 then some (b.toNat - 0x61 + 10)
  else none

end Byte

/-- A mistake at the next byte, or at the end if there is none. -/
def mistakeAt (cause : Cause) (s : Bytes) : Mistake := ⟨cause, s.length - 1⟩

def skipBlank (s : Bytes) : Bytes := s.dropWhile Byte.isBlank

/-- Whether the next byte satisfies `p`. -/
def startsWith (p : UInt8 → Bool) (s : Bytes) : Bool := s.head?.any p

/-- Reads the given bytes. -/
def expectWord : Bytes → Bytes → Except Mistake Bytes
  | [], s => .ok s
  | _ :: _, [] => .error ⟨.endOfValue, 0⟩
  | w :: word, b :: s => if b = w then expectWord word s else .error ⟨.expectedWord, s.length⟩

/-- What follows the first letter of `null`, `true` and `false`. -/
def wordTail (first : UInt8) : Bytes :=
  if first = Byte.letterN then [0x75, 0x6c, 0x6c]
  else if first = Byte.letterT then [0x72, 0x75, 0x65]
  else [0x61, 0x6c, 0x73, 0x65]

end DeferredMatrix.Json
