import DeferredMatrix.Json.Layout
import DeferredMatrix.Text.Quoted

/-!
# Errors of reading JSON

* `Cause` lists what can be wrong with a text and `Cause.message` words it.
* `Mistake` is a cause together with the number of bytes that were unread when it was noticed.
* `Error` has the position in lines and columns instead; `Mistake.locate` computes it.
-/

namespace DeferredMatrix.Json

open Binary

/-- JSON text as bytes. -/
abbrev Bytes := List UInt8

/-- A number as it was written: a natural or a negative integer of 64 bits, or else a double
given by sign and code. -/
inductive Number where
  | natural (n : Nat)
  | negative (n : Nat)
  | double (isNegative : Bool) (code : Nat)
  deriving DecidableEq

/-- What stands in a text where something else is wanted. -/
inductive Found where
  | null
  | boolean (b : Bool)
  | number (n : Number)
  | string (s : String)
  | sequence
  | map
  deriving DecidableEq

namespace Found

def describe : Found → String
  | null => "null"
  | boolean b => "boolean `" ++ (if b then "true" else "false") ++ "`"
  | number (.natural n) => "integer `" ++ toString n ++ "`"
  | number (.negative n) => "integer `-" ++ toString n ++ "`"
  | number (.double isNegative code) =>
    "floating point `" ++ doubleLayout.write .double isNegative code ++ "`"
  | string s => "string " ++ Text.quote s
  | sequence => "sequence"
  | map => "map"

end Found

/-- What is wrong with a text. The causes up to `endOfObject` are met at its end, those from
`invalidType` on concern well-formed JSON that does not fit the type that is read. -/
inductive Cause where
  | endOfValue
  | endOfString
  | endOfList
  | endOfObject
  | expectedValue
  | expectedWord
  | invalidNumber
  | numberOutOfRange
  | controlCharacter
  | invalidEscape
  | invalidUnicode
  | loneSurrogate
  | unexpectedEndOfEscape
  | expectedListEnd
  | expectedObjectEnd
  | expectedColon
  | nameNotString
  | trailingComma
  | trailingCharacters
  | invalidType (found : Found) (wanted : String)
  | invalidLength (length : Nat) (wanted : String)
  | missingField (name : String)
  | duplicateField (name : String)
  | unknownField (name : String) (known : List String)
  | unknownVariant (name : String) (known : List String)
  deriving DecidableEq

inductive Category where
  | ending
  | grammar
  | meaning
  deriving DecidableEq

namespace Cause

def category : Cause → Category
  | endOfValue | endOfString | endOfList | endOfObject => .ending
  | invalidType .. | invalidLength .. | missingField .. | duplicateField .. | unknownField .. |
    unknownVariant .. => .meaning
  | _ => .grammar

/-- The names to choose from. -/
def oneOf (names : List String) : String :=
  let ticked := names.map fun n => "`" ++ n ++ "`"
  match ticked with
  | [] => "nothing"
  | [a] => a
  | [a, b] => a ++ " or " ++ b
  | many => "one of " ++ ", ".intercalate many

def message : Cause → String
  | endOfValue => "EOF while parsing a value"
  | endOfString => "EOF while parsing a string"
  | endOfList => "EOF while parsing a list"
  | endOfObject => "EOF while parsing an object"
  | expectedValue => "expected value"
  | expectedWord => "expected ident"
  | invalidNumber => "invalid number"
  | numberOutOfRange => "number out of range"
  | controlCharacter =>
    "control character (\\u0000-\\u001F) found while parsing a string"
  | invalidEscape => "invalid escape"
  | invalidUnicode => "invalid unicode code point"
  | loneSurrogate => "lone leading surrogate in hex escape"
  | unexpectedEndOfEscape => "unexpected end of hex escape"
  | expectedListEnd => "expected `,` or `]`"
  | expectedObjectEnd => "expected `,` or `\x7d`"
  | expectedColon => "expected `:`"
  | nameNotString => "key must be a string"
  | trailingComma => "trailing comma"
  | trailingCharacters => "trailing characters"
  | invalidType found wanted => "invalid type: " ++ found.describe ++ ", expected " ++ wanted
  | invalidLength length wanted =>
    "invalid length " ++ toString length ++ ", expected " ++ wanted
  | missingField name => "missing field `" ++ name ++ "`"
  | duplicateField name => "duplicate field `" ++ name ++ "`"
  | unknownField name known => "unknown field `" ++ name ++ "`, expected " ++ oneOf known
  | unknownVariant name known => "unknown variant `" ++ name ++ "`, expected " ++ oneOf known

end Cause

/-! ## Positions -/

/-- A cause and the number of bytes not yet read when it was noticed. -/
structure Mistake where
  cause : Cause
  unread : Nat
  deriving DecidableEq

structure Error where
  cause : Cause
  line : Nat
  column : Nat
  deriving DecidableEq

/-- The line break. -/
def lineFeed : UInt8 := 10

/-- Lines count from one; a column is the number of bytes read since the last line break. -/
def Mistake.locate (text : Bytes) (m : Mistake) : Error :=
  let read := text.take (text.length - m.unread)
  { cause := m.cause
    line := 1 + read.count lineFeed
    column := (read.reverse.takeWhile (· != lineFeed)).length }

def Error.message (e : Error) : String :=
  e.cause.message ++ " at line " ++ toString e.line ++ " column " ++ toString e.column

end DeferredMatrix.Json
