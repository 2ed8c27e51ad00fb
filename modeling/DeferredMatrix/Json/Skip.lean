import DeferredMatrix.Json.Lexeme

/-!
# Passing over values

A value that nobody asked for is only checked for its shape. The check is a machine that sees
one byte at a time, so that brackets may be nested to any depth; the numbers and strings in it
are not evaluated.
-/

namespace DeferredMatrix.Json

/-- A bracket that is still open. -/
inductive Frame where
  | list
  | object
  deriving DecidableEq

namespace Frame

def closing : Frame → UInt8
  | list => Byte.closeList
  | object => Byte.closeObject

def endCause : Frame → Cause
  | list => .endOfList
  | object => .endOfObject

def expectedEnd : Frame → Cause
  | list => .expectedListEnd
  | object => .expectedObjectEnd

end Frame

/-- A place inside a number. -/
inductive NumberPlace where
  /-- After the sign. -/
  | start
  /-- After a leading zero. -/
  | zero
  | whole
  | point
  | fraction
  | mark
  | exponentSign
  | exponent
  deriving DecidableEq

/-- A place inside a string. -/
inductive StringPlace where
  | text
  | backslash
  /-- Before a digit of an escape with `left` more behind it; all digits so far were hexadecimal
  if `valid`. -/
  | hex (left : Nat) (valid : Bool)
  deriving DecidableEq

/-- What the machine has just seen. -/
inductive Place where
  /-- A value has to start. -/
  | value
  /-- The innermost bracket has just been opened. -/
  | opened
  /-- The name of a member has to start. -/
  | name
  | inName (place : StringPlace)
  /-- A name has ended. -/
  | colon
  | inString (place : StringPlace)
  | inNumber (place : NumberPlace)
  | inWord (rest : Bytes)
  /-- A value has ended. -/
  | done
  deriving DecidableEq

/-- The place behind one more byte together with the open brackets, innermost first. -/
abbrev Place.After := Except Cause (Place × List Frame)

/-! ## One byte -/

/-- A byte where a value has to start. -/
def Place.startValue (frames : List Frame) (b : UInt8) : Place.After :=
  if b = Byte.letterN || b = Byte.letterT || b = Byte.letterF then
    .ok (.inWord (wordTail b), frames)
  else if b = Byte.minus then .ok (.inNumber .start, frames)
  else if b = Byte.zero then .ok (.inNumber .zero, frames)
  else if Byte.isDigit b then .ok (.inNumber .whole, frames)
  else if b = Byte.quote then .ok (.inString .text, frames)
  else if b = Byte.openList then .ok (.opened, .list :: frames)
  else if b = Byte.openObject then .ok (.opened, .object :: frames)
  else .error .expectedValue

/-- A byte where a name has to start. -/
def Place.startName (frames : List Frame) (b : UInt8) : Place.After :=
  if b = Byte.quote then .ok (.inName .text, frames) else .error .nameNotString

/-- A byte behind a value inside the brackets `frame :: frames`. -/
def Place.afterValue (frame : Frame) (frames : List Frame) (b : UInt8) : Place.After :=
  if b = Byte.comma then
    .ok (match frame with | .list => .value | .object => .name, frame :: frames)
  else if b = frame.closing then .ok (.done, frames)
  else .error frame.expectedEnd

/-- A byte behind the opening bracket `frame`. -/
def Place.afterOpening (frame : Frame) (frames : List Frame) (b : UInt8) : Place.After :=
  if b = frame.closing then .ok (.done, frames)
  else match frame with
    | .list => startValue (frame :: frames) b
    | .object => startName (frame :: frames) b

/-- A byte inside a string: the place behind it, or nothing if the string has ended. -/
def StringPlace.next (place : StringPlace) (b : UInt8) : Except Cause (Option StringPlace) :=
  match place with
  | .text =>
    if b = Byte.quote then .ok none
    else if b = Byte.backslash then .ok (some .backslash)
    else if Byte.isControl b then .error .controlCharacter
    else .ok (some .text)
  | .backslash =>
    if b = Byte.letterU then .ok (some (.hex 3 true))
    else if b = Byte.quote || b = Byte.backslash || b = Byte.slash || b = Byte.letterB ||
      b = Byte.letterF || b = Byte.letterN || b = Byte.letterR || b = Byte.letterT then
      .ok (some .text)
    else .error .invalidEscape
  | .hex left valid =>
    let valid := valid && (Byte.hexDigit? b).isSome
    match left with
    | left + 1 => .ok (some (.hex left valid))
    | 0 => if valid then .ok (some .text) else .error .invalidEscape

/-- A byte inside a number: the place behind it, or nothing if the number has ended before
it. -/
def NumberPlace.next (place : NumberPlace) (b : UInt8) :
    Except Cause (Option NumberPlace) :=
  let beyondWhole : Option NumberPlace :=
    if b = Byte.point then some .point
    else if Byte.isExponentMark b then some .mark
    else none
  match place with
  | .start =>
    if b = Byte.zero then .ok (some .zero)
    else if Byte.isDigit b then .ok (some .whole)
    else .error .invalidNumber
  | .zero => if Byte.isDigit b then .error .invalidNumber else .ok beyondWhole
  | .whole => if Byte.isDigit b then .ok (some .whole) else .ok beyondWhole
  | .point => if Byte.isDigit b then .ok (some .fraction) else .error .invalidNumber
  | .fraction =>
    if Byte.isDigit b then .ok (some .fraction)
    else if Byte.isExponentMark b then .ok (some .mark)
    else .ok none
  | .mark =>
    if b = Byte.plus || b = Byte.minus then .ok (some .exponentSign)
    else if Byte.isDigit b then .ok (some .exponent)
    else .error .invalidNumber
  | .exponentSign => if Byte.isDigit b then .ok (some .exponent) else .error .invalidNumber
  | .exponent => if Byte.isDigit b then .ok (some .exponent) else .ok none

/-- Whether a number may end here. -/
def NumberPlace.isComplete : NumberPlace → Bool
  | .zero | .whole | .fraction | .exponent => true
  | _ => false

/-! ## The machine -/

/-- What is wrong when the text ends at a place. A number that may end there is no value of its
own any more, only the bracket around it is missing. -/
def Place.endCause (place : Place) (frames : List Frame) : Option Cause :=
  let outer := frames.head?.map Frame.endCause
  match place with
  | .value | .inWord (_ :: _) => some .endOfValue
  | .opened | .done | .inWord [] => outer
  | .name | .colon => some .endOfObject
  | .inName _ | .inString _ => some .endOfString
  | .inNumber place => if place.isComplete then outer else some .invalidNumber

/-- A byte behind a value: nothing if no bracket is open, since the value is then complete. -/
def Place.behind (frames : List Frame) (b : UInt8) : Option Place.After :=
  match frames with
  | [] => none
  | frame :: frames =>
    some (if Byte.isBlank b then .ok (.done, frame :: frames) else afterValue frame frames b)

/-- One byte; nothing if the value was complete before it. -/
def Place.next (place : Place) (frames : List Frame) (b : UInt8) : Option Place.After :=
  match place with
  | .value =>
    some (if Byte.isBlank b then .ok (.value, frames) else startValue frames b)
  | .opened =>
    match frames with
    | [] => none
    | frame :: frames =>
      some (if Byte.isBlank b then .ok (.opened, frame :: frames)
        else afterOpening frame frames b)
  | .name => some (if Byte.isBlank b then .ok (.name, frames) else startName frames b)
  | .inName place =>
    some (match place.next b with
      | .error c => .error c
      | .ok none => .ok (.colon, frames)
      | .ok (some place) => .ok (.inName place, frames))
  | .colon =>
    some (if Byte.isBlank b then .ok (.colon, frames)
      else if b = Byte.colon then .ok (.value, frames)
      else .error .expectedColon)
  | .inString place =>
    some (match place.next b with
      | .error c => .error c
      | .ok none => .ok (.done, frames)
      | .ok (some place) => .ok (.inString place, frames))
  | .inNumber place =>
    match place.next b with
    | .error c => some (.error c)
    | .ok (some place) => some (.ok (.inNumber place, frames))
    | .ok none => behind frames b
  | .inWord (w :: rest) =>
    some (if b = w then
      .ok (match rest with | [] => .done | _ => .inWord rest, frames)
    else .error .expectedWord)
  | .inWord [] | .done => behind frames b

/-- The number of unread bytes to report for a mistake at a byte with `rest` behind it. The byte
counts as read, except for a control character. -/
def unreadAt (cause : Cause) (rest : Bytes) : Nat :=
  if cause = .controlCharacter then rest.length + 1 else rest.length

/-- Runs the machine until the value is complete and returns the rest. -/
def passValue (place : Place) (frames : List Frame) : Bytes → Except Mistake Bytes
  | [] =>
    match place.endCause frames with
    | some cause => .error ⟨cause, 0⟩
    | none => .ok []
  | b :: rest =>
    match place.next frames b with
    | none => .ok (b :: rest)
    | some (.error cause) => .error ⟨cause, unreadAt cause rest⟩
    | some (.ok (place, frames)) => passValue place frames rest

/-- Passes over the next value. -/
def skipValue (s : Bytes) : Except Mistake Bytes := passValue .value [] s

end DeferredMatrix.Json
