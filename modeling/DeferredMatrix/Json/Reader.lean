import DeferredMatrix.Json.Number
import DeferredMatrix.Json.Skip
import DeferredMatrix.Json.Text

/-!
# Reading typed values

* `readFloat`, `readNull` and `readString` read scalars.
* `readList` reads a list of fixed length, `readRecord` a record that is written as an object
  or as the list of its fields.
* `decode` reads a whole text.

Reading stops at the first mistake. A list that is too short and a record with a missing field
are noticed at their closing bracket.
-/

namespace DeferredMatrix.Json

/-- A reading function. -/
abbrev Read (β : Type) := Bytes → Except Mistake (β × Bytes)

/-! ## Values of the wrong type -/

/-- What is reported when `wanted` cannot start with the next byte. A scalar is read first, so a
mistake inside it comes before the mismatch; brackets are left unread. -/
def mismatch (wanted : String) (s : Bytes) : Mistake :=
  let report (found : Found) (rest : Bytes) : Mistake := ⟨.invalidType found wanted, rest.length⟩
  match s with
  | [] => ⟨.endOfValue, 0⟩
  | b :: rest =>
    if b = Byte.letterN || b = Byte.letterT || b = Byte.letterF then
      match expectWord (wordTail b) rest with
      | .error m => m
      | .ok rest =>
        report (if b = Byte.letterN then .null else .boolean (b = Byte.letterT)) rest
    else if startsNumber b then
      match readNumber s with
      | .error m => m
      | .ok (n, rest) => report (.number n) rest
    else if b = Byte.quote then
      match readString rest with
      | .error m => m
      | .ok (text, rest) => report (.string text) rest
    else if b = Byte.openList then report .sequence s
    else if b = Byte.openObject then report .map s
    else ⟨.expectedValue, rest.length⟩

/-! ## Scalars -/

def readFloat : Read Float32 := fun s => do
  let s := skipBlank s
  if startsWith startsNumber s then
    let (n, rest) ← readNumber s
    return (n.toFloat32, rest)
  else throw (mismatch "f32" s)

def readNull : Read Unit := fun s =>
  match skipBlank s with
  | Byte.letterN :: rest => (expectWord (wordTail Byte.letterN) rest).map ((), ·)
  | s => .error (mismatch "unit" s)

/-- A string that names an alternative. -/
def readTag : Read String := fun s =>
  match skipBlank s with
  | Byte.quote :: rest => readString rest
  | s => .error (mismatch "variant identifier" s)

/-! ## Lists -/

/-- The place of the next element, or nothing at the closing bracket. -/
def nextElement (isFirst : Bool) (s : Bytes) : Except Mistake (Option Bytes) :=
  match skipBlank s with
  | [] => .error ⟨.endOfList, 0⟩
  | b :: rest =>
    if b = Byte.closeList then .ok none
    else if isFirst then .ok (some (b :: rest))
    else if b = Byte.comma then
      match skipBlank rest with
      | [] => .error ⟨.endOfValue, 0⟩
      | b :: rest =>
        if b = Byte.closeList then .error ⟨.trailingComma, rest.length⟩
        else .ok (some (b :: rest))
    else .error ⟨.expectedListEnd, rest.length⟩

/-- The next elements, at most `count` of them. -/
def readElements {γ : Type} (element : Read γ) : (count : Nat) → (isFirst : Bool) →
    Read (List γ)
  | 0, _, s => return ([], s)
  | count + 1, isFirst, s => do
    match ← nextElement isFirst s with
    | none => return ([], s)
    | some place =>
      let (x, rest) ← element place
      let (xs, rest) ← readElements element count false rest
      return (x :: xs, rest)

/-- The bracket behind the last element that is wanted. -/
def closeList (s : Bytes) : Except Mistake Bytes :=
  match skipBlank s with
  | [] => .error ⟨.endOfList, 0⟩
  | b :: rest =>
    if b = Byte.closeList then .ok rest
    else if b = Byte.comma then
      let rest := skipBlank rest
      .error (mistakeAt
        (if startsWith (· == Byte.closeList) rest then .trailingComma else .trailingCharacters)
        rest)
    else .error ⟨.trailingCharacters, rest.length⟩

/-- Where a mistake in the contents of a list is reported: behind the bracket that follows. -/
def unreadBehindList (s : Bytes) : Nat :=
  match closeList s with
  | .ok rest => rest.length
  | .error _ => (skipBlank s).length

/-- A list from behind its opening bracket: `count` elements, put together by `build`, which
refuses a list that is too short. `fill` supplies elements that were left out. -/
def readListBody {γ β : Type} (element : Read γ) (count : Nat) (wanted : String)
    (fill : Option γ) (build : List γ → Option β) : Read β := fun s => do
  let (xs, rest) ← readElements element count true s
  let missing := fill.elim [] (List.replicate (count - xs.length))
  match build (xs ++ missing) with
  | none => throw ⟨.invalidLength xs.length wanted, unreadBehindList rest⟩
  | some value => return (value, ← closeList rest)

/-- A list of `count` elements. -/
def readList {γ β : Type} (element : Read γ) (count : Nat) (build : List γ → Option β) :
    Read β := fun s =>
  let wanted := "an array of length " ++ toString count
  match skipBlank s with
  | Byte.openList :: rest => readListBody element count wanted none build rest
  | s => .error (mismatch wanted s)

/-! ## Records -/

/-- A record whose fields all hold the same type. -/
structure Schema (γ β : Type) where
  /-- What a message says is wanted. -/
  title : String
  /-- What a message says about a list of the wrong length. -/
  listTitle : String
  fields : List String
  field : Read γ
  /-- The value of a field that is left out; without one it is a mistake to leave it out. -/
  fallback : Option γ
  /-- Other members are mistakes; otherwise they are passed over. -/
  isClosed : Bool
  /-- Puts the fields together in the order of `fields`. -/
  build : List γ → Option β

/-- The place behind the opening quote of the next name, or nothing at the closing bracket. -/
def nextName (isFirst : Bool) (s : Bytes) : Except Mistake (Option Bytes) :=
  match skipBlank s with
  | [] => .error ⟨.endOfObject, 0⟩
  | b :: rest =>
    if b = Byte.closeObject then .ok none
    else if isFirst then
      if b = Byte.quote then .ok (some rest) else .error ⟨.nameNotString, rest.length⟩
    else if b = Byte.comma then
      match skipBlank rest with
      | [] => .error ⟨.endOfValue, 0⟩
      | b :: rest =>
        if b = Byte.quote then .ok (some rest)
        else if b = Byte.closeObject then .error ⟨.trailingComma, rest.length⟩
        else .error ⟨.nameNotString, rest.length⟩
    else .error ⟨.expectedObjectEnd, rest.length⟩

/-- The colon behind a name. -/
def expectColon (s : Bytes) : Except Mistake Bytes :=
  match skipBlank s with
  | [] => .error ⟨.endOfObject, 0⟩
  | b :: rest => if b = Byte.colon then .ok rest else .error ⟨.expectedColon, rest.length⟩

/-- The bracket behind the last member. -/
def closeObject (s : Bytes) : Except Mistake Bytes :=
  match skipBlank s with
  | [] => .error ⟨.endOfObject, 0⟩
  | b :: rest =>
    if b = Byte.closeObject then .ok rest
    else .error
      ⟨if b = Byte.comma then .trailingComma else .trailingCharacters, rest.length⟩

/-- Where a mistake in the contents of an object is reported: behind the blanks and the bracket
that follow. -/
def unreadBehindObject (s : Bytes) : Nat :=
  match closeObject s with
  | .ok rest => rest.length
  | .error _ => (skipBlank s).length

namespace Schema

variable {γ β : Type}

/-- A member from behind the opening quote of its name. Returns the field read, or nothing for a
member that was passed over. -/
def readMember (r : Schema γ β) (known : List (String × γ)) : Read (Option (String × γ)) :=
  fun s => do
  let (name, rest) ← readString s
  if r.fields.contains name then
    if (known.lookup name).isSome then
      throw ⟨.duplicateField name, unreadBehindObject rest⟩
    let (x, rest) ← r.field (← expectColon rest)
    return (some (name, x), rest)
  else if r.isClosed then throw ⟨.unknownField name r.fields, unreadBehindObject rest⟩
  else return (none, ← skipValue (← expectColon rest))

/-- The members up to the closing bracket. A member takes at least one byte, so there are at
most `limit` of them in as many bytes. -/
def readMembers (r : Schema γ β) : (limit : Nat) → (isFirst : Bool) → List (String × γ) →
    Read (List (String × γ))
  | 0, _, known, s => return (known, s)
  | limit + 1, isFirst, known, s => do
    match ← nextName isFirst s with
    | none => return (known, s)
    | some place =>
      let (member, rest) ← r.readMember known place
      r.readMembers limit false (member.toList ++ known) rest

/-- The values of the fields in order, or the first one that is missing. -/
def collect (r : Schema γ β) (known : List (String × γ)) : Except String (List γ) :=
  r.fields.mapM fun name =>
    match (known.lookup name).or r.fallback with
    | some x => .ok x
    | none => .error name

/-- A record from behind the opening bracket of an object. -/
def readObjectBody (r : Schema γ β) : Read β := fun s => do
  let (known, rest) ← r.readMembers (s.length + 1) true [] s
  match r.collect known with
  | .error name => throw ⟨.missingField name, unreadBehindObject rest⟩
  | .ok xs =>
    match r.build xs with
    | none => throw ⟨.invalidLength xs.length r.listTitle, unreadBehindObject rest⟩
    | some value => return (value, ← closeObject rest)

end Schema

/-- A record, written as an object or as a list. -/
def readRecord {γ β : Type} (r : Schema γ β) : Read β := fun s =>
  match skipBlank s with
  | Byte.openList :: rest =>
    readListBody r.field r.fields.length r.listTitle r.fallback r.build rest
  | Byte.openObject :: rest => r.readObjectBody rest
  | s => .error (mismatch r.title s)

/-! ## Alternatives -/

/-- One of several names, written as a string or as an object with the name before `null`. -/
def readVariant {β : Type} (names : List String) (ofName? : String → Option β) : Read β :=
  fun s => do
  let choose (name : String) (rest : Bytes) : Except Mistake β :=
    match ofName? name with
    | some value => return value
    | none => throw ⟨.unknownVariant name names, rest.length⟩
  match skipBlank s with
  | [] => throw ⟨.endOfValue, 0⟩
  | Byte.quote :: rest =>
    let (name, rest) ← readString rest
    return (← choose name rest, rest)
  | Byte.openObject :: rest =>
    let (name, rest) ← readTag rest
    let value ← choose name rest
    let ((), rest) ← readNull (← expectColon rest)
    match skipBlank rest with
    | [] => throw ⟨.endOfObject, 0⟩
    | Byte.closeObject :: rest => return (value, rest)
    | rest => throw ⟨.expectedValue, rest.length⟩
  | _ :: rest => throw ⟨.expectedValue, rest.length⟩

/-! ## Whole texts -/

/-- Reads a text that holds one value and nothing else but blanks. -/
def readWhole {β : Type} (read : Read β) (text : Bytes) : Except Mistake β := do
  let (value, rest) ← read text
  match skipBlank rest with
  | [] => return value
  | rest => throw (mistakeAt .trailingCharacters rest)

/-- Reads a whole text and says where a mistake is. -/
def decode {β : Type} (read : Read β) (text : Bytes) : Except Error β :=
  (readWhole read text).mapError (Mistake.locate text)

/-- The bytes of a text. -/
def bytesOf (s : String) : Bytes := s.toUTF8.toList

end DeferredMatrix.Json
