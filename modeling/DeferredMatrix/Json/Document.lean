import DeferredMatrix.Json.Layout

/-!
# JSON documents

A document is a tree of atoms, lists and objects. `compact` writes it without blanks,
`pretty` with one element per line.
-/

namespace DeferredMatrix.Json

/-- An atom holds its own JSON text. Member names are written as they are. -/
inductive Document where
  | atom (text : String)
  | list (items : List Document)
  | object (members : List (String × Document))

namespace Document

def float (x : Float32) : Document := atom (singleLayout.float32 x)

/-- A text without characters that need an escape. -/
def plain (s : String) : Document := atom ("\"" ++ s ++ "\"")

def memberName (name : String) : String := "\"" ++ name ++ "\""

/-! ## Compact text -/

mutual

def compact : Document → String
  | atom text => text
  | list items => "[" ++ ",".intercalate (compactItems items) ++ "]"
  | object members => "\x7b" ++ ",".intercalate (compactMembers members) ++ "\x7d"

def compactItems : List Document → List String
  | [] => []
  | d :: rest => d.compact :: compactItems rest

def compactMembers : List (String × Document) → List String
  | [] => []
  | (name, d) :: rest => (memberName name ++ ":" ++ d.compact) :: compactMembers rest

end

/-! ## Text with one element per line -/

def indent (depth : Nat) : String := "".pushn ' ' (2 * depth)

/-- Elements between brackets, each on a line of its own one step further in. -/
def block (opening closing : String) (depth : Nat) (elements : List String) : String :=
  if elements.isEmpty then opening ++ closing
  else
    opening ++ "\n" ++ ",\n".intercalate (elements.map (indent (depth + 1) ++ ·)) ++ "\n" ++
      indent depth ++ closing

mutual

def prettyAt (depth : Nat) : Document → String
  | atom text => text
  | list items => block "[" "]" depth (prettyItems (depth + 1) items)
  | object members => block "\x7b" "\x7d" depth (prettyMembers (depth + 1) members)

def prettyItems (depth : Nat) : List Document → List String
  | [] => []
  | d :: rest => prettyAt depth d :: prettyItems depth rest

def prettyMembers (depth : Nat) : List (String × Document) → List String
  | [] => []
  | (name, d) :: rest => (memberName name ++ ": " ++ prettyAt depth d) :: prettyMembers depth rest

end

def pretty (d : Document) : String := prettyAt 0 d

end Document

end DeferredMatrix.Json
