/-!
# Records as text

The notation in which structures are shown: a name followed by named fields in braces or by
plain fields in parentheses, and lists in brackets.
-/

namespace DeferredMatrix.Text

/-- `Name { field: text, … }`. -/
def record (name : String) (fields : List (String × String)) : String :=
  name ++ " \x7b " ++ ", ".intercalate (fields.map fun (f, t) => f ++ ": " ++ t) ++ " \x7d"

/-- `Name(text)`. -/
def wrapped (name text : String) : String := name ++ "(" ++ text ++ ")"

/-- `[text, …]`. -/
def list (texts : List String) : String := "[" ++ ", ".intercalate texts ++ "]"

/-- `Some(text)` or `None`. -/
def optional : Option String → String
  | none => "None"
  | some text => wrapped "Some" text

def bool (b : Bool) : String := if b then "true" else "false"

end DeferredMatrix.Text
