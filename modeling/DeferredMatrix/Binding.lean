import DeferredMatrix.Value.Kind

/-!
# Bindings of declared types

A type declaration may ask to be bound to a kind of value. `Declaration.expand` gives the code
of the binding, token by token, or all that is wrong with the declaration.
-/

namespace DeferredMatrix

/-- The body of a type declaration. -/
inductive Shape where
  /-- One field without a name. -/
  | single
  | named
  /-- Several fields without names. -/
  | positional
  /-- No fields. -/
  | empty
  /-- A choice among alternatives. -/
  | alternatives
  deriving DecidableEq

structure Declaration where
  name : String
  /-- The kind asked for. -/
  kind : Option String
  /-- The parameter list as written, brackets included. -/
  generics : String
  shape : Shape

/-- What is wrong with a declaration. -/
inductive BindingError where
  /-- Faults that are found together: of the shape, and a missing kind. -/
  | incomplete (shape : Shape) (lacksKind : Bool)
  | generic
  | unknownKind (name : String)
  deriving DecidableEq

/-- What is wrong with a shape. Named fields and one unnamed field are supported. -/
def Shape.fault? : Shape → Option String
  | single | named => none
  | positional =>
    some "Unsupported shape `unnamed fields`. Expected named fields or one unnamed field."
  | empty => some "Unsupported shape `no fields`. Expected named fields or one unnamed field."
  | alternatives =>
    some "Unsupported shape `enum`. Expected struct with named fields or one unnamed field."

def BindingError.message : BindingError → String
  | incomplete shape lacksKind =>
    "\n".intercalate (shape.fault?.toList ++ (if lacksKind then ["Missing field `kind`"] else []))
  | generic => "value types cannot be generic"
  | unknownKind name =>
    "unknown value kind '" ++ name ++ "' (expected one of: scalar, vector, matrix)"

/-- The kind with the given name in a declaration, in lower case. -/
def Kind.ofKeyword? : String → Option Kind
  | "scalar" => some .scalar
  | "vector" => some .vector
  | "matrix" => some .matrix
  | _ => none

namespace Declaration

/-- Whether the parameter list names a parameter. -/
def isGeneric (d : Declaration) : Bool :=
  match d.generics.toList.filter (!·.isWhitespace) with
  | '<' :: c :: _ => c != '>'
  | _ => false

/-- The code that binds the type `name` to the kind `kind` and checks its size, with single
blanks between tokens. -/
def code (name : String) (kind : Kind) : String :=
  let path (parts : List String) := String.join (parts.map (":: " ++ · ++ " "))
  let value := path ["lazymath", "value"]
  let size (type : String) := path ["core", "mem", "size_of"] ++ ":: < " ++ type ++ " > () "
  let variant := value ++ ":: ValueKind :: " ++ kind.name ++ " "
  "impl " ++ value ++ ":: Value for " ++ name ++ " \x7b const KIND : " ++ value ++
    ":: ValueKind = " ++ variant ++ "; \x7d const _ : () = " ++ path ["core", "assert"] ++
    "! (" ++ size name ++ "== " ++ variant ++ ". width () * " ++ size "f32" ++
    ", \"size of value type does not match the width of its value kind\") ;"

/-- The shape and the presence of a kind are checked first, then the parameters, then the name
of the kind. -/
def expand (d : Declaration) : Except BindingError String :=
  match d.shape.fault?, d.kind with
  | none, some keyword =>
    if d.isGeneric then .error .generic
    else match Kind.ofKeyword? keyword with
      | some kind => .ok (code d.name kind)
      | none => .error (.unknownKind keyword)
  | _, kind => .error (.incomplete d.shape kind.isNone)

end Declaration

end DeferredMatrix
