import DeferredMatrix.Json.Document
import DeferredMatrix.Json.Reader
import DeferredMatrix.Value.Basic

/-!
# Values in JSON

A scalar is a bare number, a vector an object with the members `x`, `y`, `z` and `w`, and a
matrix an object with its rows. Reading also takes the list of the members instead of the
object. A kind is written by its name.
-/

namespace DeferredMatrix

open Json

/-! ## Writing -/

def Vec4.row (v : Vec4 Float32) : Document := .list (v.toList.map .float)

def Value.document : {k : Kind} → Value Float32 k → Document
  | _, .scalar x => .float x
  | _, .vector v =>
    .object [("x", .float v.x), ("y", .float v.y), ("z", .float v.z), ("w", .float v.w)]
  | _, .matrix m => .object [("rows", .list (m.rows.toList.map Vec4.row))]

def Kind.document (k : Kind) : Document := .plain k.name

/-! ## Reading -/

def vectorSchema : Schema Float32 (Vec4 Float32) where
  title := "struct Vector"
  listTitle := "struct Vector with 4 elements"
  fields := ["x", "y", "z", "w"]
  field := readFloat
  fallback := none
  isClosed := false
  build := Vec4.ofList?

def readRows : Read (Vec4 (Vec4 Float32)) :=
  readList (readList readFloat 4 Vec4.ofList?) 4 Vec4.ofList?

def matrixSchema : Schema (Vec4 (Vec4 Float32)) (Mat4 Float32) where
  title := "struct Matrix"
  listTitle := "struct Matrix with 1 element"
  fields := ["rows"]
  field := readRows
  fallback := none
  isClosed := false
  build
    | [rows] => some ⟨rows⟩
    | _ => none

def Value.read : (k : Kind) → Read (Value Float32 k)
  | .scalar => fun s => (readFloat s).map fun (x, rest) => (.scalar x, rest)
  | .vector => fun s => (readRecord vectorSchema s).map fun (v, rest) => (.vector v, rest)
  | .matrix => fun s => (readRecord matrixSchema s).map fun (m, rest) => (.matrix m, rest)

/-- Reads a value of the given kind from a whole text. -/
def Value.ofJson (k : Kind) (text : String) : Except Error (Value Float32 k) :=
  decode (Value.read k) (bytesOf text)

/-- Reads the name of a kind from a whole text. -/
def Kind.ofJson (text : String) : Except Error Kind :=
  decode (readVariant (Kind.all.map Kind.name) Kind.ofName?) (bytesOf text)

end DeferredMatrix
