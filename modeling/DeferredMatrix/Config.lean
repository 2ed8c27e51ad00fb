import DeferredMatrix.Json.Document
import DeferredMatrix.Json.Reader
import DeferredMatrix.Value.Text

/-!
# Configuration of inversion

A configuration holds the threshold below which a determinant counts as zero. It is read from
and written to JSON, and read from a file, whose contents need not be text. Of what can be wrong
with a path, two things are told apart: there is nothing, or there is a directory.
-/

namespace DeferredMatrix

open Json

structure Config where
  singularEpsilon : Float32

namespace Config

/-- One millionth. -/
def standard : Config where
  singularEpsilon := Float32.ofBits 0x358637bd

/-- Whether the threshold equals that of the standard configuration. -/
def isStandard (c : Config) : Bool := c.singularEpsilon == standard.singularEpsilon

def fieldName : String := "singular_epsilon"

/-- A threshold that is left out is the standard one. Other members are refused. -/
def schema : Schema Float32 Config where
  title := "struct EvalConfig"
  listTitle := "struct EvalConfig with 1 element"
  fields := [fieldName]
  field := readFloat
  fallback := some standard.singularEpsilon
  isClosed := true
  build
    | [epsilon] => some ⟨epsilon⟩
    | _ => none

def ofJson (text : String) : Except Error Config := decode (readRecord schema) (bytesOf text)

def toJson (c : Config) : String :=
  (Document.object [(fieldName, .float c.singularEpsilon)]).pretty

def text (c : Config) : String :=
  Text.record "EvalConfig" [(fieldName, floatText c.singularEpsilon)]

/-! ## Files -/

/-- What a path leads to. -/
inductive Source where
  | missing
  | directory
  | file (contents : Bytes)

/-- Why no configuration could be loaded. -/
inductive LoadError where
  | notFound
  | isDirectory
  | notText
  | json (e : Error)

def LoadError.message : LoadError → String
  | notFound => "No such file or directory (os error 2)"
  | isDirectory => "Is a directory (os error 21)"
  | notText => "stream did not contain valid UTF-8"
  | json e => e.message

def load : Source → Except LoadError Config
  | .missing => .error .notFound
  | .directory => .error .isDirectory
  | .file contents =>
    match String.fromUTF8? ⟨contents.toArray⟩ with
    | none => .error .notText
    | some text => (ofJson text).mapError .json

end Config

end DeferredMatrix
