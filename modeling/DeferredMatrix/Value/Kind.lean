/-!
# Kinds of values

A value is a scalar, a four-vector or a four-by-four matrix.
-/

namespace DeferredMatrix

inductive Kind where
  | scalar
  | vector
  | matrix
  deriving DecidableEq, Repr

namespace Kind

/-- The number of elements in a value of this kind. -/
def width : Kind → Nat
  | scalar => 1
  | vector => 4
  | matrix => 16

/-- The name in messages and in JSON. -/
def name : Kind → String
  | scalar => "Scalar"
  | vector => "Vector"
  | matrix => "Matrix"

def all : List Kind := [scalar, vector, matrix]

/-- The kind with the given name. -/
def ofName? (s : String) : Option Kind := all.find? fun k => k.name == s

end Kind

end DeferredMatrix
