import DeferredMatrix.Value.Kind

/-!
# Opcodes

What an instruction does, without its operands.
-/

namespace DeferredMatrix

inductive Opcode where
  | identity
  | multiply
  | transpose
  | add
  | scale
  | determinant
  | adjugate
  /-- The last step of an inversion: the adjugate over the determinant. -/
  | divide
  /-- The product of a row vector and a matrix. -/
  | transform
  deriving DecidableEq

namespace Opcode

/-- The kind of the result. -/
def output : Opcode → Kind
  | determinant => .scalar
  | transform => .vector
  | _ => .matrix

/-- The name in messages. -/
def name : Opcode → String
  | identity => "Identity"
  | multiply => "Multiply"
  | transpose => "Transpose"
  | add => "Add"
  | scale => "Scale"
  | determinant => "Determinant"
  | adjugate => "Adjugate"
  | divide => "DivideByDeterminant"
  | transform => "TransformVector"

/-- The word for it in a listing of a program. -/
def word : Opcode → String
  | identity => "identity"
  | multiply => "multiply"
  | transpose => "transpose"
  | add => "add"
  | scale => "scale"
  | determinant => "determinant"
  | adjugate => "adjugate"
  | divide => "divide"
  | transform => "transform"

end Opcode

end DeferredMatrix
