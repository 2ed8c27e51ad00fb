import DeferredMatrix.Buffer.Handle
import DeferredMatrix.Program.Opcode
import DeferredMatrix.Value.Text

/-!
# Failures and breaches

* A `Failure` is an answer that callers have to expect: a buffer is gone, a value has not been
  computed, a matrix is singular.
* A `Breach` is a misuse that correct callers rule out.
* `Stop` is either of them.
-/

namespace DeferredMatrix

inductive Failure (α : Type) where
  | dangling (buffer : BufferId)
  | singular (determinant epsilon : α)
  | unevaluated (place : Place)
  deriving DecidableEq

inductive Breach where
  /-- An instruction was used for a value of a kind that it does not produce. -/
  | notProduced (code : Opcode) (wanted : Kind)
  /-- A slot holds another kind of value than the handle to it says. -/
  | slotKind (place : Place) (held wanted : Kind)
  /-- The result of a compound has another kind than asked for. -/
  | resultKind (produced wanted : Kind)
  | noSteps
  /-- A step reads a slot of its own compound that no earlier step writes. -/
  | readsAhead (step slot : Nat)
  /-- A value of the wrong number of elements was written to a slot. -/
  | writtenWidth (width : Nat) (kind : Kind)
  /-- A value was to be read from the wrong number of elements. -/
  | valueWidth (width : Nat) (kind : Kind)
  | noSlot (place : Place)
  /-- A buffer was to get more slots than it can number. -/
  | tooManySlots
  | outOfBounds (length index : Nat)
  deriving DecidableEq

inductive Stop (α : Type) where
  | failure (f : Failure α)
  | breach (b : Breach)
  deriving DecidableEq

/-! ## Messages -/

/-- In sentences, floats are written without exponents and whole numbers without a fraction. -/
def sentenceLayout : Decimal.Layout where
  positionalFrom := none
  positionalTo := none
  keepsFraction := false
  signsExponent := false
  tie := .away
  nan := "NaN"
  infinity := "inf"
  negInfinity := "-inf"

def Failure.message (label : BufferId → String) : Failure Float32 → String
  | dangling buffer =>
    "result buffer " ++ buffer.text label ++ " was released while a handle still referenced it"
  | singular determinant epsilon =>
    "matrix is singular: determinant " ++ sentenceLayout.float32 determinant ++ " is within " ++
      sentenceLayout.float32 epsilon ++ " of zero"
  | unevaluated place =>
    "slot " ++ toString place.slot ++ " of result buffer " ++ place.buffer.text label ++
      " has not been evaluated"

namespace Breach

/-- What two unequal things are compared for. -/
def unequal (subject left right : String) : String :=
  "assertion `left == right` failed: " ++ subject ++ "\n  left: " ++ left ++ "\n right: " ++ right

def message (label : BufferId → String) : Breach → String
  | notProduced code wanted =>
    unequal (code.name ++ " does not produce a " ++ wanted.name) code.output.name wanted.name
  | slotKind place held wanted =>
    unequal ("slot " ++ toString place.slot ++ " of buffer " ++ place.buffer.text label ++
      " does not hold a " ++ wanted.name) held.name wanted.name
  | resultKind produced wanted =>
    unequal ("last step of a compound producing " ++ wanted.name ++ " yields " ++ produced.name)
      produced.name wanted.name
  | noSteps => "compound operation must have at least one step"
  | readsAhead step slot =>
    "step " ++ toString step ++ " reads slot " ++ toString slot ++ " before it is written"
  | writtenWidth width kind =>
    unequal ("value of width " ++ toString width ++ " written to " ++ kind.name ++ " slot")
      (toString width) (toString kind.width)
  | valueWidth width kind =>
    unequal ("slot width mismatch for " ++ kind.name) (toString width) (toString kind.width)
  | noSlot place =>
    "slot " ++ toString place.slot ++ " out of bounds for buffer " ++ place.buffer.text label
  | tooManySlots => "too many slots in one buffer: TryFromIntError(())"
  | outOfBounds length index =>
    "index out of bounds: the len is " ++ toString length ++ " but the index is " ++ toString index

end Breach

end DeferredMatrix
