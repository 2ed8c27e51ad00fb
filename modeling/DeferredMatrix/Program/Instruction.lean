import DeferredMatrix.Program.Operand
import DeferredMatrix.Value.Kernel

/-!
# Instructions

An instruction is an opcode with its operands. What stands for an operand of each kind is a
parameter: a reference to be looked up, or an `Operand`.

* `Instruction.inputs` lists the places that an instruction reads.
* `Instruction.execute` computes its result.
* `Instruction.listing` shows it with operands by their role.
-/

namespace DeferredMatrix

inductive Instruction (α : Type) (ρ : Kind → Type) where
  | identity
  | multiply (lhs rhs : ρ .matrix)
  | transpose (input : ρ .matrix)
  | add (lhs rhs : ρ .matrix)
  | scale (input : ρ .matrix) (factor : ρ .scalar)
  /-- With a threshold, a determinant that does not reach it is refused. -/
  | determinant (input : ρ .matrix) (threshold : Option α)
  | adjugate (input : ρ .matrix)
  | divide (adjugate : ρ .matrix) (determinant : ρ .scalar) (threshold : α)
  | transform (vector : ρ .vector) (matrix : ρ .matrix)

namespace Instruction

variable {α : Type} {ρ σ : Kind → Type}

def code : Instruction α ρ → Opcode
  | identity => .identity
  | multiply .. => .multiply
  | transpose .. => .transpose
  | add .. => .add
  | scale .. => .scale
  | determinant .. => .determinant
  | adjugate .. => .adjugate
  | divide .. => .divide
  | transform .. => .transform

/-- The kind of the result. -/
abbrev output (i : Instruction α ρ) : Kind := i.code.output

/-- The operands in order, each under its name. -/
def operands : Instruction α ρ → List (String × (k : Kind) × ρ k)
  | identity => []
  | multiply lhs rhs => [("lhs", ⟨_, lhs⟩), ("rhs", ⟨_, rhs⟩)]
  | transpose input => [("input", ⟨_, input⟩)]
  | add lhs rhs => [("lhs", ⟨_, lhs⟩), ("rhs", ⟨_, rhs⟩)]
  | scale input factor => [("input", ⟨_, input⟩), ("factor", ⟨_, factor⟩)]
  | determinant input _ => [("input", ⟨_, input⟩)]
  | adjugate input => [("input", ⟨_, input⟩)]
  | divide adj det _ => [("adjugate", ⟨_, adj⟩), ("determinant", ⟨_, det⟩)]
  | transform vector matrix => [("vector", ⟨_, vector⟩), ("matrix", ⟨_, matrix⟩)]

/-- Replaces every operand, from left to right, if all can be replaced. -/
def traverse (f : (k : Kind) → ρ k → Option (σ k)) :
    Instruction α ρ → Option (Instruction α σ)
  | identity => some identity
  | multiply lhs rhs => do return multiply (← f _ lhs) (← f _ rhs)
  | transpose input => do return transpose (← f _ input)
  | add lhs rhs => do return add (← f _ lhs) (← f _ rhs)
  | scale input factor => do return scale (← f _ input) (← f _ factor)
  | determinant input threshold => do return determinant (← f _ input) threshold
  | adjugate input => do return adjugate (← f _ input)
  | divide adj det threshold => do return divide (← f _ adj) (← f _ det) threshold
  | transform vector matrix => do return transform (← f _ vector) (← f _ matrix)

/-! ## Execution -/

/-- The places that an instruction reads, in the order of its operands. -/
def inputs (i : Instruction α (Operand α)) : List Place :=
  i.operands.filterMap fun (_, ⟨_, o⟩) => o.input?

/-- A determinant that reaches its threshold. -/
def checkInvertible [Scalar α] (determinant threshold : α) : Except (Stop α) Unit :=
  if Scalar.reaches determinant threshold then .ok ()
  else .error (.failure (.singular determinant threshold))

/-- Reads the operands and computes the result. Operands are read from left to right, but a
division reads and checks the determinant before it touches the adjugate. -/
def execute [Scalar α] (p : Pool α) :
    (i : Instruction α (Operand α)) → Except (Stop α) (Value α i.output)
  | identity => return .matrix .identity
  | multiply lhs rhs => do
    let a ← lhs.resolve p
    let b ← rhs.resolve p
    return .matrix (a.toMat4.multiply b.toMat4)
  | transpose input => do
    let a ← input.resolve p
    return .matrix a.toMat4.transpose
  | add lhs rhs => do
    let a ← lhs.resolve p
    let b ← rhs.resolve p
    return .matrix (a.toMat4.add b.toMat4)
  | scale input factor => do
    let a ← input.resolve p
    let c ← factor.resolve p
    return .matrix (a.toMat4.scale c.toScalar)
  | determinant input threshold => do
    let a ← input.resolve p
    let det := a.toMat4.determinant
    if let some epsilon := threshold then checkInvertible det epsilon
    return .scalar det
  | adjugate input => do
    let a ← input.resolve p
    return .matrix a.toMat4.adjugate
  | divide adj det threshold => do
    let d ← det.resolve p
    checkInvertible d.toScalar threshold
    let a ← adj.resolve p
    return .matrix (a.toMat4.scale (Scalar.recip d.toScalar))
  | transform vector matrix => do
    let v ← vector.resolve p
    let m ← matrix.resolve p
    return .vector (v.toVec4.transform m.toMat4)

/-! ## Text -/

/-- The instruction in a listing of a program whose results lie in `owner`. -/
def listing (owner : Option BufferId) (i : Instruction α (Operand α)) : String :=
  i.code.word ++ "(" ++ ", ".intercalate (i.operands.map fun (_, ⟨_, o⟩) => o.listing owner) ++ ")"

/-- The thresholds under their names. -/
def thresholdFields [ToText α] : Instruction α ρ → List (String × String)
  | determinant _ threshold => [("singular_epsilon", Text.optional (threshold.map ToText.text))]
  | divide _ _ threshold => [("epsilon", ToText.text threshold)]
  | _ => []

/-- The instruction as a record of its operands and thresholds. -/
def text [ToText α] (label : BufferId → String) (i : Instruction α (Operand α)) : String :=
  match i.operands.map fun (name, ⟨_, o⟩) => (name, o.text label) with
  | [] => i.code.name
  | operands =>
    Text.wrapped i.code.name (Text.record i.code.name (operands ++ i.thresholdFields))

end Instruction

end DeferredMatrix
