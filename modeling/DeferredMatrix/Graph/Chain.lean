import DeferredMatrix.Graph.Basic

/-!
# Chains

In a chain of operations every one takes the result of the one before.
-/

namespace DeferredMatrix

variable {α : Type} {ρ σ : Kind → Type}

/-- An instruction with a gap for the previous result. -/
inductive Link (α : Type) (ρ : Kind → Type) where
  | transpose
  | scale (factor : ρ .scalar)
  /-- The previous result times a matrix. -/
  | multiply (rhs : ρ .matrix)
  /-- A matrix times the previous result. -/
  | multiplyLeft (lhs : ρ .matrix)
  | add (rhs : ρ .matrix)

namespace Link

def traverse (f : (k : Kind) → ρ k → Option (σ k)) : Link α ρ → Option (Link α σ)
  | transpose => some transpose
  | scale factor => (f _ factor).map scale
  | multiply rhs => (f _ rhs).map multiply
  | multiplyLeft lhs => (f _ lhs).map multiplyLeft
  | add rhs => (f _ rhs).map add

/-- Fills the gap. -/
def fill (previous : ρ .matrix) : Link α ρ → Instruction α ρ
  | transpose => .transpose previous
  | scale factor => .scale previous factor
  | multiply rhs => .multiply previous rhs
  | multiplyLeft lhs => .multiply lhs previous
  | add rhs => .add previous rhs

theorem output_fill (previous : ρ .matrix) (l : Link α ρ) : (l.fill previous).output = .matrix := by
  cases l <;> rfl

end Link

/-- A chain under construction: its operations, what the next one takes, and the world. -/
structure Chain (α : Type) where
  nodes : Array (Node α)
  next : Operand α .matrix
  world : World α

namespace Chain

/-- Adds one operation, labelled by its number behind `label`. -/
def extend [Scalar α] (label : String) (link : Link α (Operand α)) (c : Chain α) : Chain α :=
  let (o, w) :=
    Operation.start c.world (label ++ "." ++ toString c.nodes.size) (link.fill c.next)
  ⟨c.nodes.push (.operation o), .handle ⟨o.buffer, 0⟩, w⟩

/-- A chain of `length` operations, the first of which takes `first`. -/
def build [Scalar α] (w : World α) (label : String) (link : Link α (Operand α))
    (first : Operand α .matrix) (length : Nat) : Chain α :=
  (List.range length).foldl (fun c _ => c.extend label link) ⟨#[], first, w⟩

end Chain

/-- The graph with the nodes of an array added in order. -/
def Graph.pushAll (g : Graph α) (nodes : Array (Node α)) : Graph α := nodes.foldl Graph.push g

end DeferredMatrix
