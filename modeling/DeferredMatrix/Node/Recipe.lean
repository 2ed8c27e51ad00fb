import DeferredMatrix.Config
import DeferredMatrix.Node.Basic

/-!
# Recipes

A recipe says which node to make from given operands. Most make a single operation; an inverse
is a compound of three steps: the determinant, the adjugate, and their quotient.
-/

namespace DeferredMatrix

variable {α : Type} {ρ σ : Kind → Type}

inductive Recipe (α : Type) (ρ : Kind → Type) where
  | single (i : Instruction α ρ)
  | inverse (input : ρ .matrix) (epsilon : α)

namespace Recipe

/-! ## The recipes that callers choose from -/

def identity : Recipe α ρ := single .identity

def multiply (a b : ρ .matrix) : Recipe α ρ := single (.multiply a b)

def add (a b : ρ .matrix) : Recipe α ρ := single (.add a b)

def transpose (a : ρ .matrix) : Recipe α ρ := single (.transpose a)

def scale (a : ρ .matrix) (factor : ρ .scalar) : Recipe α ρ := single (.scale a factor)

/-- The determinant without a threshold. -/
def determinant (a : ρ .matrix) : Recipe α ρ := single (.determinant a none)

def transform (v : ρ .vector) (a : ρ .matrix) : Recipe α ρ := single (.transform v a)

/-- The inverse with the thresholds of a configuration. -/
def inverseWith (c : Config) (a : ρ .matrix) : Recipe Float32 ρ := inverse a c.singularEpsilon

/-! ## Making nodes -/

/-- Replaces every operand if all can be replaced. -/
def traverse (f : (k : Kind) → ρ k → Option (σ k)) : Recipe α ρ → Option (Recipe α σ)
  | single i => (i.traverse f).map single
  | inverse input epsilon => (f _ input).map (inverse · epsilon)

/-- The compound that inverts a matrix. It stops at its first step if the determinant does not
reach `epsilon`. -/
def makeInverse [Scalar α] (w : World α) (label : String) (input : Operand α .matrix)
    (epsilon : α) : Except (Stop α) (Compound α × World α) := do
  let (d, w) := Draft.create w label
  let (det, d, w) ← d.push w .scalar (.determinant input (some epsilon))
  let (adj, d, w) ← d.push w .matrix (.adjugate input)
  let (_, d, w) ← d.push w .matrix (.divide (.handle adj) (.handle det) epsilon)
  match d.finish w .matrix with
  | (.ok c, w) => return (c, w)
  | (.error b, _) => throw (.breach b)

def make [Scalar α] (w : World α) (label : String) :
    Recipe α (Operand α) → Except (Stop α) (Node α × World α)
  | single i =>
    let (o, w) := Operation.start w label i
    .ok (.operation o, w)
  | inverse input epsilon => do
    let (c, w) ← makeInverse w label input epsilon
    return (.compound c, w)

end Recipe

end DeferredMatrix
