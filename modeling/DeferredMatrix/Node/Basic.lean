import DeferredMatrix.Node.Compound

/-!
# Nodes

A node is an operation or a compound: something with a buffer that computes its result when it
is evaluated. Nodes of other kinds, which evaluate by code of their users, are left out: of such
code nothing is known, and it might well write to a buffer twice or make nodes on its way.
-/

namespace DeferredMatrix

variable {α : Type}

inductive Node (α : Type) where
  | operation (o : Operation α)
  | compound (c : Compound α)

namespace Node

def lease : Node α → Lease
  | operation o => o.lease
  | compound c => c.lease

def setLease (l : Lease) : Node α → Node α
  | operation o => operation { o with lease := l }
  | compound c => compound { c with lease := l }

def buffer (n : Node α) : BufferId := n.lease.buffer

def kind : Node α → Kind
  | operation o => o.kind
  | compound c => c.kind

/-- The handle of the result. -/
def handle : (n : Node α) → Handle n.kind
  | operation o => o.handle
  | compound c => c.handle

def isEvaluated : Node α → Bool
  | operation o => o.evaluated
  | compound c => c.isEvaluated

/-- Computes what has not been computed yet. -/
def evaluate [Scalar α] (w : World α) : Node α → Attempt (Node α) α
  | operation o =>
    let a := o.evaluate w
    ⟨operation a.node, a.world, a.result⟩
  | compound c =>
    let a := c.evaluate w
    ⟨compound a.node, a.world, a.result⟩

/-- Gives the buffer back. -/
def release (n : Node α) (w : World α) : Node α × World α :=
  let (l, w) := n.lease.release w
  (n.setLease l, w)

/-- The buffers that the node reads and does not own. -/
def externalInputs : Node α → List BufferId
  | operation o => o.externalInputs
  | compound c => c.externalInputs

def text [ToText α] (label : BufferId → String) : Node α → String
  | operation o => o.text label
  | compound c => c.text label

end Node

end DeferredMatrix
