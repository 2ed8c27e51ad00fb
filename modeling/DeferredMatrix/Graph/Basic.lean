import DeferredMatrix.Node.Basic

/-!
# Graphs of nodes

A graph owns its nodes. A node depends on those nodes of the graph whose buffers it reads.
-/

namespace DeferredMatrix

variable {α : Type}

/-- The nodes in the order in which they were pushed. -/
structure Graph (α : Type) where
  nodes : Array (Node α)

/-- The last place below `n` whose node owns a buffer. -/
def ownerBelow? (nodes : Array (Node α)) (b : BufferId) : (n : Nat) → Option Nat
  | 0 => none
  | n + 1 => if nodes[n]?.map Node.buffer = some b then some n else ownerBelow? nodes b n

/-- The place of the node that owns a buffer, of the one pushed last if there were several. -/
def producer? (nodes : Array (Node α)) (b : BufferId) : Option Nat :=
  ownerBelow? nodes b nodes.size

/-- The places of the nodes that a node depends on, in the order in which it reads them. -/
def dependencies (nodes : Array (Node α)) (n : Node α) : List Nat :=
  n.externalInputs.filterMap (producer? nodes)

namespace Graph

def empty : Graph α := ⟨#[]⟩

def push (g : Graph α) (n : Node α) : Graph α := ⟨g.nodes.push n⟩

def numNodes (g : Graph α) : Nat := g.nodes.size

/-- Releases the buffers of all nodes. -/
def release (g : Graph α) (w : World α) : Graph α × World α :=
  let (nodes, w) := g.nodes.foldl (fun (nodes, w) n =>
    let (n, w) := n.release w
    (nodes.push n, w)) (#[], w)
  (⟨nodes⟩, w)

end Graph

end DeferredMatrix
