import DeferredMatrix.Failure

/-!
# Events

What happens to buffers and nodes is recorded as events, in order. The times they take are not,
nor is the loading of a configuration, which concerns no buffer.
-/

namespace DeferredMatrix

inductive Event (α : Type) where
  /-- A buffer was allocated with so many slots. -/
  | allocated (buffer : BufferId) (slots : Nat)
  | released (buffer : BufferId)
  /-- An operation has computed its result. -/
  | evaluated (buffer : BufferId) (code : Opcode)
  | stepEvaluated (buffer : BufferId) (step : Nat) (code : Opcode)
  | stepFailed (buffer : BufferId) (step : Nat) (failure : Failure α)
  /-- A determinant did not reach its threshold. -/
  | inversionRefused (determinant epsilon : α)
  | graphEvaluated (nodes : Nat)
  /-- A dependency was left out because it closes a cycle. Nodes are given by their places in the
  graph, counted from zero. -/
  | edgeSkipped (node dependency : Nat)
  deriving DecidableEq

namespace Event

variable {α : Type}

/-- How detailed a log has to be to show an event. -/
inductive Level where
  | debug
  | trace
  deriving DecidableEq

def Level.name : Level → String
  | debug => "DEBUG"
  | trace => "TRACE"

def level : Event α → Level
  | evaluated .. | stepEvaluated .. => .trace
  | _ => .debug

def message : Event α → String
  | allocated .. => "allocated result buffer"
  | released .. => "released result buffer"
  | evaluated .. => "evaluated operation"
  | stepEvaluated .. => "evaluated compound step"
  | stepFailed .. => "compound step failed"
  | inversionRefused .. => "refusing to invert singular matrix"
  | graphEvaluated .. => "evaluated op graph"
  | edgeSkipped .. => "skipping op graph cycle edge"

/-- How messages call the node at a place of a graph: by its number, counted from one, and the
generation of that number, which is always the first. -/
def nodeText (place : Nat) : String :=
  Text.wrapped "NodeId" (toString (place + 1) ++ "v1")

end Event

end DeferredMatrix
