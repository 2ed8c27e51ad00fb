import DeferredMatrix.Session.Buffers
import DeferredMatrix.Session.Graphs
import DeferredMatrix.Session.Nodes

/-!
# Running commands

`Session.perform` performs one command and `Session.run` a list of them. A command that does not
fit the session has no outcome and changes nothing.

Commands come one after the other. Where several threads share a pool, a lock is taken for every
read and every write, and what they do is an interleaving of smaller steps than commands. Only
programs whose commands are interleaved are considered here.
-/

namespace DeferredMatrix

variable {α : Type}

inductive Command (α : Type) where
  | buffer (c : BufferCommand α)
  | handle (c : HandleCommand α)
  | node (c : NodeCommand α)
  | draft (c : DraftCommand α)
  | graph (c : GraphCommand α)
  /-- Gives back the buffers of an object and keeps the object. -/
  | release (object : String)
  /-- Removes an object and gives back its buffers. -/
  | drop (object : String)

namespace Session

variable [Scalar α] [ToText α]

def perform (s : Session α) : Command α → Option (Outcome α)
  | .buffer c => s.performBuffer c
  | .handle c => s.performHandle c
  | .node c => s.performNode c
  | .draft c => s.performDraft c
  | .graph c => s.performGraph c
  | .release object => do
    let x ← s.object? object
    if x.isReleasable then
      let (x, w) := x.dispose s.world
      return change w (s.objects.replace object x) (.ok .done)
    else none
  | .drop object => do
    let x ← s.object? object
    let (_, w) := x.dispose s.world
    return change w (s.objects.erase object) (.ok .done)

/-- The session after a command. -/
def next (s : Session α) (c : Command α) : Session α := (s.perform c).elim s Outcome.session

/-- The session after a list of commands. -/
def run (s : Session α) (cs : List (Command α)) : Session α := cs.foldl next s

end Session

end DeferredMatrix
