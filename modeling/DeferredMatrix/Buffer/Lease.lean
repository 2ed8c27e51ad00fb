import DeferredMatrix.Buffer.Event
import DeferredMatrix.Buffer.Pool

/-!
# Leases

A `World` is a pool together with the log of what has happened. A lease is the right to one
buffer. Whoever holds it releases the buffer; releasing it again does nothing.
-/

namespace DeferredMatrix

variable {α : Type}

structure World (α : Type) where
  pool : Pool α
  log : Array (Event α)

namespace World

/-- Nothing has been allocated and nothing has happened. -/
def empty : World α := ⟨.empty, #[]⟩

def emit (w : World α) (e : Event α) : World α := { w with log := w.log.push e }

def setPool (w : World α) (p : Pool α) : World α := { w with pool := p }

/-- Records a singular determinant if that is why `s` stopped a computation. -/
def noteRefusal (w : World α) (s : Stop α) : World α :=
  match s with
  | .failure (.singular determinant epsilon) => w.emit (.inversionRefused determinant epsilon)
  | _ => w

end World

structure Lease where
  buffer : BufferId
  released : Bool
  deriving DecidableEq

namespace Lease

/-- Allocates a buffer that messages call `label`. -/
def allocate [Zero α] (w : World α) (label : String) (layout : List Kind) : Lease × World α :=
  (⟨w.pool.fresh, false⟩,
    (w.setPool (w.pool.allocate label layout)).emit (.allocated w.pool.fresh layout.length))

/-- Allocates a buffer unless its slots are too many. -/
def create [Zero α] (w : World α) (label : String) (layout : List Kind) :
    Except Breach (Lease × World α) := do
  let _ ← (Store.create layout : Except Breach (Store α))
  return allocate w label layout

/-- Releases the buffer unless that has been done before. -/
def release (l : Lease) (w : World α) : Lease × World α :=
  if l.released then (l, w)
  else
    ({ l with released := true },
      (w.setPool (w.pool.release l.buffer)).emit (.released l.buffer))

def text (label : BufferId → String) (l : Lease) : String :=
  Text.record "ResultBuffer" [("id", l.buffer.text label), ("released", Text.bool l.released)]

end Lease

end DeferredMatrix
