import DeferredMatrix.Text.Record
import DeferredMatrix.Value.Kind

/-!
# Buffers and handles

A buffer is known by its serial number, which is never issued again. A handle names a slot of
a buffer that holds, or is going to hold, a value of a fixed kind. It does not keep the buffer
alive.
-/

namespace DeferredMatrix

structure BufferId where
  serial : Nat
  deriving DecidableEq

/-- A slot of a buffer. -/
structure Place where
  buffer : BufferId
  slot : Nat
  deriving DecidableEq

structure Handle (k : Kind) where
  buffer : BufferId
  slot : Nat
  deriving DecidableEq

def Handle.place {k : Kind} (h : Handle k) : Place := ⟨h.buffer, h.slot⟩

/-! ## Text

Messages call a buffer by a label, which a function supplies. -/

def BufferId.text (label : BufferId → String) (b : BufferId) : String :=
  Text.wrapped "BufferId" (label b)

/-- The full name of the type of values of a kind. -/
def Kind.typeName (k : Kind) : String := "lazymath::value::" ++ k.name

def Handle.text {k : Kind} (label : BufferId → String) (h : Handle k) : String :=
  Text.record "Handle" [("buffer", h.buffer.text label), ("slot", toString h.slot),
    ("type", "\"" ++ k.typeName ++ "\"")]

end DeferredMatrix
