import DeferredMatrix.Buffer.Lease
import DeferredMatrix.Program.Instruction

/-!
# Operations

An operation is one deferred instruction with a buffer of one slot for its result. It computes
when it is evaluated for the first time and only then.
-/

namespace DeferredMatrix

variable {α : Type}

/-- Computes an instruction and writes its result to a place. -/
def Instruction.run [Scalar α] (i : Instruction α (Operand α)) (place : Place) (p : Pool α) :
    Except (Stop α) (Pool α) := do
  let v ← i.execute p
  p.write place v.slots

/-- The outcome of evaluating a node: the node and the world afterwards, and whether something
stopped the evaluation. -/
structure Attempt (ν α : Type) where
  node : ν
  world : World α
  result : Except (Stop α) Unit

structure Operation (α : Type) where
  instruction : Instruction α (Operand α)
  lease : Lease
  evaluated : Bool

namespace Operation

/-- A new operation for an instruction. -/
def start [Scalar α] (w : World α) (label : String) (i : Instruction α (Operand α)) :
    Operation α × World α :=
  let (lease, w) := Lease.allocate w label [i.output]
  (⟨i, lease, false⟩, w)

/-- A new operation whose result has the kind `k`. Nothing is allocated if the instruction does
not produce such a result. -/
def create [Scalar α] (w : World α) (label : String) (k : Kind)
    (i : Instruction α (Operand α)) : Except Breach (Operation α × World α) :=
  if i.output = k then .ok (start w label i) else .error (.notProduced i.code k)

def buffer (o : Operation α) : BufferId := o.lease.buffer

abbrev kind (o : Operation α) : Kind := o.instruction.output

def handle (o : Operation α) : Handle o.kind := ⟨o.buffer, 0⟩

/-- Computes the result unless that has been done before. -/
def evaluate [Scalar α] (o : Operation α) (w : World α) : Attempt (Operation α) α :=
  if o.lease.released then ⟨o, w, .error (.failure (.dangling o.buffer))⟩
  else if o.evaluated then ⟨o, w, .ok ()⟩
  else match o.instruction.run o.handle.place w.pool with
    | .error s => ⟨o, w.noteRefusal s, .error s⟩
    | .ok p =>
      ⟨{ o with evaluated := true }, (w.setPool p).emit (.evaluated o.buffer o.instruction.code),
        .ok ()⟩

/-- The buffers that the operation reads, in order and with repetitions. -/
def externalInputs (o : Operation α) : List BufferId := o.instruction.inputs.map Place.buffer

def text [ToText α] (label : BufferId → String) (o : Operation α) : String :=
  Text.record "Operation" [("op", o.instruction.text label), ("buffer", o.buffer.text label),
    ("evaluated", Text.bool o.evaluated)]

end Operation

end DeferredMatrix
