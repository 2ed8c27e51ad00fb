import DeferredMatrix.Node.Operation

/-!
# Compounds

A compound is a sequence of instructions evaluated as one unit. Every step has its own slot in
one buffer and may read the slots of earlier steps. Evaluation goes on behind the last step
that has been completed, so after a failure it resumes at the step that failed. Only the slot
of the last step is handed out.

A `Draft` is a compound under construction.
-/

namespace DeferredMatrix

variable {α : Type}

structure Step (α : Type) where
  instruction : Instruction α (Operand α)
  slot : Nat

structure Compound (α : Type) where
  lease : Lease
  steps : List (Step α)
  /-- The number of leading steps whose results have been written. -/
  completed : Nat
  steps_ne_nil : steps ≠ []

/-! ## Evaluation -/

/-- What a sequence of steps leaves behind: how many steps are completed, the world, and whether
something stopped it. -/
structure Progress (α : Type) where
  completed : Nat
  world : World α
  result : Except (Stop α) Unit

/-- Records that a step could not be computed. -/
def World.noteStep (w : World α) (buffer : BufferId) (step : Nat) (s : Stop α) : World α :=
  match s with
  | .failure f => w.emit (.stepFailed buffer step f)
  | .breach _ => w

/-- Runs steps in order until one of them is stopped; `completed` steps came before them. Only a
step that cannot be computed is recorded as failed, not one whose result cannot be written. -/
def Step.runAll [Scalar α] (buffer : BufferId) :
    (completed : Nat) → List (Step α) → World α → Progress α
  | completed, [], w => ⟨completed, w, .ok ()⟩
  | completed, step :: rest, w =>
    match step.instruction.execute w.pool with
    | .error s => ⟨completed, (w.noteRefusal s).noteStep buffer completed s, .error s⟩
    | .ok v =>
      match w.pool.write ⟨buffer, step.slot⟩ v.slots with
      | .error s => ⟨completed, w, .error s⟩
      | .ok p =>
        runAll buffer (completed + 1) rest
          ((w.setPool p).emit (.stepEvaluated buffer completed step.instruction.code))

namespace Compound

def buffer (c : Compound α) : BufferId := c.lease.buffer

def numSteps (c : Compound α) : Nat := c.steps.length

def last (c : Compound α) : Step α := c.steps.getLast c.steps_ne_nil

abbrev kind (c : Compound α) : Kind := c.last.instruction.output

def handle (c : Compound α) : Handle c.kind := ⟨c.buffer, c.last.slot⟩

def isEvaluated (c : Compound α) : Bool := c.completed == c.numSteps

/-- Runs the steps that are not completed yet. -/
def evaluate [Scalar α] (c : Compound α) (w : World α) : Attempt (Compound α) α :=
  if c.lease.released then ⟨c, w, .error (.failure (.dangling c.buffer))⟩
  else
    let r := Step.runAll c.buffer c.completed (c.steps.drop c.completed) w
    ⟨{ c with completed := r.completed }, r.world, r.result⟩

/-- The buffers that the steps read, in order and with repetitions, apart from the compound's
own. -/
def externalInputs (c : Compound α) : List BufferId :=
  (c.steps.flatMap fun s => s.instruction.inputs.map Place.buffer).filter (· ≠ c.buffer)

/-- One line per step, `$slot = instruction`. -/
def listing (c : Compound α) : String :=
  "\n".intercalate (c.steps.map fun s =>
    "$" ++ toString s.slot ++ " = " ++ s.instruction.listing (some c.buffer))

end Compound

/-! ## Construction -/

structure Draft (α : Type) where
  lease : Lease
  steps : List (Step α)

namespace Draft

/-- A draft without steps, with a buffer without slots. -/
def create [Zero α] (w : World α) (label : String) : Draft α × World α :=
  let (lease, w) := Lease.allocate w label []
  (⟨lease, []⟩, w)

def buffer (d : Draft α) : BufferId := d.lease.buffer

/-- The slot that the next step is expected to have, a word of 32 bits. -/
def nextSlot (d : Draft α) : Nat := d.steps.length % Store.capacity

/-- The first slot of the draft itself that an instruction reads and no step writes yet. -/
def slotAhead? (d : Draft α) (i : Instruction α (Operand α)) : Option Nat :=
  (i.inputs.find? fun p => p.buffer = d.buffer ∧ d.nextSlot ≤ p.slot).map Place.slot

/-- Appends a step whose result has the kind `k`, in a new slot, and returns its handle. -/
def push [Scalar α] (d : Draft α) (w : World α) (k : Kind) (i : Instruction α (Operand α)) :
    Except (Stop α) (Handle k × Draft α × World α) := do
  if i.output ≠ k then throw (.breach (.notProduced i.code k))
  if let some slot := d.slotAhead? i then throw (.breach (.readsAhead d.nextSlot slot))
  let (slot, p) ← w.pool.pushSlot d.buffer k
  return (⟨d.buffer, slot⟩, { d with steps := d.steps ++ [⟨i, slot⟩] }, w.setPool p)

/-- Ends the construction of a compound whose result has the kind `k`. If the last step does not
have such a result, or there is none, the buffer is released. -/
def finish (d : Draft α) (w : World α) (k : Kind) : Except Breach (Compound α) × World α :=
  if h : d.steps = [] then (.error .noSteps, (d.lease.release w).2)
  else
    let produced := (d.steps.getLast h).instruction.output
    if produced = k then (.ok ⟨d.lease, d.steps, 0, h⟩, w)
    else (.error (.resultKind produced k), (d.lease.release w).2)

end Draft

/-! ## Text -/

variable [ToText α]

namespace Step

def text (label : BufferId → String) (s : Step α) : String :=
  Text.record "Step" [("op", s.instruction.text label), ("slot", toString s.slot)]

def listText (label : BufferId → String) (steps : List (Step α)) : String :=
  Text.list (steps.map (Step.text label))

end Step

def Compound.text (label : BufferId → String) (c : Compound α) : String :=
  Text.record "CompoundOperation" [("buffer", c.buffer.text label),
    ("steps", Step.listText label c.steps), ("completed", toString c.completed)]

def Draft.text (label : BufferId → String) (d : Draft α) : String :=
  Text.record "CompoundBuilder" [("buffer", d.lease.text label),
    ("steps", Step.listText label d.steps)]

end DeferredMatrix
