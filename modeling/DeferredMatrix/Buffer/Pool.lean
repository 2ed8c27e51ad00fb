import DeferredMatrix.Buffer.Store
import DeferredMatrix.Value.Access

/-!
# The pool of buffers

The pool has one entry for every buffer that was ever allocated. Releasing a buffer empties its
entry and leaves it in place, so that a serial number stands for one buffer for ever. The keys
that such serial numbers stand for are made of a place and a version of it. What matters here is
only that no key is issued twice: neither places nor versions are taken to run out.

* `Pool.read` reads the value behind a handle and says why there is none.
* `Pool.write`, `Pool.pushSlot` and `Pool.release` change a single buffer.
-/

namespace DeferredMatrix

variable {α : Type}

/-- A buffer: what messages call it, and its store until it is released. -/
structure Entry (α : Type) where
  label : String
  store : Option (Store α)

structure Pool (α : Type) where
  entries : Array (Entry α)

namespace Pool

def empty : Pool α := ⟨#[]⟩

/-- The store of a buffer that is live. -/
def store? (p : Pool α) (b : BufferId) : Option (Store α) := p.entries[b.serial]?.bind Entry.store

def isLive (p : Pool α) (b : BufferId) : Bool := (p.store? b).isSome

def label (p : Pool α) (b : BufferId) : String := (p.entries[b.serial]?.map Entry.label).getD ""

/-- The serial number of the next buffer. -/
def fresh (p : Pool α) : BufferId := ⟨p.entries.size⟩

/-- The pool with the buffer `p.fresh` added. -/
def allocate [Zero α] (p : Pool α) (label : String) (layout : List Kind) : Pool α :=
  ⟨p.entries.push ⟨label, some (.ofLayout layout)⟩⟩

def setStore (p : Pool α) (b : BufferId) (s : Option (Store α)) : Pool α :=
  ⟨p.entries.modify b.serial fun e => { e with store := s }⟩

def release (p : Pool α) (b : BufferId) : Pool α := p.setStore b none

/-- The store of a buffer, or the failure to find it. -/
def live (p : Pool α) (b : BufferId) : Except (Stop α) (Store α) :=
  match p.store? b with
  | some s => .ok s
  | none => .error (.failure (.dangling b))

/-- The slot at a place of a store. -/
def slotAt (s : Store α) (place : Place) : Except (Stop α) Slot :=
  match s.slots[place.slot]? with
  | some slot => .ok slot
  | none => .error (.breach (.noSlot place))

/-- The number of slots, none once the buffer is released. -/
def numSlots (p : Pool α) (b : BufferId) : Nat := (p.store? b).elim 0 Store.numSlots

/-- Appends a slot and returns its index. -/
def pushSlot [Zero α] (p : Pool α) (b : BufferId) (k : Kind) :
    Except (Stop α) (Nat × Pool α) := do
  let s ← p.live b
  match s.pushSlot k with
  | .ok (index, s) => return (index, p.setStore b (some s))
  | .error breach => throw (.breach breach)

/-- Reads a slot. What is wrong is looked for in this order: the buffer is released, the slot is
missing, it has another kind, it is not written. -/
def read (p : Pool α) {k : Kind} (h : Handle k) : Except (Stop α) (Value α k) := do
  let s ← p.live h.buffer
  let slot ← slotAt s h.place
  if slot.kind ≠ k then throw (.breach (.slotKind h.place slot.kind k))
  match s.contents slot with
  | none => throw (.failure (.unevaluated h.place))
  | some elements =>
    match Value.ofSlots k elements with
    | .ok v => return v
    | .error b => throw (.breach b)

/-- Writes the elements of a value. -/
def write (p : Pool α) (place : Place) (values : List α) : Except (Stop α) (Pool α) := do
  let s ← p.live place.buffer
  let _ ← slotAt s place
  match s.write place.slot values with
  | .ok s => return p.setStore place.buffer (some s)
  | .error b => throw (.breach b)

/-- Whether a slot is written, which it is not once the buffer is released. -/
def isWritten (p : Pool α) (place : Place) : Except (Stop α) Bool :=
  match p.store? place.buffer with
  | none => .ok false
  | some s => (slotAt s place).map Slot.written

/-- A handle to a slot. A slot that exists has to have the kind of the handle. -/
def handle (p : Pool α) (k : Kind) (place : Place) : Except Breach (Handle k) :=
  match (p.store? place.buffer).bind fun s => s.slots[place.slot]? with
  | some slot =>
    if slot.kind = k then .ok ⟨place.buffer, place.slot⟩
    else .error (.slotKind place slot.kind k)
  | none => .ok ⟨place.buffer, place.slot⟩

end Pool

end DeferredMatrix
