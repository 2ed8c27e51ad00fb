import DeferredMatrix.Failure
import DeferredMatrix.Scalar

/-!
# Packed slots

A store holds the slots of one buffer. Their elements lie one after the other in a list that
grows by blocks of sixteen zeros. A slot reads as unwritten until a value has been written
to it.

Slots are numbered by words of 32 bits. The numbers are natural numbers here, so that a number
beyond the words names no slot, and `capacity` bounds the slots that a store can get. Elements
are taken to be without limit.
-/

namespace DeferredMatrix

/-- A slot and the place of its first element. -/
structure Slot where
  kind : Kind
  offset : Nat
  written : Bool
  deriving DecidableEq

structure Store (α : Type) where
  /-- All elements, padding included. -/
  elements : List α
  slots : List Slot
  /-- The number of elements that belong to slots. -/
  used : Nat
  deriving DecidableEq

namespace Store

variable {α : Type}

/-- The number of elements in a block. -/
def blockSize : Nat := 16

/-- The least multiple of the block size that is not below `n`. -/
def padded (n : Nat) : Nat := (n + blockSize - 1) / blockSize * blockSize

def empty : Store α := ⟨[], [], 0⟩

/-- The number of slots that words of 32 bits can tell apart. -/
def capacity : Nat := UInt32.size

/-- The number of slots, which is also the index of the next one. -/
def numSlots (s : Store α) : Nat := s.slots.length

/-- Whether no element belongs to a slot. -/
def isEmpty (s : Store α) : Bool := s.used == 0

/-- The store with one more slot, which is not written. -/
def append [Zero α] (s : Store α) (k : Kind) : Store α :=
  let used := s.used + k.width
  { elements := s.elements ++ List.replicate (padded used - s.elements.length) 0
    slots := s.slots ++ [⟨k, s.used, false⟩]
    used := used }

/-- Appends a slot that is not written and returns its index, if there is an index left. -/
def pushSlot [Zero α] (s : Store α) (k : Kind) : Except Breach (Nat × Store α) :=
  if s.numSlots < capacity then .ok (s.numSlots, s.append k) else .error .tooManySlots

/-- The store with slots of the given kinds. -/
def ofLayout [Zero α] (layout : List Kind) : Store α := layout.foldl append empty

/-- Pushes slots of the given kinds one after the other. -/
def create [Zero α] (layout : List Kind) : Except Breach (Store α) :=
  layout.foldlM (fun s k => (s.pushSlot k).map Prod.snd) empty

/-- The elements of a slot, or nothing if it is not written. -/
def contents (s : Store α) (slot : Slot) : Option (List α) :=
  if slot.written then some ((s.elements.drop slot.offset).take slot.kind.width) else none

/-- The slot with the given index. -/
def slot (s : Store α) (index : Nat) : Except Breach Slot :=
  match s.slots[index]? with
  | some slot => .ok slot
  | none => .error (.outOfBounds s.numSlots index)

def read (s : Store α) (index : Nat) : Except Breach (Option (List α)) :=
  (s.slot index).map s.contents

def isWritten (s : Store α) (index : Nat) : Except Breach Bool :=
  (s.slot index).map Slot.written

/-- `xs` with the elements from `offset` on replaced by `ys`. -/
def splice (xs : List α) (offset : Nat) (ys : List α) : List α :=
  xs.take offset ++ ys ++ xs.drop (offset + ys.length)

/-- Writes a value of the right width; anything else leaves the store as it was. -/
def write (s : Store α) (index : Nat) (values : List α) : Except Breach (Store α) := do
  let slot ← s.slot index
  if values.length = slot.kind.width then
    return { s with
      elements := splice s.elements slot.offset values
      slots := s.slots.set index { slot with written := true } }
  else throw (.writtenWidth values.length slot.kind)

end Store

def Slot.text (s : Slot) : String :=
  Text.record "SlotInfo" [("kind", s.kind.name), ("offset", toString s.offset),
    ("written", Text.bool s.written)]

end DeferredMatrix
