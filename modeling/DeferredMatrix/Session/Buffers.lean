import DeferredMatrix.Session.Basic

/-!
# Commands on buffers and handles

Commands that name objects that do not exist, or objects of the wrong sort, have no outcome.
-/

namespace DeferredMatrix

variable {α : Type}

inductive BufferCommand (α : Type) where
  | allocate (name : String) (layout : List Kind)
  | pushSlot (buffer : String) (k : Kind)
  /-- Makes a handle to a slot. -/
  | takeHandle (buffer : String) (k : Kind) (slot : Nat) (name : String)
  | write (buffer : String) (slot : Nat) (k : Kind) (v : Value α k)
  | read (buffer : String) (slot : Nat) (k : Kind)
  | isWritten (buffer : String) (slot : Nat)
  | state (buffer : String)

inductive HandleCommand (α : Type) where
  | read (handle : String)
  | readAll (handles : List String)
  | isAlive (handle : String)
  | place (handle : String)
  | text (handle : String)
  /-- Whether two handles of one kind are the same. -/
  | same (a b : String)
  /-- The number of different handles of a kind among some. -/
  | countDistinct (k : Kind) (handles : List String)
  | readOperand (k : Kind) (operand : Reference α k)

namespace Session

def performBuffer [Scalar α] (s : Session α) : BufferCommand α → Option (Outcome α)
  | .allocate name layout =>
    match Lease.create s.world name layout with
    | .ok (l, w) => do
      let objects ← s.withNew name (.buffer l)
      return change w objects (.ok (.slots (w.pool.numSlots l.buffer)))
    | .error b => s.answer (.error (.breach b))
  | .pushSlot buffer k => do
    let l ← s.buffer? buffer
    return match s.pool.pushSlot l.buffer k with
      | .ok (index, p) => change (s.world.setPool p) s.objects (.ok (.number index))
      | .error e => s.answer (.error e)
  | .takeHandle buffer k slot name => do
    let l ← s.buffer? buffer
    let place : Place := ⟨l.buffer, slot⟩
    match s.pool.handle k place with
    | .ok h => return change s.world (← s.withNew name (.handle k h)) (.ok (.place place))
    | .error b => return s.answer (.error (.breach b))
  | .write buffer slot _ v => do
    let l ← s.buffer? buffer
    return match s.pool.write ⟨l.buffer, slot⟩ v.slots with
      | .ok p => change (s.world.setPool p) s.objects (.ok .done)
      | .error e => s.answer (.error e)
  | .read buffer slot k => do
    let l ← s.buffer? buffer
    return s.answer ((s.pool.read (⟨l.buffer, slot⟩ : Handle k)).map (.value k))
  | .isWritten buffer slot => do
    let l ← s.buffer? buffer
    return s.answer ((s.pool.isWritten ⟨l.buffer, slot⟩).map .flag)
  | .state buffer => do
    let l ← s.buffer? buffer
    return s.answer
      (.ok (.buffer (s.pool.numSlots l.buffer) l.released (s.pool.isLive l.buffer)))

def performHandle (s : Session α) : HandleCommand α → Option (Outcome α)
  | .read handle => do
    let ⟨k, h⟩ ← s.handle? handle
    return s.answer ((s.pool.read h).map (.value k))
  | .readAll handles => do
    let hs ← handles.mapM s.handle?
    return s.answer (.ok (.values (hs.map fun ⟨k, h⟩ => (s.pool.read h).map (⟨k, ·⟩))))
  | .isAlive handle => do
    let ⟨_, h⟩ ← s.handle? handle
    return s.answer (.ok (.flag (s.pool.isLive h.buffer)))
  | .place handle => do
    let ⟨_, h⟩ ← s.handle? handle
    return s.answer (.ok (.place h.place))
  | .text handle => do
    let ⟨_, h⟩ ← s.handle? handle
    return s.answer (.ok (.text (h.text s.label)))
  | .same a b => do
    let ⟨k, g⟩ ← s.handle? a
    let h ← s.handleOf? k b
    return s.answer (.ok (.flag (g = h)))
  | .countDistinct k handles => do
    let hs ← handles.mapM (s.handleOf? k)
    return s.answer (.ok (.number hs.eraseDups.length))
  | .readOperand k operand => do
    let o ← s.resolve k operand
    return s.answer ((o.resolve s.pool).map (.operand o.isHandle k))

end Session

end DeferredMatrix
