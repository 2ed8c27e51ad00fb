import DeferredMatrix.Failure

/-!
# Checked access

Reading an element by its row and column, and putting a value together from its elements. What
lies outside a value is a breach.
-/

namespace DeferredMatrix

variable {α : Type}

/-- An index into a row or a column. -/
def checkIndex (i : Nat) : Except Breach (Fin 4) :=
  if h : i < 4 then .ok ⟨i, h⟩ else .error (.outOfBounds 4 i)

/-- The element in a row and a column. The row is checked first. -/
def Mat4.entry (m : Mat4 α) (row column : Nat) : Except Breach α := do
  let i ← checkIndex row
  let j ← checkIndex column
  return m.get i j

/-- The value of kind `k` with the given elements. -/
def Value.ofSlots (k : Kind) (xs : List α) : Except Breach (Value α k) :=
  match ofSlots? k xs with
  | some v => .ok v
  | none => .error (.valueWidth xs.length k)

theorem Value.ofSlots_slots {k : Kind} (v : Value α k) : ofSlots k v.slots = .ok v := by
  rw [ofSlots, ofSlots?_slots]

end DeferredMatrix
