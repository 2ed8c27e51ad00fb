import DeferredMatrix.Buffer.Pool

/-!
# Operands

An operand is a literal value or the handle of a result.
-/

namespace DeferredMatrix

variable {α : Type} {k : Kind}

inductive Operand (α : Type) (k : Kind) where
  | literal (v : Value α k)
  | handle (h : Handle k)
  deriving DecidableEq

namespace Operand

/-- The value of an operand in a pool. -/
def resolve (p : Pool α) : Operand α k → Except (Stop α) (Value α k)
  | literal v => .ok v
  | handle h => p.read h

/-- The place that an operand is read from. -/
def input? : Operand α k → Option Place
  | literal _ => none
  | handle h => some h.place

def isHandle : Operand α k → Bool
  | literal _ => false
  | handle _ => true

/-- An operand in a listing. Slots of the buffer `owner` are shown by their numbers. -/
def listing (owner : Option BufferId) : Operand α k → String
  | literal _ => "literal"
  | handle h => if some h.buffer = owner then "$" ++ toString h.slot else "external"

def text [ToText α] (label : BufferId → String) : Operand α k → String
  | literal v => Text.wrapped "Literal" v.text
  | handle h => Text.wrapped "Handle" (h.text label)

end Operand

end DeferredMatrix
