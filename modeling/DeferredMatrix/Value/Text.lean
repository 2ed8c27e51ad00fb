import DeferredMatrix.Decimal.Layout
import DeferredMatrix.Text.Record
import DeferredMatrix.Value.Basic

/-!
# Values as text

`ToText.text` shows an element, as `floatText` does for floats, and `Value.text` a whole value in
record notation.
-/

namespace DeferredMatrix

open Decimal

/-- Elements from `1e-4` below `1e16` are shown positionally and always with a fraction. -/
def recordLayout : Layout where
  positionalFrom := some (-4)
  positionalTo := some 15
  keepsFraction := true
  signsExponent := false
  tie := .away
  nan := "NaN"
  infinity := "inf"
  negInfinity := "-inf"

def floatText (x : Float32) : String := recordLayout.float32 x

/-- Elements that have a text. -/
class ToText (α : Type) where
  text : α → String

instance : ToText Float32 := ⟨floatText⟩

variable {α : Type} [ToText α]

namespace Vec4

def textList (v : Vec4 α) : String := Text.list (v.toList.map ToText.text)

def text (v : Vec4 α) : String :=
  Text.record "Vector" [("x", ToText.text v.x), ("y", ToText.text v.y), ("z", ToText.text v.z),
    ("w", ToText.text v.w)]

end Vec4

def Mat4.text (m : Mat4 α) : String :=
  Text.record "Matrix" [("rows", Text.list (m.rows.toList.map Vec4.textList))]

def Value.text : {k : Kind} → Value α k → String
  | _, .scalar x => Text.wrapped "Scalar" (ToText.text x)
  | _, .vector v => v.text
  | _, .matrix m => m.text

end DeferredMatrix
