import DeferredMatrix.Decimal.Layout

/-!
# Numbers in JSON text

Floats are written with the fewest digits that read back. Values that are no numbers become
`null`.
-/

namespace DeferredMatrix.Json

open Decimal

/-- The layout of floats in JSON, positional from `10 ^ low` up to the magnitude `high`. -/
def layout (low high : Int) : Layout where
  positionalFrom := some low
  positionalTo := some high
  keepsFraction := true
  signsExponent := true
  tie := .even
  nan := "null"
  infinity := "null"
  negInfinity := "null"

def singleLayout : Layout := layout (-6) 12

def doubleLayout : Layout := layout (-5) 15

end DeferredMatrix.Json
