/-!
# The arithmetic of elements

Everything that computes with matrix elements is written over a type with the operations of
`Scalar`. Running code uses 32-bit floats, each operation rounded on its own; exact arithmetic
is another instance of the same definitions.

Of the words of 32 bits many are no number, but `Float32` has a single value for all of them. What
pools, nodes, graphs and sessions do with elements is therefore proved over every type with a
`Scalar`, be it the words themselves with any arithmetic on them: elements are kept and passed on
bit for bit. Only what depends on rounding, on infinities or on how numbers are written is about
`Float32`.
-/

namespace DeferredMatrix

/-- Element arithmetic together with what inversion asks of it: a reciprocal, and the test
that the magnitude of a pivot reaches a threshold. -/
class Scalar (α : Type) extends Add α, Sub α, Mul α, Neg α, Zero α, One α where
  recip : α → α
  reaches : α → α → Bool

/-- A comparison with a value that is no number is false, so such a pivot or threshold never
passes the test. -/
instance : Scalar Float32 where
  add := Float32.add
  sub := Float32.sub
  mul := Float32.mul
  neg := Float32.neg
  zero := 0
  one := 1
  recip x := 1 / x
  reaches pivot threshold := decide (threshold ≤ pivot.abs)

end DeferredMatrix
