import DeferredMatrix.Proofs.Binary.Single
import DeferredMatrix.Proofs.Value.Matrices

/-!
# The orientation of products

Both products, that of two matrices and that of a row vector and a matrix, take rows on the left
and columns on the right and add up in the same order. So the rows of a product are transformed
rows, whatever addition and multiplication do, and transposing a product is multiplying the
transposes in the other order as soon as factors commute. Nothing has to be associative, which
rounded arithmetic is not.

* `Mat4.transpose_multiply`, `Mat4.row_multiply` : these two laws.
* `products_agree_on_orientation` : both, with the law for two transformations in a row, which
  exchanges two sums and is one of exact arithmetic.
-/

namespace DeferredMatrix

namespace Mat4

variable {α : Type}

theorem get_transpose (m : Mat4 α) (i j : Fin 4) : m.transpose.get i j = m.get j i :=
  get_ofFn _ _ _

variable [Add α] [Mul α] [Neg α] [Zero α]

theorem get_multiply (a b : Mat4 α) (i j : Fin 4) :
    (a.multiply b).get i j = (Vec4.ofFn fun k => a.get i k * b.get k j).sum :=
  get_ofFn _ _ _

/-- The products that are added up are the same, in the same order. -/
theorem transpose_multiply (hmul : ∀ x y : α, x * y = y * x) (a b : Mat4 α) :
    (a.multiply b).transpose = b.transpose.multiply a.transpose := by
  refine ext_get fun i j => ?_
  simp only [get_transpose, get_multiply]
  exact congrArg (fun f => (Vec4.ofFn f).sum) (funext fun k => hmul _ _)

theorem row_multiply (a b : Mat4 α) (i : Fin 4) :
    (a.multiply b).row i = (a.row i).transform b := by
  refine Vec4.ext_get fun j => ?_
  rw [show ((a.multiply b).row i).get j = (a.multiply b).get i j from rfl, get_multiply,
    Vec4.transform, Vec4.get_ofFn]
  rfl

end Mat4

/-- In any arithmetic with commutative multiplication, transposing reverses products, and the rows
of a product are the transformed rows. The arithmetic of 32-bit floats is such a one. In exact
arithmetic, transforming by one matrix and then by another one is transforming by their product. -/
theorem products_agree_on_orientation {α : Type} [Add α] [Mul α] [Neg α] [Zero α]
    (hmul : ∀ x y : α, x * y = y * x) {R : Type} [CommRing R] :
    (∀ a b : Mat4 α, (a.multiply b).transpose = b.transpose.multiply a.transpose) ∧
    (∀ (a b : Mat4 α) (i : Fin 4), (a.multiply b).row i = (a.row i).transform b) ∧
    (∀ x y : Float32, x * y = y * x) ∧
    ∀ (v : Vec4 R) (a b : Mat4 R), (v.transform a).transform b = v.transform (a.multiply b) :=
  ⟨Mat4.transpose_multiply hmul, Mat4.row_multiply, Single.mul_comm, Vec4.transform_transform⟩

/-- A matrix of extreme elements: infinities, zeros of both signs, and one that is no number. -/
def extremes : Mat4 Float32 :=
  ⟨⟨⟨1 / 0, -0, 3, 1⟩, ⟨0, 0 / 0, -1, 0⟩, ⟨-1 / 0, 1, 0, -0⟩, ⟨1, 0.1, -0.1, 7⟩⟩⟩

/-- A matrix with different elements everywhere. -/
def staircase : Mat4 Float32 :=
  ⟨⟨⟨1, 2, 3, 4⟩, ⟨5, 6, 7, 8⟩, ⟨9, 10, 11, 12⟩, ⟨13, 14, 15, 16⟩⟩⟩

/-- The matrix that adds the first element of a vector to the others. -/
def spread : Mat4 ℤ := ⟨⟨⟨1, 1, 1, 1⟩, ⟨0, 1, 0, 0⟩, ⟨0, 0, 1, 0⟩, ⟨0, 0, 0, 1⟩⟩⟩

theorem extremes_agree_on_orientation :
    (∀ x y : Float32, x * y = y * x) ∧
    (extremes.multiply staircase).transpose = staircase.transpose.multiply extremes.transpose ∧
    (extremes.multiply staircase).row 2 = (extremes.row 2).transform staircase ∧
    ((⟨1, 2, 3, 4⟩ : Vec4 ℤ).transform spread).transform spread.transpose =
      (⟨1, 2, 3, 4⟩ : Vec4 ℤ).transform (spread.multiply spread.transpose) := by
  obtain ⟨htranspose, hrow, -, htransform⟩ :=
    products_agree_on_orientation Single.mul_comm (R := ℤ)
  exact ⟨Single.mul_comm, htranspose _ _, hrow _ _ 2, htransform _ _ _⟩

end DeferredMatrix
