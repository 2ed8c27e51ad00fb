import DeferredMatrix.Value.Kernel
import Mathlib.LinearAlgebra.Matrix.Adjugate
import Mathlib.Tactic.FinCases
import Mathlib.Tactic.Ring

/-!
# Kernels in exact arithmetic

Over a commutative ring the kernels compute what linear algebra means by their names. A `Mat4`
is read as a square matrix (`Mat4.toMatrix`), so that identities of matrices carry over.

* `toMatrix_multiply`, `toMatrix_scale`, `get_transform` : products, multiples, and the product
  of a row vector and a matrix.
* `get_adjugate`, `det_toMatrix` : every entry of the adjugate is a cofactor, and the expansion
  along the top two rows is the determinant.
* `determinant_and_adjugate_formulas` : both together, with the products of a matrix and its
  adjugate.
-/

namespace DeferredMatrix

variable {R : Type}

/-! ## Products -/

namespace Mat4

def toMatrix (m : Mat4 R) : Matrix (Fin 4) (Fin 4) R := .of m.get

@[simp] theorem toMatrix_apply (m : Mat4 R) (i j : Fin 4) : m.toMatrix i j = m.get i j := rfl

theorem toMatrix_injective : Function.Injective (toMatrix : Mat4 R → Matrix (Fin 4) (Fin 4) R) :=
  fun _ _ h => ext_get fun i j => congrFun (congrFun h i) j

end Mat4

variable [CommRing R]

theorem Vec4.sum_ofFn (f : Fin 4 → R) : (ofFn f).sum = ∑ i, f i := by
  rw [Fin.sum_univ_four, sum, neg_zero, zero_add]
  rfl

theorem Mat4.toMatrix_multiply (a b : Mat4 R) :
    (a.multiply b).toMatrix = a.toMatrix * b.toMatrix := by
  ext i j
  simp only [multiply, toMatrix_apply, get_ofFn, Vec4.sum_ofFn, Matrix.mul_apply]

theorem Mat4.toMatrix_scale (m : Mat4 R) (c : R) : (m.scale c).toMatrix = c • m.toMatrix := by
  ext i j
  simp [scale, mul_comm]

theorem Mat4.toMatrix_identity : (identity : Mat4 R).toMatrix = 1 := by
  ext i j
  simp [identity, Matrix.one_apply]

theorem Vec4.get_transform (v : Vec4 R) (m : Mat4 R) :
    (v.transform m).get = Matrix.vecMul v.get m.toMatrix := by
  funext j
  simp only [transform, get_ofFn, sum_ofFn, Matrix.vecMul, dotProduct, Mat4.toMatrix_apply]

/-- Transforming by one matrix after the other is transforming by their product. -/
theorem Vec4.transform_transform (v : Vec4 R) (a b : Mat4 R) :
    (v.transform a).transform b = v.transform (a.multiply b) := by
  refine ext_get fun i => ?_
  rw [get_transform, get_transform, get_transform, Mat4.toMatrix_multiply, Matrix.vecMul_vecMul]

theorem Vec4.transform_identity (v : Vec4 R) : v.transform .identity = v := by
  refine ext_get fun i => ?_
  rw [get_transform, Mat4.toMatrix_identity, Matrix.vecMul_one]

/-! ## Determinants and cofactors -/

namespace Mat4

/-- The determinant of what is left without a row and a column, signed like a chessboard. -/
def cofactor (m : Mat4 R) (row column : Fin 4) : R :=
  (-1) ^ (row + column : ℕ) * (m.toMatrix.submatrix row.succAbove column.succAbove).det

/-- Each entry expands a three-by-three determinant along one of its rows. -/
theorem get_adjugate (m : Mat4 R) (i j : Fin 4) : m.adjugate.get i j = m.cofactor j i := by
  simp only [cofactor, Matrix.det_fin_three, Matrix.submatrix_apply, toMatrix_apply]
  fin_cases i <;> fin_cases j <;>
    simp only [Fin.succAbove, Fin.reduceFinMk, Fin.zero_eta, Fin.mk_one, Fin.isValue,
      Fin.castSucc_zero, Fin.castSucc_one, Fin.reduceCastSucc, Fin.succ_zero_eq_one,
      Fin.succ_one_eq_two, Fin.reduceSucc, Fin.reduceLT, lt_self_iff_false, zero_lt_one,
      Fin.not_lt_zero, if_true, if_false, get, row, Vec4.get, adjugate, topMinors, bottomMinors,
      Minors.ofRows] <;>
    ring

theorem toMatrix_adjugate (m : Mat4 R) : m.adjugate.toMatrix = m.toMatrix.adjugate := by
  ext i j
  rw [toMatrix_apply, get_adjugate, Matrix.adjugate_fin_succ_eq_det_submatrix, cofactor]

/-- The cofactors of the top row hold the minors of the bottom rows, and expanding those of the
top rows in turn gives the same sum. -/
theorem det_toMatrix (m : Mat4 R) : m.toMatrix.det = m.determinant := by
  calc m.toMatrix.det = ∑ j, m.toMatrix 0 j * m.toMatrix.adjugate j 0 :=
        Matrix.det_eq_sum_mul_adjugate_row _ 0
    _ = ∑ j, m.get 0 j * m.adjugate.get j 0 := by
        simp only [← toMatrix_adjugate, toMatrix_apply]
    _ = m.determinant := by
        simp only [Fin.sum_univ_four, get, row, Vec4.get, adjugate, determinant, topMinors,
          bottomMinors, Minors.ofRows]
        ring

theorem toMatrix_scale_identity (c : R) : (identity.scale c : Mat4 R).toMatrix = c • 1 := by
  rw [toMatrix_scale, toMatrix_identity]

theorem adjugate_multiply (m : Mat4 R) :
    m.adjugate.multiply m = identity.scale m.determinant := by
  apply toMatrix_injective
  rw [toMatrix_multiply, toMatrix_adjugate, Matrix.adjugate_mul, toMatrix_scale_identity,
    det_toMatrix]

theorem multiply_adjugate (m : Mat4 R) :
    m.multiply m.adjugate = identity.scale m.determinant := by
  apply toMatrix_injective
  rw [toMatrix_multiply, toMatrix_adjugate, Matrix.mul_adjugate, toMatrix_scale_identity,
    det_toMatrix]

/-- The expansions are the determinant and the adjugate of linear algebra: the signed sum over
all permutations, and the transposed cofactors. Multiplying by the adjugate on either side gives
the determinant on the diagonal, also where it is zero. -/
theorem determinant_and_adjugate_formulas (m : Mat4 R) :
    m.determinant = ∑ σ : Equiv.Perm (Fin 4), ((σ.sign : ℤ) : R) * ∏ i, m.get (σ i) i ∧
      (∀ i j, m.adjugate.get i j = m.cofactor j i) ∧
      m.adjugate.multiply m = identity.scale m.determinant ∧
      m.multiply m.adjugate = identity.scale m.determinant := by
  refine ⟨?_, m.get_adjugate, m.adjugate_multiply, m.multiply_adjugate⟩
  rw [← det_toMatrix, Matrix.det_apply']
  rfl

end Mat4

end DeferredMatrix
