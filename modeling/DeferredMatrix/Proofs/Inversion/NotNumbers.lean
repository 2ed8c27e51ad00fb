import DeferredMatrix.Proofs.Binary.Reciprocal
import DeferredMatrix.Proofs.Inversion.Thresholds

/-!
# Inverses that hold values that are no number

A determinant that is no number reaches no threshold, so its reciprocal is a number whenever a
matrix is inverted. A product with it can still be none: rounding may have made an element of the
adjugate infinite, or no number, and the reciprocal of an infinite determinant is zero.

* `inverses_hold_numbers_iff` : for which matrices the inverse holds numbers only.
* `hugeStretch_inverse_holds_no_number` : a diagonal matrix of finite elements whose determinant
  overflows is inverted, and its inverse holds values that are no number.
-/

namespace DeferredMatrix

/-- When the product with the reciprocal of a number is a number. -/
theorem Single.isNaN_mul_recip_iff {x determinant : Float32} (h : determinant.isNaN = false) :
    (x * Scalar.recip determinant).isNaN = false ↔ x.isNaN = false ∧
      ¬ (x.isInf = true ∧ determinant.isInf = true) ∧
      ¬ ((x == 0) = true ∧ (Scalar.recip determinant).isInf = true) := by
  rw [isNaN_mul, isNaN_recip, h, recip_beq_zero]
  simp only [Bool.or_false, Bool.or_eq_false_iff, Bool.and_eq_false_iff, not_and_or,
    Bool.not_eq_true]
  exact and_assoc

/-- An inversion succeeds exactly if the magnitude of the determinant reaches the threshold. Its
result then holds numbers only exactly if the adjugate does, and none of its elements is infinite
as the determinant is, or zero where the reciprocal of the determinant is infinite. -/
theorem inverses_hold_numbers_iff {w : World Float32} (hp : w.pool.Packed) (label : String)
    {input : Operand Float32 .matrix} {m : Mat4 Float32}
    (hm : input.resolve w.pool = .ok (.matrix m)) (config : Config) :
    ∃ c w₁ g, Recipe.make w label (.inverseWith config input) = .ok (.compound c, w₁) ∧
      g.place = c.handle.place ∧
      ((c.evaluate w₁).result = .ok () ↔ config.singularEpsilon ≤ m.determinant.abs) ∧
      ((c.evaluate w₁).result = .ok () → ∃ n : Mat4 Float32,
        (c.evaluate w₁).world.pool.read g = .ok (.matrix n) ∧
        ((∀ i j, (n.get i j).isNaN = false) ↔ ∀ i j,
          (m.adjugate.get i j).isNaN = false ∧
          ¬ ((m.adjugate.get i j).isInf = true ∧ m.determinant.isInf = true) ∧
          ¬ ((m.adjugate.get i j == 0) = true ∧ (1 / m.determinant).isInf = true))) := by
  obtain ⟨c, w₁, g, hmake, hplace, houtcome⟩ :=
    Recipe.exists_inverse hp label hm config.singularEpsilon
  refine ⟨c, w₁, g, hmake, hplace, ?_⟩
  cases hreaches : Scalar.reaches m.determinant config.singularEpsilon with
  | false =>
    rw [hreaches] at houtcome
    rw [houtcome.1]
    exact ⟨iff_of_false nofun (of_decide_eq_false hreaches), nofun⟩
  | true =>
    rw [hreaches] at houtcome
    obtain ⟨hok, hread⟩ := houtcome
    refine ⟨iff_of_true hok (of_decide_eq_true hreaches), fun _ => ⟨m.inverse, hread, ?_⟩⟩
    have hget : ∀ i j, m.inverse.get i j = m.adjugate.get i j * Scalar.recip m.determinant :=
      fun i j => Mat4.get_ofFn _ i j
    refine forall_congr' fun i => forall_congr' fun j => ?_
    rw [hget]
    exact Single.isNaN_mul_recip_iff (Single.isNaN_of_reaches hreaches)

/-- A stretch by the same factor in all directions. -/
def stretch (factor : Float32) : Mat4 Float32 := .ofFn fun i j => if i = j then factor else 0

/-- A thousand million fits: its fourth power is finite. -/
theorem stretch_inverse_holds_numbers :
    (World.empty : World Float32).pool.Packed ∧
    ∃ c w₁, ∃ (g : Handle .matrix) (n : Mat4 Float32),
      Recipe.make World.empty "inverse"
        (.inverseWith .standard (.literal (.matrix (stretch 1e9)))) = .ok (.compound c, w₁) ∧
      g.place = c.handle.place ∧ (c.evaluate w₁).result = .ok () ∧
      (c.evaluate w₁).world.pool.read g = .ok (.matrix n) ∧
      ∀ i j, (n.get i j).isNaN = false := by
  have hp : (World.empty : World Float32).pool.Packed := Pool.packed_empty
  have hm : (Operand.literal (.matrix (stretch 1e9))).resolve (World.empty : World Float32).pool =
      .ok (.matrix (stretch 1e9)) := rfl
  have hreaches : Config.standard.singularEpsilon ≤ (stretch 1e9).determinant.abs := by
    decide +kernel
  have hadjugate : ∀ i j, ((stretch 1e9).adjugate.get i j).isNaN = false ∧
      ¬ (((stretch 1e9).adjugate.get i j).isInf = true ∧
        (stretch 1e9).determinant.isInf = true) ∧
      ¬ (((stretch 1e9).adjugate.get i j == 0) = true ∧
        (1 / (stretch 1e9).determinant).isInf = true) := by
    decide +kernel
  obtain ⟨c, w₁, g, hmake, hplace, hok, hnumbers⟩ :=
    inverses_hold_numbers_iff hp "inverse" hm .standard
  obtain ⟨n, hread, hiff⟩ := hnumbers (hok.2 hreaches)
  exact ⟨hp, c, w₁, g, n, hmake, hplace, hok.2 hreaches, hread, hiff.2 hadjugate⟩

/-- The fourth power of ten to the twentieth overflows, so the determinant is infinite and its
reciprocal zero, while all elements are finite and the standard threshold is positive. -/
theorem hugeStretch_inverse_holds_no_number :
    (∀ i j, ((stretch 1e20).get i j).isFinite = true) ∧
    Config.standard.singularEpsilon.isFinite = true ∧ 0 < Config.standard.singularEpsilon ∧
    ∃ c w₁, ∃ (g : Handle .matrix) (n : Mat4 Float32),
      Recipe.make World.empty "inverse"
        (.inverseWith .standard (.literal (.matrix (stretch 1e20)))) = .ok (.compound c, w₁) ∧
      g.place = c.handle.place ∧ (c.evaluate w₁).result = .ok () ∧
      (c.evaluate w₁).world.pool.read g = .ok (.matrix n) ∧
      ∀ i, (n.get i i).isNaN = true := by
  have hm : (Operand.literal (.matrix (stretch 1e20))).resolve (World.empty : World Float32).pool =
      .ok (.matrix (stretch 1e20)) := rfl
  have hreaches : Scalar.reaches (stretch 1e20).determinant Config.standard.singularEpsilon =
      true := by
    decide +kernel
  obtain ⟨c, w₁, g, hmake, hplace, hok, hread⟩ :=
    Recipe.exists_inverse_of_reaches Pool.packed_empty "inverse" hm hreaches
  have hfinite : ∀ i j, ((stretch 1e20).get i j).isFinite = true := by decide +kernel
  have hthreshold : Config.standard.singularEpsilon.isFinite = true := by decide +kernel
  have hpos : 0 < Config.standard.singularEpsilon := by decide +kernel
  have hnan : ∀ i, ((stretch 1e20).inverse.get i i).isNaN = true := by decide +kernel
  exact ⟨hfinite, hthreshold, hpos, c, w₁, g, _, hmake, hplace, hok, hread, hnan⟩

end DeferredMatrix
