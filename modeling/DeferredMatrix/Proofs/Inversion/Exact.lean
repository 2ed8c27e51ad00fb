import Mathlib
import DeferredMatrix.Proofs.Inversion.Compound
import DeferredMatrix.Proofs.Value.Matrices

/-!
# Inverses in exact arithmetic

In an ordered field the result of an inversion is the inverse matrix, and an inversion goes
through exactly if the determinant is at least as large as the threshold. The result is used like
any other: transforming a vector by a matrix and then by the result gives the vector back.

* `Mat4.inverse_multiply`, `Mat4.multiply_inverse` : the adjugate over the determinant is the
  inverse on both sides.
* `Operation.exists_compute` : an operation that can be executed is made and evaluated, and its
  result read back.
* `inversion_gives_the_inverse` : the whole way from the matrix to the transformed vector.
-/

namespace DeferredMatrix

/-! ## Ordered fields -/

section Field

variable {K : Type} [Field K]

/-- Exact arithmetic. -/
instance (priority := low) exactScalar [LinearOrder K] : Scalar K where
  recip x := 1 / x
  reaches pivot threshold := decide (threshold ≤ |pivot|)

namespace Mat4

variable [LinearOrder K]

theorem toMatrix_inverse (m : Mat4 K) :
    m.inverse.toMatrix = (1 / m.determinant) • m.toMatrix.adjugate := by
  rw [← toMatrix_adjugate]
  exact toMatrix_scale _ _

theorem inverse_multiply {m : Mat4 K} (h : m.determinant ≠ 0) :
    m.inverse.multiply m = identity := by
  apply toMatrix_injective
  rw [toMatrix_multiply, toMatrix_inverse, Matrix.smul_mul, Matrix.adjugate_mul, det_toMatrix,
    smul_smul, one_div_mul_cancel h, one_smul, toMatrix_identity]

theorem multiply_inverse {m : Mat4 K} (h : m.determinant ≠ 0) :
    m.multiply m.inverse = identity := by
  apply toMatrix_injective
  rw [toMatrix_multiply, toMatrix_inverse, Matrix.mul_smul, Matrix.mul_adjugate, det_toMatrix,
    smul_smul, one_div_mul_cancel h, one_smul, toMatrix_identity]

end Mat4

end Field

/-! ## Operations made and evaluated at once -/

section Compute

variable {α : Type} [Scalar α]

/-- Makes an operation, evaluates it, and hands out its result. -/
def Operation.compute (w : World α) (label : String) (i : Instruction α (Operand α)) :
    Except (Stop α) (Handle i.output × World α) :=
  let made := start w label i
  let a := made.1.evaluate made.2
  a.result.map fun _ => (made.1.handle, a.world)

/-- If the instruction can be executed, the operation computes what it says, and touches nothing
that was there before. -/
theorem Operation.exists_compute {w : World α} (hp : w.pool.Packed) (label : String)
    {i : Instruction α (Operand α)} {v : Value α i.output} (hv : i.execute w.pool = .ok v) :
    ∃ h w', compute w label i = .ok (h, w') ∧ w'.pool.read h = .ok v ∧ w'.pool.Packed ∧
      ∀ b, w.pool.Issued b → w'.pool.store? b = w.pool.store? b := by
  have hissued : ∀ place ∈ i.inputs, w.pool.Issued place.buffer := by
    intro place hplace
    obtain ⟨xs, hxs⟩ :=
      Option.isSome_iff_exists.1 (Instruction.isSome_contents_of_execute hp hv hplace)
    exact Pool.issued_of_isLive (Pool.isLive_of_contents hxs)
  have hold : ∀ b, w.pool.Issued b → (start w label i).2.pool.store? b = w.pool.store? b :=
    fun b hb => Pool.store?_allocate_of_ne _ _ _ (Pool.ne_fresh_of_issued hb)
  have hplaced : (Node.operation (start w label i).1).Placed (start w label i).2.pool := by
    refine StepsPlaced.fresh [⟨i, 0⟩] label (fun j step hj => ?_) fun step hstep => ?_
    · cases j with
      | zero =>
        cases hj
        rfl
      | succ j => simp at hj
    · obtain rfl := List.mem_singleton.1 hstep
      exact hissued
  have hp₀ : (start w label i).2.pool.Packed := Pool.packed_allocate label _ hp
  have hexec : i.execute (start w label i).2.pool = .ok v :=
    (Instruction.execute_congr_stores fun place hplace => hold _ (hissued place hplace)).trans hv
  obtain ⟨w', hadvance, hself, -⟩ := hplaced.exists_advance hp₀ rfl ⟨i, 0⟩ rfl hexec
  obtain ⟨hplaced', hp', hsame, -⟩ := hadvance.placed hplaced hp₀
  have heq := (Node.evaluate_evaluates hplaced hp₀).unique (.advance hadvance (.complete rfl rfl))
  simp only [Node.evaluate, Attempt.mk.injEq] at heq
  obtain ⟨-, hworld, hresult⟩ := heq
  refine ⟨⟨w.pool.fresh, 0⟩, w', ?_, ?_, hp', fun b hb => ?_⟩
  · simp only [compute, hresult, hworld]
    rfl
  · exact Pool.read_of_contents (hplaced'.holds (i := 0) rfl) hself
  · exact (hsame.store b (Pool.ne_fresh_of_issued hb)).trans (hold b hb)

theorem Instruction.execute_transform {p : Pool α} {a : Operand α .vector} {b : Operand α .matrix}
    {v : Vec4 α} {m : Mat4 α} (hv : a.resolve p = .ok (.vector v))
    (hm : b.resolve p = .ok (.matrix m)) :
    (transform a b).execute p = .ok (.vector (v.transform m)) := by
  simp only [execute, hv, hm]
  rfl

/-- A vector is transformed by one operand and the result by another. -/
theorem Operation.exists_compute_transforms {w : World α} (hp : w.pool.Packed)
    {a : Operand α .matrix} {g : Handle .matrix} {m n : Mat4 α}
    (hm : a.resolve w.pool = .ok (.matrix m)) (hn : w.pool.read g = .ok (.matrix n))
    (v : Vec4 α) (first second : String) : ∃ h w' h' w'',
      compute w first (.transform (.literal (.vector v)) a) = .ok (h, w') ∧
      compute w' second (.transform (.handle h) (.handle g)) = .ok (h', w'') ∧
      w''.pool.read h' = .ok (.vector ((v.transform m).transform n)) := by
  have hliteral : (Operand.literal (.vector v)).resolve w.pool = .ok (.vector v) := rfl
  obtain ⟨h, w', hfirst, hread, hp', hold⟩ :=
    exists_compute hp first (Instruction.execute_transform hliteral hm)
  have hissued := (Pool.holds_of_read hn).1
  have hn' : w'.pool.read g = .ok (.matrix n) := (Pool.read_congr (hold _ hissued)).trans hn
  have hvector : (Operand.handle h).resolve w'.pool = .ok (.vector (v.transform m)) := hread
  have hmatrix : (Operand.handle g).resolve w'.pool = .ok (.matrix n) := hn'
  obtain ⟨h', w'', hsecond, hread', -⟩ :=
    exists_compute hp' second (Instruction.execute_transform hvector hmatrix)
  exact ⟨h, w', h', w'', hfirst, hsecond, hread'⟩

end Compute

/-! ## Inverting and using the inverse -/

section Inverse

variable {K : Type} [Field K] [LinearOrder K] [IsStrictOrderedRing K]

/-- A matrix given by an operand is inverted exactly if the magnitude of its determinant reaches
the threshold. What is read as the result is its inverse on both sides, and transforming any
vector by the operand and then by the result gives it back. -/
theorem inversion_gives_the_inverse {w : World K} (hp : w.pool.Packed) (label : String)
    {input : Operand K .matrix} {m : Mat4 K} (hm : input.resolve w.pool = .ok (.matrix m))
    {epsilon : K} (hepsilon : 0 < epsilon) :
    ∃ c w₁ g, Recipe.makeInverse w label input epsilon = .ok (c, w₁) ∧
      g.place = c.handle.place ∧
      ((c.evaluate w₁).result = .ok () ↔ epsilon ≤ |m.toMatrix.det|) ∧
      ((c.evaluate w₁).result = .ok () → ∃ n : Mat4 K,
        (c.evaluate w₁).world.pool.read g = .ok (.matrix n) ∧
        n.multiply m = .identity ∧ m.multiply n = .identity ∧
        ∀ (v : Vec4 K) (first second : String), ∃ h w₂ h' w₃,
          Operation.compute (c.evaluate w₁).world first
            (.transform (.literal (.vector v)) input) = .ok (h, w₂) ∧
          Operation.compute w₂ second (.transform (.handle h) (.handle g)) = .ok (h', w₃) ∧
          w₃.pool.read h' = .ok (.vector v)) := by
  have hissued : ∀ place, input.input? = some place → w.pool.Issued place.buffer := by
    intro place hplace
    cases input with
    | literal u => cases hplace
    | handle g =>
      cases hplace
      exact (Pool.holds_of_read hm).1
  obtain ⟨c, w₁, hmake, hlease, hc, h0, hplaced, hp₁, hold⟩ :=
    Recipe.exists_makeInverse hp label epsilon hissued
  have hr : c.lease.released = false := by rw [hlease]
  have hm₁ : input.resolve w₁.pool = .ok (.matrix m) :=
    (Operand.resolve_congr fun place hplace => hold _ (hissued place hplace)).trans hm
  have hreaches : Scalar.reaches m.determinant epsilon = decide (epsilon ≤ |m.toMatrix.det|) := by
    rw [Mat4.det_toMatrix]
    rfl
  refine ⟨c, w₁, ⟨c.buffer, 2⟩, hmake, hc.place_handle.2.symm, ?_⟩
  by_cases hdet : epsilon ≤ |m.toMatrix.det|
  · obtain ⟨-, hok, -, hread⟩ :=
      hc.evaluate_of_reaches hplaced hp₁ hr h0 hm₁ (hreaches.trans (decide_eq_true hdet))
    have hne : m.determinant ≠ 0 := by
      intro hzero
      rw [Mat4.det_toMatrix, hzero, abs_zero] at hdet
      exact absurd hdet (not_le.2 hepsilon)
    have hleft : m.inverse.multiply m = .identity := Mat4.inverse_multiply hne
    have hright : m.multiply m.inverse = .identity := Mat4.multiply_inverse hne
    obtain ⟨-, hp', -⟩ := (Node.evaluate_evaluates hplaced hp₁).placed hplaced hp₁
    refine ⟨iff_of_true hok hdet, fun _ =>
      ⟨m.inverse, hread, hleft, hright, fun v first second => ?_⟩⟩
    have htransforms := Operation.exists_compute_transforms hp'
      ((hc.resolve_evaluate hplaced hp₁).trans hm₁) hread v first second
    rwa [Vec4.transform_transform, hright, Vec4.transform_identity] at htransforms
  · obtain ⟨-, -, herror⟩ :=
      hc.evaluate_of_singular hplaced hp₁ hr h0 hm₁ (hreaches.trans (decide_eq_false hdet))
    rw [herror]
    exact ⟨iff_of_false nofun hdet, nofun⟩

end Inverse

/-- A shear after a reflection and a stretch, of determinant minus two. -/
def skewed : Mat4 ℚ := ⟨⟨⟨2, 1, 0, 0⟩, ⟨0, 1, 0, 3⟩, ⟨0, 0, -1, 0⟩, ⟨0, 0, 0, 1⟩⟩⟩

theorem skewed_inversion_gives_the_inverse :
    (World.empty : World ℚ).pool.Packed ∧ (0 : ℚ) < 1 ∧ ∃ c w₁ g n,
      Recipe.makeInverse World.empty "inverse" (.literal (.matrix skewed)) 1 = .ok (c, w₁) ∧
      g.place = c.handle.place ∧ (c.evaluate w₁).result = .ok () ∧
      (c.evaluate w₁).world.pool.read g = .ok (.matrix n) ∧
      n.multiply skewed = .identity ∧ skewed.multiply n = .identity := by
  have hp : (World.empty : World ℚ).pool.Packed := by
    intro b s hs
    simp [World.empty, Pool.empty, Pool.store?] at hs
  have hdet : (1 : ℚ) ≤ |skewed.toMatrix.det| := by
    have heq : skewed.determinant = -2 := by decide +kernel
    rw [Mat4.det_toMatrix, heq]
    norm_num
  have hm : (Operand.literal (.matrix skewed)).resolve (World.empty : World ℚ).pool =
      .ok (.matrix skewed) := rfl
  obtain ⟨c, w₁, g, hmake, hplace, hok, hinverse⟩ :=
    inversion_gives_the_inverse hp "inverse" hm one_pos
  obtain ⟨n, hread, hleft, hright, -⟩ := hinverse (hok.2 hdet)
  exact ⟨hp, one_pos, c, w₁, g, n, hmake, hplace, hok.2 hdet, hread, hleft, hright⟩

end DeferredMatrix
