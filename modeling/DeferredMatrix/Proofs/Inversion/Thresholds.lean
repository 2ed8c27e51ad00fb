import DeferredMatrix.Proofs.Inversion.Compound
import DeferredMatrix.Proofs.Json.Accepted
import DeferredMatrix.Proofs.Session.CompoundPrefix

/-!
# Thresholds of inversion

Whether a matrix is inverted depends on its determinant and on the threshold alone
(`Recipe.exists_inverse`). Every number is accepted as a threshold, and the magnitude of a zero
determinant reaches those that are not positive.

* `singular_matrices_are_refused_iff` : a matrix with a zero determinant is refused for exactly the
  accepted configurations whose threshold is positive.
* `zero_threshold_inverts_zeroMatrix` : with a threshold of zero, the zero matrix is inverted.
-/

namespace DeferredMatrix

variable {α : Type}

/-- A slot of a live node says whether its step is completed. -/
theorem StepsPlaced.isWritten_eq {l : Lease} {steps : List (Step α)} {completed : Nat} {p : Pool α}
    (h : StepsPlaced l steps completed p) (hr : l.released = false) {i : Nat}
    (hi : i < steps.length) : p.isWritten ⟨l.buffer, i⟩ = .ok (decide (i < completed)) := by
  obtain ⟨st, hst, -, hslots⟩ := h.exists_store hr
  obtain ⟨slot, hslot, -, hwritten⟩ := hslots i _ (List.getElem?_eq_getElem hi)
  have hflag : slot.written = decide (i < completed) := by
    rw [Bool.eq_iff_iff, hwritten, decide_eq_true_iff]
  simp [Pool.isWritten, hst, Pool.slotAt, hslot, Except.map, hflag]

section Outcome

variable [Scalar α]

/-- The inverse of a matrix is computed if its determinant reaches the threshold. Otherwise the
evaluation fails and nothing is written to the slot of the result. -/
theorem Recipe.exists_inverse {w : World α} (hp : w.pool.Packed) (label : String)
    {input : Operand α .matrix} {m : Mat4 α} (hm : input.resolve w.pool = .ok (.matrix m))
    (epsilon : α) : ∃ c w₁ g, make w label (.inverse input epsilon) = .ok (.compound c, w₁) ∧
      g.place = c.handle.place ∧
      if Scalar.reaches m.determinant epsilon then
        (c.evaluate w₁).result = .ok () ∧
          (c.evaluate w₁).world.pool.read g = .ok (.matrix m.inverse)
      else
        (c.evaluate w₁).result = .error (.failure (.singular m.determinant epsilon)) ∧
          (c.evaluate w₁).world.pool.isWritten g.place = .ok false := by
  obtain ⟨c, w₁, hmake, hlease, hc, h0, hplaced, hp₁, hold⟩ :=
    exists_makeInverse hp label epsilon fun _ => Operand.issued_of_resolve hm
  have hr : c.lease.released = false := by rw [hlease]
  have hm₁ : input.resolve w₁.pool = .ok (.matrix m) :=
    (Operand.resolve_congr fun _ hplace => hold _ (Operand.issued_of_resolve hm hplace)).trans hm
  refine ⟨c, w₁, ⟨c.buffer, 2⟩, bind_of_ok hmake, hc.place_handle.2.symm, ?_⟩
  split
  · rename_i hreaches
    obtain ⟨-, hok, -, hread⟩ := hc.evaluate_of_reaches hplaced hp₁ hr h0 hm₁ hreaches
    exact ⟨hok, hread⟩
  · rename_i hreaches
    obtain ⟨-, hpool, herror⟩ :=
      hc.evaluate_of_singular hplaced hp₁ hr h0 hm₁ (Bool.eq_false_iff.2 hreaches)
    have hlast : 2 < (Node.compound c).steps.length := by
      rw [Node.steps, show c.steps = _ from hc]
      exact Nat.lt_succ_self 2
    refine ⟨herror, ?_⟩
    rw [hpool]
    refine (StepsPlaced.isWritten_eq hplaced hr hlast).trans ?_
    rw [Node.completed, h0]
    rfl

theorem Recipe.exists_inverse_of_reaches {w : World α} (hp : w.pool.Packed) (label : String)
    {input : Operand α .matrix} {m : Mat4 α} (hm : input.resolve w.pool = .ok (.matrix m))
    {epsilon : α} (hreaches : Scalar.reaches m.determinant epsilon = true) :
    ∃ c w₁ g, make w label (.inverse input epsilon) = .ok (.compound c, w₁) ∧
      g.place = c.handle.place ∧ (c.evaluate w₁).result = .ok () ∧
      (c.evaluate w₁).world.pool.read g = .ok (.matrix m.inverse) := by
  obtain ⟨c, w₁, g, hmake, hplace, houtcome⟩ := exists_inverse hp label hm epsilon
  rw [hreaches] at houtcome
  obtain ⟨hok, hread⟩ := houtcome
  exact ⟨c, w₁, g, hmake, hplace, hok, hread⟩

end Outcome

/-- A matrix given by an operand whose determinant is zero, of either sign, is refused, and the slot
of the result stays unwritten, exactly if the threshold is positive; otherwise what is computed is
written to the slot. -/
theorem singular_matrices_are_refused_iff {w : World Float32} (hp : w.pool.Packed) (label : String)
    {input : Operand Float32 .matrix} {m : Mat4 Float32}
    (hm : input.resolve w.pool = .ok (.matrix m)) (hzero : (m.determinant == 0) = true)
    {text : String} {config : Config} (hconfig : Config.ofJson text = .ok config) :
    ∃ c w₁ g, Recipe.make w label (.inverseWith config input) = .ok (.compound c, w₁) ∧
      g.place = c.handle.place ∧
      ((c.evaluate w₁).result =
          .error (.failure (.singular m.determinant config.singularEpsilon)) ∧
        (c.evaluate w₁).world.pool.isWritten g.place = .ok false ↔ 0 < config.singularEpsilon) ∧
      (¬ 0 < config.singularEpsilon → (c.evaluate w₁).result = .ok () ∧
        (c.evaluate w₁).world.pool.read g = .ok (.matrix m.inverse)) := by
  obtain ⟨c, w₁, g, hmake, hplace, houtcome⟩ :=
    Recipe.exists_inverse hp label hm config.singularEpsilon
  have hle := Single.le_zero_iff (Config.isNaN_of_ofJson hconfig)
  rw [Single.reaches_of_zero hzero] at houtcome
  refine ⟨c, w₁, g, hmake, hplace, ?_⟩
  by_cases hpos : 0 < config.singularEpsilon
  · rw [decide_eq_false (mt hle.1 (not_not.2 hpos))] at houtcome
    exact ⟨iff_of_true houtcome hpos, absurd hpos⟩
  · rw [decide_eq_true (hle.2 hpos)] at houtcome
    obtain ⟨hok, hread⟩ := houtcome
    rw [hok]
    exact ⟨iff_of_false (fun h => nomatch h.1) hpos, fun _ => ⟨rfl, hread⟩⟩

/-- The zero matrix. -/
def zeroMatrix : Mat4 Float32 := .ofFn fun _ _ => 0

theorem zeroMatrix_is_refused_at_one_half :
    (World.empty : World Float32).pool.Packed ∧ (zeroMatrix.determinant == 0) = true ∧
    ∃ config c w₁, ∃ g : Handle .matrix,
      Config.ofJson "\x7b\"singular_epsilon\":0.5\x7d" = .ok config ∧
      0 < config.singularEpsilon ∧
      Recipe.make World.empty "inverse" (.inverseWith config (.literal (.matrix zeroMatrix))) =
        .ok (.compound c, w₁) ∧
      g.place = c.handle.place ∧
      (c.evaluate w₁).result =
        .error (.failure (.singular zeroMatrix.determinant config.singularEpsilon)) ∧
      (c.evaluate w₁).world.pool.isWritten g.place = .ok false := by
  have hp : (World.empty : World Float32).pool.Packed := Pool.packed_empty
  have hzero : (zeroMatrix.determinant == 0) = true := by decide +kernel
  have hm : (Operand.literal (.matrix zeroMatrix)).resolve (World.empty : World Float32).pool =
      .ok (.matrix zeroMatrix) := rfl
  have htext : (Config.ofJson "\x7b\"singular_epsilon\":0.5\x7d").toOption.map
      Config.singularEpsilon = some 0.5 := by decide +kernel
  obtain ⟨config, hconfig, hepsilon⟩ := Option.map_eq_some_iff.1 htext
  have hpos : 0 < config.singularEpsilon := by
    rw [hepsilon]
    decide +kernel
  have haccepted := toOption_eq_some_iff.1 hconfig
  obtain ⟨c, w₁, g, hmake, hplace, hiff, -⟩ :=
    singular_matrices_are_refused_iff hp "inverse" hm hzero haccepted
  obtain ⟨herror, hslot⟩ := hiff.2 hpos
  exact ⟨hp, hzero, config, c, w₁, g, haccepted, hpos, hmake, hplace, herror, hslot⟩

/-- A threshold of zero is accepted, and the inverse of the zero matrix is then computed: it is
written and holds nothing but values that are no number. -/
theorem zero_threshold_inverts_zeroMatrix :
    ∃ config c w₁, ∃ (g : Handle .matrix) (n : Mat4 Float32),
    Config.ofJson "\x7b\"singular_epsilon\":0\x7d" = .ok config ∧
    (zeroMatrix.determinant == 0) = true ∧
    Recipe.make World.empty "inverse" (.inverseWith config (.literal (.matrix zeroMatrix))) =
      .ok (.compound c, w₁) ∧
    g.place = c.handle.place ∧ (c.evaluate w₁).result = .ok () ∧
    (c.evaluate w₁).world.pool.read g = .ok (.matrix n) ∧
    ∀ i j, (n.get i j).isNaN = true := by
  have hzero : (zeroMatrix.determinant == 0) = true := by decide +kernel
  have hm : (Operand.literal (.matrix zeroMatrix)).resolve (World.empty : World Float32).pool =
      .ok (.matrix zeroMatrix) := rfl
  have htext : (Config.ofJson "\x7b\"singular_epsilon\":0\x7d").toOption.map
      Config.singularEpsilon = some 0 := by decide +kernel
  obtain ⟨config, hconfig, hepsilon⟩ := Option.map_eq_some_iff.1 htext
  have hreaches : Scalar.reaches zeroMatrix.determinant config.singularEpsilon = true := by
    rw [hepsilon]
    decide +kernel
  obtain ⟨c, w₁, g, hmake, hplace, hok, hread⟩ :=
    Recipe.exists_inverse_of_reaches Pool.packed_empty "inverse" hm hreaches
  have hnan : ∀ i j, (zeroMatrix.inverse.get i j).isNaN = true := by decide +kernel
  exact ⟨config, c, w₁, g, _, toOption_eq_some_iff.1 hconfig, hzero, hmake, hplace, hok, hread,
    hnan⟩

end DeferredMatrix
