import DeferredMatrix.Node.Recipe
import DeferredMatrix.Proofs.Session.Estate

/-!
# The compound that inverts

Inverting a matrix takes three steps: the determinant, the adjugate, and their quotient. The
first two read the operand and the last one reads their slots; the determinant is tested by the
first step and again by the last. Nothing can come between them, so an evaluation either stops at
the first step or goes through.

* `Recipe.exists_makeInverse` : such a compound can always be made.
* `Compound.Inverts.evaluate_of_error`, `evaluate_of_singular` : its evaluation changes nothing if
  the operand has no value or the determinant does not reach the threshold.
* `Compound.Inverts.evaluate_of_reaches` : otherwise all slots are written.
-/

namespace DeferredMatrix

variable {α : Type} [Scalar α]

/-! ## Steps and results -/

omit [Scalar α] in
/-- The steps of an inversion in the first three slots of the buffer `b`. -/
def inverseSteps (b : BufferId) (input : Operand α .matrix) (epsilon : α) : List (Step α) :=
  [⟨.determinant input (some epsilon), 0⟩, ⟨.adjugate input, 1⟩,
    ⟨.divide (.handle ⟨b, 1⟩) (.handle ⟨b, 0⟩) epsilon, 2⟩]

omit [Scalar α] in
/-- The compound inverts the value of an operand. -/
def Compound.Inverts (c : Compound α) (input : Operand α .matrix) (epsilon : α) : Prop :=
  c.steps = inverseSteps c.buffer input epsilon

/-- The adjugate over the determinant. -/
def Mat4.inverse (m : Mat4 α) : Mat4 α := m.adjugate.scale (Scalar.recip m.determinant)

/-- The first three slots of a buffer hold what an inversion of `m` computes. -/
structure Pool.HoldsInverse (p : Pool α) (b : BufferId) (m : Mat4 α) : Prop where
  determinant : p.contents? ⟨b, 0⟩ = some [m.determinant]
  adjugate : p.contents? ⟨b, 1⟩ = some m.adjugate.toList
  inverse : p.contents? ⟨b, 2⟩ = some m.inverse.toList

theorem Compound.lease_evaluate (c : Compound α) (w : World α) :
    (c.evaluate w).node.lease = c.lease := by
  unfold evaluate
  split <;> rfl

/-- Evaluating a compound does not change what it inverts. -/
theorem Compound.inverts_evaluate (c : Compound α) (w : World α) (input : Operand α .matrix)
    (epsilon : α) : (c.evaluate w).node.Inverts input epsilon ↔ c.Inverts input epsilon := by
  unfold evaluate
  split <;> exact Iff.rfl

/-! ## Making the compound -/

/-- The compound is new, nothing else is touched, and none of its steps is completed. -/
theorem Recipe.exists_makeInverse {w : World α} (hp : w.pool.Packed) (label : String)
    {input : Operand α .matrix} (epsilon : α)
    (hinput : ∀ place, input.input? = some place → w.pool.Issued place.buffer) :
    ∃ c w', makeInverse w label input epsilon = .ok (c, w') ∧ c.lease = ⟨w.pool.fresh, false⟩ ∧
      c.Inverts input epsilon ∧ c.completed = 0 ∧ (Node.compound c).Placed w'.pool ∧
      w'.pool.Packed ∧ ∀ b, w.pool.Issued b → w'.pool.store? b = w.pool.store? b := by
  -- The operand lies outside the new buffer.
  have hforeign : ∀ {i : Instruction α (Operand α)}, i.operands = [("input", ⟨.matrix, input⟩)] →
      ∀ {n : Nat}, ∀ place ∈ i.inputs, place.buffer = w.pool.fresh → place.slot < n := by
    intro i hi n place hplace hfresh
    obtain ⟨x, hx, hxp⟩ := Instruction.mem_inputs.1 hplace
    rw [hi] at hx
    obtain rfl := List.mem_singleton.1 hx
    exact absurd hfresh (Pool.ne_fresh_of_issued (hinput place hxp))
  have hown : ∀ place ∈ (Instruction.divide (.handle ⟨w.pool.fresh, 1⟩)
      (.handle ⟨w.pool.fresh, 0⟩) epsilon).inputs, place.buffer = w.pool.fresh →
      place.slot < 2 := by
    intro place hplace _
    rcases List.mem_pair.1 hplace with rfl | rfl
    · exact Nat.one_lt_two
    · exact Nat.zero_lt_two
  have hplaced₀ : StepsPlaced ⟨w.pool.fresh, false⟩ [] 0 (Draft.create w label).2.pool :=
    StepsPlaced.fresh [] label (fun i step h => by cases h) (fun step h => by cases h)
  have hp₀ : (Draft.create w label).2.pool.Packed := Pool.packed_allocate label [] hp
  obtain ⟨w₁, h₁, hplaced₁, hp₁, hsame₁⟩ := Draft.exists_push hplaced₀ hp₀ rfl
    (show 0 < Store.capacity by decide) (.determinant input (some epsilon)) (hforeign rfl)
  obtain ⟨w₂, h₂, hplaced₂, hp₂, hsame₂⟩ := Draft.exists_push hplaced₁ hp₁ rfl
    (show 1 < Store.capacity by decide) (.adjugate input) (hforeign rfl)
  obtain ⟨w₃, h₃, hplaced₃, hp₃, hsame₃⟩ := Draft.exists_push hplaced₂ hp₂ rfl
    (show 2 < Store.capacity by decide) _ hown
  refine ⟨⟨⟨w.pool.fresh, false⟩, inverseSteps w.pool.fresh input epsilon, 0,
    List.cons_ne_nil _ _⟩, w₃, ?_, rfl, rfl, rfl, hplaced₃, hp₃, fun b hb => ?_⟩
  · exact (bind_of_ok h₁).trans ((bind_of_ok h₂).trans (bind_of_ok h₃))
  · have hne := Pool.ne_fresh_of_issued hb
    rw [hsame₃.store b hne, hsame₂.store b hne, hsame₁.store b hne]
    exact Pool.store?_allocate_of_ne _ _ _ hne

/-! ## Evaluating it -/

namespace Compound.Inverts

variable {c : Compound α} {w : World α} {input : Operand α .matrix} {m : Mat4 α} {epsilon : α}

omit [Scalar α] in
/-- The operand is nothing that the compound itself computes. -/
theorem input_ne {p : Pool α} (h : c.Inverts input epsilon) (hc : (Node.compound c).Placed p) :
    ∀ place, input.input? = some place → place.buffer ≠ c.buffer := by
  intro place hplace hown
  have hsteps : (Node.compound c).steps = inverseSteps c.buffer input epsilon := h
  have hfirst : (Node.compound c).steps[0]? = some ⟨.determinant input (some epsilon), 0⟩ := by
    rw [hsteps]
    rfl
  have hinput : place ∈ (Instruction.determinant input (some epsilon)).inputs :=
    Instruction.mem_inputs.2 ⟨_, List.mem_singleton_self _, hplace⟩
  exact Nat.not_lt_zero _ (hc.backward 0 _ hfirst place hinput hown)

omit [Scalar α] in
/-- The result is a matrix, in the last of the three slots. -/
theorem place_handle (h : c.Inverts input epsilon) :
    c.kind = .matrix ∧ c.handle.place = ⟨c.buffer, 2⟩ := by
  obtain ⟨l, steps, completed, hne⟩ := c
  obtain rfl : steps = inverseSteps l.buffer input epsilon := h
  exact ⟨rfl, rfl⟩

omit [Scalar α] in
theorem isEvaluated_iff (h : c.Inverts input epsilon) :
    c.isEvaluated = true ↔ c.completed = 3 := by
  rw [Compound.isEvaluated, Compound.numSteps, show c.steps = _ from h, beq_iff_eq]
  rfl

theorem evaluate_of_stop {s : Stop α} (h : c.Inverts input epsilon)
    (hc : (Node.compound c).Placed w.pool) (hp : w.pool.Packed) (hr : c.lease.released = false)
    (h0 : c.completed = 0)
    (hs : (Instruction.determinant input (some epsilon)).execute w.pool = .error s) :
    (c.evaluate w).node = c ∧ (c.evaluate w).world.pool = w.pool ∧
      (c.evaluate w).result = .error s := by
  have hstep : (Node.compound c).steps[(Node.compound c).completed]? =
      some ⟨.determinant input (some epsilon), 0⟩ := by
    simp only [Node.steps, Node.completed, h0, show c.steps = _ from h, inverseSteps]
    rfl
  have heq := (Node.evaluate_evaluates hc hp).unique (.stop hr hstep hs)
  simp only [Node.evaluate, Attempt.mk.injEq, Node.compound.injEq] at heq
  obtain ⟨hnode, hworld, hresult⟩ := heq
  exact ⟨hnode, hworld ▸ Node.pool_noteStop _ w s, hresult⟩

theorem evaluate_of_error {s : Stop α} (h : c.Inverts input epsilon)
    (hc : (Node.compound c).Placed w.pool) (hp : w.pool.Packed) (hr : c.lease.released = false)
    (h0 : c.completed = 0) (hs : input.resolve w.pool = .error s) :
    (c.evaluate w).node = c ∧ (c.evaluate w).world.pool = w.pool ∧
      (c.evaluate w).result = .error s :=
  h.evaluate_of_stop hc hp hr h0 (bind_of_error hs)

theorem evaluate_of_singular (h : c.Inverts input epsilon)
    (hc : (Node.compound c).Placed w.pool) (hp : w.pool.Packed) (hr : c.lease.released = false)
    (h0 : c.completed = 0) (hm : input.resolve w.pool = .ok (.matrix m))
    (hsingular : Scalar.reaches m.determinant epsilon = false) :
    (c.evaluate w).node = c ∧ (c.evaluate w).world.pool = w.pool ∧
      (c.evaluate w).result = .error (.failure (.singular m.determinant epsilon)) := by
  have hcheck : Instruction.checkInvertible m.determinant epsilon =
      .error (.failure (.singular m.determinant epsilon)) := by
    rw [Instruction.checkInvertible, hsingular]
    rfl
  exact h.evaluate_of_stop hc hp hr h0 ((bind_of_ok hm).trans (bind_of_error hcheck))

theorem evaluate_of_reaches (h : c.Inverts input epsilon)
    (hc : (Node.compound c).Placed w.pool) (hp : w.pool.Packed) (hr : c.lease.released = false)
    (h0 : c.completed = 0) (hm : input.resolve w.pool = .ok (.matrix m))
    (hreaches : Scalar.reaches m.determinant epsilon = true) :
    (c.evaluate w).node = { c with completed := 3 } ∧ (c.evaluate w).result = .ok () ∧
      (c.evaluate w).world.pool.HoldsInverse c.buffer m ∧
      (c.evaluate w).world.pool.read (⟨c.buffer, 2⟩ : Handle .matrix) =
        .ok (.matrix m.inverse) := by
  have hforeign := h.input_ne hc
  obtain ⟨l, steps, completed, hne⟩ := c
  obtain rfl : steps = inverseSteps l.buffer input epsilon := h
  obtain rfl : completed = 0 := h0
  have hcheck : Instruction.checkInvertible m.determinant epsilon = .ok () := if_pos hreaches
  have hslots : ∀ i j : Nat, i ≠ j → (⟨l.buffer, i⟩ : Place) ≠ ⟨l.buffer, j⟩ :=
    fun i j hij heq => hij (congrArg Place.slot heq)
  -- The determinant is computed and tested.
  obtain ⟨w₁, hadvance₁, hself₁, hother₁⟩ := hc.exists_advance hp hr
    ⟨.determinant input (some epsilon), 0⟩ rfl
    ((bind_of_ok hm).trans (bind_of_ok hcheck))
  obtain ⟨hplaced₁, hp₁, hsame₁, -⟩ := hadvance₁.placed hc hp
  -- The operand is still what it was.
  have hm₁ : input.resolve w₁.pool = .ok (.matrix m) :=
    (Operand.resolve_congr fun place hplace => hsame₁.store _ (hforeign place hplace)).trans hm
  obtain ⟨w₂, hadvance₂, hself₂, hother₂⟩ := hplaced₁.exists_advance hp₁ hr
    ⟨.adjugate input, 1⟩ rfl (bind_of_ok hm₁)
  obtain ⟨hplaced₂, hp₂, -⟩ := hadvance₂.placed hplaced₁ hp₁
  -- The quotient reads both back.
  have hdet : w₂.pool.read (⟨l.buffer, 0⟩ : Handle .scalar) = .ok (.scalar m.determinant) := by
    refine Pool.read_of_contents (hplaced₂.holds (i := 0) rfl) ?_
    exact (hother₂ _ (hslots 0 1 (by decide))).trans hself₁
  have hadj : w₂.pool.read (⟨l.buffer, 1⟩ : Handle .matrix) = .ok (.matrix m.adjugate) :=
    Pool.read_of_contents (hplaced₂.holds (i := 1) rfl) hself₂
  obtain ⟨w₃, hadvance₃, hself₃, hother₃⟩ := hplaced₂.exists_advance hp₂ hr
    ⟨.divide (.handle ⟨l.buffer, 1⟩) (.handle ⟨l.buffer, 0⟩) epsilon, 2⟩ rfl
    ((bind_of_ok hdet).trans ((bind_of_ok hcheck).trans (bind_of_ok hadj)))
  obtain ⟨hplaced₃, -⟩ := hadvance₃.placed hplaced₂ hp₂
  have heq := (Node.evaluate_evaluates hc hp).unique
    (.advance hadvance₁ (.advance hadvance₂ (.advance hadvance₃ (.complete hr rfl))))
  simp only [Node.evaluate, Node.advance, Attempt.mk.injEq, Node.compound.injEq] at heq
  obtain ⟨hnode, rfl, hresult⟩ := heq
  refine ⟨hnode, hresult, ⟨?_, ?_, hself₃⟩,
    Pool.read_of_contents (hplaced₃.holds (i := 2) rfl) hself₃⟩
  · exact (hother₃ _ (hslots 0 2 (by decide))).trans
      ((hother₂ _ (hslots 0 1 (by decide))).trans hself₁)
  · exact (hother₃ _ (hslots 1 2 (by decide))).trans hself₂

/-- Evaluating again does nothing. -/
theorem evaluate_of_completed (h : c.Inverts input epsilon)
    (hc : (Node.compound c).Placed w.pool) (hp : w.pool.Packed) (hr : c.lease.released = false)
    (h3 : c.completed = 3) : (c.evaluate w).node = c ∧ (c.evaluate w).world = w := by
  have hlen : (Node.compound c).completed = (Node.compound c).steps.length := by
    simp only [Node.completed, Node.steps, h3, show c.steps = _ from h, inverseSteps,
      List.length_cons, List.length_nil]
  have heq := (Node.evaluate_evaluates hc hp).unique (.complete hr hlen)
  simp only [Node.evaluate, Attempt.mk.injEq, Node.compound.injEq] at heq
  exact ⟨heq.1, heq.2.1⟩

/-- The operand keeps its value. -/
theorem resolve_evaluate (h : c.Inverts input epsilon) (hc : (Node.compound c).Placed w.pool)
    (hp : w.pool.Packed) : input.resolve (c.evaluate w).world.pool = input.resolve w.pool := by
  obtain ⟨-, -, hsame, -⟩ := (Node.evaluate_evaluates hc hp).placed hc hp
  exact Operand.resolve_congr fun place hplace => hsame.store _ (h.input_ne hc place hplace)

end Compound.Inverts

/-! ## All or nothing -/

/-- Nothing of an inversion is done, or all of it, and then for one matrix. -/
def Compound.AllOrNothing (c : Compound α) (epsilon : α) (p : Pool α) : Prop :=
  c.completed = 0 ∨ c.completed = 3 ∧ (c.lease.released = false →
    ∃ m : Mat4 α, Scalar.reaches m.determinant epsilon = true ∧ p.HoldsInverse c.buffer m)

theorem Compound.Inverts.allOrNothing_evaluate {c : Compound α} {w : World α}
    {input : Operand α .matrix} {epsilon : α} (h : c.Inverts input epsilon)
    (hc : (Node.compound c).Placed w.pool) (hp : w.pool.Packed)
    (hall : c.AllOrNothing epsilon w.pool) :
    (c.evaluate w).node.AllOrNothing epsilon (c.evaluate w).world.pool := by
  cases hr : c.lease.released with
  | true =>
    have hdead : c.evaluate w = ⟨c, w, .error (.failure (.dangling c.buffer))⟩ := if_pos hr
    rw [hdead]
    exact hall
  | false =>
    rcases hall with h0 | ⟨h3, hslots⟩
    · cases hm : input.resolve w.pool with
      | error s =>
        obtain ⟨hnode, -⟩ := h.evaluate_of_error hc hp hr h0 hm
        rw [hnode]
        exact Or.inl h0
      | ok v =>
        obtain ⟨m, rfl⟩ : ∃ m, v = .matrix m := by
          cases v with
          | matrix m => exact ⟨m, rfl⟩
        cases hreaches : Scalar.reaches m.determinant epsilon with
        | false =>
          obtain ⟨hnode, -⟩ := h.evaluate_of_singular hc hp hr h0 hm hreaches
          rw [hnode]
          exact Or.inl h0
        | true =>
          obtain ⟨hnode, -, hinverse, -⟩ := h.evaluate_of_reaches hc hp hr h0 hm hreaches
          rw [hnode]
          exact Or.inr ⟨rfl, fun _ => ⟨m, hreaches, hinverse⟩⟩
    · obtain ⟨hnode, hworld⟩ := h.evaluate_of_completed hc hp hr h3
      rw [hnode, hworld]
      exact Or.inr ⟨h3, hslots⟩

end DeferredMatrix
