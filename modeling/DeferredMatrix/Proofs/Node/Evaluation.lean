import DeferredMatrix.Proofs.Node.Steps

/-!
# Evaluating a node

Evaluation of a node is a run of small steps: each executes the next step of the node and writes
its result (`Node.Advance`). The run ends when all steps are completed, when the next step cannot
be executed, or at once if the buffer has been released. `Node.Evaluates` is this description,
and `evaluate_evaluates` says that it is what `Node.evaluate` does.

* `Evaluates.placed`, `Evaluates.spec` : the node still fits its buffer, and no other buffer has
  changed.
* `Evaluates.ok`, `Evaluates.error`, `Evaluates.error_cases` : what the result says about the node
  and the pool.
* `Evaluates.congr` : all depends on the buffers that the node owns and reads.
-/

namespace DeferredMatrix

variable {α : Type} [Scalar α]

namespace Instruction

variable {i : Instruction α (Operand α)} {place : Place} {p q : Pool α}

theorem run_eq_ok {v : Value α i.output} (hv : i.execute p = .ok v)
    (hq : p.write place v.slots = .ok q) : i.run place p = .ok q := by
  simp only [run, hv, bind, Except.bind, hq]

theorem run_eq_error {s : Stop α} (hs : i.execute p = .error s) : i.run place p = .error s := by
  simp only [run, hs, bind, Except.bind]

end Instruction

section Notes

omit [Scalar α]

theorem World.pool_noteRefusal (w : World α) (s : Stop α) : (w.noteRefusal s).pool = w.pool := by
  unfold noteRefusal
  split <;> rfl

theorem World.pool_noteStep (w : World α) (b : BufferId) (step : Nat) (s : Stop α) :
    (w.noteStep b step s).pool = w.pool := by
  unfold noteStep
  split <;> rfl

end Notes

namespace Node

/-! ## One step -/

omit [Scalar α] in
/-- The record that a step of a node has been executed. -/
def event (n : Node α) (step : Step α) : Event α :=
  match n with
  | operation o => .evaluated o.buffer step.instruction.code
  | compound c => .stepEvaluated c.buffer c.completed step.instruction.code

omit [Scalar α] in
/-- The world after the next step of a node was stopped. -/
def noteStop (n : Node α) (w : World α) (s : Stop α) : World α :=
  match n with
  | operation _ => w.noteRefusal s
  | compound c => (w.noteRefusal s).noteStep c.buffer c.completed s

omit [Scalar α] in
theorem pool_noteStop (n : Node α) (w : World α) (s : Stop α) :
    (n.noteStop w s).pool = w.pool := by
  cases n with
  | operation o => exact w.pool_noteRefusal s
  | compound c => exact (World.pool_noteStep _ _ _ s).trans (w.pool_noteRefusal s)

/-- The next step of the node is executed and its result written. -/
def Advance (n : Node α) (w : World α) (n' : Node α) (w' : World α) : Prop :=
  n.lease.released = false ∧ ∃ step v q, n.steps[n.completed]? = some step ∧
    step.instruction.execute w.pool = .ok v ∧
    w.pool.write ⟨n.lease.buffer, step.slot⟩ v.slots = .ok q ∧
    n' = n.advance ∧ w' = (w.setPool q).emit (n.event step)

/-- The course of an evaluation. -/
inductive Evaluates : Node α → World α → Attempt (Node α) α → Prop
  | dead {n : Node α} {w : World α} (hr : n.lease.released = true) :
      Evaluates n w ⟨n, w, .error (.failure (.dangling n.buffer))⟩
  | complete {n : Node α} {w : World α} (hr : n.lease.released = false)
      (hc : n.completed = n.steps.length) : Evaluates n w ⟨n, w, .ok ()⟩
  | stop {n : Node α} {w : World α} {step : Step α} {s : Stop α} (hr : n.lease.released = false)
      (hstep : n.steps[n.completed]? = some step)
      (hs : step.instruction.execute w.pool = .error s) :
      Evaluates n w ⟨n, n.noteStop w s, .error s⟩
  | advance {n n' : Node α} {w w' : World α} {a : Attempt (Node α) α} (h : n.Advance w n' w')
      (ha : Evaluates n' w' a) : Evaluates n w a

/-- What a step changes, and what it leaves as it was. -/
theorem Advance.placed {n n' : Node α} {w w' : World α} (h : n.Advance w n' w')
    (hn : n.Placed w.pool) (hp : w.pool.Packed) :
    n'.Placed w'.pool ∧ w'.pool.Packed ∧ w.pool.SameBut w'.pool n.buffer ∧
      w.pool.Extends w'.pool ∧ n'.lease = n.lease ∧ n'.steps = n.steps ∧
      n'.completed = n.completed + 1 := by
  obtain ⟨hr, step, v, q, hstep, -, hq, rfl, rfl⟩ := h
  obtain ⟨hplaced, hsame, hext, hpacked⟩ := StepsPlaced.advance hn hp hr hstep hq
  have hlt := (List.getElem?_eq_some_iff.1 hstep).1
  refine ⟨?_, hpacked, hsame, hext, lease_advance n, steps_advance n, completed_advance hlt⟩
  unfold Placed
  rw [lease_advance, steps_advance, completed_advance hlt]
  exact hplaced

/-- If the next step can be executed, its slot is written, and no other slot. -/
theorem Placed.exists_advance {n : Node α} {w : World α} (hn : n.Placed w.pool)
    (hp : w.pool.Packed) (hr : n.lease.released = false) (step : Step α)
    (hstep : n.steps[n.completed]? = some step) {v : Value α step.instruction.output}
    (hv : step.instruction.execute w.pool = .ok v) : ∃ w', n.Advance w n.advance w' ∧
      w'.pool.contents? ⟨n.buffer, n.completed⟩ = some v.slots ∧
      ∀ place, place ≠ ⟨n.buffer, n.completed⟩ →
        w'.pool.contents? place = w.pool.contents? place := by
  obtain ⟨q, hq⟩ := StepsPlaced.exists_write hn hp hr (List.mem_of_getElem? hstep) v
  have hcontents := Pool.contents_write hp hq
  rw [hn.slot _ _ hstep] at hcontents
  exact ⟨_, ⟨hr, step, v, q, hstep, hv, hq, rfl, rfl⟩, hcontents⟩

theorem Advance.spec {n n' : Node α} {w w' : World α} (h : n.Advance w n' w')
    (hn : n.Fits w.pool) (hp : w.pool.Packed) :
    n'.Fits w'.pool ∧ w'.pool.Packed ∧ w.pool.SameBut w'.pool n.buffer ∧
      w.pool.Extends w'.pool ∧ n'.lease = n.lease ∧ n'.steps = n.steps ∧
      n'.completed = n.completed + 1 := by
  obtain ⟨hplaced, hpacked, hsame, hext, hlease, hsteps, hcompleted⟩ := h.placed hn.placed hp
  exact ⟨hn.of_placed hext hsteps hplaced, hpacked, hsame, hext, hlease, hsteps, hcompleted⟩

/-! ## A whole evaluation -/

/-- A compound evaluates by running its remaining steps. -/
theorem compound_evaluates (rest : List (Step α)) : ∀ (c : Compound α) (w : World α),
    rest = c.steps.drop c.completed → c.lease.released = false → (compound c).Placed w.pool →
    w.pool.Packed →
    let r := Step.runAll c.buffer c.completed rest w
    (compound c).Evaluates w ⟨compound { c with completed := r.completed }, r.world, r.result⟩ := by
  induction rest with
  | nil =>
    intro c w hrest hr hplaced _
    have hlen : c.steps.length ≤ c.completed := List.drop_eq_nil_iff.1 hrest.symm
    exact .complete hr (Nat.le_antisymm hplaced.completed_le hlen)
  | cons step rest ih =>
    intro c w hrest hr hplaced hp
    have hstep : (compound c).steps[c.completed]? = some step := by
      have hhead := congrArg List.head? hrest
      rw [List.head?_cons, List.head?_drop] at hhead
      exact hhead.symm
    cases hs : step.instruction.execute w.pool with
    | error s =>
      simp only [Step.runAll, hs]
      exact .stop hr hstep hs
    | ok v =>
      obtain ⟨q, hq⟩ := StepsPlaced.exists_write hplaced hp hr (List.mem_of_getElem? hstep) v
      have hwrite : w.pool.write ⟨c.buffer, step.slot⟩ v.slots = .ok q := hq
      have hadvance : (compound c).Advance w (compound c).advance
          ((w.setPool q).emit (.stepEvaluated c.buffer c.completed step.instruction.code)) :=
        ⟨hr, step, v, q, hstep, hs, hq, rfl, rfl⟩
      obtain ⟨hplaced', hp', -⟩ := hadvance.placed hplaced hp
      have hdrop : rest = c.steps.drop (c.completed + 1) := by
        rw [← List.tail_drop, ← hrest, List.tail_cons]
      simp only [Step.runAll, hs, hwrite]
      exact .advance hadvance (ih { c with completed := c.completed + 1 } _ hdrop hr hplaced' hp')

/-- Evaluating a node takes the course that `Evaluates` describes. -/
theorem evaluate_evaluates {n : Node α} {w : World α} (hn : n.Placed w.pool)
    (hp : w.pool.Packed) : n.Evaluates w (n.evaluate w) := by
  cases n with
  | compound c =>
    simp only [evaluate, Compound.evaluate]
    split
    · rename_i hr
      exact .dead hr
    · rename_i hr
      exact compound_evaluates _ c w rfl (by simpa using hr) hn hp
  | operation o =>
    simp only [evaluate, Operation.evaluate]
    split
    · rename_i hr
      exact .dead hr
    · rename_i hr
      have hr : o.lease.released = false := by simpa using hr
      split
      · rename_i he
        exact .complete hr (by simp [completed, steps, he])
      · rename_i he
        have hstep : (operation o).steps[(operation o).completed]? = some ⟨o.instruction, 0⟩ := by
          simp [steps, completed, he]
        cases hs : o.instruction.execute w.pool with
        | error s =>
          simp only [Instruction.run_eq_error hs]
          exact .stop hr hstep hs
        | ok v =>
          obtain ⟨q, hq⟩ := StepsPlaced.exists_write hn hp hr (List.mem_of_getElem? hstep) v
          have hrun : o.instruction.run o.handle.place w.pool = .ok q :=
            Instruction.run_eq_ok hs hq
          simp only [hrun]
          exact .advance ⟨hr, _, v, q, hstep, hs, hq, rfl, rfl⟩ (.complete hr rfl)

namespace Evaluates

variable {n : Node α} {w : World α} {a : Attempt (Node α) α}

/-- What an evaluation keeps and what it may change. -/
theorem placed (h : n.Evaluates w a) (hn : n.Placed w.pool) (hp : w.pool.Packed) :
    a.node.Placed a.world.pool ∧ a.world.pool.Packed ∧ w.pool.SameBut a.world.pool n.buffer ∧
      w.pool.Extends a.world.pool ∧ a.node.lease = n.lease ∧ a.node.steps = n.steps ∧
      n.completed ≤ a.node.completed := by
  induction h with
  | dead hr | complete hr hc =>
    exact ⟨hn, hp, .refl _ _, .refl _, rfl, rfl, Nat.le_refl _⟩
  | @stop n w step s hr hstep hs =>
    have hpool := pool_noteStop n w s
    simp only [hpool]
    exact ⟨hn, hp, .refl _ _, .refl _, trivial, trivial, Nat.le_refl _⟩
  | @advance n n' w w' a h ha ih =>
    obtain ⟨hn', hp', hsame, hext, hlease, hsteps, hcompleted⟩ := h.placed hn hp
    obtain ⟨hplaced, hpacked, hsame', hext', hlease', hsteps', hcompleted'⟩ := ih hn' hp'
    have hbuffer : n'.buffer = n.buffer := congrArg Lease.buffer hlease
    exact ⟨hplaced, hpacked, hsame.trans (hbuffer ▸ hsame'), hext.trans hext',
      hlease'.trans hlease, hsteps'.trans hsteps, by omega⟩

theorem spec (h : n.Evaluates w a) (hn : n.Fits w.pool) (hp : w.pool.Packed) :
    a.node.Fits a.world.pool ∧ a.world.pool.Packed ∧ w.pool.SameBut a.world.pool n.buffer ∧
      w.pool.Extends a.world.pool ∧ a.node.lease = n.lease ∧ a.node.steps = n.steps ∧
      n.completed ≤ a.node.completed := by
  obtain ⟨hplaced, hpacked, hsame, hext, hlease, hsteps, hcompleted⟩ := h.placed hn.placed hp
  exact ⟨hn.of_placed hext hsteps hplaced, hpacked, hsame, hext, hlease, hsteps, hcompleted⟩

/-- An evaluation that succeeds leaves all steps of a live node completed. -/
theorem ok (h : n.Evaluates w a) (hok : a.result = .ok ()) :
    n.lease.released = false ∧ a.node.completed = a.node.steps.length := by
  induction h with
  | dead hr => cases hok
  | complete hr hc => exact ⟨hr, hc⟩
  | stop hr hstep hs => cases hok
  | advance h ha ih => exact ⟨h.1, (ih hok).2⟩

/-- An evaluation fails because the buffer of the node is gone, or because the step after the
completed ones cannot be executed in the pool that it leaves behind. -/
theorem error (h : n.Evaluates w a) {s : Stop α} (hs : a.result = .error s) :
    (n.lease.released = true ∧ a = ⟨n, w, .error s⟩ ∧ s = .failure (.dangling n.buffer)) ∨
      n.lease.released = false ∧ ∃ step, a.node.steps[a.node.completed]? = some step ∧
        step.instruction.execute a.world.pool = .error s := by
  induction h with
  | dead hr =>
    cases hs
    exact Or.inl ⟨hr, rfl, rfl⟩
  | complete hr hc => cases hs
  | stop hr hstep hexec =>
    cases hs
    exact Or.inr ⟨hr, _, hstep, (pool_noteStop _ _ s).symm ▸ hexec⟩
  | @advance n n' w w' a h ha ih =>
    refine Or.inr ⟨h.1, ?_⟩
    rcases ih hs with ⟨hr', -⟩ | ⟨-, hstep⟩
    · obtain ⟨hr, step, v, q, -, -, -, rfl, -⟩ := h
      rw [lease_advance, hr] at hr'
      cases hr'
    · exact hstep

/-- What stops an evaluation: a singular determinant, or a buffer that the node needs and that is
gone, or a slot of another live buffer that is not written. -/
theorem error_cases (h : n.Evaluates w a) (hn : n.Fits w.pool) (hp : w.pool.Packed) {s : Stop α}
    (hs : a.result = .error s) : (∃ det epsilon, s = .failure (.singular det epsilon)) ∨
      (∃ b, s = .failure (.dangling b) ∧ (b = n.buffer ∨ b ∈ n.externalInputs) ∧
        ¬ w.pool.isLive b) ∨
      ∃ place k, s = .failure (.unevaluated place) ∧ place.buffer ∈ n.externalInputs ∧
        w.pool.isLive place.buffer ∧ w.pool.Holds place k ∧ w.pool.contents? place = none := by
  obtain ⟨hfit, hpacked, hsame, hext, hlease, hsteps, -⟩ := h.spec hn hp
  rcases h.error hs with ⟨hr, -, rfl⟩ | ⟨hr, step, hstep, hexec⟩
  · exact Or.inr (Or.inl ⟨n.buffer, rfl, Or.inl rfl, hn.placed.released_iff.1 hr⟩)
  rcases Instruction.execute_error_cases hexec with hsingular | ⟨⟨name, k, o⟩, hx, hresolve⟩
  · exact Or.inl hsingular
  cases o with
  | literal v => cases hresolve
  | handle g =>
    have hmem : step ∈ n.steps := hsteps ▸ List.mem_of_getElem? hstep
    have hinput : g.place ∈ step.instruction.inputs := Instruction.mem_inputs.2 ⟨_, hx, rfl⟩
    have hholds : a.world.pool.Holds g.place k := hfit.sound step (hsteps ▸ hmem) _ hx
    by_cases hown : g.place.buffer = n.buffer
    · -- An own slot belongs to an earlier step, which has been completed.
      have hr' : a.node.lease.released = false := hlease ▸ hr
      have hbuffer : g.place.buffer = a.node.lease.buffer := by
        rw [hown, hlease]
        rfl
      have hback := hfit.backward _ step hstep g.place hinput hbuffer
      have hsome := (hfit.placed.isSome_contents_iff hr' hbuffer).2 hback
      obtain ⟨xs, hxs⟩ := Option.isSome_iff_exists.1 hsome
      rcases Pool.read_cases hpacked hholds with ⟨v, hv, -⟩ | ⟨-, -, hnone⟩ | ⟨-, hdead⟩
      · cases hv.symm.trans hresolve
      · cases hxs.symm.trans hnone
      · exact absurd (Pool.isLive_of_contents hxs) hdead
    · -- Other buffers are as they were before the evaluation.
      have hexternal := mem_externalInputs_of_ne hmem hinput hown
      have hholds₀ : w.pool.Holds g.place k := hn.sound step hmem _ hx
      have hread : w.pool.read g = .error s :=
        (Pool.read_congr (hsame.store _ hown)).symm.trans hresolve
      rcases Pool.read_cases hp hholds₀ with ⟨v, hv, -⟩ | ⟨hv, hlive, hnone⟩ | ⟨hv, hdead⟩
      · cases hv.symm.trans hread
      · cases hv.symm.trans hread
        exact Or.inr (Or.inr ⟨g.place, k, rfl, hexternal, hlive, hholds₀, hnone⟩)
      · cases hv.symm.trans hread
        exact Or.inr (Or.inl ⟨g.buffer, rfl, Or.inr hexternal, hdead⟩)

/-- An evaluation that succeeds finds all slots written that it needs from elsewhere. -/
theorem isSome_contents (h : n.Evaluates w a) (hn : n.Fits w.pool) (hp : w.pool.Packed)
    (hok : a.result = .ok ()) : ∀ (i : Nat) (step : Step α), n.completed ≤ i →
      n.steps[i]? = some step → ∀ place ∈ step.instruction.inputs, place.buffer ≠ n.buffer →
      (w.pool.contents? place).isSome := by
  induction h with
  | dead hr => cases hok
  | @complete n w hr hc =>
    intro i step hi hstep
    have hlt := (List.getElem?_eq_some_iff.1 hstep).1
    omega
  | stop hr hstep hs => cases hok
  | @advance n n' w w' a h ha ih =>
    intro i step hi hstep place hplace hne
    obtain ⟨hn', hp', hsame, -, hlease, hsteps, hcompleted⟩ := h.spec hn hp
    by_cases hcurrent : i = n.completed
    · obtain ⟨-, step', v, q, hstep', hexec, -⟩ := h
      subst hcurrent
      obtain rfl : step = step' := Option.some.inj (hstep.symm.trans hstep')
      exact Instruction.isSome_contents_of_execute hp hexec hplace
    · have hbuffer : n'.buffer = n.buffer := congrArg Lease.buffer hlease
      have hlater := ih hn' hp' hok i step (by omega) (hsteps ▸ hstep) place hplace
        (hbuffer.symm ▸ hne)
      unfold Pool.contents? at hlater ⊢
      rwa [hsame.cells hne] at hlater

/-- There is one course of evaluation. -/
theorem unique {b : Attempt (Node α) α} (ha : n.Evaluates w a) (hb : n.Evaluates w b) : a = b := by
  induction ha generalizing b with
  | dead hr =>
    cases hb with
    | dead _ => rfl
    | complete hr' _ | stop hr' _ _ => simp [hr] at hr'
    | advance h _ =>
      obtain ⟨hr', -⟩ := h
      simp [hr] at hr'
  | complete hr hc =>
    cases hb with
    | dead hr' => simp [hr] at hr'
    | complete _ _ => rfl
    | stop _ hstep _ => simp [hc] at hstep
    | advance h _ =>
      obtain ⟨-, step, v, q, hstep, -⟩ := h
      simp [hc] at hstep
  | stop hr hstep hs =>
    cases hb with
    | dead hr' => simp [hr] at hr'
    | complete _ hc => simp [hc] at hstep
    | stop _ hstep' hs' =>
      cases hstep.symm.trans hstep'
      cases hs.symm.trans hs'
      rfl
    | advance h _ =>
      obtain ⟨-, step, v, q, hstep', hv, -⟩ := h
      cases hstep.symm.trans hstep'
      cases hs.symm.trans hv
  | advance h _ ih =>
    obtain ⟨hr, step, v, q, hstep, hv, hq, rfl, rfl⟩ := h
    cases hb with
    | dead hr' => simp [hr] at hr'
    | complete _ hc => simp [hc] at hstep
    | stop _ hstep' hs' =>
      cases hstep.symm.trans hstep'
      cases hv.symm.trans hs'
    | advance h' hb =>
      obtain ⟨-, step', v', q', hstep', hv', hq', rfl, rfl⟩ := h'
      cases hstep.symm.trans hstep'
      cases hv.symm.trans hv'
      cases hq.symm.trans hq'
      exact ih hb

/-- An evaluation depends on the buffers that the node owns and reads. -/
theorem congr {v : World α} (h : n.Evaluates w a)
    (hown : v.pool.store? n.buffer = w.pool.store? n.buffer)
    (hread : ∀ b ∈ n.externalInputs, v.pool.store? b = w.pool.store? b) :
    ∃ b, n.Evaluates v b ∧ b.node = a.node ∧ b.result = a.result ∧
      b.world.pool.store? n.buffer = a.world.pool.store? n.buffer := by
  have hexec : ∀ {n : Node α} {w v : World α}, v.pool.store? n.buffer = w.pool.store? n.buffer →
      (∀ b ∈ n.externalInputs, v.pool.store? b = w.pool.store? b) → ∀ step ∈ n.steps,
      step.instruction.execute v.pool = step.instruction.execute w.pool := by
    intro n w v hown hread step hstep
    refine Instruction.execute_congr_stores fun place hplace => ?_
    by_cases hb : place.buffer = n.buffer
    · rw [hb, hown]
    · exact hread _ (mem_externalInputs_of_ne hstep hplace hb)
  induction h generalizing v with
  | dead hr => exact ⟨_, .dead hr, rfl, rfl, hown⟩
  | complete hr hc => exact ⟨_, .complete hr hc, rfl, rfl, hown⟩
  | @stop n w step s hr hstep hs =>
    rw [← hexec hown hread step (List.mem_of_getElem? hstep)] at hs
    refine ⟨_, .stop hr hstep hs, rfl, rfl, ?_⟩
    simp only [pool_noteStop, hown]
  | @advance n n' w w' a h ha ih =>
    obtain ⟨hr, step, u, q, hstep, hu, hq, rfl, rfl⟩ := h
    rw [← hexec hown hread step (List.mem_of_getElem? hstep)] at hu
    obtain ⟨q', hq', hstore, hsameq, hsameq'⟩ := Pool.write_congr hq hown
    have hread' : ∀ b ∈ n.advance.externalInputs, q'.store? b = q.store? b := by
      intro b hb
      by_cases hbn : b = n.buffer
      · exact hbn ▸ hstore
      · rw [hsameq'.store b hbn, hsameq.store b hbn]
        exact hread b (externalInputs_advance n ▸ hb)
    obtain ⟨b, hb, hnode, hresult, hfinal⟩ :=
      @ih ((v.setPool q').emit (n.event step)) ((buffer_advance n).symm ▸ hstore) hread'
    exact ⟨b, .advance ⟨hr, step, u, q', hstep, hu, hq', rfl, rfl⟩ hb, hnode, hresult,
      buffer_advance n ▸ hfinal⟩

end Evaluates

end Node

/-! ## Worlds with the same pool

An evaluation adds to the log and does not look at it. -/

theorem Step.runAll_congr (b : BufferId) (steps : List (Step α)) : ∀ (completed : Nat)
    {w w' : World α}, w'.pool = w.pool →
    (runAll b completed steps w').completed = (runAll b completed steps w).completed ∧
      (runAll b completed steps w').world.pool = (runAll b completed steps w).world.pool ∧
      (runAll b completed steps w').result = (runAll b completed steps w).result := by
  induction steps with
  | nil => exact fun completed w w' h => ⟨rfl, h, rfl⟩
  | cons step rest ih =>
    intro completed w w' h
    unfold runAll
    rw [h]
    cases step.instruction.execute w.pool with
    | error s =>
      refine ⟨rfl, ?_, rfl⟩
      simp only [World.pool_noteStep, World.pool_noteRefusal, h]
    | ok v =>
      simp only
      cases w.pool.write ⟨b, step.slot⟩ v.slots with
      | error s => exact ⟨rfl, h, rfl⟩
      | ok p => exact ih _ rfl

theorem Node.evaluate_congr (n : Node α) {w w' : World α} (h : w'.pool = w.pool) :
    (n.evaluate w').node = (n.evaluate w).node ∧
      (n.evaluate w').world.pool = (n.evaluate w).world.pool ∧
      (n.evaluate w').result = (n.evaluate w).result := by
  cases n with
  | operation o =>
    simp only [evaluate, Operation.evaluate, h]
    split
    · exact ⟨rfl, h, rfl⟩
    split
    · exact ⟨rfl, h, rfl⟩
    split
    · simp only [World.pool_noteRefusal, h, and_self]
    · exact ⟨rfl, rfl, rfl⟩
  | compound c =>
    obtain ⟨hcompleted, hpool, hresult⟩ :=
      Step.runAll_congr c.buffer (c.steps.drop c.completed) c.completed h
    simp only [evaluate, Compound.evaluate]
    split
    · exact ⟨rfl, h, rfl⟩
    · exact ⟨by rw [hcompleted], hpool, hresult⟩

end DeferredMatrix
