import DeferredMatrix.Proofs.Session.Reachable

/-!
# Compounds hold completed prefixes

The buffer of a compound that has not been released has one slot for every step, of the kind of
the step's result. The slots of the completed steps are written and those of the others are not,
so that the result can be read exactly when the compound is evaluated. Whatever commands follow,
the steps stay as they are and no step is uncompleted.

All this is so in every session, however handles to buffers have been made: a compound's own slots
are only ever named by handles that drafts and nodes have given out.
-/

namespace DeferredMatrix

variable {α : Type}

theorem Store.isSome_contents (s : Store α) (slot : Slot) :
    (s.contents slot).isSome = slot.written := by
  unfold contents
  cases slot.written <;> rfl

/-- The store behind steps whose buffer is live. -/
theorem StepsPlaced.exists_store {l : Lease} {steps : List (Step α)} {completed : Nat} {p : Pool α}
    (h : StepsPlaced l steps completed p) (hr : l.released = false) : ∃ st,
    p.store? l.buffer = some st ∧ st.numSlots = steps.length ∧
      ∀ (i : Nat) (step : Step α), steps[i]? = some step → ∃ slot, st.slots[i]? = some slot ∧
        slot.kind = step.instruction.output ∧ (slot.written = true ↔ i < completed) := by
  obtain ⟨cs, hcs, hkinds, -⟩ := h.live hr
  obtain ⟨st, hst, rfl⟩ := Pool.store_of_cells hcs
  refine ⟨st, hst, ?_, fun i step hstep => ?_⟩
  · have hlen := congrArg List.length hkinds
    simpa only [List.length_map, Store.length_cells] using hlen
  · obtain ⟨cs', c, hcs', hc, hk, hwritten⟩ := h.exists_cell hr hstep
    obtain rfl := Option.some.inj (hcs.symm.trans hcs')
    rw [Store.getElem?_cells] at hc
    obtain ⟨slot, hslot, rfl⟩ := Option.map_eq_some_iff.1 hc
    exact ⟨slot, hslot, hk, (st.isSome_contents slot) ▸ hwritten⟩

/-- The store of a compound in the middle of its evaluation. -/
structure Compound.Matches (c : Compound α) (st : Store α) : Prop where
  numSlots : st.numSlots = c.numSteps
  completed_le : c.completed ≤ c.numSteps
  slot : ∀ (i : Nat) (step : Step α), c.steps[i]? = some step → step.slot = i ∧
    ∃ slot, st.slots[i]? = some slot ∧ slot.kind = step.instruction.output ∧
      (slot.written = true ↔ i < c.completed)
  /-- Own slots are read behind the steps that write them, and as what they are. -/
  reads : ∀ (i : Nat) (step : Step α), c.steps[i]? = some step →
    ∀ x ∈ step.instruction.operands, ∀ place, x.2.2.input? = some place →
      place.buffer = c.buffer → place.slot < i ∧
        ∃ slot, st.slots[place.slot]? = some slot ∧ slot.kind = x.2.1
  result : ∃ slot, st.slots[c.handle.slot]? = some slot ∧ slot.kind = c.kind ∧
    (slot.written = true ↔ c.isEvaluated = true)

theorem Compound.getElem?_last (c : Compound α) : c.steps[c.numSteps - 1]? = some c.last := by
  rw [numSteps, ← List.getLast?_eq_getElem?, List.getLast?_eq_some_getLast c.steps_ne_nil, last]

theorem Compound.isEvaluated_iff {c : Compound α} (hle : c.completed ≤ c.numSteps) :
    c.isEvaluated = true ↔ c.numSteps - 1 < c.completed := by
  have hpos : 0 < c.numSteps := List.length_pos_iff.2 c.steps_ne_nil
  simp only [isEvaluated, beq_iff_eq]
  omega

/-- In an orderly estate the live compounds match their stores. -/
theorem Estate.Orderly.exists_matches {free : Prop} {e : Estate α} (he : e.Orderly free)
    {c : Compound α} (hc : .node (.compound c) ∈ e.holders) (hr : c.lease.released = false) :
    ∃ st, e.world.pool.store? c.buffer = some st ∧ c.Matches st := by
  have hplaced : StepsPlaced c.lease c.steps c.completed e.world.pool := he.tidy.placed _ hc
  obtain ⟨st, hst, hnum, hslots⟩ := hplaced.exists_store hr
  refine ⟨st, hst, hnum, hplaced.completed_le, ?_, ?_, ?_⟩
  · exact fun i step hstep => ⟨hplaced.slot i step hstep, hslots i step hstep⟩
  · intro i step hstep x hx place hplace hbuffer
    obtain ⟨name, k, o⟩ := x
    have hinput : place ∈ step.instruction.inputs := Instruction.mem_inputs.2 ⟨_, hx, hplace⟩
    refine ⟨hplaced.backward i step hstep place hinput hbuffer, ?_⟩
    have htrusts := he.trusted _ hc step (List.mem_of_getElem? hstep) _ hx
    cases o with
    | literal v => cases hplace
    | handle g =>
      cases hplace
      have hholds := he.tidy.holds_of_trusts hc rfl hbuffer htrusts
      obtain ⟨cell, hcell, hkind⟩ := hholds.2 st.cells (Pool.cells_of_store (hbuffer ▸ hst))
      rw [Store.getElem?_cells] at hcell
      obtain ⟨slot, hslot, rfl⟩ := Option.map_eq_some_iff.1 hcell
      exact ⟨slot, hslot, hkind⟩
  · obtain ⟨slot, hslot, hkind, hwritten⟩ := hslots _ _ c.getElem?_last
    refine ⟨slot, ?_, hkind, hwritten.trans (Compound.isEvaluated_iff hplaced.completed_le).symm⟩
    rw [show c.handle.slot = c.numSteps - 1 from hplaced.slot _ _ c.getElem?_last]
    exact hslot

/-- The result of a compound can be read exactly when it is evaluated. -/
theorem Compound.Matches.read_handle {c : Compound α} {st : Store α} (hm : c.Matches st)
    {p : Pool α} (hp : p.Packed) (hst : p.store? c.buffer = some st) :
    (c.isEvaluated = true → ∃ v, p.read c.handle = .ok v) ∧
      (c.isEvaluated = false →
        p.read c.handle = .error (.failure (.unevaluated c.handle.place))) := by
  obtain ⟨slot, hslot, hkind, hwritten⟩ := hm.result
  have hcell : st.cells[c.handle.slot]? = some (st.cell slot) := by
    rw [Store.getElem?_cells, hslot, Option.map_some]
  have hcells := Pool.cells_of_store hst
  have hlive : p.isLive c.handle.buffer := Pool.isLive_iff.2 ⟨_, hcells⟩
  have hholds : p.Holds c.handle.place c.kind := by
    refine ⟨Pool.issued_of_store hst, fun cs hcs => ?_⟩
    obtain rfl := Option.some.inj (hcells.symm.trans hcs)
    exact ⟨_, hcell, hkind⟩
  have hcontents : (p.contents? c.handle.place).isSome = slot.written := by
    rw [Pool.contents?_eq_some hcells hcell]
    exact st.isSome_contents slot
  rcases Pool.read_cases hp hholds with ⟨v, hv, hsome⟩ | ⟨hv, -, hnone⟩ | ⟨-, hdead⟩
  · refine ⟨fun _ => ⟨v, hv⟩, fun he => ?_⟩
    have hw : slot.written = true := hcontents ▸ hsome ▸ rfl
    rw [hwritten.1 hw] at he
    cases he
  · refine ⟨fun he => ?_, fun _ => hv⟩
    have hw := hwritten.2 he
    rw [← hcontents, hnone] at hw
    cases hw
  · exact absurd hlive hdead

variable [Scalar α] [ToText α]

theorem compounds_hold_completed_prefixes (cs : List (Command α)) {c : Compound α}
    (hc : .node (.compound c) ∈ (Session.empty.run cs).objects.holders) :
    (c.lease.released = false → ∃ st,
      (Session.empty.run cs).pool.store? c.buffer = some st ∧ c.Matches st ∧
      (c.isEvaluated = true → ∃ v, (Session.empty.run cs).pool.read c.handle = .ok v) ∧
      (c.isEvaluated = false → (Session.empty.run cs).pool.read c.handle =
        .error (.failure (.unevaluated c.handle.place)))) ∧
    ∀ (cs' : List (Command α)) (c' : Compound α),
      .node (.compound c') ∈ (Session.empty.run (cs ++ cs')).objects.holders →
      c'.buffer = c.buffer → c'.steps = c.steps ∧ c.completed ≤ c'.completed := by
  have hs := Session.orderly_run cs
  constructor
  · intro hr
    obtain ⟨st, hst, hm⟩ := hs.estate.exists_matches hc hr
    exact ⟨st, hst, hm, hm.read_handle hs.estate.tidy.packed hst⟩
  · intro cs' c' hc' hbuffer
    have hrun : Session.empty.run (cs ++ cs') = (Session.empty.run cs).run cs' :=
      List.foldl_append
    rw [hrun] at hc'
    have hissued := (hs.estate.tidy.placed _ hc).issued
    rcases hs.descends_run cs' hc' with ⟨h₀, hh₀, hbecomes⟩ | hnew
    · obtain rfl := hs.estate.tidy.eq_of_owned hh₀ hc (hbecomes.owned.symm.trans hbuffer)
      exact ⟨(hbecomes.node _ rfl).1, hbecomes.completed⟩
    · exact absurd (show (Session.empty.run cs).pool.Issued c'.buffer from hbuffer ▸ hissued) hnew

/-- Makes a compound that takes an identity matrix and transposes a slot of a user. Its evaluation
stops at the second step, because the slot is not written. -/
def halfwayTranspose : List (Command Float32) :=
  [.buffer (.allocate "user" [.matrix]), .buffer (.takeHandle "user" .matrix 0 "input"),
    .draft (.create "draft"), .draft (.push "draft" .matrix .identity none),
    .draft (.push "draft" .matrix (.transpose (.handle "input")) none),
    .draft (.finish "draft" .matrix "compound"), .node (.evaluate "compound")]

/-- Writes the slot and goes on with the evaluation. -/
def resumedTranspose : List (Command Float32) :=
  [.buffer (.write "user" 0 .matrix (.initial .matrix)), .node (.evaluate "compound")]

theorem halfwayTranspose_holds_completed_prefix : ∃ c c' st,
    .node (.compound c) ∈ (Session.empty.run halfwayTranspose).objects.holders ∧
    c.lease.released = false ∧ c.completed = 1 ∧ c.numSteps = 2 ∧
    (Session.empty.run halfwayTranspose).pool.store? c.buffer = some st ∧ c.Matches st ∧
    (Session.empty.run halfwayTranspose).pool.read c.handle =
      .error (.failure (.unevaluated c.handle.place)) ∧
    .node (.compound c') ∈
      (Session.empty.run (halfwayTranspose ++ resumedTranspose)).objects.holders ∧
    c'.completed = 2 ∧ c'.steps = c.steps ∧ c.completed ≤ c'.completed := by
  let steps : List (Step Float32) := [⟨.identity, 0⟩, ⟨.transpose (.handle ⟨⟨0⟩, 0⟩), 1⟩]
  have hc : .node (.compound ⟨⟨⟨1⟩, false⟩, steps, 1, by simp [steps]⟩) ∈
      (Session.empty.run halfwayTranspose).objects.holders := List.mem_cons_self
  have hc' : .node (.compound ⟨⟨⟨1⟩, false⟩, steps, 2, by simp [steps]⟩) ∈
      (Session.empty.run (halfwayTranspose ++ resumedTranspose)).objects.holders :=
    List.mem_cons_self
  obtain ⟨hlive, hlater⟩ := compounds_hold_completed_prefixes halfwayTranspose hc
  obtain ⟨st, hst, hm, -, hread⟩ := hlive rfl
  obtain ⟨hsteps, hcompleted⟩ := hlater resumedTranspose _ hc' rfl
  exact ⟨_, _, st, hc, rfl, rfl, rfl, hst, hm, hread rfl, hc', rfl, hsteps, hcompleted⟩

end DeferredMatrix
