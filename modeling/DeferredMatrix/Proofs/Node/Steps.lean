import DeferredMatrix.Node.Basic
import DeferredMatrix.Proofs.Program.Execution

/-!
# Steps and their slots

An operation is a node with one step, so operations and compounds are treated alike: a node has
a list of steps of which a number of leading ones is completed. `StepsPlaced` says how a list of
steps, the lease of its buffer and the pool belong together:

* step `i` has the slot `i`, which is written exactly if the step is completed;
* operands point into the own buffer only backwards.

In `StepsFit` all operands point to slots of the right kind besides. Both are what constructing
nodes establishes and what evaluating them keeps (`StepsPlaced.advance`).
-/

namespace DeferredMatrix

variable {α : Type}

structure StepsFit (l : Lease) (steps : List (Step α)) (completed : Nat) (p : Pool α) : Prop where
  slot : ∀ (i : Nat) (step : Step α), steps[i]? = some step → step.slot = i
  sound : ∀ step ∈ steps, step.instruction.Sound p
  backward : ∀ (i : Nat) (step : Step α), steps[i]? = some step →
    ∀ place ∈ step.instruction.inputs, place.buffer = l.buffer → place.slot < i
  completed_le : completed ≤ steps.length
  issued : p.Issued l.buffer
  dead : l.released = true → p.cells? l.buffer = none
  live : l.released = false → ∃ cs, p.cells? l.buffer = some cs ∧
    cs.map Cell.kind = steps.map (fun step => step.instruction.output) ∧
    ∀ (i : Nat) (c : Cell α), cs[i]? = some c → (c.contents.isSome ↔ i < completed)

/-- As `StepsFit`, whatever the slots hold that operands point to. -/
structure StepsPlaced (l : Lease) (steps : List (Step α)) (completed : Nat) (p : Pool α) :
    Prop where
  slot : ∀ (i : Nat) (step : Step α), steps[i]? = some step → step.slot = i
  backward : ∀ (i : Nat) (step : Step α), steps[i]? = some step →
    ∀ place ∈ step.instruction.inputs, place.buffer = l.buffer → place.slot < i
  completed_le : completed ≤ steps.length
  issued : p.Issued l.buffer
  dead : l.released = true → p.cells? l.buffer = none
  live : l.released = false → ∃ cs, p.cells? l.buffer = some cs ∧
    cs.map Cell.kind = steps.map (fun step => step.instruction.output) ∧
    ∀ (i : Nat) (c : Cell α), cs[i]? = some c → (c.contents.isSome ↔ i < completed)

namespace StepsPlaced

variable {l : Lease} {steps : List (Step α)} {completed : Nat} {p q : Pool α}

/-- The pool may change elsewhere. -/
theorem frame (h : StepsPlaced l steps completed p) (hpq : p.Extends q)
    (hl : q.cells? l.buffer = p.cells? l.buffer) : StepsPlaced l steps completed q where
  slot := h.slot
  backward := h.backward
  completed_le := h.completed_le
  issued := hpq.issued h.issued
  dead := fun hr => hl.trans (h.dead hr)
  live := fun hr => hl ▸ h.live hr

theorem released_of_cells (h : StepsPlaced l steps completed p) {cs : List (Cell α)}
    (hcs : p.cells? l.buffer = some cs) : l.released = false := by
  apply Bool.eq_false_iff.2
  intro hr
  cases (h.dead hr).symm.trans hcs

theorem released_iff (h : StepsPlaced l steps completed p) :
    l.released = true ↔ ¬ p.isLive l.buffer := by
  rw [Pool.isLive_iff]
  cases hr : l.released with
  | true => simp [h.dead hr]
  | false =>
    obtain ⟨cs, hcs, -⟩ := h.live hr
    simp [hcs]

/-- Every step has a cell of its kind, which is written exactly if the step is completed. -/
theorem exists_cell (h : StepsPlaced l steps completed p) (hr : l.released = false) {i : Nat}
    {step : Step α} (hstep : steps[i]? = some step) : ∃ cs c, p.cells? l.buffer = some cs ∧
      cs[i]? = some c ∧ c.kind = step.instruction.output ∧ (c.contents.isSome ↔ i < completed) := by
  obtain ⟨cs, hcs, hkinds, hwritten⟩ := h.live hr
  have hkind : (cs.map Cell.kind)[i]? = some step.instruction.output := by
    rw [hkinds, List.getElem?_map, hstep, Option.map_some]
  rw [List.getElem?_map] at hkind
  obtain ⟨c, hc, hck⟩ := Option.map_eq_some_iff.1 hkind
  exact ⟨cs, c, hcs, hc, hck, hwritten i c hc⟩

/-- The slot of a step holds values of the kind that the step computes. -/
theorem holds (h : StepsPlaced l steps completed p) {i : Nat} {step : Step α}
    (hstep : steps[i]? = some step) : p.Holds ⟨l.buffer, i⟩ step.instruction.output := by
  refine ⟨h.issued, fun cs hcs => ?_⟩
  obtain ⟨cs', c, hcs', hc, hk, -⟩ := h.exists_cell (h.released_of_cells hcs) hstep
  obtain rfl : cs = cs' := Option.some.inj (hcs.symm.trans hcs')
  exact ⟨c, hc, hk⟩

/-- A slot of a node is written exactly if its step is completed. -/
theorem isSome_contents_iff (h : StepsPlaced l steps completed p) (hr : l.released = false)
    {place : Place} (hbuffer : place.buffer = l.buffer) :
    (p.contents? place).isSome ↔ place.slot < completed := by
  obtain ⟨cs, hcs, hkinds, hwritten⟩ := h.live hr
  rw [← hbuffer] at hcs
  cases hc : cs[place.slot]? with
  | some c => rw [Pool.contents?_eq_some hcs hc, hwritten _ c hc]
  | none =>
    have hlen := congrArg List.length hkinds
    have hge := List.getElem?_eq_none_iff.1 hc
    have hle := h.completed_le
    simp only [List.length_map] at hlen
    simp only [Pool.contents?, hcs, Option.bind_some, hc, Option.bind_none, Option.isSome_none,
      Bool.false_eq_true, false_iff]
    omega

/-- The slot of the step after the completed ones is not written. -/
theorem unwritten (h : StepsPlaced l steps completed p) (hr : l.released = false) {step : Step α}
    (hstep : steps[completed]? = some step) : p.contents? ⟨l.buffer, step.slot⟩ = none := by
  rw [h.slot _ _ hstep, ← Option.not_isSome_iff_eq_none, h.isSome_contents_iff hr rfl]
  exact Nat.lt_irrefl _

/-- Only slots of steps hold values. -/
theorem lt_of_holds (h : StepsPlaced l steps completed p) (hr : l.released = false) {place : Place}
    {k : Kind} (hbuffer : place.buffer = l.buffer) (hplace : p.Holds place k) :
    place.slot < steps.length := by
  obtain ⟨cs, hcs, hkinds, -⟩ := h.live hr
  obtain ⟨c, hc, -⟩ := hplace.2 cs (hbuffer ▸ hcs)
  have hlen := congrArg List.length hkinds
  simp only [List.length_map] at hlen
  exact hlen ▸ (List.getElem?_eq_some_iff.1 hc).1

/-- The result of a step can be written to its slot. -/
theorem exists_write (h : StepsPlaced l steps completed p) (hp : p.Packed) (hr : l.released = false)
    {step : Step α} (hstep : step ∈ steps) (v : Value α step.instruction.output) :
    ∃ q, p.write ⟨l.buffer, step.slot⟩ v.slots = .ok q := by
  obtain ⟨i, hi⟩ := List.mem_iff_getElem?.1 hstep
  obtain ⟨cs, c, hcs, hc, hk, -⟩ := h.exists_cell hr hi
  rw [h.slot i step hi]
  have hw : v.slots.length = c.kind.width := by rw [Value.length_slots, hk]
  obtain ⟨q, hq, -⟩ := Pool.write_eq ⟨l.buffer, i⟩ hp hcs hc hw
  exact ⟨q, hq⟩

/-- Writing the result of the step after the completed ones completes it. -/
theorem advance (h : StepsPlaced l steps completed p) (hp : p.Packed) (hr : l.released = false)
    {step : Step α} (hstep : steps[completed]? = some step)
    {v : Value α step.instruction.output}
    (hq : p.write ⟨l.buffer, step.slot⟩ v.slots = .ok q) :
    StepsPlaced l steps (completed + 1) q ∧ p.SameBut q l.buffer ∧ p.Extends q ∧ q.Packed := by
  obtain ⟨cs, hcs, hkinds, hwritten⟩ := h.live hr
  obtain ⟨cs', c, hcs', hc, hk, -⟩ := h.exists_cell hr hstep
  obtain rfl : cs = cs' := Option.some.inj (hcs.symm.trans hcs')
  have hw : v.slots.length = c.kind.width := by rw [Value.length_slots, hk]
  have hlt := (List.getElem?_eq_some_iff.1 hc).1
  rw [h.slot completed step hstep] at hq
  obtain ⟨q', hq', hqs, hsame, hext, hpacked⟩ :=
    Pool.write_eq ⟨l.buffer, completed⟩ hp hcs hc hw
  obtain rfl : q = q' := Except.ok.inj (hq.symm.trans hq')
  refine ⟨⟨h.slot, h.backward, (List.getElem?_eq_some_iff.1 hstep).1, hext.issued h.issued,
    by simp [hr], fun _ => ⟨_, hqs, (Cell.map_kind_set hc _).trans hkinds, ?_⟩⟩, hsame, hext,
    hpacked⟩
  intro i d hd
  by_cases hi : completed = i
  · subst hi
    rw [List.getElem?_set_self hlt] at hd
    cases hd
    simp
  · rw [List.getElem?_set_ne hi] at hd
    rw [hwritten i d hd]
    omega

end StepsPlaced

theorem stepsFit_iff {l : Lease} {steps : List (Step α)} {completed : Nat} {p : Pool α} :
    StepsFit l steps completed p ↔
      StepsPlaced l steps completed p ∧ ∀ step ∈ steps, step.instruction.Sound p :=
  ⟨fun h => ⟨⟨h.slot, h.backward, h.completed_le, h.issued, h.dead, h.live⟩, h.sound⟩,
    fun ⟨h, hsound⟩ => ⟨h.slot, hsound, h.backward, h.completed_le, h.issued, h.dead, h.live⟩⟩

/-! ## Nodes as lists of steps -/

namespace Node

def steps : Node α → List (Step α)
  | operation o => [⟨o.instruction, 0⟩]
  | compound c => c.steps

/-- The number of leading steps whose results are written. -/
def completed : Node α → Nat
  | operation o => if o.evaluated then 1 else 0
  | compound c => c.completed

/-- The node with one more step completed. -/
def advance : Node α → Node α
  | operation o => operation { o with evaluated := true }
  | compound c => compound { c with completed := c.completed + 1 }

def Fits (n : Node α) (p : Pool α) : Prop := StepsFit n.lease n.steps n.completed p

def Placed (n : Node α) (p : Pool α) : Prop := StepsPlaced n.lease n.steps n.completed p

theorem fits_iff {n : Node α} {p : Pool α} :
    n.Fits p ↔ n.Placed p ∧ ∀ step ∈ n.steps, step.instruction.Sound p :=
  stepsFit_iff

theorem Fits.placed {n : Node α} {p : Pool α} (h : n.Fits p) : n.Placed p := (fits_iff.1 h).1

theorem Fits.of_placed {n m : Node α} {p q : Pool α} (h : n.Fits p) (hpq : p.Extends q)
    (hsteps : m.steps = n.steps) (hm : m.Placed q) : m.Fits q :=
  fits_iff.2 ⟨hm, fun step hstep => (h.sound step (hsteps ▸ hstep)).mono hpq⟩

theorem steps_ne_nil : (n : Node α) → n.steps ≠ []
  | operation o => by simp [steps]
  | compound c => c.steps_ne_nil

theorem Placed.holds_handle {n : Node α} {p : Pool α} (h : n.Placed p) :
    p.Holds n.handle.place n.kind := by
  cases n with
  | operation o =>
    have hplaced : StepsPlaced o.lease [⟨o.instruction, 0⟩] (operation o).completed p := h
    exact hplaced.holds (i := 0) rfl
  | compound c =>
    have hlast : c.steps[c.steps.length - 1]? = some c.last := by
      rw [← List.getLast?_eq_getElem?, List.getLast?_eq_some_getLast c.steps_ne_nil, Compound.last]
    have hslot := h.slot _ _ hlast
    have hholds := StepsPlaced.holds h hlast
    rw [← hslot] at hholds
    exact hholds

theorem isEvaluated_iff (n : Node α) : n.isEvaluated ↔ n.completed = n.steps.length := by
  cases n with
  | operation o => cases he : o.evaluated <;> simp [isEvaluated, completed, steps, he]
  | compound c => simp [isEvaluated, completed, steps, Compound.isEvaluated, Compound.numSteps]

/-- The buffers that a node reads and does not own, in terms of its steps. -/
theorem mem_externalInputs {n : Node α} {b : BufferId} (h : b ∈ n.externalInputs) :
    ∃ step ∈ n.steps, ∃ place ∈ step.instruction.inputs, place.buffer = b := by
  cases n with
  | operation o =>
    obtain ⟨place, hplace, rfl⟩ := List.mem_map.1 h
    exact ⟨_, List.mem_singleton_self _, place, hplace, rfl⟩
  | compound c =>
    obtain ⟨step, hstep, hb⟩ := List.mem_flatMap.1 (List.mem_filter.1 h).1
    obtain ⟨place, hplace, rfl⟩ := List.mem_map.1 hb
    exact ⟨step, hstep, place, hplace, rfl⟩

/-- What a step reads is the node's own or an external input. -/
theorem mem_externalInputs_of_ne {n : Node α} {step : Step α} (hstep : step ∈ n.steps)
    {place : Place} (hplace : place ∈ step.instruction.inputs) (hne : place.buffer ≠ n.buffer) :
    place.buffer ∈ n.externalInputs := by
  cases n with
  | operation o =>
    obtain rfl := List.mem_singleton.1 hstep
    exact List.mem_map_of_mem hplace
  | compound c =>
    refine List.mem_filter.2 ⟨List.mem_flatMap.2 ⟨step, hstep, List.mem_map_of_mem hplace⟩, ?_⟩
    exact decide_eq_true hne

/-- A node does not count its own buffer among those that it reads. -/
theorem Fits.ne_of_mem_externalInputs {n : Node α} {p : Pool α} (h : n.Fits p) {b : BufferId}
    (hb : b ∈ n.externalInputs) : b ≠ n.buffer := by
  cases n with
  | operation o =>
    obtain ⟨place, hplace, rfl⟩ := List.mem_map.1 hb
    intro hown
    have hback := h.backward 0 ⟨o.instruction, 0⟩ rfl place hplace hown
    omega
  | compound c => exact of_decide_eq_true (List.mem_filter.1 hb).2

theorem Fits.issued_externalInputs {n : Node α} {p : Pool α} (h : n.Fits p) {b : BufferId}
    (hb : b ∈ n.externalInputs) : p.Issued b := by
  obtain ⟨step, hstep, place, hplace, rfl⟩ := mem_externalInputs hb
  exact (h.sound step hstep).issued hplace

@[simp] theorem lease_advance (n : Node α) : n.advance.lease = n.lease := by cases n <;> rfl

@[simp] theorem buffer_advance (n : Node α) : n.advance.buffer = n.buffer := by cases n <;> rfl

@[simp] theorem steps_advance (n : Node α) : n.advance.steps = n.steps := by cases n <;> rfl

theorem externalInputs_advance (n : Node α) : n.advance.externalInputs = n.externalInputs := by
  cases n <;> rfl

theorem completed_advance {n : Node α} (h : n.completed < n.steps.length) :
    n.advance.completed = n.completed + 1 := by
  cases n with
  | operation o =>
    have he : o.evaluated = false := by
      cases he : o.evaluated with
      | false => rfl
      | true => simp [completed, steps, he] at h
    simp [advance, completed, he]
  | compound c => rfl

end Node

end DeferredMatrix
