import DeferredMatrix.Proofs.Program.Meaning
import DeferredMatrix.Proofs.Session.Moves

/-!
# The steps that are held

Drafts and nodes hold steps. Moves make steps in slots that did not exist before, only while
nodes and drafts are built, and execute none then.

* `Moves.isNew_of_mem` : what is to be known about a step that was not held before.
* `Moves.agrees` : moves that write nothing from outside keep what is written in agreement with
  the meanings of the steps.
-/

namespace DeferredMatrix

variable {α : Type}

def Holder.definitions (h : Holder α) : List (Definition α) :=
  h.steps.map fun step => ⟨⟨h.owned, step.slot⟩, step.instruction⟩

def definitionsOf (hs : List (Holder α)) : List (Definition α) := hs.flatMap Holder.definitions

theorem Holder.definitions_congr {h h' : Holder α} (howned : h'.owned = h.owned)
    (hsteps : h'.steps = h.steps) : h'.definitions = h.definitions := by
  unfold definitions
  rw [howned, hsteps]

theorem mem_definitionsOf_cons {h : Holder α} {hs : List (Holder α)} {d : Definition α} :
    d ∈ definitionsOf (h :: hs) ↔ d ∈ h.definitions ∨ d ∈ definitionsOf hs := by
  unfold definitionsOf
  rw [List.flatMap_cons, List.mem_append]

theorem mem_definitionsOf_congr {h h' : Holder α} {hs : List (Holder α)} {d : Definition α}
    (howned : h'.owned = h.owned) (hsteps : h'.steps = h.steps) :
    d ∈ definitionsOf (h' :: hs) ↔ d ∈ definitionsOf (h :: hs) := by
  rw [mem_definitionsOf_cons, mem_definitionsOf_cons, Holder.definitions_congr howned hsteps]

theorem exists_step_of_mem_definitionsOf {hs : List (Holder α)} {d : Definition α}
    (hd : d ∈ definitionsOf hs) : ∃ h ∈ hs, ∃ step ∈ h.steps,
      d = ⟨⟨h.owned, step.slot⟩, step.instruction⟩ := by
  obtain ⟨h, hh, hd⟩ := List.mem_flatMap.1 hd
  obtain ⟨step, hstep, rfl⟩ := List.mem_map.1 hd
  exact ⟨h, hh, step, hstep, rfl⟩

/-! ## Steps of a tidy estate -/

theorem Estate.Consistent.sound_definition {e : Estate α} {d : Definition α} (he : e.Consistent)
    (hd : d ∈ definitionsOf e.holders) : d.instruction.Sound e.world.pool := by
  obtain ⟨h, hh, step, hstep, rfl⟩ := exists_step_of_mem_definitionsOf hd
  exact (he.fits h hh).sound hstep

namespace Estate.Tidy

variable {e : Estate α} {d : Definition α}

/-- The slot of a step is one for its results. -/
theorem holds_definition (he : e.Tidy) (hd : d ∈ definitionsOf e.holders) :
    e.world.pool.Holds d.place d.instruction.output := by
  obtain ⟨h, hh, step, hstep, rfl⟩ := exists_step_of_mem_definitionsOf hd
  have hplaced := (he.placed h hh).steps hstep
  obtain ⟨i, hi⟩ := List.mem_iff_getElem?.1 hstep
  have hholds := hplaced.holds hi
  rwa [← hplaced.slot i step hi] at hholds

/-- A step reads its own buffer only backwards. -/
theorem slot_lt (he : e.Tidy) (hd : d ∈ definitionsOf e.holders) {place : Place}
    (hplace : place ∈ d.instruction.inputs) (hbuffer : place.buffer = d.place.buffer) :
    place.slot < d.place.slot := by
  obtain ⟨h, hh, step, hstep, rfl⟩ := exists_step_of_mem_definitionsOf hd
  have hplaced := (he.placed h hh).steps hstep
  obtain ⟨i, hi⟩ := List.mem_iff_getElem?.1 hstep
  show place.slot < step.slot
  rw [hplaced.slot i step hi]
  exact hplaced.backward i step hi place hplace hbuffer

/-- No two steps share a slot. -/
theorem pairwise_definitions (he : e.Tidy) :
    (definitionsOf e.holders).Pairwise fun a b => a.place ≠ b.place := by
  have hdistinct : e.holders.Pairwise fun h k => h.owned ≠ k.owned :=
    List.pairwise_map.1 he.distinct
  refine List.pairwise_flatMap.2 ⟨fun h hh => ?_, hdistinct.imp ?_⟩
  · refine List.pairwise_map.2 (List.pairwise_iff_getElem.2 fun i j hi hj hlt => ?_)
    have hplaced := (he.placed h hh).steps (List.getElem_mem hi)
    intro hplace
    have hslots : (h.steps[i]).slot = (h.steps[j]).slot := congrArg Place.slot hplace
    rw [hplaced.slot i _ (List.getElem?_eq_getElem hi),
      hplaced.slot j _ (List.getElem?_eq_getElem hj)] at hslots
    omega
  · intro h k hne a ha b hb hplace
    obtain ⟨step, -, rfl⟩ := List.mem_map.1 ha
    obtain ⟨step', -, rfl⟩ := List.mem_map.1 hb
    exact hne (congrArg Place.buffer hplace)

theorem eq_of_place (he : e.Tidy) {d' : Definition α} (hd : d ∈ definitionsOf e.holders)
    (hd' : d' ∈ definitionsOf e.holders) (hplace : d.place = d'.place) : d = d' :=
  List.inj_on_of_nodup_map (List.pairwise_map.2 he.pairwise_definitions) hd hd' hplace

end Estate.Tidy

/-! ## New steps -/

section Moves

variable [Scalar α] {ph : Phase α} {e e' : Estate α} {d : Definition α}

/-- A step made while nodes and drafts are built, in a slot that `p` does not have. -/
structure Definition.IsNew (ph : Phase α) (p : Pool α) (d : Definition α) : Prop where
  fresh : ∀ k, ¬ p.Holds d.place k
  reads : ∃ base, ph = .building base ∧ ∀ place ∈ d.instruction.inputs,
    place.buffer = d.place.buffer ∨ (∃ k, base.Holds place k) ∨
      place.buffer.serial < d.place.buffer.serial

omit [Scalar α] in
theorem Definition.IsNew.anti {p q : Pool α} (hpq : p.Extends q) (h : d.IsNew ph q) :
    d.IsNew ph p :=
  ⟨fun k hk => h.fresh k (hk.mono hpq), h.reads⟩

theorem Move.isNew_of_mem (h : Move ph e e') (he : e.Consistent)
    (hd : d ∈ definitionsOf e'.holders) :
    d ∈ definitionsOf e.holders ∨ d.IsNew ph e.world.pool := by
  cases h with
  | pushSlot hq | write hq | note hn => exact Or.inl hd
  | allocate label layout | create label =>
    rcases mem_definitionsOf_cons.1 hd with hd | hd
    · cases hd
    · exact Or.inl hd
  | finish hc =>
    obtain ⟨rfl, hlease, hsteps, -⟩ := Draft.finish_ok hc
    have howned : (Holder.node (.compound _)).owned = (Holder.draft _).owned :=
      congrArg Lease.buffer hlease
    exact Or.inl ((mem_definitionsOf_congr howned hsteps).1 hd)
  | release h hh =>
    exact Or.inl ((mem_definitionsOf_congr (h.owned_release _) (h.steps_release _)).1 hd)
  | discard h => exact Or.inl (mem_definitionsOf_cons.2 (Or.inr hd))
  | perm hp => exact Or.inl ((hp.flatMap_right _).mem_iff.2 hd)
  | advance h =>
    obtain ⟨-, -, -, -, hlease, hsteps, -⟩ := h.spec (he.fits _ List.mem_cons_self) he.packed
    have howned : (Holder.node _).owned = (Holder.node _).owned := congrArg Lease.buffer hlease
    exact Or.inl ((mem_definitionsOf_congr howned hsteps).1 hd)
  | @start base w hs i label hi =>
    rcases mem_definitionsOf_cons.1 hd with hd | hd
    · obtain rfl := List.mem_singleton.1 hd
      refine Or.inr ⟨fun k hk => Nat.lt_irrefl _ hk.1, base, rfl, fun place hplace => ?_⟩
      exact Or.inr (Or.inr (hi.issued hplace))
    · exact Or.inl hd
  | @push base w w' hs draft draft' k i h hi hreads hpush =>
    have hplaced : StepsPlaced draft.lease draft.steps 0 w.pool :=
      he.tidy.placed _ List.mem_cons_self
    obtain ⟨hlease, hsteps, -⟩ := Draft.push_spec hpush hplaced he.packed
    have howned : (Holder.draft draft').owned = draft.buffer := congrArg Lease.buffer hlease
    have hdefinitions : (Holder.draft draft').definitions = (Holder.draft draft).definitions ++
        [⟨⟨draft.buffer, draft.steps.length⟩, i⟩] := by
      show draft'.steps.map _ = draft.steps.map _ ++ _
      rw [hsteps, List.map_append, howned]
      rfl
    rw [mem_definitionsOf_cons, hdefinitions, List.mem_append, List.mem_singleton] at hd
    rcases hd with (hd | rfl) | hd
    · exact Or.inl (mem_definitionsOf_cons.2 (Or.inl hd))
    · refine Or.inr ⟨Draft.not_holds_next hpush hplaced, base, rfl, fun place hplace => ?_⟩
      rcases hreads place hplace with hown | hbase
      · exact Or.inl hown
      · exact Or.inr (Or.inl hbase)
    · exact Or.inl (mem_definitionsOf_cons.2 (Or.inr hd))

theorem Moves.isNew_of_mem (h : Moves ph e e') (he : e.Consistent)
    (hd : d ∈ definitionsOf e'.holders) :
    d ∈ definitionsOf e.holders ∨ d.IsNew ph e.world.pool := by
  induction h with
  | refl => exact Or.inl hd
  | tail hmoves hmove ih =>
    rcases hmove.isNew_of_mem (Moves.consistent hmoves he) hd with hd | hnew
    · exact ih hd
    · exact Or.inr (hnew.anti (Moves.extends_pool hmoves he))

/-! ## Buffers -/

/-- Whoever holds a buffer as such held it before, or the buffer is new. -/
theorem Moves.buffer_of_mem (h : Moves ph e e') (he : e.Consistent) {l : Lease}
    (hl : .buffer l ∈ e'.holders) : (∃ l₀, .buffer l₀ ∈ e.holders ∧ l₀.buffer = l.buffer) ∨
      ¬ e.world.pool.Issued l.buffer := by
  have hchanges : Changes False ph e e' := h.changes
  refine (hchanges.descends he.tidy hl).imp_left ?_
  rintro ⟨h₀, hh₀, hbecomes⟩
  cases h₀ with
  | buffer l₀ => exact ⟨l₀, hh₀, hbecomes.owned.symm⟩
  | draft d | node n => cases hbecomes.isBuffer

/-! ## What is written -/

/-- Nothing is written, or a value from outside, or the result of a step. -/
theorem Move.writes (h : Move ph e e') (he : e.Consistent) :
    e.world.pool.WritesNothing e'.world.pool ∨ ph = .writing ∨
      ph = .computing ∧ ∃ d ∈ definitionsOf e.holders, ∃ v,
        d.instruction.execute e.world.pool = .ok v ∧
        e'.world.pool.contents? d.place = some v.slots ∧
        ∀ place, place ≠ d.place →
          e'.world.pool.contents? place = e.world.pool.contents? place := by
  cases h with
  | allocate label layout | start label hi | create label =>
    exact Or.inl (Pool.writesNothing_allocate _ _ _)
  | pushSlot hq => exact Or.inl (Pool.writesNothing_pushSlot he.packed hq)
  | write hq => exact Or.inr (Or.inl rfl)
  | push hi hreads hd =>
    obtain ⟨-, -, n, q, hq, -, -, rfl⟩ := Draft.push_ok hd
    exact Or.inl (Pool.writesNothing_pushSlot he.packed hq)
  | finish hc =>
    obtain ⟨rfl, -⟩ := Draft.finish_ok hc
    exact Or.inl fun place xs hxs => hxs
  | release h hh | discard h =>
    obtain ⟨-, hsame, -, -, hdead⟩ :=
      Holder.release_spec (he.tidy.placed _ List.mem_cons_self) he.packed
    exact Or.inl (hsame.writesNothing_of_dead hdead)
  | note hn | perm hp => exact Or.inl fun place xs hxs => hxs
  | @advance w w' hs n n' h =>
    obtain ⟨-, step, v, q, hstep, hexec, hq, rfl, rfl⟩ := h
    obtain ⟨hself, hother⟩ := Pool.contents_write he.packed hq
    have hmem : step ∈ n.steps := List.mem_of_getElem? hstep
    refine Or.inr (Or.inr ⟨rfl, ⟨⟨n.buffer, step.slot⟩, step.instruction⟩, ?_, v, hexec, hself,
      hother⟩)
    exact mem_definitionsOf_cons.2 (Or.inl (List.mem_map.2 ⟨step, hmem, rfl⟩))

/-- Slots contain what they mean. -/
def Pool.Agrees (p : Pool α) (m : Place → Meaning α) : Prop :=
  ∀ place xs, p.contents? place = some xs → m place = .known xs

theorem Moves.agrees {m : Place → Meaning α} (h : Moves ph e e') (he : e.Consistent)
    (hph : ph ≠ .writing)
    (hm : ∀ d ∈ definitionsOf e.holders, m d.place = d.instruction.eager m)
    (ha : e.world.pool.Agrees m) : e'.world.pool.Agrees m := by
  induction h with
  | refl => exact ha
  | @tail e₁ e₂ hmoves hmove ih =>
    have he₁ := Moves.consistent hmoves he
    rcases hmove.writes he₁ with hnothing | hwriting | ⟨hcomputing, d, hd, v, hexec, hself, hother⟩
    · exact fun place xs hxs => ih place xs (hnothing place xs hxs)
    · exact absurd hwriting hph
    · have hold : d ∈ definitionsOf e.holders := by
        rcases Moves.isNew_of_mem hmoves he hd with hd | hnew
        · exact hd
        · obtain ⟨base, hbase, -⟩ := hnew.reads
          cases hcomputing.symm.trans hbase
      intro place xs hxs
      by_cases hplace : place = d.place
      · subst hplace
        cases hself.symm.trans hxs
        rw [hm d hold]
        exact Instruction.eager_of_execute (he₁.sound_definition hd) he₁.packed ih hexec
      · exact ih place xs ((hother place hplace).symm.trans hxs)

end Moves

end DeferredMatrix
