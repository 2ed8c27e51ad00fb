import DeferredMatrix.Proofs.Session.Ownership

/-!
# The trace of evaluations

The execution of a step is recorded by an event that names its slot (`Event.computed?`). Nodes
record each step once and in order (`Node.record`), and a step that reads the slot of another one is
recorded after that one. The reason for the latter is not the order in which a graph is walked, but
that a slot has to be written before it can be read.

* `Change.tells` : a change executes one step of one node, or it records no step.
* `Change.recorded` : the events about a node say how far it has come.
* `Changes.causal` : what a step reads has been recorded, unless a user has written it.
* `steps_are_recorded_once_and_causally` : so it is in every trace.
-/

namespace DeferredMatrix

variable {α : Type}

/-! ## Events about steps -/

/-- The slot that a step has written. -/
def Event.computed? : Event α → Option Place
  | .evaluated b _ => some ⟨b, 0⟩
  | .stepEvaluated b i _ => some ⟨b, i⟩
  | _ => none

/-- The events that say that a step has written a slot of the buffer. -/
def stepsOf (b : BufferId) (es : List (Event α)) : List (Event α) :=
  es.filter fun ev => ev.computed?.map Place.buffer = some b

theorem stepsOf_append (b : BufferId) (es es' : List (Event α)) :
    stepsOf b (es ++ es') = stepsOf b es ++ stepsOf b es' :=
  List.filter_append _ _

theorem stepsOf_of_none {b : BufferId} {es : List (Event α)} (h : ∀ ev ∈ es, ev.computed? = none) :
    stepsOf b es = [] := by
  refine List.filter_eq_nil_iff.2 fun ev hev => ?_
  simp [h ev hev]

theorem stepsOf_singleton {b : BufferId} {ev : Event α} {place : Place}
    (h : ev.computed? = some place) : stepsOf b [ev] = if place.buffer = b then [ev] else [] := by
  unfold stepsOf
  rw [List.filter_singleton]
  simp [h]

/-- An operation has been evaluated, or the first steps of a compound, each once and in order. -/
def IsRecord (b : BufferId) (es : List (Event α)) : Prop :=
  (∃ code, es = [.evaluated b code]) ∨ ∃ codes : List Opcode, es = codes.mapIdx (.stepEvaluated b)

/-- The events about the steps that the node has completed. -/
def Node.record : Node α → List (Event α)
  | operation o => if o.evaluated then [.evaluated o.buffer o.instruction.code] else []
  | compound c => ((c.steps.take c.completed).map fun step => step.instruction.code).mapIdx
      (.stepEvaluated c.buffer)

def Holder.record : Holder α → List (Event α)
  | buffer _ | draft _ => []
  | node n => n.record

namespace Node

theorem isRecord_record (n : Node α) : IsRecord n.buffer n.record := by
  cases n with
  | operation o =>
    cases he : o.evaluated with
    | true =>
      exact Or.inl ⟨o.instruction.code, by simp [record, he, buffer, lease, Operation.buffer]⟩
    | false => exact Or.inr ⟨[], by simp [record, he]⟩
  | compound c => exact Or.inr ⟨_, rfl⟩

theorem length_record {n : Node α} {p : Pool α} (hn : n.Placed p) :
    n.record.length = n.completed := by
  cases n with
  | operation o => cases he : o.evaluated <;> simp [record, completed, he]
  | compound c =>
    have hle : c.completed ≤ c.steps.length := hn.completed_le
    simp [record, completed, hle]

/-- Every completed step is recorded. -/
theorem exists_mem_record {n : Node α} {p : Pool α} (hn : n.Placed p) {i : Nat}
    (hi : i < n.completed) : ∃ ev ∈ n.record, ev.computed? = some ⟨n.buffer, i⟩ := by
  have hlt : i < n.record.length := (length_record hn).symm ▸ hi
  refine ⟨n.record[i], List.getElem_mem hlt, ?_⟩
  cases n with
  | operation o =>
    cases he : o.evaluated with
    | true =>
      have hzero : i = 0 := by simpa [completed, he] using hi
      simp [record, he, hzero, Event.computed?, buffer, lease, Operation.buffer]
    | false => simp [completed, he] at hi
  | compound c => simp [record, Event.computed?, buffer, lease, Compound.buffer]

theorem computed?_event {n : Node α} {p : Pool α} (hn : n.Placed p) {step : Step α}
    (hstep : n.steps[n.completed]? = some step) :
    (n.event step).computed? = some ⟨n.buffer, step.slot⟩ := by
  rw [hn.slot _ _ hstep]
  cases n with
  | operation o =>
    have hlt := (List.getElem?_eq_some_iff.1 hstep).1
    cases he : o.evaluated with
    | true => simp [steps, completed, he] at hlt
    | false => simp [event, Event.computed?, completed, he, buffer, lease, Operation.buffer]
  | compound c => rfl

/-- The event about the next step comes next in the record. -/
theorem record_advance {n : Node α} {step : Step α} (hstep : n.steps[n.completed]? = some step) :
    n.advance.record = n.record ++ [n.event step] := by
  obtain ⟨hlt, hget⟩ := List.getElem?_eq_some_iff.1 hstep
  cases n with
  | operation o =>
    cases he : o.evaluated with
    | true => simp [steps, completed, he] at hlt
    | false =>
      obtain rfl : ⟨o.instruction, 0⟩ = step := by simpa [steps, completed, he] using hstep
      simp [advance, record, event, he, Operation.buffer]
  | compound c =>
    have hlt : c.completed < c.steps.length := hlt
    have hget : c.steps[c.completed] = step := hget
    have hlen : min c.completed c.steps.length = c.completed := Nat.min_eq_left (Nat.le_of_lt hlt)
    simp [advance, record, event, List.take_succ_eq_append_getElem hlt, hget, List.mapIdx_concat,
      hlen, Compound.buffer]

end Node

/-! ## What changes record -/

/-- The log has got longer without any step being recorded. -/
def World.Quiet (w w' : World α) : Prop :=
  ∃ es, w'.log.toList = w.log.toList ++ es ∧ ∀ ev ∈ es, ev.computed? = none

namespace World

variable {w w' : World α}

theorem quiet_of_log (h : w'.log = w.log) : w.Quiet w' := ⟨[], by simp [h], by simp⟩

theorem quiet_of_push {ev : Event α} (h : w'.log = w.log.push ev) (hev : ev.computed? = none) :
    w.Quiet w' :=
  ⟨[ev], by simp [h], by simpa using hev⟩

end World

theorem Lease.quiet_release (l : Lease) (w : World α) : w.Quiet (l.release w).2 := by
  unfold release
  split
  · exact World.quiet_of_log rfl
  · exact World.quiet_of_push rfl rfl

theorem Event.IsNote.computed? {ev : Event α} (h : ev.IsNote) : ev.computed? = none := by
  cases ev <;> first | rfl | cases h

/-- Who holds a buffer afterwards held it before with the same record, or the buffer is new. -/
def Estate.Retells (e : Estate α) (h' : Holder α) : Prop :=
  (∃ h ∈ e.holders, h.owned = h'.owned ∧ h.record = h'.record) ∨
    ¬ e.world.pool.Issued h'.owned ∧ h'.record = []

section Changes

variable [Scalar α] {ph : Phase α} {free : Prop} {e e' : Estate α}

omit [Scalar α] in
theorem Estate.retells_of_mem {h : Holder α} (hh : h ∈ e.holders) : e.Retells h :=
  Or.inl ⟨h, hh, rfl, rfl⟩

omit [Scalar α] in
/-- Only the first holder has changed. -/
theorem Estate.retells_cons {w : World α} {hs : List (Holder α)} {h h' : Holder α}
    (howned : h'.owned = h.owned) (hrecord : h'.record = h.record) :
    ∀ k ∈ h' :: hs, Retells ⟨w, h :: hs⟩ k := by
  intro k hk
  rcases List.mem_cons.1 hk with rfl | hk
  · exact Or.inl ⟨h, List.mem_cons_self, howned.symm, hrecord.symm⟩
  · exact retells_of_mem (List.mem_cons_of_mem _ hk)

omit [Scalar α] in
/-- A holder with a new buffer has come. -/
theorem Estate.retells_new {w : World α} {hs : List (Holder α)} {h' : Holder α}
    (howned : h'.owned = w.pool.fresh) (hrecord : h'.record = []) :
    ∀ k ∈ h' :: hs, Retells ⟨w, hs⟩ k := by
  intro k hk
  rcases List.mem_cons.1 hk with rfl | hk
  · exact Or.inr ⟨fun hissued => Pool.ne_fresh_of_issued hissued howned, hrecord⟩
  · exact retells_of_mem hk

omit [Scalar α] in
theorem Holder.record_release (h : Holder α) (w : World α) : (h.release w).1.record = h.record := by
  cases h with
  | buffer l | draft d => rfl
  | node n =>
    cases n with
    | operation o =>
      have hbuffer := o.lease.buffer_release w
      simp [release, record, Node.release, Node.record, Node.setLease, Node.lease, Operation.buffer,
        hbuffer]
    | compound c =>
      have hbuffer := c.lease.buffer_release w
      simp [release, record, Node.release, Node.record, Node.setLease, Node.lease, Compound.buffer,
        hbuffer]

theorem Draft.quiet_push {d d' : Draft α} {w w' : World α} {k : Kind}
    {i : Instruction α (Operand α)} {g : Handle k} (hd : d.push w k i = .ok (g, d', w')) :
    w.Quiet w' := by
  obtain ⟨-, -, n, q, -, -, -, rfl⟩ := Draft.push_ok hd
  exact World.quiet_of_log rfl

/-- A change executes one step of one node, or it records none. -/
theorem Change.tells (h : Change free ph e e') (he : e.Tidy) :
    (e.world.Quiet e'.world ∧ ∀ h' ∈ e'.holders, e.Retells h') ∨
      ∃ (w w' : World α) (hs : List (Holder α)) (n n' : Node α), ph = .computing ∧
        e = ⟨w, .node n :: hs⟩ ∧ e' = ⟨w', .node n' :: hs⟩ ∧ n.Advance w n' w' := by
  cases h with
  | start label hi => exact Or.inl ⟨World.quiet_of_push rfl rfl, Estate.retells_new rfl rfl⟩
  | push hi hreads hd =>
    have hbuffer := (Draft.buffer_push hd).2
    exact Or.inl ⟨Draft.quiet_push hd, Estate.retells_cons hbuffer rfl⟩
  | move h =>
    cases h with
    | allocate label layout | create label | start label hi =>
      exact Or.inl ⟨World.quiet_of_push rfl rfl, Estate.retells_new rfl rfl⟩
    | pushSlot hq | write hq =>
      exact Or.inl ⟨World.quiet_of_log rfl, fun h' hh' => Estate.retells_of_mem hh'⟩
    | push hi hreads hd =>
      have hbuffer := (Draft.buffer_push hd).2
      exact Or.inl ⟨Draft.quiet_push hd, Estate.retells_cons hbuffer rfl⟩
    | @finish _ w w' hs d k c hc =>
      obtain ⟨rfl, hlease, -, hcompleted, -⟩ := Draft.finish_ok hc
      have hrecord : (Holder.node (.compound c)).record = [] := by
        simp [Holder.record, Node.record, hcompleted]
      exact Or.inl ⟨World.quiet_of_log rfl,
        Estate.retells_cons (congrArg Lease.buffer hlease) hrecord⟩
    | @release _ w hs h hd =>
      rw [h.release_world]
      exact Or.inl ⟨h.lease.quiet_release w,
        Estate.retells_cons (h.owned_release w) (h.record_release w)⟩
    | @discard _ w hs h =>
      rw [h.release_world]
      exact Or.inl ⟨h.lease.quiet_release w,
        fun h' hh' => Estate.retells_of_mem (List.mem_cons_of_mem _ hh')⟩
    | note hev =>
      exact Or.inl ⟨World.quiet_of_push rfl hev.computed?, fun h' hh' => Estate.retells_of_mem hh'⟩
    | perm hp =>
      exact Or.inl ⟨World.quiet_of_log rfl, fun h' hh' => Estate.retells_of_mem (hp.mem_iff.2 hh')⟩
    | advance h => exact Or.inr ⟨_, _, _, _, _, rfl, rfl, rfl, h⟩

/-- The log, with the events `past` before it, tells how far everyone has come. -/
structure Estate.Recorded (past : List (Event α)) (e : Estate α) : Prop where
  held : ∀ h ∈ e.holders, stepsOf h.owned (past ++ e.world.log.toList) = h.record
  fresh : ∀ b, ¬ e.world.pool.Issued b → stepsOf b (past ++ e.world.log.toList) = []
  isRecord : ∀ b, IsRecord b (stepsOf b (past ++ e.world.log.toList))

variable {past : List (Event α)}

/-- The one event of an executed step belongs to the node. -/
theorem Node.Advance.recorded {w w' : World α} {hs : List (Holder α)} {n n' : Node α}
    (h : n.Advance w n' w') (he : Estate.Tidy ⟨w, .node n :: hs⟩)
    (hr : Estate.Recorded past ⟨w, .node n :: hs⟩) : Estate.Recorded past ⟨w', .node n' :: hs⟩ := by
  have hplaced : n.Placed w.pool := he.placed _ List.mem_cons_self
  have hown : stepsOf n.buffer (past ++ w.log.toList) = n.record := hr.held _ List.mem_cons_self
  obtain ⟨-, -, -, hext, -⟩ := h.placed hplaced he.packed
  obtain ⟨-, step, v, q, hstep, -, -, rfl, rfl⟩ := h
  have hlog : ∀ b, stepsOf b (past ++ ((w.setPool q).emit (n.event step)).log.toList) =
      stepsOf b (past ++ w.log.toList) ++ if n.buffer = b then [n.event step] else [] := by
    intro b
    have hpush : ((w.setPool q).emit (n.event step)).log.toList =
        w.log.toList ++ [n.event step] := Array.toList_push
    rw [hpush, ← List.append_assoc, stepsOf_append,
      stepsOf_singleton (computed?_event hplaced hstep)]
  have hself : stepsOf n.advance.buffer
      (past ++ ((w.setPool q).emit (n.event step)).log.toList) = n.advance.record := by
    rw [hlog, buffer_advance, if_pos rfl, hown, record_advance hstep]
  have hother : ∀ b, n.buffer ≠ b →
      stepsOf b (past ++ ((w.setPool q).emit (n.event step)).log.toList) =
        stepsOf b (past ++ w.log.toList) := by
    intro b hb
    rw [hlog, if_neg hb, List.append_nil]
  refine ⟨fun h' hh' => ?_, fun b hb => ?_, fun b => ?_⟩
  · rcases List.mem_cons.1 hh' with rfl | hh'
    · exact hself
    · have hne : n.buffer ≠ h'.owned := by
        intro heq
        have hnotin := (List.nodup_cons.1 he.distinct).1
        exact hnotin (List.mem_map.2 ⟨h', hh', heq.symm⟩)
      exact (hother _ hne).trans (hr.held h' (List.mem_cons_of_mem _ hh'))
  · have hold : ¬ w.pool.Issued b := fun hissued => hb (hext.issued hissued)
    have hne : n.buffer ≠ b := by
      rintro rfl
      exact hold hplaced.issued
    exact (hother b hne).trans (hr.fresh b hold)
  · by_cases hb : n.buffer = b
    · rw [← hb, ← n.buffer_advance]
      exact hself.symm ▸ n.advance.isRecord_record
    · exact (hother b hb).symm ▸ hr.isRecord b

/-- The record of everyone is in the log after any change. -/
theorem Change.recorded (h : Change free ph e e') (he : e.Tidy) (hr : e.Recorded past) :
    e'.Recorded past := by
  have hext := h.extends he
  rcases h.tells he with ⟨⟨es, hlog, hquiet⟩, hholders⟩ | ⟨w, w', hs, n, n', -, rfl, rfl, hstep⟩
  · have hsame : ∀ b, stepsOf b (past ++ e'.world.log.toList) =
        stepsOf b (past ++ e.world.log.toList) := by
      intro b
      rw [hlog, ← List.append_assoc, stepsOf_append, stepsOf_of_none hquiet, List.append_nil]
    refine ⟨fun h' hh' => ?_, fun b hb => ?_, fun b => ?_⟩
    · rw [hsame]
      rcases hholders h' hh' with ⟨h₀, hh₀, howned, hrecord⟩ | ⟨hnew, hrecord⟩
      · rw [← howned, ← hrecord]
        exact hr.held h₀ hh₀
      · rw [hrecord]
        exact hr.fresh _ hnew
    · rw [hsame]
      exact hr.fresh b fun hissued => hb (hext.issued hissued)
    · rw [hsame]
      exact hr.isRecord b
  · exact hstep.recorded he hr

theorem Changes.recorded (h : Changes free ph e e') (he : e.Tidy) (hr : e.Recorded past) :
    e'.Recorded past := by
  induction h with
  | refl => exact hr
  | tail hchanges hchange ih => exact hchange.recorded (Changes.tidy hchanges he) ih

/-! ## Causes -/

/-- Steps are only made while nodes and drafts are built. -/
theorem Change.mem_definitions (h : Change free .computing e e') (he : e.Tidy) {d : Definition α}
    (hd : d ∈ definitionsOf e'.holders) : d ∈ definitionsOf e.holders := by
  cases h with
  | move h =>
    cases h with
    | pushSlot hq | note hn => exact hd
    | allocate label layout | create label =>
      rcases mem_definitionsOf_cons.1 hd with hd | hd
      · cases hd
      · exact hd
    | finish hc =>
      obtain ⟨rfl, hlease, hsteps, -⟩ := Draft.finish_ok hc
      have howned : (Holder.node (.compound _)).owned = (Holder.draft _).owned :=
        congrArg Lease.buffer hlease
      exact (mem_definitionsOf_congr howned hsteps).1 hd
    | release h hh => exact (mem_definitionsOf_congr (h.owned_release _) (h.steps_release _)).1 hd
    | discard h => exact mem_definitionsOf_cons.2 (Or.inr hd)
    | perm hp => exact (hp.flatMap_right _).mem_iff.2 hd
    | @advance w w' hs n n' h =>
      obtain ⟨-, -, -, -, hlease, hsteps, -⟩ := h.placed (he.placed _ List.mem_cons_self) he.packed
      have howned : (Holder.node n').owned = (Holder.node n).owned := congrArg Lease.buffer hlease
      exact (mem_definitionsOf_congr howned hsteps).1 hd

theorem Changes.mem_definitions (h : Changes free .computing e e') (he : e.Tidy)
    {d : Definition α} (hd : d ∈ definitionsOf e'.holders) : d ∈ definitionsOf e.holders := by
  induction h with
  | refl => exact hd
  | tail hchanges hchange ih => exact ih (hchange.mem_definitions (Changes.tidy hchanges he) hd)

/-- A step that an event tells of is one of the estate, and `before` tells of the steps whose slots
it reads. For the slots of users there is nothing to tell. -/
def Estate.Explains (e : Estate α) (before : List (Event α)) (ev : Event α) : Prop :=
  ∀ place, ev.computed? = some place → ∃ d ∈ definitionsOf e.holders, d.place = place ∧
    ∀ input ∈ d.instruction.inputs, (∃ l, .buffer l ∈ e.holders ∧ l.buffer = input.buffer) ∨
      ∃ ev' ∈ before, ev'.computed? = some input

/-- Each event about a step comes after those about the steps whose slots that one reads. -/
def Estate.Causal (e : Estate α) (past log : List (Event α)) : Prop :=
  ∀ before ev after, log = before ++ ev :: after → e.Explains (past ++ before) ev

namespace Estate

omit [Scalar α] in
theorem causal_of_quiet {es : List (Event α)} (h : ∀ ev ∈ es, ev.computed? = none) :
    e.Causal past es := by
  intro before ev after hes place hplace
  have hev : ev ∈ es := by simp [hes]
  cases (h ev hev).symm.trans hplace

omit [Scalar α] in
theorem Causal.append {log es : List (Event α)} (h : e.Causal past log)
    (h' : e.Causal (past ++ log) es) : e.Causal past (log ++ es) := by
  intro before ev after heq
  rcases List.append_eq_append_iff.1 heq with ⟨rest, rfl, rfl⟩ | ⟨rest, rfl, hrest⟩
  · rw [← List.append_assoc]
    exact h' rest ev after rfl
  · cases rest with
    | nil =>
      rw [List.append_nil] at h'
      have hfirst := h' [] ev after hrest.symm
      rwa [List.append_nil] at hfirst
    | cons ev' rest =>
      cases hrest
      exact h before ev rest rfl

omit [Scalar α] in
theorem causal_singleton {ev : Event α} (h : e.Explains past ev) : e.Causal past [ev] := by
  intro before ev' after heq
  cases before with
  | nil =>
    cases heq
    rwa [List.append_nil]
  | cons _ before =>
    have hnil : ([] : List (Event α)) = before ++ ev' :: after := (List.cons.inj heq).2
    simp at hnil

/-- What a step reads is in a slot of a user, or it has been recorded. -/
theorem Recorded.exists_cause {e : Estate α} (hr : e.Recorded past) (he : e.Tidy)
    {i : Instruction α (Operand α)} {v : Value α i.output}
    (hexec : i.execute e.world.pool = .ok v) {input : Place} (hinput : input ∈ i.inputs) :
    (∃ l, .buffer l ∈ e.holders ∧ l.buffer = input.buffer) ∨
      ∃ ev ∈ past ++ e.world.log.toList, ev.computed? = some input := by
  have hsome := Instruction.isSome_contents_of_execute he.packed hexec hinput
  obtain ⟨xs, hxs⟩ := Option.isSome_iff_exists.1 hsome
  obtain ⟨h, hh, howned⟩ := he.covered _ (Pool.isLive_of_contents hxs)
  have hlive := (he.placed h hh).isLive_iff.1 (howned ▸ Pool.isLive_of_contents hxs)
  cases h with
  | buffer l => exact Or.inl ⟨l, hh, howned⟩
  | draft d =>
    have hplaced : StepsPlaced d.lease d.steps 0 e.world.pool := he.placed _ hh
    exact absurd ((hplaced.isSome_contents_iff hlive howned.symm).1 hsome) (Nat.not_lt_zero _)
  | node m =>
    have hplaced : m.Placed e.world.pool := he.placed _ hh
    have hlt := (hplaced.isSome_contents_iff hlive howned.symm).1 hsome
    obtain ⟨ev, hev, hplace⟩ := Node.exists_mem_record hplaced hlt
    have hrecord : stepsOf m.buffer (past ++ e.world.log.toList) = m.record := hr.held _ hh
    rw [← hrecord] at hev
    have hbuffer : m.buffer = input.buffer := howned
    exact Or.inr ⟨ev, (List.mem_filter.1 hev).1, by rw [hplace, hbuffer]⟩

end Estate

/-- The steps that changes record are those of the estate at the beginning. -/
theorem Changes.causal (h : Changes free ph e e') (he : e.Orderly free) (hr : e.Recorded past)
    (hlog : e.world.log = #[]) : e.Causal past e'.world.log.toList := by
  induction h with
  | refl =>
    rw [hlog]
    exact Estate.causal_of_quiet (by simp)
  | @tail e₁ e₂ hchanges hchange ih =>
    have htidy₁ := Changes.tidy hchanges he.tidy
    have hrecorded₁ := Changes.recorded hchanges he.tidy hr
    rcases hchange.tells htidy₁ with
      ⟨⟨es, hes, hquiet⟩, -⟩ | ⟨w, w', hs, n, n', rfl, rfl, rfl, hstep⟩
    · rw [hes]
      exact ih.append (Estate.causal_of_quiet hquiet)
    obtain ⟨-, step, v, q, hget, hexec, -, -, rfl⟩ := hstep
    have hpush : ((w.setPool q).emit (n.event step)).log.toList =
        w.log.toList ++ [n.event step] := Array.toList_push
    rw [hpush]
    refine ih.append (Estate.causal_singleton fun place hplace => ?_)
    have hplaced : n.Placed w.pool := htidy₁.placed _ List.mem_cons_self
    have hmem₁ : ⟨⟨n.buffer, step.slot⟩, step.instruction⟩ ∈ definitionsOf (.node n :: hs) :=
      mem_definitionsOf_cons.2 (Or.inl (List.mem_map.2 ⟨step, List.mem_of_getElem? hget, rfl⟩))
    have hmem := Changes.mem_definitions hchanges he.tidy hmem₁
    refine ⟨_, hmem, Option.some_inj.1 ((Node.computed?_event hplaced hget).symm.trans hplace), ?_⟩
    intro input hinput
    rcases hrecorded₁.exists_cause htidy₁ hexec hinput with ⟨l, hl, hbuffer⟩ | hrecorded
    · -- The buffer of the user was there at the beginning, since the step has an operand in it.
      obtain ⟨h₀, hh₀, step', hstep', heq⟩ := exists_step_of_mem_definitionsOf hmem
      have hinstruction : step.instruction = step'.instruction :=
        congrArg Definition.instruction heq
      have htrusted := he.trusted h₀ hh₀ step' hstep'
      obtain ⟨k, hk⟩ := htrusted.exists_of_mem (hinstruction ▸ hinput)
      rcases Changes.descends hchanges he.tidy hl with ⟨h₁, hh₁, hbecomes⟩ | hnew
      · cases h₁ with
        | buffer l₁ => exact Or.inl ⟨l₁, hh₁, hbecomes.owned.symm.trans hbuffer⟩
        | draft d | node m => cases hbecomes.isBuffer
      · have hissued : e.world.pool.Issued l.buffer := hbuffer ▸ hk.issued
        exact absurd hissued hnew
    · exact Or.inr hrecorded

end Changes

/-! ## What commands record -/

variable [Scalar α] [ToText α]

namespace Session

variable {s : Session α} {past : List (Event α)}

omit [Scalar α] [ToText α] in
theorem recorded_empty : (empty : Session α).estate.Recorded [] where
  held := fun _ hh => nomatch hh
  fresh := fun _ _ => rfl
  isRecord := fun _ => Or.inr ⟨[], rfl⟩

theorem Orderly.recorded_next (hs : s.Orderly True) (hr : s.estate.Recorded past) (c : Command α) :
    (s.next c).estate.Recorded (past ++ s.events c) := by
  unfold Session.next events
  cases ho : s.perform c with
  | none =>
    have hpast : past ++ [] = past := List.append_nil past
    exact hpast.symm ▸ hr
  | some o =>
    obtain ⟨hheld, hfresh, hisRecord⟩ :=
      Changes.recorded (hs.performs (Or.inl trivial) ho).changes hs.estate.tidy hr
    have hall : past ++ o.events.toList ++ [] = past ++ o.events.toList := List.append_nil _
    exact ⟨fun h hh => hall.symm ▸ hheld h hh, fun b hb => hall.symm ▸ hfresh b hb,
      fun b => hall.symm ▸ hisRecord b⟩

theorem Orderly.recorded_run (hs : s.Orderly True) (hr : s.estate.Recorded past)
    (cs : List (Command α)) : (s.run cs).estate.Recorded (past ++ s.trace cs) := by
  induction cs generalizing s past with
  | nil =>
    rw [trace, List.append_nil]
    exact hr
  | cons c cs ih =>
    rw [trace, ← List.append_assoc]
    exact ih (hs.next (Or.inl trivial)) (hs.recorded_next hr c)

theorem Orderly.causal_events (hs : s.Orderly True) (hr : s.estate.Recorded past) (c : Command α) :
    s.estate.Causal past (s.events c) := by
  unfold events
  cases ho : s.perform c with
  | none => exact Estate.causal_of_quiet (by simp)
  | some o => exact Changes.causal (hs.performs (Or.inl trivial) ho).changes hs.estate hr rfl

/-- Every event of a run is one of a command in it. -/
theorem exists_command_of_trace {cs : List (Command α)} {before after : List (Event α)}
    {ev : Event α} (h : s.trace cs = before ++ ev :: after) :
    ∃ cs' c cs'' earlier later, cs = cs' ++ c :: cs'' ∧ before = s.trace cs' ++ earlier ∧
      (s.run cs').events c = earlier ++ ev :: later := by
  induction cs generalizing s before with
  | nil => simp [trace] at h
  | cons c cs ih =>
    have hlater : ∀ before', (s.next c).trace cs = before' ++ ev :: after →
        ∃ cs' c' cs'' earlier later, c :: cs = cs' ++ c' :: cs'' ∧
          s.events c ++ before' = s.trace cs' ++ earlier ∧
          (s.run cs').events c' = earlier ++ ev :: later := by
      intro before' h'
      obtain ⟨cs', c', cs'', earlier, later, rfl, rfl, hevents⟩ := ih h'
      exact ⟨c :: cs', c', cs'', earlier, later, rfl, (List.append_assoc _ _ _).symm, hevents⟩
    rcases List.append_eq_append_iff.1 h with ⟨rest, rfl, hrest⟩ | ⟨rest, hevents, hrest⟩
    · exact hlater rest hrest
    · cases rest with
      | nil =>
        have hfirst := hlater [] hrest.symm
        rwa [List.append_nil, hevents, List.append_nil] at hfirst
      | cons ev' rest =>
        cases hrest
        exact ⟨[], c, cs, before, rest, rfl, rfl, hevents⟩

end Session

/-- Steps are recorded at most once and in order, as many of a node as it has completed, and each
of them after the steps that it reads from. -/
theorem steps_are_recorded_once_and_causally (cs : List (Command α)) :
    (∀ b, IsRecord b (stepsOf b (Session.empty.trace cs))) ∧
    (∀ n, .node n ∈ (Session.empty.run cs).objects.holders →
      stepsOf n.buffer (Session.empty.trace cs) = n.record ∧ n.record.length = n.completed) ∧
    ∀ before ev after, Session.empty.trace cs = before ++ ev :: after →
      ∃ cs' c cs'' earlier later, cs = cs' ++ c :: cs'' ∧
        before = Session.empty.trace cs' ++ earlier ∧
        (Session.empty.run cs').events c = earlier ++ ev :: later ∧
        (Session.empty.run cs').estate.Explains before ev := by
  have hempty : (Session.empty : Session α).Orderly True := Session.orderly_empty
  have hrecorded : ∀ cs, (Session.empty.run cs).estate.Recorded (Session.empty.trace cs) :=
    hempty.recorded_run Session.recorded_empty
  have hall : Session.empty.trace cs ++ [] = Session.empty.trace cs := List.append_nil _
  refine ⟨fun b => hall ▸ (hrecorded cs).isRecord b, fun n hn => ⟨?_, ?_⟩, ?_⟩
  · exact hall ▸ (hrecorded cs).held (.node n) hn
  · exact Node.length_record ((Session.orderly_run cs).estate.tidy.placed (.node n) hn)
  · intro before ev after h
    obtain ⟨cs', c, cs'', earlier, later, hcs, rfl, hevents⟩ := Session.exists_command_of_trace h
    exact ⟨cs', c, cs'', earlier, later, hcs, rfl, hevents,
      (Session.orderly_run cs').causal_events (hrecorded cs') c earlier ev later hevents⟩

/-- Makes a compound that transposes the result of an operation twice, and evaluates it before the
operation, which stops it at its first step, after the operation, and once more. -/
def lateIdentity : List (Command Float32) :=
  [.node (.operation "late" .matrix .identity), .node (.handle "late" "input"),
    .draft (.create "draft"),
    .draft (.push "draft" .matrix (.transpose (.handle "input")) (some "first")),
    .draft (.push "draft" .matrix (.transpose (.handle "first")) none),
    .draft (.finish "draft" .matrix "twice"), .node (.evaluate "twice"), .node (.evaluate "late"),
    .node (.evaluate "twice"), .node (.evaluate "twice"), .node (.evaluate "late")]

theorem lateIdentity_is_recorded_once_and_causally :
    Session.empty.trace lateIdentity = [.allocated ⟨0⟩ 1, .allocated ⟨1⟩ 0,
      .stepFailed ⟨1⟩ 0 (.unevaluated ⟨⟨0⟩, 0⟩), .evaluated ⟨0⟩ .identity,
      .stepEvaluated ⟨1⟩ 0 .transpose, .stepEvaluated ⟨1⟩ 1 .transpose] ∧
    IsRecord ⟨1⟩ (stepsOf ⟨1⟩ (Session.empty.trace lateIdentity)) ∧
    ∃ cs' c cs'', lateIdentity = cs' ++ c :: cs'' ∧ (Session.empty.run cs').estate.Explains
      [.allocated ⟨0⟩ 1, .allocated ⟨1⟩ 0, .stepFailed ⟨1⟩ 0 (.unevaluated ⟨⟨0⟩, 0⟩),
        .evaluated ⟨0⟩ .identity] (.stepEvaluated ⟨1⟩ 0 .transpose) := by
  have htrace : Session.empty.trace lateIdentity = [.allocated ⟨0⟩ 1, .allocated ⟨1⟩ 0,
      .stepFailed ⟨1⟩ 0 (.unevaluated ⟨⟨0⟩, 0⟩), .evaluated ⟨0⟩ .identity] ++
      .stepEvaluated ⟨1⟩ 0 .transpose :: [.stepEvaluated ⟨1⟩ 1 .transpose] := rfl
  obtain ⟨hrecord, -, hcausal⟩ := steps_are_recorded_once_and_causally lateIdentity
  obtain ⟨cs', c, cs'', -, -, hcs, -, -, hexplains⟩ := hcausal _ _ _ htrace
  exact ⟨rfl, hrecord ⟨1⟩, cs', c, cs'', hcs, hexplains⟩

end DeferredMatrix
