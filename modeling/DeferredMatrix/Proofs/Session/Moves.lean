import DeferredMatrix.Proofs.Session.Estate
import Mathlib.Logic.Relation

/-!
# Moves

`Move` lists the smallest changes that can happen to an estate. All commands are made of them, so
that a property of all commands has to be looked at once for each kind of move. A `Change` is a
move, or one that makes a step out of operands that may be relied on without being sound.

* `Change.orderly` : a change keeps an estate orderly.
* `Change.extends` : a change takes no slot from a buffer that stays live, and brings no released
  buffer back.
* `Change.descends` : whoever holds a buffer afterwards held it before, or the buffer is new.
-/

namespace DeferredMatrix

variable {α : Type}

/-- The event says what was found, not that something has changed. -/
def Event.IsNote : Event α → Prop
  | .stepFailed .. | .inversionRefused .. | .graphEvaluated .. | .edgeSkipped .. => True
  | .allocated .. | .released .. | .evaluated .. | .stepEvaluated .. => False

/-- What a command is there for. Nothing is computed while nodes and steps are made, none are made
while something is computed, and writing does neither. -/
inductive Phase (α : Type) where
  /-- A new step of a draft reads its own buffer or what is in the pool `base`. -/
  | building (base : Pool α)
  | computing
  | writing

/-- The smallest changes of an estate. -/
inductive Move [Scalar α] : Phase α → Estate α → Estate α → Prop
  | allocate {ph : Phase α} {w : World α} {hs : List (Holder α)} (label : String)
      (layout : List Kind) :
      Move ph ⟨w, hs⟩ ⟨(Lease.allocate w label layout).2,
        .buffer (Lease.allocate w label layout).1 :: hs⟩
  | pushSlot {ph : Phase α} {w : World α} {hs : List (Holder α)} {l : Lease} {k : Kind} {n : Nat}
      {q : Pool α} (hq : w.pool.pushSlot l.buffer k = .ok (n, q)) :
      Move ph ⟨w, .buffer l :: hs⟩ ⟨w.setPool q, .buffer l :: hs⟩
  | create {ph : Phase α} {w : World α} {hs : List (Holder α)} (label : String) :
      Move ph ⟨w, hs⟩ ⟨(Draft.create w label).2, .draft (Draft.create w label).1 :: hs⟩
  | finish {ph : Phase α} {w w' : World α} {hs : List (Holder α)} {d : Draft α} {k : Kind}
      {c : Compound α} (hc : d.finish w k = (.ok c, w')) :
      Move ph ⟨w, .draft d :: hs⟩ ⟨w', .node (.compound c) :: hs⟩
  | release {ph : Phase α} {w : World α} {hs : List (Holder α)} (h : Holder α)
      (hd : ∀ d, h ≠ .draft d) :
      Move ph ⟨w, h :: hs⟩ ⟨(h.release w).2, (h.release w).1 :: hs⟩
  | discard {ph : Phase α} {w : World α} {hs : List (Holder α)} (h : Holder α) :
      Move ph ⟨w, h :: hs⟩ ⟨(h.release w).2, hs⟩
  | note {ph : Phase α} {w : World α} {hs : List (Holder α)} {e : Event α} (he : e.IsNote) :
      Move ph ⟨w, hs⟩ ⟨w.emit e, hs⟩
  | perm {ph : Phase α} {w : World α} {hs ks : List (Holder α)} (hp : hs.Perm ks) :
      Move ph ⟨w, hs⟩ ⟨w, ks⟩
  | start {base : Pool α} {w : World α} {hs : List (Holder α)} {i : Instruction α (Operand α)}
      (label : String) (hi : i.Sound w.pool) :
      Move (.building base) ⟨w, hs⟩ ⟨(Operation.start w label i).2,
        .node (.operation (Operation.start w label i).1) :: hs⟩
  | push {base : Pool α} {w w' : World α} {hs : List (Holder α)} {d d' : Draft α} {k : Kind}
      {i : Instruction α (Operand α)} {h : Handle k} (hi : i.Sound w.pool)
      (hreads : ∀ place ∈ i.inputs, place.buffer = d.buffer ∨ ∃ k, base.Holds place k)
      (hd : d.push w k i = .ok (h, d', w')) :
      Move (.building base) ⟨w, .draft d :: hs⟩ ⟨w', .draft d' :: hs⟩
  | advance {w w' : World α} {hs : List (Holder α)} {n n' : Node α} (h : n.Advance w n' w') :
      Move .computing ⟨w, .node n :: hs⟩ ⟨w', .node n' :: hs⟩
  | write {w : World α} {hs : List (Holder α)} {l : Lease} {slot : Nat} {k : Kind}
      {v : Value α k} {q : Pool α} (hq : w.pool.write ⟨l.buffer, slot⟩ v.slots = .ok q) :
      Move .writing ⟨w, .buffer l :: hs⟩ ⟨w.setPool q, .buffer l :: hs⟩

/-- The smallest changes of an estate if operands need not be sound, but trusted. -/
inductive Change [Scalar α] (free : Prop) : Phase α → Estate α → Estate α → Prop
  | move {ph : Phase α} {e e' : Estate α} (h : Move ph e e') : Change free ph e e'
  | start {base : Pool α} {w : World α} {hs : List (Holder α)} {i : Instruction α (Operand α)}
      (label : String) (hi : i.All (Estate.Trusts free ⟨w, hs⟩)) :
      Change free (.building base) ⟨w, hs⟩ ⟨(Operation.start w label i).2,
        .node (.operation (Operation.start w label i).1) :: hs⟩
  | push {base : Pool α} {w w' : World α} {hs : List (Holder α)} {d d' : Draft α} {k : Kind}
      {i : Instruction α (Operand α)} {h : Handle k}
      (hi : i.All (Estate.Trusts free ⟨w, .draft d :: hs⟩))
      (hreads : free ∨ ∀ place ∈ i.inputs, place.buffer = d.buffer ∨ ∃ k, base.Holds place k)
      (hd : d.push w k i = .ok (h, d', w')) :
      Change free (.building base) ⟨w, .draft d :: hs⟩ ⟨w', .draft d' :: hs⟩

/-! ## What changes keep -/

section Changes

variable [Scalar α] {ph : Phase α} {free : Prop} {e e' : Estate α}

/-- If handles are made with care, all changes are moves. -/
theorem Change.toMove (h : Change False ph e e') : Move ph e e' := by
  cases h with
  | move h => exact h
  | start label hi => exact .start label (Estate.sound_iff.2 hi)
  | push hi hreads hd => exact .push (Estate.sound_iff.2 hi) (hreads.resolve_left id) hd

section New

variable {w w' : World α} {hs : List (Holder α)} {i : Instruction α (Operand α)}

theorem Estate.Tidy.start (he : Tidy ⟨w, hs⟩) (label : String)
    (hi : ∀ place ∈ i.inputs, w.pool.Issued place.buffer) :
    Tidy ⟨(Operation.start w label i).2,
      .node (.operation (Operation.start w label i).1) :: hs⟩ := by
  refine he.add label [i.output] rfl rfl (StepsPlaced.fresh [⟨i, 0⟩] label ?_ ?_)
  · intro j step hj
    cases j with
    | zero => cases hj; rfl
    | succ j => cases hj
  · intro step hstep
    obtain rfl := List.mem_singleton.1 hstep
    exact hi

theorem Estate.Tidy.push {d d' : Draft α} {k : Kind} {h : Handle k}
    (he : Tidy ⟨w, .draft d :: hs⟩) (hd : d.push w k i = .ok (h, d', w')) :
    Tidy ⟨w', .draft d' :: hs⟩ := by
  obtain ⟨hlease, -, hplaced, hsame, hext, hpacked, -⟩ :=
    Draft.push_spec hd (he.placed _ List.mem_cons_self) he.packed
  exact he.change hsame hext hpacked (congrArg Lease.buffer hlease) hplaced

end New

theorem Move.tidy (h : Move ph e e') (he : e.Tidy) : e'.Tidy := by
  cases h with
  | @allocate _ w hs label layout =>
    refine he.add label layout rfl rfl ⟨Pool.issued_allocate_fresh _ _ _, ?_⟩
    have hcells := Pool.cells?_allocate_fresh w.pool label layout
    have hlive : (w.pool.allocate label layout).cells? w.pool.fresh ≠ none := by simp [hcells]
    exact iff_of_false Bool.false_ne_true hlive
  | start label hi => exact he.start label fun place hplace => hi.issued hplace
  | create label =>
    refine he.add label [] rfl rfl ?_
    exact StepsPlaced.fresh [] label (fun i step h => by cases h) (fun step h => by cases h)
  | @pushSlot _ w hs l k n q hq =>
    obtain ⟨cs, hcs, -, hqs, hsame, hext, hpacked⟩ := Pool.pushSlot_spec he.packed hq
    have hplaced : (Holder.buffer l).Placed w.pool := he.placed _ List.mem_cons_self
    exact he.change hsame hext hpacked rfl (hplaced.of_live hext hcs hqs)
  | @write w hs l slot k v q hq =>
    obtain ⟨cs, c, hcs, -, -, hqs, hsame, hext, hpacked⟩ := Pool.write_spec he.packed hq
    have hplaced : (Holder.buffer l).Placed w.pool := he.placed _ List.mem_cons_self
    exact he.change hsame hext hpacked rfl (hplaced.of_live hext hcs hqs)
  | push hi hreads hd => exact he.push hd
  | @finish _ w w' hs d k c hc =>
    obtain ⟨rfl, hlease, hsteps, hcompleted, -⟩ := Draft.finish_ok hc
    have hplaced : StepsPlaced d.lease d.steps 0 w'.pool := he.placed _ List.mem_cons_self
    rw [← hlease, ← hsteps, ← hcompleted] at hplaced
    exact he.change (.refl _ _) (.refl _) he.packed (congrArg Lease.buffer hlease) hplaced
  | advance h =>
    obtain ⟨hplaced, hpacked, hsame, hext, hlease, -⟩ :=
      h.placed (he.placed _ List.mem_cons_self) he.packed
    exact he.change hsame hext hpacked (congrArg Lease.buffer hlease) hplaced
  | release h hd =>
    obtain ⟨hplaced, hsame, hext, hpacked, -⟩ :=
      Holder.release_spec (he.placed _ List.mem_cons_self) he.packed
    exact he.change hsame hext hpacked (h.owned_release _) hplaced
  | @discard _ w hs h =>
    obtain ⟨hplaced, hsame, hext, hpacked, hdead⟩ :=
      Holder.release_spec (he.placed _ List.mem_cons_self) he.packed
    have hkept := he.change hsame hext hpacked (h.owned_release w) hplaced
    exact hkept.forget (h.owned_release w ▸ hdead)
  | note he' => exact ⟨he.packed, he.distinct, he.placed, he.covered⟩
  | perm hp =>
    refine ⟨he.packed, (hp.map _).nodup_iff.1 he.distinct, ?_, ?_⟩
    · exact fun h hh => he.placed h (hp.mem_iff.2 hh)
    · intro b hb
      obtain ⟨h, hh, hbh⟩ := he.covered b hb
      exact ⟨h, hp.mem_iff.1 hh, hbh⟩

theorem Change.tidy (h : Change free ph e e') (he : e.Tidy) : e'.Tidy := by
  cases h with
  | move h => exact h.tidy he
  | start label hi =>
    refine he.start label fun place hplace => ?_
    obtain ⟨k, hk⟩ := hi.exists_of_mem hplace
    exact hk.issued
  | push hi hreads hd => exact he.push hd

theorem Move.extends (h : Move ph e e') (he : e.Tidy) :
    e.world.pool.Extends e'.world.pool := by
  cases h with
  | allocate label layout | start label hi | create label => exact Pool.extends_allocate _ _ _
  | pushSlot hq =>
    obtain ⟨cs, -, -, -, -, hext, -⟩ := Pool.pushSlot_spec he.packed hq
    exact hext
  | write hq =>
    obtain ⟨cs, c, -, -, -, -, -, hext, -⟩ := Pool.write_spec he.packed hq
    exact hext
  | push hi hreads hd =>
    obtain ⟨-, -, -, -, hext, -⟩ :=
      Draft.push_spec hd (he.placed _ List.mem_cons_self) he.packed
    exact hext
  | finish hc =>
    obtain ⟨rfl, -⟩ := Draft.finish_ok hc
    exact .refl _
  | advance h =>
    obtain ⟨-, -, -, hext, -⟩ := h.placed (he.placed _ List.mem_cons_self) he.packed
    exact hext
  | release h hd | discard h =>
    obtain ⟨-, -, hext, -⟩ := Holder.release_spec (he.placed _ List.mem_cons_self) he.packed
    exact hext
  | note he' | perm hp => exact .refl _

theorem Change.extends (h : Change free ph e e') (he : e.Tidy) :
    e.world.pool.Extends e'.world.pool := by
  cases h with
  | move h => exact h.extends he
  | start label hi => exact Pool.extends_allocate _ _ _
  | push hi hreads hd =>
    obtain ⟨-, -, -, -, hext, -⟩ :=
      Draft.push_spec hd (he.placed _ List.mem_cons_self) he.packed
    exact hext

/-! ### Holders and their steps -/

/-- The holder was there before, perhaps in an earlier stage, or its buffer is new. What steps it
has got since then read what may be relied on. -/
def Estate.Begets (free : Prop) (e : Estate α) (h' : Holder α) : Prop :=
  (∃ h ∈ e.holders, h.Becomes h' ∧
      ∀ step ∈ h'.steps, step ∈ h.steps ∨ step.instruction.All (e.Trusts free)) ∨
    ¬ e.world.pool.Issued h'.owned ∧ ∀ step ∈ h'.steps, step.instruction.All (e.Trusts free)

omit [Scalar α] in
theorem Estate.begets_of_becomes {h h' : Holder α} (hh : h ∈ e.holders) (hbecomes : h.Becomes h')
    (hsteps : h'.steps = h.steps) : e.Begets free h' :=
  Or.inl ⟨h, hh, hbecomes, fun _ hstep => Or.inl (hsteps ▸ hstep)⟩

omit [Scalar α] in
theorem Estate.begets_of_mem {h : Holder α} (hh : h ∈ e.holders) : e.Begets free h :=
  begets_of_becomes hh (.refl h) rfl

omit [Scalar α] in
/-- Only the first holder has changed. -/
theorem Estate.begets_cons {w : World α} {hs : List (Holder α)} {h h' : Holder α}
    (hh' : Begets free ⟨w, h :: hs⟩ h') : ∀ k ∈ h' :: hs, Begets free ⟨w, h :: hs⟩ k := by
  intro k hk
  rcases List.mem_cons.1 hk with rfl | hk
  · exact hh'
  · exact begets_of_mem (List.mem_cons_of_mem _ hk)

omit [Scalar α] in
/-- A holder with a new buffer has come. -/
theorem Estate.begets_new {w : World α} {hs : List (Holder α)} {h' : Holder α}
    (howned : h'.owned = w.pool.fresh)
    (hsteps : ∀ step ∈ h'.steps, step.instruction.All (Trusts free ⟨w, hs⟩)) :
    ∀ k ∈ h' :: hs, Begets free ⟨w, hs⟩ k := by
  intro k hk
  rcases List.mem_cons.1 hk with rfl | hk
  · exact Or.inr ⟨fun hissued => Pool.ne_fresh_of_issued hissued howned, hsteps⟩
  · exact begets_of_mem hk

section New

variable {w w' : World α} {hs : List (Holder α)} {i : Instruction α (Operand α)}

theorem Estate.begets_start (label : String) (hi : i.All (Trusts free ⟨w, hs⟩)) :
    ∀ k ∈ Holder.node (.operation (Operation.start w label i).1) :: hs,
      Begets free ⟨w, hs⟩ k := by
  refine begets_new rfl fun step hstep => ?_
  obtain rfl := List.mem_singleton.1 hstep
  exact hi

theorem Estate.begets_push {d d' : Draft α} {k : Kind} {h : Handle k}
    (he : Tidy ⟨w, .draft d :: hs⟩) (hi : i.All (Trusts free ⟨w, .draft d :: hs⟩))
    (hd : d.push w k i = .ok (h, d', w')) :
    ∀ k ∈ Holder.draft d' :: hs, Begets free ⟨w, .draft d :: hs⟩ k := by
  obtain ⟨hlease, hsteps, -⟩ := Draft.push_spec hd (he.placed _ List.mem_cons_self) he.packed
  have hbecomes : (Holder.draft d).Becomes (.draft d') :=
    ⟨congrArg Lease.buffer hlease, rfl, ⟨_, hsteps.symm⟩, Nat.le_refl _, fun n hn => by cases hn⟩
  refine begets_cons (Or.inl ⟨_, List.mem_cons_self, hbecomes, fun step hstep => ?_⟩)
  have hstep' : step ∈ d.steps ++ [⟨i, d.steps.length⟩] := hsteps ▸ hstep
  rcases List.mem_append.1 hstep' with hold | hnew
  · exact Or.inl hold
  · obtain rfl := List.mem_singleton.1 hnew
    exact Or.inr hi

end New

omit [Scalar α] in
theorem Estate.all_trusts_of_sound {i : Instruction α (Operand α)}
    (hi : i.Sound e.world.pool) : i.All (e.Trusts free) :=
  (Instruction.sound_iff.1 hi).imp fun _ _ => Or.inl

theorem Move.begets (h : Move ph e e') (he : e.Tidy) : ∀ h' ∈ e'.holders, e.Begets free h' := by
  cases h with
  | pushSlot hq | write hq | note hn => exact fun h' hh' => Estate.begets_of_mem hh'
  | allocate label layout | create label =>
    exact Estate.begets_new rfl fun step hstep => by cases hstep
  | start label hi => exact Estate.begets_start label (Estate.all_trusts_of_sound hi)
  | push hi hreads hd => exact Estate.begets_push he (Estate.all_trusts_of_sound hi) hd
  | @finish _ w w' hs d k c hc =>
    obtain ⟨rfl, hlease, hsteps, -⟩ := Draft.finish_ok hc
    have hbecomes : (Holder.draft d).Becomes (.node (.compound c)) :=
      .of_steps (congrArg Lease.buffer hlease) rfl hsteps (Nat.zero_le _)
        fun n hn => by cases hn
    exact Estate.begets_cons (Estate.begets_of_becomes List.mem_cons_self hbecomes hsteps)
  | @advance w w' hs n n' h =>
    obtain ⟨-, -, -, -, hlease, hsteps, hcompleted⟩ :=
      h.placed (he.placed _ List.mem_cons_self) he.packed
    have hle : n.completed ≤ n'.completed := by omega
    have hbecomes : (Holder.node n).Becomes (.node n') :=
      .of_steps (congrArg Lease.buffer hlease) rfl hsteps hle fun m _ => ⟨n', rfl⟩
    exact Estate.begets_cons (Estate.begets_of_becomes List.mem_cons_self hbecomes hsteps)
  | release h hd =>
    exact Estate.begets_cons
      (Estate.begets_of_becomes List.mem_cons_self (.release h _) (h.steps_release _))
  | discard h => exact fun h' hh' => Estate.begets_of_mem (List.mem_cons_of_mem _ hh')
  | perm hp => exact fun h' hh' => Estate.begets_of_mem (hp.mem_iff.2 hh')

theorem Change.begets (h : Change free ph e e') (he : e.Tidy) :
    ∀ h' ∈ e'.holders, e.Begets free h' := by
  cases h with
  | move h => exact h.begets he
  | start label hi => exact Estate.begets_start label hi
  | push hi hreads hd => exact Estate.begets_push he hi hd

theorem Change.descends (h : Change free ph e e') (he : e.Tidy) {h' : Holder α}
    (hh' : h' ∈ e'.holders) :
    (∃ h ∈ e.holders, h.Becomes h') ∨ ¬ e.world.pool.Issued h'.owned := by
  rcases h.begets he h' hh' with ⟨h, hh, hbecomes, -⟩ | ⟨hnew, -⟩
  · exact Or.inl ⟨h, hh, hbecomes⟩
  · exact Or.inr hnew

/-- A buffer of a user stays one as long as it is live. -/
theorem Change.exists_buffer (h : Change free ph e e') (he : e.Tidy) {l : Lease}
    (hl : .buffer l ∈ e.holders) (hlive : e'.world.pool.isLive l.buffer) :
    ∃ l', .buffer l' ∈ e'.holders ∧ l'.buffer = l.buffer := by
  obtain ⟨h', hh', howned⟩ := (h.tidy he).covered _ hlive
  rcases h.descends he hh' with ⟨h₀, hh₀, hbecomes⟩ | hnew
  · obtain rfl := he.eq_of_owned hh₀ hl (hbecomes.owned.symm.trans howned)
    cases h' with
    | buffer l' => exact ⟨l', hh', howned⟩
    | draft d | node n => cases hbecomes.isBuffer
  · exact absurd (howned ▸ (he.placed _ hl).issued) hnew

/-- What may be relied on may be so for ever. -/
theorem Change.trusts (h : Change free ph e e') (he : e.Tidy) {place : Place} {k : Kind}
    (hp : e.Trusts free place k) : e'.Trusts free place k := by
  rcases hp with hholds | ⟨hfree, hissued, l, hl, hlb⟩
  · exact Or.inl (hholds.mono (h.extends he))
  · have hissued' := (h.extends he).issued hissued
    cases hcells : e'.world.pool.cells? place.buffer with
    | none => exact Or.inl ⟨hissued', fun cs hcs => by cases hcells.symm.trans hcs⟩
    | some cs =>
      have hlive := Pool.isLive_iff.2 ⟨cs, hcells⟩
      rw [← hlb] at hlive
      obtain ⟨l', hl', hb⟩ := h.exists_buffer he hl hlive
      exact Or.inr ⟨hfree, hissued', l', hl', hb.trans hlb⟩

theorem Change.orderly (h : Change free ph e e') (he : e.Orderly free) : e'.Orderly free where
  tidy := h.tidy he.tidy
  trusted := by
    intro h' hh' step hstep
    have hmono : ∀ {i : Instruction α (Operand α)}, i.All (e.Trusts free) →
        i.All (e'.Trusts free) :=
      fun hi => hi.imp fun _ _ => h.trusts he.tidy
    rcases h.begets he.tidy h' hh' with ⟨h₀, hh₀, -, hsteps⟩ | ⟨-, hsteps⟩
    · rcases hsteps step hstep with hold | hnew
      · exact hmono (he.trusted h₀ hh₀ step hold)
      · exact hmono hnew
    · exact hmono (hsteps step hstep)

/-! ## Sequences -/

/-- What happens to an estate is a sequence of moves. -/
def Moves (ph : Phase α) : Estate α → Estate α → Prop := Relation.ReflTransGen (Move ph)

def Changes (free : Prop) (ph : Phase α) : Estate α → Estate α → Prop :=
  Relation.ReflTransGen (Change free ph)

namespace Changes

variable {e'' : Estate α}

theorem refl (e : Estate α) : Changes free ph e e := Relation.ReflTransGen.refl

theorem single (h : Change free ph e e') : Changes free ph e e' := Relation.ReflTransGen.single h

theorem trans (h : Changes free ph e e') (h' : Changes free ph e' e'') : Changes free ph e e'' :=
  Relation.ReflTransGen.trans h h'

/-- Taking the holders in another order changes nothing. -/
theorem perm {w : World α} {hs ks : List (Holder α)} (hp : hs.Perm ks) :
    Changes free ph ⟨w, hs⟩ ⟨w, ks⟩ :=
  single (.move (.perm hp))

theorem orderly (h : Changes free ph e e') (he : e.Orderly free) : e'.Orderly free := by
  induction h with
  | refl => exact he
  | tail _ hchange ih => exact hchange.orderly ih

theorem tidy (h : Changes free ph e e') (he : e.Tidy) : e'.Tidy := by
  induction h with
  | refl => exact he
  | tail _ hchange ih => exact hchange.tidy ih

theorem extends_pool (h : Changes free ph e e') (he : e.Tidy) :
    e.world.pool.Extends e'.world.pool := by
  induction h with
  | refl => exact .refl _
  | tail hchanges hchange ih => exact ih.trans (hchange.extends (tidy hchanges he))

theorem trusts (h : Changes free ph e e') (he : e.Tidy) {place : Place} {k : Kind}
    (hp : e.Trusts free place k) : e'.Trusts free place k := by
  induction h with
  | refl => exact hp
  | tail hchanges hchange ih => exact hchange.trusts (tidy hchanges he) ih

theorem descends (h : Changes free ph e e') (he : e.Tidy) {h' : Holder α}
    (hh' : h' ∈ e'.holders) :
    (∃ h ∈ e.holders, h.Becomes h') ∨ ¬ e.world.pool.Issued h'.owned := by
  induction h generalizing h' with
  | refl => exact Or.inl ⟨h', hh', .refl h'⟩
  | tail hchanges hchange ih =>
    rcases hchange.descends (tidy hchanges he) hh' with ⟨h₁, hh₁, hbecomes⟩ | hnew
    · rcases ih hh₁ with ⟨h₀, hh₀, hbecomes'⟩ | hnew
      · exact Or.inl ⟨h₀, hh₀, hbecomes'.trans hbecomes⟩
      · exact Or.inr (hbecomes.owned.symm ▸ hnew)
    · exact Or.inr fun hissued => hnew ((extends_pool hchanges he).issued hissued)

/-- If handles are made with care, all changes are moves. -/
theorem toMoves (h : Changes False ph e e') : Moves ph e e' :=
  Relation.ReflTransGen.mono (fun _ _ => Change.toMove) _ _ h

end Changes

namespace Moves

variable {e'' : Estate α}

theorem refl (e : Estate α) : Moves ph e e := Relation.ReflTransGen.refl

theorem single (h : Move ph e e') : Moves ph e e' := Relation.ReflTransGen.single h

theorem trans (h : Moves ph e e') (h' : Moves ph e' e'') : Moves ph e e'' :=
  Relation.ReflTransGen.trans h h'

theorem changes (h : Moves ph e e') : Changes free ph e e' :=
  Relation.ReflTransGen.mono (fun _ _ => Change.move) _ _ h

theorem tidy (h : Moves ph e e') (he : e.Tidy) : e'.Tidy :=
  have hchanges : Changes False ph e e' := h.changes
  hchanges.tidy he

theorem consistent (h : Moves ph e e') (he : e.Consistent) : e'.Consistent :=
  Estate.consistent_iff.2 (h.changes.orderly (Estate.consistent_iff.1 he))

theorem extends_pool (h : Moves ph e e') (he : e.Consistent) :
    e.world.pool.Extends e'.world.pool :=
  have hchanges : Changes False ph e e' := h.changes
  hchanges.extends_pool he.tidy

end Moves

end Changes

end DeferredMatrix
