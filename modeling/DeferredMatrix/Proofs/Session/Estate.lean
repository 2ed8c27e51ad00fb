import DeferredMatrix.Proofs.Node.Evaluation
import Mathlib.Data.List.Nodup

/-!
# Estates

An estate is a world together with those who hold leases in it. In a tidy estate every live buffer
has exactly one holder, and every holder has its place in its buffer. In a consistent estate
operands point to slots of the right kind besides. In between are the orderly estates, in which
that need not be so for operands in the buffers of users (`Estate.Trusts`).

* `Estate.Tidy.change`, `add`, `forget` : a holder changes together with its buffer, a new buffer
  comes with a holder, and the holder of a released buffer goes.
* `Holder.release_spec`, `StepsPlaced.fresh`, `StepsPlaced.snoc`, `Draft.push_spec` : releasing,
  making a node and appending a step keep holders in their places.
-/

namespace DeferredMatrix

variable {α : Type}

theorem Lease.buffer_release (l : Lease) (w : World α) : (l.release w).1.buffer = l.buffer := by
  unfold release
  split <;> rfl

/-! ## Holders -/

/-- Who holds a lease. -/
inductive Holder (α : Type) where
  | buffer (l : Lease)
  | draft (d : Draft α)
  | node (n : Node α)

namespace Holder

def lease : Holder α → Lease
  | buffer l => l
  | draft d => d.lease
  | node n => n.lease

/-- The buffer that the lease is for. -/
def owned (h : Holder α) : BufferId := h.lease.buffer

def steps : Holder α → List (Step α)
  | buffer _ => []
  | draft d => d.steps
  | node n => n.steps

/-- The number of leading steps whose results are written. -/
def completed : Holder α → Nat
  | buffer _ | draft _ => 0
  | node n => n.completed

def isBuffer : Holder α → Bool
  | buffer _ => true
  | draft _ | node _ => false

/-- Gives the buffer back. -/
def release (h : Holder α) (w : World α) : Holder α × World α :=
  match h with
  | buffer l => (buffer (l.release w).1, (l.release w).2)
  | draft d => (draft { d with lease := (d.lease.release w).1 }, (d.lease.release w).2)
  | node n => (node (n.release w).1, (n.release w).2)

/-- The slots of a buffer belong to whoever holds it as a buffer; otherwise they are those of the
steps, none of which a draft has completed. -/
def Fits (h : Holder α) (p : Pool α) : Prop :=
  match h with
  | buffer l => p.Issued l.buffer ∧ (l.released = true ↔ p.cells? l.buffer = none)
  | draft d => StepsFit d.lease d.steps 0 p
  | node n => n.Fits p

/-- As `Fits`, whatever the slots hold that operands point to. -/
def Placed (h : Holder α) (p : Pool α) : Prop :=
  match h with
  | buffer l => p.Issued l.buffer ∧ (l.released = true ↔ p.cells? l.buffer = none)
  | draft d => StepsPlaced d.lease d.steps 0 p
  | node n => n.Placed p

theorem fits_iff {h : Holder α} {p : Pool α} :
    h.Fits p ↔ h.Placed p ∧ ∀ step ∈ h.steps, step.instruction.Sound p := by
  cases h with
  | buffer l => simp [Fits, Placed, steps]
  | draft d => exact stepsFit_iff
  | node n => exact n.fits_iff

theorem Fits.placed {h : Holder α} {p : Pool α} (hh : h.Fits p) : h.Placed p := (fits_iff.1 hh).1

theorem Fits.sound {h : Holder α} {p : Pool α} (hh : h.Fits p) {step : Step α}
    (hstep : step ∈ h.steps) : step.instruction.Sound p :=
  (fits_iff.1 hh).2 step hstep

namespace Placed

variable {h : Holder α} {p q : Pool α}

theorem issued (hh : h.Placed p) : p.Issued h.owned := by
  cases h with
  | buffer l => exact hh.1
  | draft d => exact StepsPlaced.issued hh
  | node n => exact StepsPlaced.issued hh

theorem released_iff (hh : h.Placed p) : h.lease.released = true ↔ ¬ p.isLive h.owned := by
  cases h with
  | buffer l =>
    rw [Pool.isLive_iff, not_exists, ← Option.eq_none_iff_forall_ne_some]
    exact hh.2
  | draft d => exact StepsPlaced.released_iff hh
  | node n => exact StepsPlaced.released_iff hh

theorem isLive_iff (hh : h.Placed p) : p.isLive h.owned ↔ h.lease.released = false := by
  rw [← Bool.not_eq_true, hh.released_iff, not_not]

/-- The steps of a draft or a node have their places. -/
theorem steps (hh : h.Placed p) {step : Step α} (hstep : step ∈ h.steps) :
    StepsPlaced h.lease h.steps h.completed p := by
  cases h with
  | buffer l => cases hstep
  | draft d => exact hh
  | node n => exact hh

/-- The pool may change elsewhere. -/
theorem frame (hh : h.Placed p) (hpq : p.Extends q) (hl : q.cells? h.owned = p.cells? h.owned) :
    h.Placed q := by
  cases h with
  | buffer l => exact ⟨hpq.issued hh.1, (show q.cells? l.buffer = _ from hl) ▸ hh.2⟩
  | draft d => exact StepsPlaced.frame hh hpq hl
  | node n => exact StepsPlaced.frame hh hpq hl

/-- A buffer that is live may change in itself as long as it stays live. -/
theorem of_live {l : Lease} {cs ds : List (Cell α)} (hh : (buffer l).Placed p)
    (hpq : p.Extends q) (hcs : p.cells? l.buffer = some cs) (hds : q.cells? l.buffer = some ds) :
    (buffer l).Placed q := by
  refine ⟨hpq.issued hh.1, ?_⟩
  rw [hh.2, hcs, hds]
  exact iff_of_false (by simp) (by simp)

end Placed

theorem owned_release (h : Holder α) (w : World α) : (h.release w).1.owned = h.owned := by
  cases h with
  | buffer l => exact l.buffer_release w
  | draft d => exact d.lease.buffer_release w
  | node n => cases n <;> exact Lease.buffer_release _ w

theorem steps_release (h : Holder α) (w : World α) : (h.release w).1.steps = h.steps := by
  cases h with
  | buffer l => rfl
  | draft d => rfl
  | node n => cases n <;> rfl

theorem completed_release (h : Holder α) (w : World α) :
    (h.release w).1.completed = h.completed := by
  cases h with
  | buffer l => rfl
  | draft d => rfl
  | node n => cases n <;> rfl

/-- What a holder may turn into: it keeps its buffer and its steps, and a node gets no new ones. -/
structure Becomes (h h' : Holder α) : Prop where
  owned : h'.owned = h.owned
  isBuffer : h'.isBuffer = h.isBuffer
  steps : h.steps <+: h'.steps
  completed : h.completed ≤ h'.completed
  node : ∀ n, h = .node n → h'.steps = n.steps ∧ ∃ n', h' = .node n'

namespace Becomes

theorem refl (h : Holder α) : h.Becomes h :=
  ⟨rfl, rfl, List.prefix_rfl, Nat.le_refl _, fun n hn => hn ▸ ⟨rfl, n, rfl⟩⟩

theorem trans {h h' h'' : Holder α} (hh : h.Becomes h') (hh' : h'.Becomes h'') : h.Becomes h'' where
  owned := hh'.owned.trans hh.owned
  isBuffer := hh'.isBuffer.trans hh.isBuffer
  steps := hh.steps.trans hh'.steps
  completed := Nat.le_trans hh.completed hh'.completed
  node := by
    intro n hn
    obtain ⟨hsteps, n', hn'⟩ := hh.node n hn
    obtain ⟨hsteps', n'', hn''⟩ := hh'.node n' hn'
    rw [hn'] at hsteps
    exact ⟨hsteps'.trans hsteps, n'', hn''⟩

/-- The steps may stay as they are. -/
theorem of_steps {h h' : Holder α} (howned : h'.owned = h.owned)
    (hbuffer : h'.isBuffer = h.isBuffer) (hsteps : h'.steps = h.steps)
    (hcompleted : h.completed ≤ h'.completed) (hnode : ∀ n, h = .node n → ∃ n', h' = .node n') :
    h.Becomes h' where
  owned := howned
  isBuffer := hbuffer
  steps := hsteps.symm ▸ List.prefix_rfl
  completed := hcompleted
  node := by
    rintro n rfl
    exact ⟨hsteps, hnode n rfl⟩

theorem release (h : Holder α) (w : World α) : h.Becomes (h.release w).1 := by
  refine of_steps (h.owned_release w) (by cases h <;> rfl) (h.steps_release w)
    (Nat.le_of_eq (h.completed_release w).symm) ?_
  rintro n rfl
  exact ⟨_, rfl⟩

end Becomes

end Holder

/-! ## Estates -/

structure Estate (α : Type) where
  world : World α
  holders : List (Holder α)

structure Estate.Consistent (e : Estate α) : Prop where
  packed : e.world.pool.Packed
  distinct : (e.holders.map Holder.owned).Nodup
  fits : ∀ h ∈ e.holders, h.Fits e.world.pool
  covered : ∀ b, e.world.pool.isLive b → ∃ h ∈ e.holders, h.owned = b

/-- As `Consistent`, whatever the slots hold that operands point to. -/
structure Estate.Tidy (e : Estate α) : Prop where
  packed : e.world.pool.Packed
  distinct : (e.holders.map Holder.owned).Nodup
  placed : ∀ h ∈ e.holders, h.Placed e.world.pool
  covered : ∀ b, e.world.pool.isLive b → ∃ h ∈ e.holders, h.owned = b

/-- What may be relied on: the place is a slot for values of the kind. If handles to buffers are
made freely, nothing is to be relied on in the buffers that are held as such. -/
def Estate.Trusts (free : Prop) (e : Estate α) (place : Place) (k : Kind) : Prop :=
  e.world.pool.Holds place k ∨ free ∧ e.world.pool.Issued place.buffer ∧
    ∃ l, .buffer l ∈ e.holders ∧ l.buffer = place.buffer

/-- A tidy estate in which operands point to places that may be relied on. -/
structure Estate.Orderly (free : Prop) (e : Estate α) : Prop where
  tidy : e.Tidy
  trusted : ∀ h ∈ e.holders, ∀ step ∈ h.steps, step.instruction.All (e.Trusts free)

namespace Estate

variable {free : Prop} {e : Estate α} {place : Place} {k : Kind}

theorem Trusts.issued (h : e.Trusts free place k) : e.world.pool.Issued place.buffer := by
  rcases h with h | ⟨-, h, -⟩
  · exact h.1
  · exact h

theorem trusts_false_iff : e.Trusts False place k ↔ e.world.pool.Holds place k := by
  simp [Trusts]

/-- If handles are made with care, all operands are sound. -/
theorem sound_iff {i : Instruction α (Operand α)} :
    i.Sound e.world.pool ↔ i.All (e.Trusts False) := by
  rw [Instruction.sound_iff]
  exact ⟨fun h => h.imp fun _ _ => trusts_false_iff.2,
    fun h => h.imp fun _ _ => trusts_false_iff.1⟩

theorem consistent_iff : e.Consistent ↔ e.Orderly False := by
  constructor
  · intro he
    exact ⟨⟨he.packed, he.distinct, fun h hh => (he.fits h hh).placed, he.covered⟩,
      fun h hh step hstep => sound_iff.1 ((he.fits h hh).sound hstep)⟩
  · intro he
    exact ⟨he.tidy.packed, he.tidy.distinct, fun h hh => Holder.fits_iff.2 ⟨he.tidy.placed h hh,
      fun step hstep => sound_iff.2 (he.trusted h hh step hstep)⟩, he.tidy.covered⟩

theorem Consistent.tidy (he : e.Consistent) : e.Tidy := (consistent_iff.1 he).tidy

/-- A buffer has one holder. -/
theorem Tidy.eq_of_owned (he : e.Tidy) {h h' : Holder α} (hh : h ∈ e.holders)
    (hh' : h' ∈ e.holders) (howned : h.owned = h'.owned) : h = h' :=
  List.inj_on_of_nodup_map he.distinct hh hh' howned

/-- Which places are to be relied on beyond the buffers of users depends on the pool. -/
theorem Tidy.holds_of_trusts (he : e.Tidy) {h : Holder α} (hh : h ∈ e.holders)
    (hbuffer : h.isBuffer = false) (hplace : place.buffer = h.owned)
    (htrusts : e.Trusts free place k) : e.world.pool.Holds place k := by
  rcases htrusts with hholds | ⟨-, -, l, hl, hlb⟩
  · exact hholds
  · obtain rfl := he.eq_of_owned hh hl (hplace.symm.trans hlb.symm)
    cases hbuffer

end Estate

/-! ## What keeps an estate tidy -/

section Kept

variable {w w' : World α} {hs : List (Holder α)} {h h' : Holder α}

/-- A holder and its buffer may change together. -/
theorem Estate.Tidy.change (he : Tidy ⟨w, h :: hs⟩)
    (hsame : w.pool.SameBut w'.pool h.owned) (hext : w.pool.Extends w'.pool)
    (hpacked : w'.pool.Packed) (howned : h'.owned = h.owned) (hplaced : h'.Placed w'.pool) :
    Tidy ⟨w', h' :: hs⟩ where
  packed := hpacked
  distinct := by simpa only [List.map_cons, howned] using he.distinct
  placed := by
    intro k hk
    rcases List.mem_cons.1 hk with rfl | hk
    · exact hplaced
    · have hne : k.owned ≠ h.owned := by
        intro heq
        have hnotin := (List.nodup_cons.1 he.distinct).1
        exact hnotin (heq ▸ List.mem_map_of_mem hk)
      exact (he.placed k (List.mem_cons_of_mem _ hk)).frame hext (hsame.cells hne)
  covered := by
    intro b hb
    by_cases hbh : b = h.owned
    · exact ⟨h', List.mem_cons_self, howned.trans hbh.symm⟩
    · have hb' : w.pool.isLive b := by
        rw [Pool.isLive_iff] at hb ⊢
        exact hsame.cells hbh ▸ hb
      obtain ⟨k, hk, rfl⟩ := he.covered b hb'
      rcases List.mem_cons.1 hk with rfl | hk
      · exact absurd rfl hbh
      · exact ⟨k, List.mem_cons_of_mem _ hk, rfl⟩

/-- A new buffer comes with a new holder. -/
theorem Estate.Tidy.add [Zero α] (he : Tidy ⟨w, hs⟩) (label : String)
    (layout : List Kind) (hpool : w'.pool = w.pool.allocate label layout)
    (howned : h.owned = w.pool.fresh) (hplaced : h.Placed w'.pool) : Tidy ⟨w', h :: hs⟩ where
  packed := hpool ▸ Pool.packed_allocate label layout he.packed
  distinct := by
    refine List.nodup_cons.2 ⟨fun hmem => ?_, he.distinct⟩
    obtain ⟨k, hk, hkb⟩ := List.mem_map.1 hmem
    exact Pool.ne_fresh_of_issued (he.placed k hk).issued (hkb.trans howned)
  placed := by
    intro k hk
    rcases List.mem_cons.1 hk with rfl | hk
    · exact hplaced
    · have hkp := he.placed k hk
      have hne := Pool.ne_fresh_of_issued hkp.issued
      rw [hpool]
      exact hkp.frame (Pool.extends_allocate _ _ _)
        (Pool.cells?_congr (Pool.store?_allocate_of_ne _ _ _ hne))
  covered := by
    intro b hb
    by_cases hbf : b = w.pool.fresh
    · exact ⟨h, List.mem_cons_self, howned.trans hbf.symm⟩
    · have hb' : w.pool.isLive b := by
        rw [Pool.isLive_iff] at hb ⊢
        rwa [hpool, Pool.cells?_congr (Pool.store?_allocate_of_ne _ _ _ hbf)] at hb
      obtain ⟨k, hk, rfl⟩ := he.covered b hb'
      exact ⟨k, List.mem_cons_of_mem _ hk, rfl⟩

/-- A holder whose buffer has been released may be forgotten. -/
theorem Estate.Tidy.forget (he : Tidy ⟨w, h :: hs⟩)
    (hdead : w.pool.cells? h.owned = none) : Tidy ⟨w, hs⟩ where
  packed := he.packed
  distinct := (List.nodup_cons.1 he.distinct).2
  placed := fun k hk => he.placed k (List.mem_cons_of_mem _ hk)
  covered := by
    intro b hb
    obtain ⟨k, hk, rfl⟩ := he.covered b hb
    rcases List.mem_cons.1 hk with rfl | hk
    · obtain ⟨cs, hcs⟩ := Pool.isLive_iff.1 hb
      rw [hdead] at hcs
      cases hcs
    · exact ⟨k, hk, rfl⟩

end Kept

/-! ### Releasing -/

theorem StepsPlaced.release {l : Lease} {steps : List (Step α)} {completed : Nat} {w : World α}
    (h : StepsPlaced l steps completed w.pool) :
    StepsPlaced (l.release w).1 steps completed (l.release w).2.pool := by
  unfold Lease.release
  split
  · exact h
  · exact ⟨h.slot, h.backward, h.completed_le, (Pool.extends_release h.issued).issued h.issued,
      fun _ => Pool.cells?_release h.issued, by simp⟩

/-- Releasing changes the one buffer, which is gone then. -/
theorem Lease.release_spec {l : Lease} {w : World α} (hl : w.pool.Issued l.buffer)
    (hdead : l.released = true → w.pool.cells? l.buffer = none) (hp : w.pool.Packed) :
    w.pool.SameBut (l.release w).2.pool l.buffer ∧ w.pool.Extends (l.release w).2.pool ∧
      (l.release w).2.pool.Packed ∧ (l.release w).2.pool.cells? l.buffer = none ∧
      (l.release w).1.released = true := by
  unfold release
  split
  · rename_i hr
    exact ⟨.refl _ _, .refl _, hp, hdead hr, hr⟩
  · exact ⟨Pool.sameBut_release hl, Pool.extends_release hl, Pool.packed_release hp hl,
      Pool.cells?_release hl, rfl⟩

theorem Holder.release_spec {h : Holder α} {w : World α} (hh : h.Placed w.pool)
    (hp : w.pool.Packed) : (h.release w).1.Placed (h.release w).2.pool ∧
      w.pool.SameBut (h.release w).2.pool h.owned ∧ w.pool.Extends (h.release w).2.pool ∧
      (h.release w).2.pool.Packed ∧ (h.release w).2.pool.cells? h.owned = none := by
  have hdead : h.lease.released = true → w.pool.cells? h.lease.buffer = none := by
    intro hr
    have hnot := hh.released_iff.1 hr
    rw [Pool.isLive_iff, not_exists] at hnot
    exact Option.eq_none_iff_forall_ne_some.2 hnot
  obtain ⟨hsame, hext, hpacked, hcells, hr⟩ := Lease.release_spec hh.issued hdead hp
  cases h with
  | buffer l =>
    have hbuffer : (l.release w).1.buffer = l.buffer := l.buffer_release w
    refine ⟨⟨hbuffer ▸ hext.issued hh.1, ?_⟩, hsame, hext, hpacked, hcells⟩
    rw [hbuffer]
    exact ⟨fun _ => hcells, fun _ => hr⟩
  | draft d => exact ⟨StepsPlaced.release hh, hsame, hext, hpacked, hcells⟩
  | node n =>
    refine ⟨?_, hsame, hext, hpacked, hcells⟩
    cases n <;> exact StepsPlaced.release hh

/-! ### New nodes -/

section New

variable [Zero α] {p q : Pool α}

/-- The steps of a new buffer with one slot for each of them. -/
theorem StepsPlaced.fresh (steps : List (Step α)) (label : String)
    (hslot : ∀ (i : Nat) (step : Step α), steps[i]? = some step → step.slot = i)
    (hissued : ∀ step ∈ steps, ∀ place ∈ step.instruction.inputs, p.Issued place.buffer) :
    StepsPlaced ⟨p.fresh, false⟩ steps 0
      (p.allocate label (steps.map fun step => step.instruction.output)) where
  slot := hslot
  backward := by
    intro i step hstep place hplace hbuffer
    have hissued' := hissued step (List.mem_of_getElem? hstep) place hplace
    exact absurd hbuffer (Pool.ne_fresh_of_issued hissued')
  completed_le := Nat.zero_le _
  issued := Pool.issued_allocate_fresh _ _ _
  dead := by simp
  live := by
    refine fun _ => ⟨_, Pool.cells?_allocate_fresh _ _ _, by simp, ?_⟩
    intro i c hc
    obtain ⟨k, -, rfl⟩ := List.mem_map.1 (List.mem_of_getElem? hc)
    simp

end New

/-! ### New steps -/

/-- A step in a new slot goes behind the others. -/
theorem StepsPlaced.snoc [Zero α] {l : Lease} {steps : List (Step α)} {p q : Pool α} {n : Nat}
    {i : Instruction α (Operand α)} (h : StepsPlaced l steps 0 p) (hp : p.Packed)
    (hbackward : ∀ place ∈ i.inputs, place.buffer = l.buffer → place.slot < steps.length)
    (hq : p.pushSlot l.buffer i.output = .ok (n, q)) :
    n = steps.length ∧ StepsPlaced l (steps ++ [⟨i, n⟩]) 0 q ∧ p.SameBut q l.buffer ∧
      p.Extends q ∧ q.Packed := by
  obtain ⟨cs, hcs, hn, hqs, hsame, hext, hpacked⟩ := Pool.pushSlot_spec hp hq
  have hr := h.released_of_cells hcs
  obtain ⟨cs', hcs', hkinds, hwritten⟩ := h.live hr
  obtain rfl : cs = cs' := Option.some.inj (hcs.symm.trans hcs')
  have hlen : n = steps.length := by
    have hlengths := congrArg List.length hkinds
    simp only [List.length_map] at hlengths
    exact hn.trans hlengths
  -- A step of the longer list is an old one or the last one.
  have hcases : ∀ (j : Nat) (step : Step α), (steps ++ [⟨i, n⟩])[j]? = some step →
      steps[j]? = some step ∨ j = steps.length ∧ step = ⟨i, n⟩ := by
    intro j step hj
    rcases Nat.lt_trichotomy j steps.length with hlt | rfl | hgt
    · exact Or.inl ((List.getElem?_append_left hlt).symm.trans hj)
    · simp only [List.getElem?_concat_length, Option.some.injEq] at hj
      exact Or.inr ⟨rfl, hj.symm⟩
    · rw [List.getElem?_eq_none (by simp; omega)] at hj
      cases hj
  refine ⟨hlen, ⟨?_, ?_, Nat.zero_le _, hext.issued h.issued, by simp [hr], ?_⟩, hsame, hext,
    hpacked⟩
  · intro j step hj
    rcases hcases j step hj with hj | ⟨rfl, rfl⟩
    · exact h.slot j step hj
    · exact hlen
  · intro j step hj
    rcases hcases j step hj with hj | ⟨rfl, rfl⟩
    · exact h.backward j step hj
    · exact hbackward
  · refine fun _ => ⟨_, hqs, by simp [hkinds], ?_⟩
    intro j c hc
    rcases List.mem_append.1 (List.mem_of_getElem? hc) with hmem | hmem
    · obtain ⟨j', hj'⟩ := List.mem_iff_getElem?.1 hmem
      simp [hwritten j' c hj']
    · obtain rfl := List.mem_singleton.1 hmem
      simp

/-- What appending a step to a draft amounts to. -/
theorem Draft.push_ok [Scalar α] {d d' : Draft α} {w w' : World α} {k : Kind}
    {i : Instruction α (Operand α)} {h : Handle k} (hd : d.push w k i = .ok (h, d', w')) :
    i.output = k ∧ (∀ place ∈ i.inputs, place.buffer = d.buffer → place.slot < d.steps.length) ∧
      ∃ n q, w.pool.pushSlot d.buffer k = .ok (n, q) ∧ h = ⟨d.buffer, n⟩ ∧
        d' = { d with steps := d.steps ++ [⟨i, n⟩] } ∧ w' = w.setPool q := by
  by_cases hk : i.output = k
  · cases hahead : d.slotAhead? i with
    | some slot => simp [push, hk, hahead, bind, Except.bind, throw, throwThe] at hd
    | none =>
      simp only [push, hk, hahead, ne_eq, not_true_eq_false, if_false] at hd
      obtain ⟨⟨n, q⟩, hq, hd⟩ := ok_of_bind hd
      cases hd
      refine ⟨hk, fun place hplace hbuffer => ?_, n, q, hq, rfl, rfl, rfl⟩
      have hnone := List.find?_eq_none.1 (Option.map_eq_none_iff.1 hahead) place hplace
      simp only [hbuffer, true_and, decide_eq_true_eq, Nat.not_le] at hnone
      exact Nat.lt_of_lt_of_le hnone (Nat.mod_le _ _)
  · simp [push, hk, bind, Except.bind, throw, throwThe] at hd

theorem Draft.push_spec [Scalar α] {d d' : Draft α} {w w' : World α} {k : Kind}
    {i : Instruction α (Operand α)} {h : Handle k} (hd : d.push w k i = .ok (h, d', w'))
    (hplaced : StepsPlaced d.lease d.steps 0 w.pool) (hp : w.pool.Packed) :
    d'.lease = d.lease ∧ d'.steps = d.steps ++ [⟨i, d.steps.length⟩] ∧
      StepsPlaced d'.lease d'.steps 0 w'.pool ∧ w.pool.SameBut w'.pool d.buffer ∧
      w.pool.Extends w'.pool ∧ w'.pool.Packed ∧ w'.pool.Holds h.place k := by
  obtain ⟨rfl, hbackward, n, q, hq, rfl, rfl, rfl⟩ := push_ok hd
  obtain ⟨rfl, hplaced', hsame, hext, hpacked⟩ := hplaced.snoc hp hbackward hq
  exact ⟨rfl, rfl, hplaced', hsame, hext, hpacked, hplaced'.holds List.getElem?_concat_length⟩

/-- A step can be appended that reads no own slot but those of earlier steps, if its slot can be
numbered. -/
theorem Draft.exists_push [Scalar α] {l : Lease} {steps : List (Step α)} {w : World α}
    (hd : StepsPlaced l steps 0 w.pool) (hp : w.pool.Packed) (hr : l.released = false)
    (hlt : steps.length < Store.capacity) (i : Instruction α (Operand α))
    (hback : ∀ place ∈ i.inputs, place.buffer = l.buffer → place.slot < steps.length) :
    ∃ w', push ⟨l, steps⟩ w i.output i = .ok (⟨l.buffer, steps.length⟩,
        ⟨l, steps ++ [⟨i, steps.length⟩]⟩, w') ∧
      StepsPlaced l (steps ++ [⟨i, steps.length⟩]) 0 w'.pool ∧ w'.pool.Packed ∧
      w.pool.SameBut w'.pool l.buffer := by
  obtain ⟨cs, hcs, hkinds, -⟩ := hd.live hr
  have hlen : cs.length = steps.length := by
    have hlengths := congrArg List.length hkinds
    simpa only [List.length_map] using hlengths
  have hahead : slotAhead? ⟨l, steps⟩ i = none := by
    refine Option.map_eq_none_iff.2 (List.find?_eq_none.2 fun place hplace hown => ?_)
    obtain ⟨hbuffer, hle⟩ := of_decide_eq_true hown
    rw [nextSlot, Nat.mod_eq_of_lt hlt] at hle
    exact Nat.not_lt.2 hle (hback place hplace hbuffer)
  obtain ⟨q, hq, -⟩ := Pool.pushSlot_eq hp hcs (hlen ▸ hlt) i.output
  rw [hlen] at hq
  have hpush : push ⟨l, steps⟩ w i.output i = .ok (⟨l.buffer, steps.length⟩,
      ⟨l, steps ++ [⟨i, steps.length⟩]⟩, w.setPool q) := by
    simp only [push, hahead, ne_eq, not_true_eq_false, if_false]
    exact bind_of_ok hq
  obtain ⟨-, -, hplaced, hsame, -, hpacked, -⟩ := push_spec hpush hd hp
  exact ⟨_, hpush, hplaced, hpacked, hsame⟩

/-- The slot of the new step did not exist before. -/
theorem Draft.not_holds_next [Scalar α] {d d' : Draft α} {w w' : World α} {k : Kind}
    {i : Instruction α (Operand α)} {h : Handle k} (hd : d.push w k i = .ok (h, d', w'))
    (hplaced : StepsPlaced d.lease d.steps 0 w.pool) (j : Kind) :
    ¬ w.pool.Holds ⟨d.buffer, d.steps.length⟩ j := by
  obtain ⟨-, -, n, q, hq, -⟩ := push_ok hd
  obtain ⟨cs, hcs, -⟩ := Pool.pushSlot_ok hq
  intro hholds
  exact Nat.lt_irrefl _ (hplaced.lt_of_holds (hplaced.released_of_cells hcs) rfl hholds)

theorem Draft.buffer_push [Scalar α] {d d' : Draft α} {w w' : World α} {k : Kind}
    {i : Instruction α (Operand α)} {h : Handle k} (hd : d.push w k i = .ok (h, d', w')) :
    h.buffer = d.buffer ∧ d'.buffer = d.buffer := by
  obtain ⟨-, -, n, q, -, rfl, rfl, -⟩ := push_ok hd
  exact ⟨rfl, rfl⟩

theorem Draft.finish_ok {d : Draft α} {w w' : World α} {k : Kind} {c : Compound α}
    (hc : d.finish w k = (.ok c, w')) : w' = w ∧ c.lease = d.lease ∧ c.steps = d.steps ∧
      c.completed = 0 ∧ c.kind = k := by
  unfold finish at hc
  split at hc
  · cases hc
  · simp only at hc
    split at hc
    · rename_i hsteps hk
      cases hc
      exact ⟨rfl, rfl, rfl, rfl, hk⟩
    · cases hc

/-- A draft that cannot be finished is dropped. -/
theorem Draft.finish_error {d : Draft α} {w w' : World α} {k : Kind} {b : Breach}
    (hc : d.finish w k = (.error b, w')) : w' = ((Holder.draft d).release w).2 := by
  unfold finish at hc
  split at hc
  · cases hc
    rfl
  · simp only at hc
    split at hc
    · cases hc
    · cases hc
      rfl

end DeferredMatrix
