import DeferredMatrix.Proofs.Session.Reachable

/-!
# The phases of a handle

A handle to a slot of a draft or a node first says that the slot is not evaluated, then gives one
value, then says that its buffer is gone; each of these may be skipped, and none comes back
whatever commands are given. The buffer is live in the first two phases.

* `Change.contents` : what is written to a slot that no user has stays there until its buffer is
  released.
* `handles_go_through_phases` : the answers along a run.
-/

namespace DeferredMatrix

/-! ## What is written is written once -/

section Changes

variable {α : Type} [Scalar α] {ph : Phase α} {free : Prop} {e e' : Estate α} {place : Place}
  {xs : List α}

/-- A buffer that is not held by a user as such. -/
def Estate.IsPrivate (e : Estate α) (b : BufferId) : Prop :=
  ∀ l, .buffer l ∈ e.holders → l.buffer ≠ b

/-- The next step of a node does not write over the results of the steps before it. -/
theorem Node.Advance.contents {n n' : Node α} {w w' : World α} (h : n.Advance w n' w')
    (hn : n.Placed w.pool) (hp : w.pool.Packed) (hxs : w.pool.contents? place = some xs) :
    w'.pool.contents? place = some xs := by
  obtain ⟨hr, step, v, q, hstep, -, hq, -, rfl⟩ := h
  have hne : place ≠ ⟨n.lease.buffer, step.slot⟩ := by
    rintro rfl
    cases (hn.unwritten hr hstep).symm.trans hxs
  exact ((Pool.contents_write hp hq).2 place hne).trans hxs

theorem Move.contents (h : Move ph e e') (he : e.Tidy)
    (hxs : e.world.pool.contents? place = some xs) (hprivate : e.IsPrivate place.buffer) :
    e'.world.pool.contents? place = some xs ∨ ¬ e'.world.pool.isLive place.buffer := by
  cases h with
  | allocate label layout | start label hi | create label =>
    exact Or.inl (Pool.contents_allocate _ _ hxs)
  | pushSlot hq => exact Or.inl (Pool.contents_pushSlot he.packed hq hxs)
  | push hi hreads hd =>
    obtain ⟨-, -, n, q, hq, -, -, rfl⟩ := Draft.push_ok hd
    exact Or.inl (Pool.contents_pushSlot he.packed hq hxs)
  | @write w hs l slot k v q hq =>
    have hne : place ≠ ⟨l.buffer, slot⟩ := by
      rintro rfl
      exact hprivate l List.mem_cons_self rfl
    exact Or.inl (((Pool.contents_write he.packed hq).2 place hne).trans hxs)
  | finish hc =>
    obtain ⟨rfl, -⟩ := Draft.finish_ok hc
    exact Or.inl hxs
  | advance h => exact Or.inl (h.contents (he.placed _ List.mem_cons_self) he.packed hxs)
  | release h hd | discard h =>
    obtain ⟨-, hsame, -, -, hdead⟩ :=
      Holder.release_spec (he.placed _ List.mem_cons_self) he.packed
    by_cases hb : place.buffer = h.owned
    · right
      rw [hb, Pool.isLive_iff]
      rintro ⟨cs, hcs⟩
      cases hdead.symm.trans hcs
    · exact Or.inl ((hsame.contents hb).trans hxs)
  | note he' | perm hp => exact Or.inl hxs

theorem Change.contents (h : Change free ph e e') (he : e.Tidy)
    (hxs : e.world.pool.contents? place = some xs) (hprivate : e.IsPrivate place.buffer) :
    e'.world.pool.contents? place = some xs ∨ ¬ e'.world.pool.isLive place.buffer := by
  cases h with
  | move h => exact h.contents he hxs hprivate
  | start label hi => exact Or.inl (Pool.contents_allocate _ _ hxs)
  | push hi hreads hd =>
    obtain ⟨-, -, n, q, hq, -, -, rfl⟩ := Draft.push_ok hd
    exact Or.inl (Pool.contents_pushSlot he.packed hq hxs)

/-- No user ever gets a buffer that a draft or a node has. -/
theorem Changes.isPrivate (h : Changes free ph e e') (he : e.Tidy) {b : BufferId}
    (hissued : e.world.pool.Issued b) (hprivate : e.IsPrivate b) : e'.IsPrivate b := by
  rintro l hl rfl
  rcases h.descends he hl with ⟨h₀, hh₀, hbecomes⟩ | hnew
  · cases h₀ with
    | buffer l₀ => exact hprivate l₀ hh₀ hbecomes.owned.symm
    | draft d | node n => cases hbecomes.isBuffer
  · exact hnew hissued

theorem Changes.contents (h : Changes free ph e e') (he : e.Tidy)
    (hxs : e.world.pool.contents? place = some xs) (hprivate : e.IsPrivate place.buffer) :
    e'.world.pool.contents? place = some xs ∨ ¬ e'.world.pool.isLive place.buffer := by
  have hissued := Pool.issued_of_isLive (Pool.isLive_of_contents hxs)
  induction h with
  | refl => exact Or.inl hxs
  | @tail e₁ e₂ hchanges hchange ih =>
    have he₁ := Changes.tidy hchanges he
    rcases ih with hxs₁ | hdead
    · exact hchange.contents he₁ hxs₁ (Changes.isPrivate hchanges he hissued hprivate)
    · right
      intro hlive
      have hissued₁ := (Changes.extends_pool hchanges he).issued hissued
      exact hdead ((hchange.extends he₁).isLive hissued₁ hlive)

end Changes

/-! ## The phases -/

variable {α : Type} {s : Session α} {k : Kind} {g : Handle k}

namespace Session

/-- What a handle shows: the answer to reading it, and whether its buffer is live. -/
def look {k : Kind} (g : Handle k) (s : Session α) :
    Except (Stop α) (Value α k) × Bool :=
  (s.pool.read g, s.pool.isLive g.buffer)

/-- The handle is to a slot of its kind in a buffer that no user has. -/
structure Hands (s : Session α) {k : Kind} (g : Handle k) : Prop where
  orderly : s.Orderly True
  holds : s.pool.Holds g.place k
  isPrivate : s.estate.IsPrivate g.buffer

namespace Hands

theorem of_mem (hs : s.Orderly True) {h : Holder α} (hh : h ∈ s.objects.holders)
    {step : Step α} (hstep : step ∈ h.steps) :
    s.Hands (⟨h.owned, step.slot⟩ : Handle step.instruction.output) where
  orderly := hs
  holds := by
    have hplaced := (hs.estate.tidy.placed h hh).steps hstep
    obtain ⟨i, hi⟩ := List.mem_iff_getElem?.1 hstep
    have hholds := hplaced.holds hi
    rwa [← hplaced.slot i step hi] at hholds
  isPrivate := by
    intro l hl hb
    obtain rfl := hs.estate.tidy.eq_of_owned hl hh hb
    cases hstep

/-- In every session the handle is in one of the phases. -/
theorem phase (h : s.Hands g) :
    look g s = (.error (.failure (.unevaluated g.place)), true) ∨
      (∃ v : Value α k, look g s = (.ok v, true)) ∨
      look g s = (.error (.failure (.dangling g.buffer)), false) := by
  rcases Pool.read_cases h.orderly.estate.tidy.packed h.holds with
    ⟨v, hread, hxs⟩ | ⟨hread, hlive, -⟩ | ⟨hread, hdead⟩
  · exact Or.inr (Or.inl ⟨v, Prod.ext hread (Pool.isLive_of_contents hxs)⟩)
  · exact Or.inl (Prod.ext hread hlive)
  · exact Or.inr (Or.inr (Prod.ext hread (Bool.eq_false_iff.2 hdead)))

end Hands

end Session

variable [Scalar α] [ToText α]

namespace Session

/-- Along the commands the handle says that its slot is not evaluated, then it gives one value, then
it says that its buffer is gone. Only then the buffer is not live. -/
def GoesThroughPhases (s : Session α) (cs : List (Command α)) {k : Kind} (g : Handle k) : Prop :=
  ∃ (l m n : Nat) (v : Value α k), (s.states cs).map (look g) =
    List.replicate l (.error (.failure (.unevaluated g.place)), true) ++
      List.replicate m (.ok v, true) ++
      List.replicate n (.error (.failure (.dangling g.buffer)), false)

namespace Hands

theorem next (h : s.Hands g) (c : Command α) : (s.next c).Hands g where
  orderly := h.orderly.next (Or.inl trivial)
  holds := h.holds.mono (h.orderly.extends_next c)
  isPrivate := by
    obtain ⟨log, hchanges⟩ := h.orderly.changes_next (c := c) (Or.inl trivial)
    exact hchanges.isPrivate h.orderly.estate.tidy h.holds.1 h.isPrivate

/-- A value stays as long as the buffer is live. -/
theorem look_next_of_ok (h : s.Hands g) (c : Command α) {v : Value α k}
    (hv : look g s = (.ok v, true)) : look g (s.next c) = (.ok v, true) ∨
      look g (s.next c) = (.error (.failure (.dangling g.buffer)), false) := by
  have hread : s.pool.read g = .ok v := congrArg Prod.fst hv
  have hxs : s.pool.contents? g.place = some v.slots :=
    (Pool.read_eq_ok_iff h.orderly.estate.tidy.packed h.holds).1 hread
  have hnext := h.next c
  obtain ⟨log, hchanges⟩ := h.orderly.changes_next (c := c) (Or.inl trivial)
  have hkept : (s.next c).pool.contents? g.place = some v.slots ∨
      ¬ (s.next c).pool.isLive g.buffer :=
    hchanges.contents h.orderly.estate.tidy hxs h.isPrivate
  rcases hkept with hxs' | hdead
  · have hread' : (s.next c).pool.read g = .ok v :=
      (Pool.read_eq_ok_iff hnext.orderly.estate.tidy.packed hnext.holds).2 hxs'
    exact Or.inl (Prod.ext hread' (Pool.isLive_of_contents hxs'))
  · have hnot : (s.next c).pool.isLive g.buffer ≠ true := hdead
    rcases hnext.phase with hlook | ⟨u, hlook⟩ | hlook
    · exact absurd (congrArg Prod.snd hlook) hnot
    · exact absurd (congrArg Prod.snd hlook) hnot
    · exact Or.inr hlook

/-- A buffer that is gone does not come back. -/
theorem look_next_of_dead (h : s.Hands g) (c : Command α)
    (hdead : look g s = (.error (.failure (.dangling g.buffer)), false)) :
    look g (s.next c) = (.error (.failure (.dangling g.buffer)), false) := by
  have hnot : (s.next c).pool.isLive g.buffer ≠ true := by
    intro hlive
    have hlive₀ : s.pool.isLive g.buffer := (h.orderly.extends_next c).isLive h.holds.1 hlive
    have hdead₀ : s.pool.isLive g.buffer = false := congrArg Prod.snd hdead
    exact Bool.false_ne_true (hdead₀.symm.trans hlive₀)
  rcases (h.next c).phase with hlook | ⟨u, hlook⟩ | hlook
  · exact absurd (congrArg Prod.snd hlook) hnot
  · exact absurd (congrArg Prod.snd hlook) hnot
  · exact hlook

theorem goesThroughPhases (h : s.Hands g) (cs : List (Command α)) : s.GoesThroughPhases cs g := by
  have hnext : ∀ (s : Session α) (c : Command α), s.Hands g → (s.next c).Hands g :=
    fun s c hs => hs.next c
  have hlast : ∀ (s : Session α) (c : Command α), s.Hands g →
      look g s = (.error (.failure (.dangling g.buffer)), false) →
      look g (s.next c) = (.error (.failure (.dangling g.buffer)), false) :=
    fun s c hs => hs.look_next_of_dead c
  have hmiddle : ∀ (s : Session α) (c : Command α), s.Hands g →
      (∃ v : Value α k, look g s = (.ok v, true)) → look g (s.next c) = look g s ∨
        look g (s.next c) = (.error (.failure (.dangling g.buffer)), false) := by
    rintro s c hs ⟨v, hv⟩
    rw [hv]
    exact hs.look_next_of_ok c hv
  have hphase : ∀ s : Session α, s.Hands g →
      look g s = (.error (.failure (.unevaluated g.place)), true) ∨
        (∃ v : Value α k, look g s = (.ok v, true)) ∨
        look g s = (.error (.failure (.dangling g.buffer)), false) := fun s hs => hs.phase
  obtain ⟨l, m, n, _, ⟨v, rfl⟩, hlmn⟩ :=
    map_states (Y := fun answer => ∃ v, answer = (.ok v, true)) hnext hlast hmiddle hphase
      ⟨_, Value.initial k, rfl⟩ cs h
  exact ⟨l, m, n, v, hlmn⟩

end Hands

end Session

theorem handles_go_through_phases (cs cs' : List (Command α)) :
    (∀ h ∈ (Session.empty.run cs).objects.holders, ∀ step ∈ h.steps,
      (Session.empty.run cs).GoesThroughPhases cs'
        (⟨h.owned, step.slot⟩ : Handle step.instruction.output)) ∧
    ∀ name k (g : Handle k), (Session.empty.run cs).handle? name = some ⟨k, g⟩ →
      (∀ l, .buffer l ∈ (Session.empty.run cs).objects.holders → l.buffer ≠ g.buffer) →
      (Session.empty.run cs).GoesThroughPhases cs' g := by
  have hs := Session.orderly_run cs
  constructor
  · intro h hh step hstep
    exact (Session.Hands.of_mem hs hh hstep).goesThroughPhases cs'
  · intro name k g hg hprivate
    have hholds : (Session.empty.run cs).pool.Holds g.place k := by
      rcases hs.trusts_handle hg with hholds | ⟨-, -, l, hl, hb⟩
      · exact hholds
      · exact absurd hb (hprivate l hl)
    have hhands : (Session.empty.run cs).Hands g := ⟨hs, hholds, hprivate⟩
    exact hhands.goesThroughPhases cs'

/-- Makes an operation for an identity matrix and a handle to its result. -/
def namedIdentity : List (Command Float32) :=
  [.node (.operation "identity" .matrix .identity), .node (.handle "identity" "result")]

/-- Evaluates the operation twice, gives its buffer back and makes another buffer. -/
def useOfIdentity : List (Command Float32) :=
  [.node (.evaluate "identity"), .node (.evaluate "identity"), .release "identity",
    .buffer (.allocate "other" [.matrix])]

theorem namedIdentity_goes_through_phases :
    (Session.empty.run namedIdentity).handle? "result" = some ⟨.matrix, ⟨⟨0⟩, 0⟩⟩ ∧
    (Session.empty.run namedIdentity).GoesThroughPhases useOfIdentity
      (⟨⟨0⟩, 0⟩ : Handle .matrix) ∧
    ((Session.empty.run namedIdentity).states useOfIdentity).map
        (fun s => s.pool.isLive ⟨0⟩) = [true, true, true, false, false] ∧
    (Session.empty.run (namedIdentity ++ useOfIdentity.take 1)).pool.read
        (⟨⟨0⟩, 0⟩ : Handle .matrix) = .ok (.matrix .identity) := by
  obtain ⟨-, hhandles⟩ := handles_go_through_phases namedIdentity useOfIdentity
  have hprivate : ∀ l, .buffer l ∈ (Session.empty.run namedIdentity).objects.holders →
      l.buffer ≠ ⟨0⟩ := by
    intro l hl
    have hnone := List.mem_singleton.1 hl
    cases hnone
  exact ⟨rfl, hhandles "result" _ _ rfl hprivate, rfl, rfl⟩

end DeferredMatrix
