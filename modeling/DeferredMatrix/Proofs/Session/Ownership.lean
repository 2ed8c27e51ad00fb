import DeferredMatrix.Proofs.Session.Reachable

/-!
# Owners and lifetimes of buffers

Every live buffer has one owner, and whoever owns a buffer and has not released it has a live one.
A buffer is live for one stretch of time, and the log tells of its beginning and its end: the
allocation and the release are recorded once each (`Turn`), in this order.

* `Change.accounts` : a change records the turns in the lives of the buffers that it makes happen.
* `Orderly.turns_run` : so do commands.
* `buffers_are_released_once` : owners, lifetimes, and what the log says when nobody owns anything
  any more.
-/

namespace DeferredMatrix

/-! ## Turns -/

/-- What can happen to the life of a buffer. -/
inductive Turn where
  | begins
  | ends
  deriving DecidableEq

section Turns

variable {α : Type}

/-- What an event says about the life of a buffer. -/
def Event.turn? (b : BufferId) : Event α → Option Turn
  | allocated c _ => if c = b then some .begins else none
  | released c => if c = b then some .ends else none
  | _ => none

/-- The life of a buffer as events tell it. -/
def turnsOf (b : BufferId) (es : List (Event α)) : List Turn := es.filterMap (Event.turn? b)

theorem turnsOf_append (b : BufferId) (es es' : List (Event α)) :
    turnsOf b (es ++ es') = turnsOf b es ++ turnsOf b es' :=
  List.filterMap_append

theorem Event.IsNote.turn? {e : Event α} (he : e.IsNote) (b : BufferId) : e.turn? b = none := by
  cases e <;> first | rfl | cases he

namespace Pool

/-- The life of a buffer as the pool shows it. -/
def turns (p : Pool α) (b : BufferId) : List Turn :=
  if p.isLive b then [.begins]
  else if b.serial < p.entries.size then [.begins, .ends]
  else []

variable {p q : Pool α} {b : BufferId}

theorem turns_cases (p : Pool α) (b : BufferId) :
    p.turns b = [] ∧ ¬ p.Issued b ∧ p.isLive b = false ∨
      p.turns b = [.begins] ∧ p.Issued b ∧ p.isLive b = true ∨
      p.turns b = [.begins, .ends] ∧ p.Issued b ∧ p.isLive b = false := by
  unfold turns Issued
  by_cases hlive : p.isLive b
  · exact Or.inr (Or.inl ⟨if_pos hlive, issued_of_isLive hlive, hlive⟩)
  · have hdead := Bool.eq_false_iff.2 hlive
    by_cases hissued : b.serial < p.entries.size
    · exact Or.inr (Or.inr ⟨by rw [if_neg hlive, if_pos hissued], hissued, hdead⟩)
    · exact Or.inl ⟨by rw [if_neg hlive, if_neg hissued], hissued, hdead⟩

theorem turns_congr (hlive : q.isLive b = p.isLive b) (hsize : q.entries.size = p.entries.size) :
    q.turns b = p.turns b := by
  rw [turns, turns, hlive, hsize]

/-- As long as a buffer stays live, nothing happens to its life or to another. -/
theorem SameBut.turns {c : BufferId} {cs ds : List (Cell α)} (h : p.SameBut q c)
    (hcs : p.cells? c = some cs) (hds : q.cells? c = some ds) : q.turns b = p.turns b := by
  refine turns_congr ?_ h.size
  by_cases hb : b = c
  · subst hb
    exact (isLive_iff.2 ⟨ds, hds⟩).trans (isLive_iff.2 ⟨cs, hcs⟩).symm
  · rw [isLive, h.store b hb, isLive]

theorem turns_allocate [Zero α] (p : Pool α) (label : String) (layout : List Kind)
    (b : BufferId) : (p.allocate label layout).turns b =
      p.turns b ++ turnsOf b [(.allocated p.fresh layout.length : Event α)] := by
  by_cases hb : b = p.fresh
  · subst hb
    have hlive := isLive_iff.2 ⟨_, cells?_allocate_fresh p label layout⟩
    rcases p.turns_cases p.fresh with ⟨hnone, -⟩ | ⟨-, hissued, -⟩ | ⟨-, hissued, -⟩
    · rw [hnone, turns, if_pos hlive]
      simp [turnsOf, Event.turn?]
    · exact absurd rfl (ne_fresh_of_issued hissued)
    · exact absurd rfl (ne_fresh_of_issued hissued)
  · have hlive : (p.allocate label layout).isLive b = p.isLive b := by
      rw [isLive, store?_allocate_of_ne p label layout hb, isLive]
    have hserial : b.serial ≠ p.entries.size := fun h => hb (congrArg BufferId.mk h)
    have hissued : b.serial < (p.allocate label layout).entries.size ↔
        b.serial < p.entries.size := by
      simp only [allocate, Array.size_push]
      omega
    simp only [turns, hlive, hissued]
    simp [turnsOf, Event.turn?, Ne.symm hb]

theorem turns_release (hlive : p.isLive b) (c : BufferId) :
    (p.release b).turns c = p.turns c ++ turnsOf c [(.released b : Event α)] := by
  have hissued := issued_of_isLive hlive
  have hsame := sameBut_release hissued
  by_cases hc : c = b
  · subst hc
    have hdead : (p.release c).isLive c = false := by
      rw [isLive, cells?_eq_none_iff.1 (cells?_release hissued)]
      rfl
    have hissued' : c.serial < (p.release c).entries.size := hsame.size.symm ▸ hissued
    simp [turns, hdead, hissued', hlive, turnsOf, Event.turn?]
  · have hlive' : (p.release b).isLive c = p.isLive c := by
      rw [isLive, hsame.store c hc, isLive]
    rw [turns_congr hlive' hsame.size]
    simp [turnsOf, Event.turn?, Ne.symm hc]

end Pool

/-! ## What changes record -/

/-- What has happened to the lives of buffers since `before` is in the log. -/
def World.Accounts (before : BufferId → List Turn) (w : World α) : Prop :=
  ∀ b, w.pool.turns b = before b ++ turnsOf b w.log.toList

namespace World.Accounts

variable {before : BufferId → List Turn} {w : World α}

/-- The pool may change as long as no buffer comes or goes. -/
theorem setPool (h : w.Accounts before) {q : Pool α} (hq : ∀ b, q.turns b = w.pool.turns b) :
    (w.setPool q).Accounts before :=
  fun b => (hq b).trans (h b)

/-- If a buffer comes or goes, an event has to say so. -/
theorem emit (h : w.Accounts before) {q : Pool α} {e : Event α}
    (hq : ∀ b, q.turns b = w.pool.turns b ++ turnsOf b [e]) :
    ((w.setPool q).emit e).Accounts before := by
  intro b
  have hlog : ((w.setPool q).emit e).log.toList = w.log.toList ++ [e] := Array.toList_push
  rw [hlog, turnsOf_append, ← List.append_assoc, ← h b]
  exact hq b

theorem emit_of_none (h : w.Accounts before) {e : Event α} (he : ∀ b, e.turn? b = none) :
    (w.emit e).Accounts before := by
  refine emit (q := w.pool) h fun b => ?_
  simp [turnsOf, he]

theorem allocate [Zero α] (h : w.Accounts before) (label : String) (layout : List Kind) :
    (Lease.allocate w label layout).2.Accounts before :=
  h.emit fun b => w.pool.turns_allocate label layout b

theorem pushSlot [Zero α] (h : w.Accounts before) (hp : w.pool.Packed) {b : BufferId} {k : Kind}
    {n : Nat} {q : Pool α} (hq : w.pool.pushSlot b k = .ok (n, q)) :
    (w.setPool q).Accounts before := by
  obtain ⟨cs, hcs, -, hqs, hsame, -⟩ := Pool.pushSlot_spec hp hq
  exact h.setPool fun _ => hsame.turns hcs hqs

theorem write (h : w.Accounts before) (hp : w.pool.Packed) {place : Place} {xs : List α}
    {q : Pool α} (hq : w.pool.write place xs = .ok q) : (w.setPool q).Accounts before := by
  obtain ⟨cs, c, hcs, -, -, hqs, hsame, -⟩ := Pool.write_spec hp hq
  exact h.setPool fun _ => hsame.turns hcs hqs

/-- Whoever has given a buffer back before does nothing. -/
theorem release (h : w.Accounts before) {l : Lease}
    (hlive : l.released = false → w.pool.isLive l.buffer) : (l.release w).2.Accounts before := by
  unfold Lease.release
  split
  · exact h
  · rename_i hr
    exact h.emit fun b => Pool.turns_release (hlive (Bool.eq_false_iff.2 hr)) b

end World.Accounts

theorem Holder.release_world (h : Holder α) (w : World α) :
    (h.release w).2 = (h.lease.release w).2 := by
  cases h <;> rfl

section Changes

variable [Scalar α] {ph : Phase α} {free : Prop} {e e' : Estate α}
  {before : BufferId → List Turn}

theorem Node.Advance.accounts {n n' : Node α} {w w' : World α} (h : n.Advance w n' w')
    (hp : w.pool.Packed) (ha : w.Accounts before) : w'.Accounts before := by
  obtain ⟨-, step, v, q, -, -, hq, -, rfl⟩ := h
  refine (ha.write hp hq).emit_of_none fun b => ?_
  cases n <;> rfl

theorem Draft.accounts_push {d d' : Draft α} {w w' : World α} {k : Kind}
    {i : Instruction α (Operand α)} {g : Handle k} (hd : d.push w k i = .ok (g, d', w'))
    (hp : w.pool.Packed) (ha : w.Accounts before) : w'.Accounts before := by
  obtain ⟨-, -, n, q, hq, -, -, rfl⟩ := Draft.push_ok hd
  exact ha.pushSlot hp hq

theorem Move.accounts (h : Move ph e e') (he : e.Tidy) (ha : e.world.Accounts before) :
    e'.world.Accounts before := by
  cases h with
  | allocate label layout => exact ha.allocate label layout
  | create label => exact ha.allocate label []
  | @start base w hs i label hi => exact ha.allocate label [i.output]
  | pushSlot hq => exact ha.pushSlot he.packed hq
  | write hq => exact ha.write he.packed hq
  | push hi hreads hd => exact Draft.accounts_push hd he.packed ha
  | finish hc =>
    obtain ⟨rfl, -⟩ := Draft.finish_ok hc
    exact ha
  | advance h => exact h.accounts he.packed ha
  | release h hd | discard h =>
    have hplaced := he.placed h List.mem_cons_self
    rw [h.release_world]
    exact ha.release hplaced.isLive_iff.2
  | note he' => exact ha.emit_of_none he'.turn?
  | perm hp => exact ha

theorem Change.accounts (h : Change free ph e e') (he : e.Tidy)
    (ha : e.world.Accounts before) : e'.world.Accounts before := by
  cases h with
  | move h => exact h.accounts he ha
  | @start base w hs i label hi => exact ha.allocate label [i.output]
  | push hi hreads hd => exact Draft.accounts_push hd he.packed ha

theorem Changes.accounts (h : Changes free ph e e') (he : e.Tidy)
    (ha : e.world.Accounts before) : e'.world.Accounts before := by
  induction h with
  | refl => exact ha
  | tail hchanges hchange ih => exact hchange.accounts (Changes.tidy hchanges he) ih

end Changes

end Turns

/-! ## What commands record -/

variable [Scalar α] [ToText α]

namespace Session

/-- The events of a command. -/
def events (s : Session α) (c : Command α) : List (Event α) :=
  (s.perform c).elim [] fun o => o.events.toList

/-- The events of a list of commands. -/
def trace (s : Session α) : List (Command α) → List (Event α)
  | [] => []
  | c :: cs => s.events c ++ (s.next c).trace cs

variable {s : Session α}

theorem Orderly.turns_next (hs : s.Orderly True) (c : Command α) (b : BufferId) :
    (s.next c).pool.turns b = s.pool.turns b ++ turnsOf b (s.events c) := by
  unfold Session.next events
  cases ho : s.perform c with
  | none => exact (List.append_nil _).symm
  | some o =>
    have hstart : s.estate.world.Accounts s.pool.turns := fun b => (List.append_nil _).symm
    exact (hs.performs (Or.inl trivial) ho).changes.accounts hs.estate.tidy hstart b

/-- The life of a buffer goes on as the events tell it. -/
theorem Orderly.turns_run (hs : s.Orderly True) (cs : List (Command α)) (b : BufferId) :
    (s.run cs).pool.turns b = s.pool.turns b ++ turnsOf b (s.trace cs) := by
  induction cs generalizing s with
  | nil => exact (List.append_nil _).symm
  | cons c cs ih =>
    have hrun : ((s.next c).run cs).pool.turns b =
        (s.next c).pool.turns b ++ turnsOf b ((s.next c).trace cs) := ih (hs.next (Or.inl trivial))
    rw [trace, turnsOf_append, ← List.append_assoc, ← hs.turns_next c b]
    exact hrun

/-- A buffer that is gone stays so. -/
theorem Orderly.turns_next_of_ends (hs : s.Orderly True) (c : Command α) {b : BufferId}
    (hb : s.pool.turns b = [.begins, .ends]) : (s.next c).pool.turns b = [.begins, .ends] := by
  have hturns := hs.turns_next c b
  rw [hb] at hturns
  rcases (s.next c).pool.turns_cases b with ⟨h, -⟩ | ⟨h, -⟩ | ⟨h, -⟩
  · simp [h] at hturns
  · simp [h] at hturns
  · exact h

/-- A live buffer stays live or goes. -/
theorem Orderly.turns_next_of_begins (hs : s.Orderly True) (c : Command α) {b : BufferId}
    (hb : s.pool.turns b = [.begins]) : (s.next c).pool.turns b = s.pool.turns b ∨
      (s.next c).pool.turns b = [.begins, .ends] := by
  have hturns := hs.turns_next c b
  rw [hb] at hturns ⊢
  rcases (s.next c).pool.turns_cases b with ⟨h, -⟩ | ⟨h, -⟩ | ⟨h, -⟩
  · simp [h] at hturns
  · exact Or.inl h
  · exact Or.inr h

/-- A buffer is live for one stretch of time. -/
theorem Orderly.map_isLive_states (hs : s.Orderly True) (cs : List (Command α)) (b : BufferId) :
    ∃ l m n, (s.states cs).map (fun s' => s'.pool.isLive b) =
      List.replicate l false ++ List.replicate m true ++ List.replicate n false := by
  have hnext : ∀ (s : Session α) (c : Command α), s.Orderly True → (s.next c).Orderly True :=
    fun s c hs => hs.next (Or.inl trivial)
  have hcases : ∀ s : Session α, s.Orderly True → s.pool.turns b = [] ∨
      s.pool.turns b = [.begins] ∨ s.pool.turns b = [.begins, .ends] := by
    intro s _
    rcases s.pool.turns_cases b with ⟨h, -⟩ | ⟨h, -⟩ | ⟨h, -⟩
    · exact Or.inl h
    · exact Or.inr (Or.inl h)
    · exact Or.inr (Or.inr h)
  obtain ⟨l, m, n, _, rfl, hlmn⟩ := map_states (Y := fun ts => ts = [.begins]) hnext
    (fun s c hs hb => hs.turns_next_of_ends c hb) (fun s c hs hb => hs.turns_next_of_begins c hb)
    hcases ⟨_, rfl⟩ cs hs
  have hlive : ∀ s' : Session α, s'.pool.isLive b = decide (s'.pool.turns b = [.begins]) := by
    intro s'
    rcases s'.pool.turns_cases b with ⟨h, -, h'⟩ | ⟨h, -, h'⟩ | ⟨h, -, h'⟩ <;> simp [h, h']
  refine ⟨l, m, n, ?_⟩
  have hmap := congrArg (List.map fun ts => decide (ts = [Turn.begins])) hlmn
  simpa [Function.comp_def, ← hlive] using hmap

end Session

theorem buffers_are_released_once (cs : List (Command α)) :
    (∀ b, (Session.empty.run cs).pool.isLive b ↔
      ∃ h ∈ (Session.empty.run cs).objects.holders, h.owned = b ∧ h.lease.released = false) ∧
    ((Session.empty.run cs).objects.holders.map Holder.owned).Nodup ∧
    (∀ b, ∃ l m n, (Session.empty.states cs).map (fun s => s.pool.isLive b) =
      List.replicate l false ++ List.replicate m true ++ List.replicate n false) ∧
    (∀ b, turnsOf b (Session.empty.trace cs) = (Session.empty.run cs).pool.turns b) ∧
    ((Session.empty.run cs).objects.holders = [] →
      ∀ b, (Session.empty.run cs).pool.Issued b ∨ .begins ∈ turnsOf b (Session.empty.trace cs) →
        (Session.empty.run cs).pool.isLive b = false ∧
        turnsOf b (Session.empty.trace cs) = [.begins, .ends]) := by
  have hs := Session.orderly_run cs
  have htidy := hs.estate.tidy
  have hlive : ∀ b, (Session.empty.run cs).pool.isLive b ↔
      ∃ h ∈ (Session.empty.run cs).objects.holders,
        h.owned = b ∧ h.lease.released = false := by
    intro b
    constructor
    · intro hb
      obtain ⟨h, hh, rfl⟩ := htidy.covered b hb
      exact ⟨h, hh, rfl, (htidy.placed h hh).isLive_iff.1 hb⟩
    · rintro ⟨h, hh, rfl, hr⟩
      exact (htidy.placed h hh).isLive_iff.2 hr
  have hturns : ∀ b, turnsOf b (Session.empty.trace cs) = (Session.empty.run cs).pool.turns b :=
    fun b => (Session.orderly_empty.turns_run cs b).symm
  refine ⟨hlive, htidy.distinct, Session.orderly_empty.map_isLive_states cs, hturns, ?_⟩
  intro hnone b hb
  have hdead : (Session.empty.run cs).pool.isLive b ≠ true := by
    intro hb'
    obtain ⟨h, hh, -⟩ := (hlive b).1 hb'
    rw [hnone] at hh
    cases hh
  rw [hturns] at hb ⊢
  rcases (Session.empty.run cs).pool.turns_cases b with ⟨h, h', -⟩ | ⟨-, -, h⟩ | ⟨h, -, h'⟩
  · rcases hb with hissued | hbegins
    · exact absurd hissued h'
    · rw [h] at hbegins
      cases hbegins
  · exact absurd h hdead
  · exact ⟨h', h⟩

/-- Makes a buffer, a draft that cannot be finished, an operation that is refused, and one that is
evaluated and goes into a graph. Whatever is left is released, some of it twice, and dropped. -/
def shortLives : List (Command Float32) :=
  [.buffer (.allocate "a" [.matrix]), .draft (.create "d"), .draft (.finish "d" .matrix "c"),
    .node (.operation "refused" .scalar .identity), .node (.operation "i" .matrix .identity),
    .node (.evaluate "i"), .graph (.create "g"), .graph (.push "g" "i" none), .release "g",
    .release "a", .release "a", .drop "g", .drop "a"]

theorem shortLives_are_released_once :
    (Session.empty.run shortLives).objects.holders = [] ∧
    (Session.empty.run shortLives).pool.entries.size = 3 ∧
    (∀ serial < 3, turnsOf ⟨serial⟩ (Session.empty.trace shortLives) = [.begins, .ends]) ∧
    (Session.empty.states shortLives).map (fun s => s.pool.isLive ⟨1⟩) =
      [false, false, true, false, false, false, false, false, false, false, false, false, false,
        false] := by
  obtain ⟨-, -, -, -, hreleased⟩ := buffers_are_released_once shortLives
  have hsize : (Session.empty.run shortLives).pool.entries.size = 3 := rfl
  refine ⟨rfl, hsize, fun serial hserial => ?_, rfl⟩
  have hissued : (Session.empty.run shortLives).pool.Issued ⟨serial⟩ :=
    Nat.lt_of_lt_of_eq hserial hsize.symm
  exact (hreleased rfl ⟨serial⟩ (Or.inl hissued)).2

end DeferredMatrix
