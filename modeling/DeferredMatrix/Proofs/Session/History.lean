import DeferredMatrix.Proofs.Session.Definitions
import DeferredMatrix.Proofs.Session.Reachable
import Mathlib.Data.List.Sort

/-!
# Histories

A history is a session together with all steps that have been made in it and all values that have
been written to user buffers. Commands only add to both, so that steps have a meaning even when
the drafts and nodes that held them are gone.

* `History.Recorded` are the histories that commands lead to as long as no slot of a user buffer
  is written twice.
* `Recorded.sound` : in all of them the steps are in order, and every slot contains what it means.
-/

namespace DeferredMatrix

variable {α : Type}

/-! ## What a command does to steps and slots -/

namespace Session

def definitions (s : Session α) : List (Definition α) := definitionsOf s.objects.holders

/-- What a command writes to a user buffer. -/
def writing? (s : Session α) : Command α → Option (Writing α)
  | .buffer (.write buffer slot _ v) => do
    let l ← s.buffer? buffer
    match s.pool.write ⟨l.buffer, slot⟩ v.slots with
    | .ok _ => some ⟨⟨l.buffer, slot⟩, v.slots⟩
    | .error _ => none
  | _ => none

variable {s : Session α} {c : Command α}

theorem eq_pool_of_phase {base : Pool α} (h : s.phase c = .building base) :
    base = s.pool := by
  unfold phase at h
  split at h <;> cases h <;> rfl

variable [Scalar α] [ToText α]

theorem Consistent.moves_next (hs : s.Consistent) (hc : s.Admits c) :
    ∃ log, Moves (s.phase c) s.estate ⟨⟨(s.next c).pool, log⟩, (s.next c).objects.holders⟩ := by
  obtain ⟨log, hchanges⟩ := (consistent_iff.1 hs).changes_next (Or.inr hc)
  exact ⟨log, hchanges.toMoves⟩

theorem exists_write_of_writing? {w : Writing α} (h : s.writing? c = some w) :
    ∃ l, .buffer l ∈ s.objects.holders ∧ l.buffer = w.place.buffer ∧
      s.pool.write w.place w.contents = .ok (s.next c).pool := by
  unfold writing? at h
  split at h
  · rename_i buffer slot k v
    obtain ⟨l, hl, h⟩ := Option.bind_eq_some_iff.1 h
    split at h
    · rename_i q hq
      cases h
      refine ⟨l, Catalog.mem_holders (object?_of_buffer? hl) List.mem_cons_self, rfl, ?_⟩
      simp [next, perform, performBuffer, hl, hq, change, World.setPool]
    · cases h
  · cases h

theorem exists_holds_of_writing? (hs : s.Consistent) {w : Writing α}
    (h : s.writing? c = some w) : ∃ k, s.pool.Holds w.place k := by
  obtain ⟨l, -, -, hwrite⟩ := exists_write_of_writing? h
  obtain ⟨cs, cell, hcs, hcell, -⟩ := Pool.write_spec hs.estate.packed hwrite
  refine ⟨cell.kind, Pool.issued_of_cells hcs, fun cs' hcs' => ?_⟩
  cases hcs.symm.trans hcs'
  exact ⟨cell, hcell, rfl⟩

/-- A write that fails changes nothing. -/
theorem pool_next_of_writing (hphase : s.phase c = .writing) (h : s.writing? c = none) :
    (s.next c).pool = s.pool := by
  unfold phase at hphase
  split at hphase
  · cases hphase
  · cases hphase
  · cases hphase
  · cases hphase
  · rename_i buffer slot k v
    unfold writing? at h
    cases hl : s.buffer? buffer with
    | none => simp [next, perform, performBuffer, hl]
    | some l =>
      cases hq : s.pool.write ⟨l.buffer, slot⟩ v.slots with
      | ok q => simp [hl, hq] at h
      | error e => simp [next, perform, performBuffer, hl, hq, answer]
  · cases hphase

/-- After a command a slot contains what it means, or what the command has written to it. -/
theorem Consistent.agrees_next (hs : s.Consistent) (hc : s.Admits c)
    {m : Place → Meaning α}
    (hm : ∀ d ∈ s.definitions, m d.place = d.instruction.eager m) (ha : s.pool.Agrees m)
    {place : Place} {xs : List α} (hxs : (s.next c).pool.contents? place = some xs) :
    m place = .known xs ∨ s.writing? c = some ⟨place, xs⟩ := by
  by_cases hphase : s.phase c = .writing
  · cases hw : s.writing? c with
    | some w =>
      obtain ⟨l, -, -, hwrite⟩ := exists_write_of_writing? hw
      obtain ⟨hself, hother⟩ := Pool.contents_write hs.estate.packed hwrite
      by_cases hplace : place = w.place
      · subst hplace
        cases hself.symm.trans hxs
        exact Or.inr rfl
      · exact Or.inl (ha place xs ((hother place hplace).symm.trans hxs))
    | none => exact Or.inl (ha place xs (pool_next_of_writing hphase hw ▸ hxs))
  · obtain ⟨log, hmoves⟩ := hs.moves_next hc
    exact Or.inl (hmoves.agrees hs.estate hphase hm ha place xs hxs)

end Session

/-! ## Histories -/

/-- In the order of buffers, and in a buffer in the order of slots. -/
def Place.Upto (a b : Place) : Prop :=
  a.buffer.serial < b.buffer.serial ∨ a.buffer.serial = b.buffer.serial ∧ a.slot ≤ b.slot

namespace Definition

/-- The slot of `d` comes after that of `e`, or is the same. -/
def Follows (d e : Definition α) : Prop := e.place.Upto d.place

instance : DecidableRel (@Follows α) := fun _ _ => inferInstanceAs (Decidable (_ ∨ _))

instance : Std.Total (@Follows α) where
  total a b := by
    unfold Follows Place.Upto
    omega

instance : IsTrans (Definition α) Follows where
  trans a b c hab hbc := by
    unfold Follows Place.Upto at *
    omega

end Definition

/-- A session with all steps that were ever made in it and all that was written to user buffers,
the newest first. -/
structure History (α : Type) where
  session : Session α
  definitions : List (Definition α)
  writings : List (Writing α)

namespace History

def empty : History α := ⟨.empty, [], []⟩

/-- The steps of a session that the history does not have yet. -/
def made (h : History α) (s : Session α) : List (Definition α) :=
  (s.definitions.filter fun d => ∀ e ∈ h.definitions, e.place ≠ d.place).insertionSort
    Definition.Follows

variable {h : History α} {c : Command α} {d : Definition α}

theorem mem_made {s : Session α} :
    d ∈ h.made s ↔ d ∈ s.definitions ∧ ∀ e ∈ h.definitions, e.place ≠ d.place := by
  simp [made, List.mem_insertionSort]

variable [Scalar α]

def meaning (h : History α) : Place → Meaning α := meaningOf h.writings h.definitions

/-- What holds of all recorded histories. -/
structure Sound (h : History α) : Prop where
  consistent : h.session.Consistent
  held : ∀ d ∈ h.session.definitions, d ∈ h.definitions
  exists_holds : ∀ d ∈ h.definitions, ∃ k, h.session.pool.Holds d.place k
  sound : ∀ d ∈ h.definitions, d.instruction.Sound h.session.pool
  inOrder : InOrder h.definitions
  /-- User buffers have no steps. -/
  apart : ∀ d ∈ h.definitions, ∀ l, .buffer l ∈ h.session.objects.holders →
    l.buffer ≠ d.place.buffer
  written : ∀ w ∈ h.writings, ∃ k, h.session.pool.Holds w.place k
  once : h.writings.Pairwise fun a b => a.place ≠ b.place
  outside : ∀ w ∈ h.writings, ∀ d ∈ h.definitions, d.place ≠ w.place
  agrees : h.session.pool.Agrees h.meaning

theorem sound_empty : (empty : History α).Sound where
  consistent := Session.consistent_empty
  held d hd := hd
  exists_holds d hd := by cases hd
  sound d hd := by cases hd
  inOrder := ⟨.nil, fun d hd => by cases hd⟩
  apart d hd := by cases hd
  written w hw := by cases hw
  once := .nil
  outside w hw := by cases hw
  agrees place xs hxs := by cases hxs

variable [ToText α]

/-- The history after a command. -/
def next (h : History α) (c : Command α) : History α where
  session := h.session.next c
  definitions := h.made (h.session.next c) ++ h.definitions
  writings := (h.session.writing? c).toList ++ h.writings

def run (h : History α) (cs : List (Command α)) : History α := cs.foldl next h

/-- Commands lead from one history to the other and write no slot of a user buffer twice. -/
inductive Becomes (h : History α) : History α → Prop
  | refl : Becomes h h
  | next {h' : History α} {c : Command α} (hh : Becomes h h') (hc : h'.session.Admits c)
      (hw : ∀ w ∈ h'.session.writing? c, ∀ w' ∈ h'.writings, w'.place ≠ w.place) :
      Becomes h (h'.next c)

/-- The histories of sessions in which no slot of a user buffer is written twice. -/
def Recorded (h : History α) : Prop := Becomes .empty h

/-! ### What a command adds -/

namespace Sound

variable (hh : h.Sound) (hc : h.session.Admits c)

include hh hc

theorem isNew_of_mem_made (hd : d ∈ h.made (h.session.next c)) :
    d.IsNew (h.session.phase c) h.session.pool := by
  obtain ⟨hheld, hnotin⟩ := mem_made.1 hd
  obtain ⟨log, hmoves⟩ := hh.consistent.moves_next hc
  rcases hmoves.isNew_of_mem hh.consistent.estate hheld with hold | hnew
  · exact absurd rfl (hnotin d (hh.held d hold))
  · exact hnew

theorem held_next (hd : d ∈ (h.session.next c).definitions) : d ∈ (h.next c).definitions := by
  by_cases hplace : ∀ e ∈ h.definitions, e.place ≠ d.place
  · exact List.mem_append_left _ (mem_made.2 ⟨hd, hplace⟩)
  · apply List.mem_append_right
    obtain ⟨log, hmoves⟩ := hh.consistent.moves_next hc
    rcases hmoves.isNew_of_mem hh.consistent.estate hd with hold | hnew
    · exact hh.held d hold
    · push Not at hplace
      obtain ⟨e, he, hplace⟩ := hplace
      obtain ⟨k, hk⟩ := hh.exists_holds e he
      exact absurd (hplace ▸ hk) (hnew.fresh k)

/-- New steps read older ones of their own buffer, older buffers, and what was there before. -/
theorem inOrder_next : InOrder (h.next c).definitions := by
  have hconsistent : (h.session.next c).Consistent := hh.consistent.next hc
  have hself : ∀ d ∈ h.made (h.session.next c), d.place ∉ d.instruction.inputs := by
    intro d hd hplace
    exact Nat.lt_irrefl _ (hconsistent.estate.tidy.slot_lt (mem_made.1 hd).1 hplace rfl)
  refine ⟨List.pairwise_append.2 ⟨?_, hh.inOrder.1, ?_⟩, ?_⟩
  · have hsorted : (h.made (h.session.next c)).Pairwise Definition.Follows :=
      List.pairwise_insertionSort _ _
    have hdistinct : (h.made (h.session.next c)).Pairwise fun a b => a.place ≠ b.place := by
      refine ((List.perm_insertionSort _ _).pairwise_iff fun hab => Ne.symm hab).2 ?_
      exact hconsistent.estate.tidy.pairwise_definitions.filter _
    refine (hsorted.and hdistinct).imp_of_mem fun {newer older} hnewer holder hboth => ?_
    obtain ⟨hfollows, hne⟩ := hboth
    refine ⟨hne, fun hread => ?_⟩
    have hlt := hconsistent.estate.tidy.slot_lt (mem_made.1 holder).1 hread
    obtain ⟨base, hbase, hreads⟩ := (hh.isNew_of_mem_made hc holder).reads
    obtain rfl := Session.eq_pool_of_phase hbase
    unfold Definition.Follows Place.Upto at hfollows
    rcases hreads _ hread with hbuffer | ⟨k, hk⟩ | hserial
    · have hslot := hlt hbuffer
      rw [hbuffer] at hfollows
      omega
    · exact (hh.isNew_of_mem_made hc hnewer).fresh k hk
    · omega
  · intro newer hnewer older holder
    refine ⟨fun hplace => (mem_made.1 hnewer).2 older holder hplace.symm, fun hread => ?_⟩
    obtain ⟨k, hk⟩ := (hh.sound older holder).exists_holds hread
    exact (hh.isNew_of_mem_made hc hnewer).fresh k hk
  · intro d hd
    rcases List.mem_append.1 hd with hd | hd
    · exact hself d hd
    · exact hh.inOrder.2 d hd

omit hc in
theorem written_next {w : Writing α} (hw : w ∈ (h.next c).writings) :
    ∃ k, h.session.pool.Holds w.place k := by
  rcases List.mem_append.1 hw with hw | hw
  · exact Session.exists_holds_of_writing? hh.consistent (Option.mem_toList.1 hw)
  · exact hh.written w hw

/-- Steps and user buffers have different slots, also when a command adds some. -/
theorem outside_next {w : Writing α} (hw : w ∈ (h.next c).writings)
    (hd : d ∈ (h.next c).definitions) : d.place ≠ w.place := by
  rcases List.mem_append.1 hd with hd | hd
  · intro hplace
    obtain ⟨k, hk⟩ := hh.written_next hw
    exact (hh.isNew_of_mem_made hc hd).fresh k (hplace ▸ hk)
  · rcases List.mem_append.1 hw with hw | hw
    · obtain ⟨l, hl, hbuffer, -⟩ := Session.exists_write_of_writing? (Option.mem_toList.1 hw)
      intro hplace
      exact hh.apart d hd l hl (hbuffer.trans (congrArg Place.buffer hplace.symm))
    · exact hh.outside w hw d hd

theorem apart_next (hd : d ∈ (h.next c).definitions) {l : Lease}
    (hl : .buffer l ∈ (h.session.next c).objects.holders) : l.buffer ≠ d.place.buffer := by
  intro hbuffer
  rcases List.mem_append.1 hd with hd | hd
  · obtain ⟨k, hk, step, hstep, rfl⟩ := exists_step_of_mem_definitionsOf (mem_made.1 hd).1
    have heq : Holder.buffer l = k :=
      List.inj_on_of_nodup_map (hh.consistent.next hc).estate.distinct hl hk hbuffer
    subst heq
    cases hstep
  · obtain ⟨log, hmoves⟩ := hh.consistent.moves_next hc
    rcases hmoves.buffer_of_mem hh.consistent.estate hl with ⟨l₀, hl₀, hb⟩ | hnew
    · exact hh.apart d hd l₀ hl₀ (hb.trans hbuffer)
    · obtain ⟨k, hk⟩ := hh.exists_holds d hd
      exact hnew (hbuffer ▸ hk.1)

/-- Only meanings that are unknown change. -/
theorem below_next (hw : ∀ w ∈ h.session.writing? c, ∀ w' ∈ h.writings, w'.place ≠ w.place)
    (place : Place) : (h.meaning place).Below ((h.next c).meaning place) := by
  have hwritten : (h.meaning place).Below (meaningOf (h.next c).writings h.definitions place) := by
    show Meaning.Below _ (meaningOf ((h.session.writing? c).toList ++ h.writings) _ _)
    cases hc : h.session.writing? c with
    | none => exact .refl _
    | some w => exact below_meaningOf_cons (hw w hc) place
  refine hwritten.trans (below_meaningOf_append ?_ ?_ place)
  · exact fun d hd e he => (mem_made.1 hd).2 e he
  · intro d hd w hw' hplace
    exact hh.outside_next hc hw' (List.mem_append_left _ hd) hplace.symm

protected theorem next
    (hw : ∀ w ∈ h.session.writing? c, ∀ w' ∈ h.writings, w'.place ≠ w.place) :
    (h.next c).Sound := by
  have hconsistent : (h.session.next c).Consistent := hh.consistent.next hc
  obtain ⟨log, hmoves⟩ := hh.consistent.moves_next hc
  have hext : h.session.pool.Extends (h.session.next c).pool :=
    hmoves.extends_pool hh.consistent.estate
  refine ⟨hconsistent, fun d hd => hh.held_next hc hd, ?_, ?_, hh.inOrder_next hc,
    fun d hd l hl => hh.apart_next hc hd hl, ?_, ?_, fun w hw d hd => hh.outside_next hc hw hd, ?_⟩
  · intro d hd
    rcases List.mem_append.1 hd with hd | hd
    · exact ⟨_, hconsistent.estate.tidy.holds_definition (mem_made.1 hd).1⟩
    · obtain ⟨k, hk⟩ := hh.exists_holds d hd
      exact ⟨k, hk.mono hext⟩
  · intro d hd
    rcases List.mem_append.1 hd with hd | hd
    · exact hconsistent.estate.sound_definition (mem_made.1 hd).1
    · exact (hh.sound d hd).mono hext
  · intro w hw
    obtain ⟨k, hk⟩ := hh.written_next hw
    exact ⟨k, hk.mono hext⟩
  · refine List.pairwise_append.2 ⟨?_, hh.once, ?_⟩
    · cases h.session.writing? c with
      | none => exact .nil
      | some w => exact List.pairwise_singleton _ _
    · exact fun w hmem w' hw' => (hw w (Option.mem_toList.1 hmem) w' hw').symm
  · intro place xs hxs
    have hm : ∀ d ∈ h.session.definitions, h.meaning d.place = d.instruction.eager h.meaning :=
      fun d hd => meaningOf_eq_eager hh.inOrder (hh.held d hd)
    rcases hh.consistent.agrees_next hc hm hh.agrees hxs with hknown | hwriting
    · have hbelow := hh.below_next hc hw place
      rw [hknown] at hbelow
      exact (hbelow.eq rfl).symm
    · have hmem : ⟨place, xs⟩ ∈ (h.next c).writings :=
        List.mem_append_left _ (Option.mem_toList.2 hwriting)
      show meaningOf ((h.session.writing? c).toList ++ h.writings) (h.next c).definitions place = _
      rw [meaningOf_eq_ofWritings fun d hd => hh.outside_next hc hmem hd, hwriting]
      simp [Meaning.ofWritings]

end Sound

theorem Becomes.sound {h' : History α} (hb : h.Becomes h') (hh : h.Sound) : h'.Sound := by
  induction hb with
  | refl => exact hh
  | next hb hc hw ih => exact ih.next hc hw

theorem Becomes.below_meaning {h' : History α} (hb : h.Becomes h') (hh : h.Sound) (place : Place) :
    (h.meaning place).Below (h'.meaning place) := by
  induction hb with
  | refl => exact .refl _
  | next hb hc hw ih => exact ih.trans ((hb.sound hh).below_next hc hw place)

/-- Commands that do not write can be repeated at will. -/
theorem Recorded.next_of_none (hh : h.Recorded) (hc : h.session.Admits c)
    (hw : h.session.writing? c = none) : (h.next c).Recorded :=
  Becomes.next hh hc fun w hmem => by rw [hw] at hmem; cases hmem

theorem Recorded.sound (hh : h.Recorded) : h.Sound := Becomes.sound hh sound_empty

end History

end DeferredMatrix
