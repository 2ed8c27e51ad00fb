import DeferredMatrix.Proofs.Session.History

/-!
# Slots contain what they mean

However nodes are evaluated, alone or in graphs, in whichever order, how often and with how many
failures: a slot that is written contains what it means, and a slot whose meaning is refused is
never written. Sessions that make the same steps and write the same values therefore agree on
the slots that both have written.
-/

namespace DeferredMatrix

variable {α : Type} [Scalar α]

namespace History

/-- The steps of `h` are steps of `h'` too, in slots that are called differently, and where both
have written to a user buffer they have written the same. -/
structure EmbedsIn (ρ : Place → Place) (h h' : History α) : Prop where
  steps : ∀ d ∈ h.definitions, ∃ i,
    d.instruction.traverse (fun _ o => some (o.rename ρ)) = some i ∧ ⟨ρ d.place, i⟩ ∈ h'.definitions
  writings : ∀ w ∈ h.writings, (∀ d ∈ h'.definitions, d.place ≠ ρ w.place) ∧
    ∀ w' ∈ h'.writings, w'.place = ρ w.place → w'.contents = w.contents

variable {h h' : History α} {ρ : Place → Place}

/-- What means something in both histories means the same. -/
theorem EmbedsIn.eq_of_meaningOf (he : EmbedsIn ρ h h') (hin : InOrder h'.definitions)
    {ds : List (Definition α)} (hds : ∀ d ∈ ds, d ∈ h.definitions) (place : Place)
    {xs ys : List α} (hxs : meaningOf h.writings ds place = .known xs)
    (hys : h'.meaning (ρ place) = .known ys) : xs = ys := by
  -- The steps of the other history may stand in a different order, so the induction is over one.
  induction ds generalizing place xs ys with
  | nil =>
    obtain ⟨w, hw, rfl, rfl⟩ := exists_of_ofWritings hxs
    obtain ⟨houtside, hsame⟩ := he.writings w hw
    rw [meaning, meaningOf_eq_ofWritings houtside] at hys
    obtain ⟨w', hw', hplace, rfl⟩ := exists_of_ofWritings hys
    exact (hsame w' hw' hplace).symm
  | cons d older ih =>
    have holder : ∀ d ∈ older, d ∈ h.definitions := fun d hd => hds d (List.mem_cons_of_mem _ hd)
    rw [meaningOf] at hxs
    split at hxs
    · rename_i hplace
      subst hplace
      obtain ⟨i, hi, hd⟩ := he.steps d (hds d List.mem_cons_self)
      have heager : h'.meaning (ρ d.place) = i.eager h'.meaning := meaningOf_eq_eager hin hd
      refine Instruction.eq_of_eager_rename hi (fun input _ as bs has hbs => ?_) hxs
        (heager.symm.trans hys)
      exact ih holder input has hbs
    · exact ih holder place hxs hys

end History

variable [ToText α]

open History

theorem written_slots_contain_their_meaning {h : History α} (hh : h.Recorded) :
    (∀ n, .node n ∈ h.session.objects.holders → ∀ step ∈ n.steps,
      h.meaning ⟨n.buffer, step.slot⟩ = step.instruction.eager h.meaning ∧
      (∀ xs, h.session.pool.contents? ⟨n.buffer, step.slot⟩ = some xs →
        h.meaning ⟨n.buffer, step.slot⟩ = .known xs) ∧
      (h.meaning ⟨n.buffer, step.slot⟩ = .refused → ∀ h', h.Becomes h' →
        h'.session.pool.contents? ⟨n.buffer, step.slot⟩ = none)) ∧
    (∀ w ∈ h.writings, h.meaning w.place = .known w.contents) ∧
    ∀ (ρ : Place → Place) (h' : History α), h'.Recorded → h.EmbedsIn ρ h' →
      ∀ d ∈ h.definitions, ∀ xs ys, h.session.pool.contents? d.place = some xs →
        h'.session.pool.contents? (ρ d.place) = some ys → xs = ys := by
  have hsound := hh.sound
  refine ⟨fun n hn step hstep => ⟨?_, ?_, ?_⟩, fun w hw => ?_, ?_⟩
  · have hmem : ⟨⟨n.buffer, step.slot⟩, step.instruction⟩ ∈ h.session.definitions :=
      List.mem_flatMap.2 ⟨.node n, hn, List.mem_map.2 ⟨step, hstep, rfl⟩⟩
    exact meaningOf_eq_eager hsound.inOrder (hsound.held _ hmem)
  · exact hsound.agrees _
  · intro hrefused h' hb
    have hbelow := hb.below_meaning hsound ⟨n.buffer, step.slot⟩
    rw [hrefused] at hbelow
    have hrefused' := (hbelow.eq rfl).symm
    cases hcontents : h'.session.pool.contents? ⟨n.buffer, step.slot⟩ with
    | none => rfl
    | some xs => cases hrefused'.symm.trans ((hb.sound hsound).agrees _ xs hcontents)
  · rw [meaning, meaningOf_eq_ofWritings fun d hd => hsound.outside w hw d hd]
    exact ofWritings_of_mem hsound.once hw
  · intro ρ h' hh' he d hd xs ys hxs hys
    exact he.eq_of_meaningOf hh'.sound.inOrder (fun d hd => hd) d.place
      (hsound.agrees _ xs hxs) (hh'.sound.agrees _ ys hys)

/-- Makes an operation that transposes a slot of a user buffer, writes to the slot, and evaluates
the operation. -/
def writtenTranspose : List (Command Float32) :=
  [.buffer (.allocate "m" [.matrix]), .buffer (.takeHandle "m" .matrix 0 "input"),
    .node (.operation "t" .matrix (.transpose (.handle "input"))),
    .buffer (.write "m" 0 .matrix (.initial .matrix)), .node (.evaluate "t")]

/-- The same after another operation, and with an evaluation that comes too early. -/
def lateTranspose : List (Command Float32) :=
  [.node (.operation "other" .matrix .identity), .buffer (.allocate "m" [.matrix]),
    .buffer (.takeHandle "m" .matrix 0 "input"),
    .node (.operation "t" .matrix (.transpose (.handle "input"))), .node (.evaluate "t"),
    .buffer (.write "m" 0 .matrix (.initial .matrix)), .node (.evaluate "t")]

theorem recorded_writtenTranspose : (History.empty.run writtenTranspose).Recorded := by
  have hallocated : (History.empty.run (writtenTranspose.take 1)).Recorded :=
    Recorded.next_of_none .refl trivial rfl
  have hnamed : (History.empty.run (writtenTranspose.take 2)).Recorded :=
    hallocated.next_of_none (fun l hl _ => by cases hl; decide) rfl
  have hmade : (History.empty.run (writtenTranspose.take 3)).Recorded :=
    hnamed.next_of_none trivial rfl
  have hwritten : (History.empty.run (writtenTranspose.take 4)).Recorded :=
    .next hmade trivial fun w _ w' hw' => by cases hw'
  exact hwritten.next_of_none trivial rfl

theorem recorded_lateTranspose : (History.empty.run lateTranspose).Recorded := by
  have hother : (History.empty.run (lateTranspose.take 1)).Recorded :=
    Recorded.next_of_none .refl trivial rfl
  have hallocated : (History.empty.run (lateTranspose.take 2)).Recorded :=
    hother.next_of_none trivial rfl
  have hnamed : (History.empty.run (lateTranspose.take 3)).Recorded :=
    hallocated.next_of_none (fun l hl _ => by cases hl; decide) rfl
  have hmade : (History.empty.run (lateTranspose.take 4)).Recorded :=
    hnamed.next_of_none trivial rfl
  have hfailed : (History.empty.run (lateTranspose.take 5)).Recorded :=
    hmade.next_of_none trivial rfl
  have hwritten : (History.empty.run (lateTranspose.take 6)).Recorded :=
    .next hfailed trivial fun w _ w' hw' => by cases hw'
  exact hwritten.next_of_none trivial rfl

/-- In the late session all buffers have the next higher serial number. -/
theorem writtenTranspose_embedsIn_lateTranspose :
    (History.empty.run writtenTranspose).EmbedsIn
      (fun place => ⟨⟨place.buffer.serial + 1⟩, place.slot⟩) (History.empty.run lateTranspose) := by
  have hdefinitions : (History.empty.run writtenTranspose).definitions =
      [⟨⟨⟨1⟩, 0⟩, .transpose (.handle ⟨⟨0⟩, 0⟩)⟩] := rfl
  have hdefinitions' : (History.empty.run lateTranspose).definitions =
      [⟨⟨⟨2⟩, 0⟩, .transpose (.handle ⟨⟨1⟩, 0⟩)⟩, ⟨⟨⟨0⟩, 0⟩, .identity⟩] := rfl
  have hwritings : (History.empty.run writtenTranspose).writings =
      [⟨⟨⟨0⟩, 0⟩, (Value.initial .matrix).slots⟩] := rfl
  have hwritings' : (History.empty.run lateTranspose).writings =
      [⟨⟨⟨1⟩, 0⟩, (Value.initial .matrix).slots⟩] := rfl
  constructor
  · intro d hd
    rw [hdefinitions] at hd
    obtain rfl := List.mem_singleton.1 hd
    refine ⟨.transpose (.handle ⟨⟨1⟩, 0⟩), rfl, ?_⟩
    rw [hdefinitions']
    exact List.mem_cons_self
  · intro w hw
    rw [hwritings] at hw
    obtain rfl := List.mem_singleton.1 hw
    rw [hdefinitions', hwritings']
    refine ⟨by decide, fun w' hw' _ => ?_⟩
    obtain rfl := List.mem_singleton.1 hw'
    rfl

theorem writtenTranspose_contains_its_meaning :
    ∃ xs ys, (History.empty.run writtenTranspose).session.pool.contents? ⟨⟨1⟩, 0⟩ = some xs ∧
      (History.empty.run lateTranspose).session.pool.contents? ⟨⟨2⟩, 0⟩ = some ys ∧
      (History.empty.run writtenTranspose).meaning ⟨⟨1⟩, 0⟩ = .known xs ∧ xs = ys := by
  obtain ⟨xs, hxs⟩ : ∃ xs,
      (History.empty.run writtenTranspose).session.pool.contents? ⟨⟨1⟩, 0⟩ = some xs := ⟨_, rfl⟩
  obtain ⟨ys, hys⟩ : ∃ ys,
      (History.empty.run lateTranspose).session.pool.contents? ⟨⟨2⟩, 0⟩ = some ys := ⟨_, rfl⟩
  obtain ⟨hnodes, -, hsessions⟩ := written_slots_contain_their_meaning recorded_writtenTranspose
  obtain ⟨-, hmeaning, -⟩ :=
    hnodes (.operation ⟨.transpose (.handle ⟨⟨0⟩, 0⟩), ⟨⟨1⟩, false⟩, true⟩) List.mem_cons_self
      ⟨.transpose (.handle ⟨⟨0⟩, 0⟩), 0⟩ List.mem_cons_self
  exact ⟨xs, ys, hxs, hys, hmeaning xs hxs,
    hsessions _ _ recorded_lateTranspose writtenTranspose_embedsIn_lateTranspose
      ⟨⟨⟨1⟩, 0⟩, .transpose (.handle ⟨⟨0⟩, 0⟩)⟩ List.mem_cons_self xs ys hxs hys⟩

end DeferredMatrix
