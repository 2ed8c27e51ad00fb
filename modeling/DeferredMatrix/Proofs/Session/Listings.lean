import DeferredMatrix.Proofs.Program.Outline
import DeferredMatrix.Proofs.Session.Reachable

/-!
# Listings determine programs

In every session, two compounds with the same listing have the same opcodes and the same roles of
operands, step by step. The lines of a listing are numbered by their steps, and on the right-hand
side of a line only earlier lines are named.
-/

namespace DeferredMatrix

variable {α : Type} [Scalar α] [ToText α]

theorem listings_determine_programs (cs cs' : List (Command α)) {c c' : Compound α}
    (hc : .node (.compound c) ∈ (Session.empty.run cs).objects.holders)
    (hc' : .node (.compound c') ∈ (Session.empty.run cs').objects.holders) :
    (c.listing = c'.listing ↔ c.outline = c'.outline) ∧
    (Text.lines c.listing).length = c.numSteps ∧
    ∀ (i : Nat) (line : String), (Text.lines c.listing)[i]? = some line → ∃ rhs,
      line = "$" ++ toString i ++ " = " ++ rhs ∧
      ∀ j : Nat, Text.Occurs ("$" ++ toString j) rhs → j < i := by
  have hplaced : StepsPlaced c.lease c.steps c.completed (Session.empty.run cs).pool :=
    (Session.orderly_run cs).estate.tidy.placed _ hc
  have hplaced' : StepsPlaced c'.lease c'.steps c'.completed (Session.empty.run cs').pool :=
    (Session.orderly_run cs').estate.tidy.placed _ hc'
  refine ⟨Compound.listing_eq_iff hplaced.slot hplaced'.slot, ?_, fun i line hline => ?_⟩
  · rw [Compound.lines_listing, List.length_map, Compound.numSteps]
  · rw [Compound.lines_listing, List.getElem?_map] at hline
    obtain ⟨s, hs, rfl⟩ := Option.map_eq_some_iff.1 hline
    refine ⟨s.instruction.listing (some c.buffer), ?_, fun j hj => ?_⟩
    · rw [Step.line, hplaced.slot i s hs]
    · obtain ⟨slot, hslot, hle⟩ := Instruction.exists_input_of_occurs hj
      exact Nat.lt_of_le_of_lt hle (hplaced.backward i s hs _ hslot rfl)

/-- Makes a compound that transposes its own identity matrix. -/
def ownTranspose : List (Command Float32) :=
  [.draft (.create "draft"), .draft (.push "draft" .matrix .identity (some "identity")),
    .draft (.push "draft" .matrix (.transpose (.handle "identity")) none),
    .draft (.finish "draft" .matrix "compound")]

/-- The same where another buffer comes first. -/
def laterTranspose : List (Command Float32) := .buffer (.allocate "user" [.matrix]) :: ownTranspose

theorem transposes_have_same_listing : ∃ c c',
    .node (.compound c) ∈ (Session.empty.run ownTranspose).objects.holders ∧
    .node (.compound c') ∈ (Session.empty.run laterTranspose).objects.holders ∧
    c.buffer ≠ c'.buffer ∧ c.outline = c'.outline ∧ c.listing = c'.listing ∧
    c.outline = [(.identity, []), (.transpose, [.own 0])] ∧
    (Text.lines c.listing).length = 2 := by
  let steps (b : BufferId) : List (Step Float32) :=
    [⟨.identity, 0⟩, ⟨.transpose (.handle ⟨b, 0⟩), 1⟩]
  have hc : .node (.compound ⟨⟨⟨0⟩, false⟩, steps ⟨0⟩, 0, by simp [steps]⟩) ∈
      (Session.empty.run ownTranspose).objects.holders := List.mem_cons_self
  have hc' : .node (.compound ⟨⟨⟨1⟩, false⟩, steps ⟨1⟩, 0, by simp [steps]⟩) ∈
      (Session.empty.run laterTranspose).objects.holders := List.mem_cons_self
  obtain ⟨hiff, hlength, -⟩ := listings_determine_programs ownTranspose laterTranspose hc hc'
  exact ⟨_, _, hc, hc', by decide, rfl, hiff.2 rfl, rfl, hlength⟩

end DeferredMatrix
