import DeferredMatrix.Proofs.Graph.Safety
import DeferredMatrix.Proofs.Session.Reachable

/-!
# Handles to existing slots rule out breaches

Handles say of which kind the value in a slot is, and nothing checks that before the slot is read
or written. If handles to buffers are only made to slots that exist, or after the release of the
buffer, no such check ever fails: reading a handle or an operand, evaluating a node and evaluating
a graph end with a value or a failure, and what a step has computed can be written.
-/

namespace DeferredMatrix

variable {α : Type} [Scalar α] [ToText α]

theorem handles_to_slots_rule_out_breaches {s : Session α} (hs : s.Reachable) :
    (∀ name k (h : Handle k), s.handle? name = some ⟨k, h⟩ → NoBreach (s.pool.read h)) ∧
    (∀ h ∈ s.objects.holders, ∀ step ∈ h.steps, ∀ x ∈ step.instruction.operands,
      NoBreach (x.2.2.resolve s.pool)) ∧
    (∀ n, .node n ∈ s.objects.holders → n.Safe s.world) ∧
    ∀ name g, s.graph? name = some g → g.Safe s.world := by
  have hconsistent := hs.consistent
  have hpacked : s.pool.Packed := hconsistent.estate.packed
  refine ⟨?_, ?_, ?_, ?_⟩
  · intro name k h hh
    have hmem := Catalog.mem_of_get? (Session.object?_of_handle? hh)
    exact (hconsistent.handles _ hmem k h rfl).noBreach hpacked
  · intro h hh step hstep x hx
    have hsound := (hconsistent.estate.fits h hh).sound hstep
    exact (hsound x hx).noBreach hpacked
  · intro n hn
    exact Node.Fits.safe (hconsistent.estate.fits _ hn) hpacked
  · intro name g hg
    exact Graph.Fits.safe (hconsistent.graph_fits hg)

/-- Makes a buffer with one slot, a handle to it, and a graph with an operation that transposes
what the handle stands for. -/
def transposedSlot : List (Command Float32) :=
  [.buffer (.allocate "buffer" [.matrix]), .buffer (.takeHandle "buffer" .matrix 0 "slot"),
    .node (.operation "transpose" .matrix (.transpose (.handle "slot"))),
    .graph (.create "graph"), .graph (.push "graph" "transpose" none)]

theorem reachable_transposedSlot : (Session.empty.run transposedSlot).Reachable := by
  have hbuffer : (Session.empty.run (transposedSlot.take 1)).Reachable :=
    Session.Reachable.empty.run (by decide)
  have hadmits : (Session.empty.run (transposedSlot.take 1)).Admits
      (.buffer (.takeHandle "buffer" .matrix 0 "slot")) := by
    intro l hl _
    cases hl
    decide
  exact (hbuffer.next hadmits).run (by decide)

theorem transposedSlot_breaches_nothing :
    ∃ g, (Session.empty.run transposedSlot).handle? "slot" = some ⟨.matrix, ⟨⟨0⟩, 0⟩⟩ ∧
      NoBreach ((Session.empty.run transposedSlot).pool.read (⟨⟨0⟩, 0⟩ : Handle .matrix)) ∧
      (Session.empty.run transposedSlot).graph? "graph" = some g ∧ g.numNodes = 1 ∧
      g.Safe (Session.empty.run transposedSlot).world := by
  obtain ⟨hhandles, -, -, hgraphs⟩ := handles_to_slots_rule_out_breaches reachable_transposedSlot
  refine ⟨_, rfl, hhandles "slot" _ _ rfl, rfl, rfl, hgraphs "graph" _ rfl⟩

end DeferredMatrix
