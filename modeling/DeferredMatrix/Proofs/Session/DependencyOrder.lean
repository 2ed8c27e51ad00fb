import DeferredMatrix.Proofs.Graph.Outcome
import DeferredMatrix.Proofs.Session.Reachable

/-!
# Graphs are evaluated in dependency order

In a graph without cycles a node is attempted once at most, and only after all nodes that it
reads have been evaluated with success in the same evaluation of the graph. The evaluation
succeeds exactly if all nodes are evaluated, and it never misses a slot of the graph's own nodes.
-/

namespace DeferredMatrix

variable {α : Type} [Scalar α] [ToText α]

open DeferredMatrix.Graph

theorem evaluates_in_dependency_order {s : Session α} (hs : s.Reachable) {name : String}
    {g : Graph α} (hg : s.graph? name = some g) (hacyclic : g.Acyclic) :
    ((g.attempts s.world).map Tried.place).Nodup ∧
    (∀ before t after, g.attempts s.world = before ++ t :: after →
      ∀ m, g.Reads t.place m → ⟨m, .ok ()⟩ ∈ before) ∧
    ((g.evaluate s.world).result = .ok () ↔
      ∀ n < g.numNodes, ⟨n, .ok ()⟩ ∈ g.attempts s.world) ∧
    ((g.evaluate s.world).result = .ok () →
      ∀ n ∈ (g.evaluate s.world).node.nodes, n.isEvaluated) ∧
    ∀ place, (g.evaluate s.world).result = .error (.failure (.unevaluated place)) →
      ∀ n ∈ g.nodes, n.buffer ≠ place.buffer := by
  have hfits : g.Fits s.world.pool := hs.consistent.graph_fits hg
  have htracks := tracks_walk hfits
  refine ⟨htracks.nodup, ?_, evaluate_eq_ok_iff hfits, ?_, ?_⟩
  · intro before t after hsplit m hread
    exact hacyclic.before hfits hsplit hread
  · intro hok n hn
    obtain ⟨i, hi⟩ := Array.mem_iff_getElem?.1 hn
    exact isEvaluated_of_ok hfits hok hi
  · intro place hresult n hn hbuffer
    obtain ⟨i, hi⟩ := Array.mem_iff_getElem?.1 hn
    exact hacyclic i (onCycle_of_unevaluated hfits hresult hi hbuffer)

/-- Makes a graph with an operation that transposes an identity matrix and, behind it, the
operation that makes that matrix. -/
def transposedIdentity : List (Command Float32) :=
  [.graph (.create "g"), .node (.operation "identity" .matrix .identity),
    .node (.operation "transpose" .matrix (.transpose (.node "identity"))),
    .graph (.push "g" "transpose" none), .graph (.push "g" "identity" none)]

theorem transposedIdentity_in_dependency_order :
    ∃ g, (Session.empty.run transposedIdentity).graph? "g" = some g ∧ g.Reads 0 1 ∧ g.Acyclic ∧
      ∀ before t after, g.attempts (Session.empty.run transposedIdentity).world =
        before ++ t :: after → ∀ m, g.Reads t.place m → ⟨m, .ok ()⟩ ∈ before := by
  have hs : (Session.empty.run transposedIdentity).Reachable :=
    Session.Reachable.empty.run (by decide)
  have hg : (Session.empty.run transposedIdentity).graph? "g" = some ⟨#[
      .operation ⟨.transpose (.handle ⟨⟨0⟩, 0⟩), ⟨⟨1⟩, false⟩, false⟩,
      .operation ⟨.identity, ⟨⟨0⟩, false⟩, false⟩]⟩ := rfl
  have hacyclic : Acyclic (⟨#[
      .operation ⟨.transpose (.handle ⟨⟨0⟩, 0⟩), ⟨⟨1⟩, false⟩, false⟩,
      .operation ⟨.identity, ⟨⟨0⟩, false⟩, false⟩]⟩ : Graph Float32) := by
    refine acyclic_of_rank (fun n => 1 - n) fun n m hread => ?_
    obtain ⟨x, y, hx, hy, hb⟩ := hread
    match n, m with
    | 0, 0 =>
      cases hx
      cases hy
      exact absurd hb (by decide)
    | 0, m + 1 => omega
    | 1, m =>
      cases hx
      cases hb
    | n + 2, m => cases hx
  obtain ⟨-, horder, -⟩ := evaluates_in_dependency_order hs hg hacyclic
  exact ⟨_, hg, ⟨_, _, rfl, rfl, List.mem_cons_self⟩, hacyclic, horder⟩

end DeferredMatrix
