import DeferredMatrix.Proofs.Graph.Confluence
import DeferredMatrix.Proofs.Session.Reachable

/-!
# The order in which nodes are pushed

Nodes of a session are pushed into an empty graph one after the other. If they do not read each
other in cycles, neither the success of the evaluation nor what it writes depends on the order.
-/

namespace DeferredMatrix

variable {α : Type} {s : Session α}

namespace Session

/-- One of the named nodes reads the buffer of another one. -/
def ReadsAmong (s : Session α) (names : List String) (a b : String) : Prop :=
  a ∈ names ∧ b ∈ names ∧ ∃ x y, s.node? a = some x ∧ s.node? b = some y ∧
    y.buffer ∈ x.externalInputs

/-- The node at a place is the one that the name at the same place stands for. -/
theorem exists_name {names : List String} (hnodes : ∀ n ∈ names, (s.node? n).isSome) {i : Nat}
    {x : Node α} (hx : (names.filterMap s.node?)[i]? = some x) :
    ∃ n, names[i]? = some n ∧ s.node? n = some x := by
  induction names generalizing i with
  | nil => cases hx
  | cons name names ih =>
    obtain ⟨y, hy⟩ := Option.isSome_iff_exists.1 (hnodes name List.mem_cons_self)
    rw [List.filterMap_cons, hy] at hx
    cases i with
    | zero =>
      cases hx
      exact ⟨name, rfl, hy⟩
    | succ i => exact ih (fun n hn => hnodes n (List.mem_cons_of_mem _ hn)) hx

/-- Cycles of the graph are cycles of the named nodes. -/
theorem acyclic_of_names {names : List String} (hnodes : ∀ n ∈ names, (s.node? n).isSome)
    (hacyclic : ∀ n, ¬ Relation.TransGen (s.ReadsAmong names) n n) :
    Graph.Acyclic ⟨(names.filterMap s.node?).toArray⟩ := by
  intro i hcycle
  have hedge : ∀ a b, Graph.Reads ⟨(names.filterMap s.node?).toArray⟩ a b →
      s.ReadsAmong names (names[a]?.getD "") (names[b]?.getD "") := by
    rintro a b ⟨x, y, hx, hy, hb⟩
    rw [List.getElem?_toArray] at hx hy
    obtain ⟨n, hn, hnx⟩ := exists_name hnodes hx
    obtain ⟨m, hm, hmy⟩ := exists_name hnodes hy
    rw [hn, hm]
    exact ⟨List.mem_of_getElem? hn, List.mem_of_getElem? hm, x, y, hnx, hmy, hb⟩
  exact hacyclic _ (hcycle.lift (fun a => names[a]?.getD "") hedge)

end Session

variable [Scalar α] [ToText α]

namespace Session

/-- The session after some nodes have been pushed into a graph. -/
def pushes (s : Session α) (graph : String) (names : List String) : Session α :=
  s.run (names.map fun name => .graph (.push graph name none))

theorem pushes_cons (s : Session α) (graph name : String) (names : List String) :
    s.pushes graph (name :: names) =
      (s.next (.graph (.push graph name none))).pushes graph names := rfl

theorem reachable_pushes (hs : s.Reachable) (graph : String) (names : List String) :
    (s.pushes graph names).Reachable := by
  refine hs.run ?_
  simp [Command.takesHandle]

/-- What pushing a node does. -/
theorem next_push {graph name : String} {g : Graph α} {n : Node α}
    (hg : s.graph? graph = some g) (hn : s.node? name = some n) :
    (s.next (.graph (.push graph name none))).pool = s.pool ∧
      (s.next (.graph (.push graph name none))).graph? graph = some (g.push n) ∧
      ∀ other, other ≠ name →
        (s.next (.graph (.push graph name none))).node? other = s.node? other := by
  have hne : name ≠ graph := by
    rintro rfl
    cases (object?_of_node? hn).symm.trans (object?_of_graph? hg)
  have hnext : s.next (.graph (.push graph name none)) =
      ⟨s.pool, (s.objects.erase name).replace graph (.graph (g.push n))⟩ := by
    simp [Session.next, perform, performGraph, hg, hn, withNew, change, world]
  rw [hnext]
  refine ⟨rfl, ?_, fun other hother => ?_⟩
  · have hget : (s.objects.erase name).get? graph = some (.graph g) := by
      rw [Catalog.get?_erase, if_neg hne]
      exact object?_of_graph? hg
    simp [graph?, object?, Catalog.get?_replace, hget]
  · unfold node? object?
    simp only
    rw [Catalog.get?_replace]
    by_cases hgraph : graph = other
    · subst hgraph
      have hself : s.objects.get? graph = some (.graph g) := object?_of_graph? hg
      have hget : (s.objects.erase name).get? graph = some (.graph g) := by
        rw [Catalog.get?_erase, if_neg hne, hself]
      rw [if_pos rfl, hget, hself]
      rfl
    · rw [if_neg hgraph, Catalog.get?_erase, if_neg (Ne.symm hother)]

/-- The graph then has the nodes in the order of their names. -/
theorem graph?_pushes {graph : String} {g : Graph α} {names : List String}
    (hnodup : names.Nodup) (hnodes : ∀ n ∈ names, (s.node? n).isSome)
    (hg : s.graph? graph = some g) : (s.pushes graph names).pool = s.pool ∧
      (s.pushes graph names).graph? graph =
        some ⟨g.nodes ++ (names.filterMap s.node?).toArray⟩ := by
  induction names generalizing s g with
  | nil => exact ⟨rfl, by simpa [pushes, run] using hg⟩
  | cons name names ih =>
    obtain ⟨hname, hnodup⟩ := List.nodup_cons.1 hnodup
    obtain ⟨n, hn⟩ := Option.isSome_iff_exists.1 (hnodes name List.mem_cons_self)
    obtain ⟨hpool, hgraph, hothers⟩ := next_push hg hn
    have hsame : ∀ m ∈ names, (s.next (.graph (.push graph name none))).node? m = s.node? m := by
      intro m hm
      exact hothers m fun hmn => hname (hmn ▸ hm)
    have hnodes' : ∀ m ∈ names,
        ((s.next (.graph (.push graph name none))).node? m).isSome := by
      intro m hm
      rw [hsame m hm]
      exact hnodes m (List.mem_cons_of_mem _ hm)
    obtain ⟨hpool', hgraph'⟩ := ih hnodup hnodes' hgraph
    rw [pushes_cons, List.filterMap_cons, hn]
    refine ⟨hpool'.trans hpool, ?_⟩
    rw [hgraph', List.filterMap_congr hsame]
    simp [Graph.push]

end Session

open Session in
theorem push_order_is_irrelevant {s : Session α} (hs : s.Reachable) {graph : String}
    (hgraph : s.graph? graph = some .empty) {names names' : List String}
    (hperm : names.Perm names') (hnodup : names.Nodup)
    (hnodes : ∀ n ∈ names, (s.node? n).isSome)
    (hacyclic : ∀ n, ¬ Relation.TransGen (s.ReadsAmong names) n n) :
    ∃ g g', (s.pushes graph names).graph? graph = some g ∧
      (s.pushes graph names').graph? graph = some g' ∧
      ((g.evaluate (s.pushes graph names).world).result = .ok () ↔
        (g'.evaluate (s.pushes graph names').world).result = .ok ()) ∧
      ((g.evaluate (s.pushes graph names).world).result = .ok () →
        ∀ b, (g'.evaluate (s.pushes graph names').world).world.pool.store? b =
          (g.evaluate (s.pushes graph names).world).world.pool.store? b) := by
  have hnodes' : ∀ n ∈ names', (s.node? n).isSome := fun n hn => hnodes n (hperm.mem_iff.2 hn)
  have hamong : s.ReadsAmong names' = s.ReadsAmong names := by
    funext a b
    unfold ReadsAmong
    rw [hperm.mem_iff, hperm.mem_iff]
  obtain ⟨hpool, hg⟩ := graph?_pushes hnodup hnodes hgraph
  obtain ⟨hpool', hg'⟩ := graph?_pushes (hperm.nodup_iff.1 hnodup) hnodes' hgraph
  simp only [Graph.empty, Array.empty_append] at hg hg'
  have hfits := (reachable_pushes hs graph names).consistent.graph_fits hg
  have hfits' := (reachable_pushes hs graph names').consistent.graph_fits hg'
  have hac := acyclic_of_names hnodes hacyclic
  have hac' := acyclic_of_names hnodes' (hamong ▸ hacyclic)
  have hmem : ∀ x, x ∈ (names'.filterMap s.node?).toArray ↔
      x ∈ (names.filterMap s.node?).toArray := by
    intro x
    rw [List.mem_toArray, List.mem_toArray]
    exact (hperm.filterMap s.node?).mem_iff.symm
  have hworld : (s.pushes graph names').world.pool = (s.pushes graph names).world.pool :=
    hpool'.trans hpool.symm
  refine ⟨_, _, hg, hg', ⟨fun hok => ?_, fun hok => ?_⟩, fun hok => ?_⟩
  · exact (Graph.evaluate_of_same_nodes hfits hfits' hworld hmem hac hac' hok).1
  · exact (Graph.evaluate_of_same_nodes hfits' hfits hworld.symm (fun x => (hmem x).symm) hac' hac
      hok).1
  · exact (Graph.evaluate_of_same_nodes hfits hfits' hworld hmem hac hac' hok).2

/-- Makes an empty graph, an operation for the identity matrix and one that transposes it. -/
def looseTranspose : List (Command Float32) :=
  [.graph (.create "g"), .node (.operation "identity" .matrix .identity),
    .node (.operation "transpose" .matrix (.transpose (.node "identity")))]

theorem looseTranspose_in_either_order :
    let s := Session.empty.run looseTranspose
    s.ReadsAmong ["identity", "transpose"] "transpose" "identity" ∧
    ∃ g g', (s.pushes "g" ["identity", "transpose"]).graph? "g" = some g ∧
      (s.pushes "g" ["transpose", "identity"]).graph? "g" = some g' ∧
      ((g.evaluate (s.pushes "g" ["identity", "transpose"]).world).result = .ok () ↔
        (g'.evaluate (s.pushes "g" ["transpose", "identity"]).world).result = .ok ()) := by
  intro s
  have hs : s.Reachable := Session.Reachable.empty.run (by decide)
  have hidentity : s.node? "identity" = some (.operation ⟨.identity, ⟨⟨0⟩, false⟩, false⟩) := rfl
  have htranspose : s.node? "transpose" =
      some (.operation ⟨.transpose (.handle ⟨⟨0⟩, 0⟩), ⟨⟨1⟩, false⟩, false⟩) := rfl
  have hedge : ∀ a b, s.ReadsAmong ["identity", "transpose"] a b →
      a = "transpose" ∧ b = "identity" := by
    rintro a b ⟨ha, hb, x, y, hx, hy, hread⟩
    simp only [List.mem_cons, List.not_mem_nil, or_false] at ha hb
    rcases ha with rfl | rfl
    · cases hidentity.symm.trans hx
      cases hread
    · rcases hb with rfl | rfl
      · exact ⟨rfl, rfl⟩
      · cases htranspose.symm.trans hx
        cases htranspose.symm.trans hy
        exact absurd hread (by decide)
  have hacyclic : ∀ n, ¬ Relation.TransGen (s.ReadsAmong ["identity", "transpose"]) n n := by
    intro n hcycle
    obtain ⟨m, hfirst, -⟩ := Relation.TransGen.head'_iff.1 hcycle
    obtain ⟨k, -, hlast⟩ := Relation.TransGen.tail'_iff.1 hcycle
    have htwo := (hedge n m hfirst).1.symm.trans (hedge k n hlast).2
    exact absurd htwo (by decide)
  have hreads : s.ReadsAmong ["identity", "transpose"] "transpose" "identity" :=
    ⟨by simp, by simp, _, _, htranspose, hidentity, List.mem_cons_self⟩
  have hgraph : s.graph? "g" = some .empty := rfl
  have hnodes : ∀ n ∈ ["identity", "transpose"], (s.node? n).isSome := by
    intro n hn
    simp only [List.mem_cons, List.not_mem_nil, or_false] at hn
    rcases hn with rfl | rfl
    · rw [hidentity]
      rfl
    · rw [htranspose]
      rfl
  obtain ⟨g, g', hg, hg', hiff, -⟩ := push_order_is_irrelevant hs hgraph
    (List.Perm.swap "transpose" "identity" []) (by decide) hnodes hacyclic
  exact ⟨hreads, g, g', hg, hg', hiff⟩

end DeferredMatrix
