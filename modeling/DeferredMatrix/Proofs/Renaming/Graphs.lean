import DeferredMatrix.Proofs.Graph.Runs
import DeferredMatrix.Proofs.Renaming.Nodes

/-!
# Graphs in worlds that mirror each other

The walk through a renamed graph goes from node to node as the walk through the graph does, since
nodes depend on each other in the same way.

* `Walk.Mirrors` : two walks have come as far.
* `World.Mirrors.evaluate_graph` : so a renamed graph is evaluated with the renamed outcome.
-/

namespace DeferredMatrix

variable {α : Type} {σ : BufferId → BufferId} {base : Pool α}

/-! ## Release -/

theorem World.Mirrors.release_nodes (ns : List (Node α)) : ∀ (acc : Array (Node α))
    (w w' : World α), World.Mirrors σ base w w' →
    let release := fun (x : Array (Node α) × World α) (n : Node α) =>
      (x.1.push (n.release x.2).1, (n.release x.2).2)
    MirrorsWith σ base (Array.map (Node.rename σ)) (ns.foldl release (acc, w))
      ((ns.map (Node.rename σ)).foldl release (acc.map (Node.rename σ), w')) := by
  induction ns with
  | nil => exact fun acc w w' h => ⟨rfl, h⟩
  | cons n ns ih =>
    intro acc w w' h release
    obtain ⟨hnode, hworld⟩ := h.release_node n
    have hpush : (acc.map (Node.rename σ)).push ((n.release w).1.rename σ) =
        (acc.push (n.release w).1).map (Node.rename σ) := Array.map_push.symm
    have hrest := ih (acc.push (n.release w).1) _ _ hworld
    rw [← hpush, ← hnode] at hrest
    exact hrest

theorem World.Mirrors.release_graph {w w' : World α} (h : World.Mirrors σ base w w')
    (g : Graph α) :
    MirrorsWith σ base (Graph.rename σ) (g.release w) ((g.rename σ).release w') := by
  obtain ⟨hnodes, hworld⟩ := World.Mirrors.release_nodes g.nodes.toList #[] w w' h
  have hlist : (g.rename σ).nodes.toList = g.nodes.toList.map (Node.rename σ) := Array.toList_map
  rw [← hlist, Array.foldl_toList, Array.foldl_toList, Array.map_empty] at hnodes hworld
  exact ⟨congrArg Graph.mk hnodes, hworld⟩

/-! ## Walks -/

/-- A walk and the one through the renamed graph have come as far. -/
structure Walk.Mirrors (σ : BufferId → BufferId) (base : Pool α) (v v' : Walk α) : Prop where
  nodes : v'.nodes = v.nodes.map (Node.rename σ)
  world : World.Mirrors σ base v.world v'.world
  marks : v'.marks = v.marks
  tasks : v'.tasks = v.tasks
  stop : v'.stop = v.stop.map (Stop.rename σ)

namespace Walk.Mirrors

variable {v v' : Walk α} (h : Walk.Mirrors σ base v v')

include h

theorem mark (place : Nat) : v'.mark place = v.mark place := by
  rw [Walk.mark, Walk.mark, h.marks]

theorem isOver : v'.isOver = v.isOver := by
  rw [Walk.isOver, Walk.isOver, h.stop, h.tasks, Option.isSome_map]

theorem getElem?_nodes (place : Nat) :
    v'.nodes[place]? = v.nodes[place]?.map (Node.rename σ) := by
  rw [h.nodes, Array.getElem?_map]

theorem dependenciesOf (place : Nat) : v'.dependenciesOf place = v.dependenciesOf place := by
  unfold Walk.dependenciesOf
  rw [h.getElem?_nodes]
  cases v.nodes[place]? with
  | none => rfl
  | some n =>
    show dependencies v'.nodes (n.rename σ) = dependencies v.nodes n
    rw [h.nodes, dependencies_rename h.world.pool.injective]

theorem skip (rest : List Task) : Walk.Mirrors σ base { v with tasks := rest }
    { v' with tasks := rest } :=
  ⟨h.nodes, h.world, h.marks, rfl, h.stop⟩

theorem setMark (place : Nat) (m : Mark) :
    Walk.Mirrors σ base (v.setMark place m) (v'.setMark place m) :=
  ⟨h.nodes, h.world, congrArg (Array.setIfInBounds · place m) h.marks, h.tasks, h.stop⟩

omit h in
theorem emit_skipped {w w' : World α} (hw : World.Mirrors σ base w w') (place : Nat)
    (skipped : List Nat) :
    World.Mirrors σ base (skipped.foldl (fun w d => w.emit (.edgeSkipped place d)) w)
      (skipped.foldl (fun w d => w.emit (.edgeSkipped place d)) w') := by
  induction skipped generalizing w w' with
  | nil => exact hw
  | cons d skipped ih => exact ih (hw.emit (.edgeSkipped place d))

theorem enter (place : Nat) (rest : List Task) :
    Walk.Mirrors σ base (v.enter place rest) (v'.enter place rest) := by
  have hmarked := h.setMark place .entered
  unfold Walk.enter
  simp only [hmarked.dependenciesOf, hmarked.mark]
  exact ⟨hmarked.nodes, emit_skipped hmarked.world place _, hmarked.marks, rfl, hmarked.stop⟩

theorem record {a a' : Attempt (Node α) α} (ha : Attempt.Mirrors σ base (Node.rename σ) a a')
    (place : Nat) (rest : List Task) :
    Walk.Mirrors σ base (v.record place a rest) (v'.record place a' rest) := by
  have hnodes : v'.nodes.setIfInBounds place a'.node =
      (v.nodes.setIfInBounds place a.node).map (Node.rename σ) := by
    rw [h.nodes, ha.node, Array.map_setIfInBounds]
  obtain ⟨-, hworld, hresult⟩ := ha
  unfold Walk.record
  generalize a.result = r at hresult ⊢
  generalize a'.result = r' at hresult ⊢
  cases hresult with
  | ok => exact ⟨hnodes, hworld, congrArg (Array.setIfInBounds · place _) h.marks, rfl, h.stop⟩
  | error hs => exact ⟨hnodes, hworld, h.marks, rfl, congrArg some hs⟩

variable [Scalar α]

theorem finish (place : Nat) (rest : List Task) :
    Walk.Mirrors σ base (v.finish place rest) (v'.finish place rest) := by
  unfold Walk.finish
  rw [h.getElem?_nodes]
  cases v.nodes[place]? with
  | none => exact h.skip rest
  | some n => exact h.record (h.world.evaluate n) place rest

theorem step : Walk.Mirrors σ base v.step v'.step := by
  unfold Walk.step
  rw [h.tasks]
  split
  · exact h
  · rename_i place rest htasks
    rw [h.mark]
    split
    · exact h.enter place rest
    · exact h.skip rest
  · rename_i place rest htasks
    exact h.finish place rest

omit h in
theorem run (v : Walk α) : ∀ v', Walk.Mirrors σ base v v' → Walk.Mirrors σ base v.run v'.run := by
  induction v using Walk.run.induct with
  | case1 v hover =>
    intro v' h
    rwa [run_of_isOver hover, run_of_isOver (h.isOver.trans hover)]
  | case2 v hover _ ih =>
    intro v' h
    have hover' : ¬ v'.isOver := by rwa [h.isOver]
    rw [run_of_not_isOver hover, run_of_not_isOver hover']
    exact ih _ h.step

theorem visit (root : Nat) : Walk.Mirrors σ base (v.visit root) (v'.visit root) := by
  have hstop : v'.stop.isSome = v.stop.isSome := by rw [h.stop, Option.isSome_map]
  unfold Walk.visit
  rw [hstop]
  split
  · exact h
  · exact run _ _ (h.skip [.enter root])

theorem roots (roots : List Nat) :
    Walk.Mirrors σ base (roots.foldl Walk.visit v) (roots.foldl Walk.visit v') := by
  induction roots generalizing v v' with
  | nil => exact h
  | cons root roots ih => exact ih (h.visit root)

end Walk.Mirrors

/-- A renamed graph is evaluated as the graph is. -/
theorem World.Mirrors.evaluate_graph [Scalar α] {w w' : World α} (h : World.Mirrors σ base w w')
    (g : Graph α) :
    Attempt.Mirrors σ base (Graph.rename σ) (g.evaluate w) ((g.rename σ).evaluate w') := by
  have hsize : (g.rename σ).nodes.size = g.nodes.size := Array.size_map
  have hstart : Walk.Mirrors σ base (Walk.start g.nodes w) (Walk.start (g.rename σ).nodes w') :=
    ⟨rfl, h, congrArg (Array.replicate · Mark.unseen) hsize, rfl, rfl⟩
  have hwalk : Walk.Mirrors σ base (g.walk w) ((g.rename σ).walk w') := by
    unfold Graph.walk
    rw [hsize]
    exact hstart.roots _
  have hwalked : ((g.rename σ).walk w').nodes.size = (g.walk w).nodes.size := by
    rw [hwalk.nodes, Array.size_map]
  unfold Graph.evaluate
  simp only [hwalk.stop, hwalked]
  cases (g.walk w).stop with
  | none => exact ⟨congrArg Graph.mk hwalk.nodes, hwalk.world.emit _, .ok rfl⟩
  | some s => exact ⟨congrArg Graph.mk hwalk.nodes, hwalk.world, .error rfl⟩

end DeferredMatrix
