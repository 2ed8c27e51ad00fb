import DeferredMatrix.Proofs.Graph.Abreast
import DeferredMatrix.Proofs.Graph.Outcome

/-!
# Evaluating again

After an evaluation a node is settled (`Node.Settled`) : it is complete, or its next step cannot be
executed, or its buffer is gone. Evaluating it again gives the same result and changes nothing. So
it is with graphs, whose second walk goes the way of the first (`Walk.Repeats`) up to the node at
which that was stopped.

* `Node.Evaluates.settled`, `Node.Settled.evaluate` : nodes.
* `Graph.evaluate_again` : graphs.
-/

namespace DeferredMatrix

variable {α : Type} [Scalar α]

namespace Node

/-- Evaluating the node has the result at once. -/
def Settled (n : Node α) (p : Pool α) : Except (Stop α) Unit → Prop
  | .ok () => n.lease.released = false ∧ n.completed = n.steps.length
  | .error s => n.lease.released = true ∧ s = .failure (.dangling n.buffer) ∨
      n.lease.released = false ∧ ∃ step, n.steps[n.completed]? = some step ∧
        step.instruction.execute p = .error s

theorem Evaluates.settled {n : Node α} {w : World α} {a : Attempt (Node α) α}
    (h : n.Evaluates w a) : a.node.Settled a.world.pool a.result := by
  have hlease := h.alike.lease
  cases hr : a.result with
  | ok u =>
    obtain ⟨hr, hc⟩ := h.ok hr
    exact ⟨hlease ▸ hr, hc⟩
  | error s =>
    rcases h.error hr with ⟨hr, ha, hs⟩ | ⟨hr, hstep⟩
    · rw [ha]
      exact Or.inl ⟨hr, hs⟩
    · exact Or.inr ⟨hlease ▸ hr, hstep⟩

variable {n : Node α} {w : World α} {r : Except (Stop α) Unit}

theorem Settled.evaluates (h : n.Settled w.pool r) :
    ∃ a, n.Evaluates w a ∧ a.node = n ∧ a.result = r ∧ a.world.pool = w.pool := by
  cases r with
  | ok u => exact ⟨_, .complete h.1 h.2, rfl, rfl, rfl⟩
  | error s =>
    rcases h with ⟨hr, rfl⟩ | ⟨hr, step, hstep, hs⟩
    · exact ⟨_, .dead hr, rfl, rfl, rfl⟩
    · exact ⟨_, .stop hr hstep hs, rfl, rfl, pool_noteStop n w s⟩

theorem Settled.evaluate (h : n.Settled w.pool r) (hn : n.Placed w.pool) (hp : w.pool.Packed) :
    (n.evaluate w).node = n ∧ (n.evaluate w).result = r ∧ (n.evaluate w).world.pool = w.pool := by
  obtain ⟨a, ha, hrest⟩ := h.evaluates
  rwa [(n.evaluate_evaluates hn hp).unique ha]

/-- Evaluating a node again is of no use. -/
theorem evaluate_again (hn : n.Placed w.pool) (hp : w.pool.Packed) {w' : World α}
    (hw' : w'.pool = (n.evaluate w).world.pool) :
    ((n.evaluate w).node.evaluate w').result = (n.evaluate w).result ∧
      ((n.evaluate w).node.evaluate w').node = (n.evaluate w).node ∧
      ((n.evaluate w).node.evaluate w').world.pool = (n.evaluate w).world.pool := by
  have hevaluates := n.evaluate_evaluates hn hp
  obtain ⟨hplaced, hpacked, -⟩ := hevaluates.placed hn hp
  have hsettled := hevaluates.settled
  rw [← hw'] at hplaced hpacked hsettled
  obtain ⟨hnode, hresult, hpool⟩ := hsettled.evaluate hplaced hpacked
  exact ⟨hresult, hnode, hpool.trans hw'⟩

end Node

/-! ## Attempts of a walk -/

/-- Every node that has been attempted is settled in the end. -/
theorem Graph.Placed.settled_walk {g : Graph α} {w : World α} (hg : g.Placed w.pool) :
    ∀ t ∈ g.attempts w, ∃ y, (g.walk w).nodes[t.place]? = some y ∧
      y.Settled (g.walk w).world.pool t.result := by
  -- A node that fails stops the walk, so that its failure is not followed by anything.
  have hfailed : ∀ t ∈ g.attempts w, ∀ s, t.result = .error s →
      ∃ y, (g.walk w).nodes[t.place]? = some y ∧
        y.Settled (g.walk w).world.pool (.error s) := by
    refine (g.walk_induction w (P := fun as v => Walk.Tracks g w.pool as v ∧
      ∀ t ∈ as, ∀ s, t.result = .error s → ∃ y, v.nodes[t.place]? = some y ∧
        y.Settled v.world.pool (.error s)) ?_ ?_ ?_).2
    · exact ⟨.start hg w rfl, fun t ht => by cases ht⟩
    · exact fun as v root _ hstop htasks ⟨hv, hs⟩ => ⟨hv.root hstop htasks root, hs⟩
    · rintro as v hover ⟨hv, -⟩
      refine ⟨hv.step hg hover, fun t ht s hs => ?_⟩
      obtain ⟨hstop, hcases⟩ := Walk.step_cases hover
      rcases List.mem_append.1 ht with ht | ht
      · cases (hv.going hstop t ht).symm.trans hs
      rcases hcases with ⟨n, rest, -, -, -, hattempt⟩ | ⟨n, rest, -, -, -, hattempt⟩ |
        ⟨n, rest, -, hstep, hattempt⟩
      · simp [hattempt] at ht
      · simp [hattempt] at ht
      · rw [hattempt, Option.mem_toList, Option.map_eq_some_iff] at ht
        obtain ⟨x, hx, rfl⟩ := ht
        have hresult : (x.evaluate v.world).result = .error s := hs
        have hsettled :=
          (x.evaluate_evaluates (hv.placed.placed n x hx) hv.placed.packed).settled
        rw [hresult] at hsettled
        refine ⟨(x.evaluate v.world).node, ?_, ?_⟩
        · rw [hstep, Walk.finish_of_some hx]
          exact Array.getElem?_setIfInBounds_self_of_lt (Array.getElem?_eq_some_iff.1 hx).1
        · rw [hstep, Walk.finish_of_some hx]
          exact hsettled
  rintro ⟨n, r⟩ ht
  cases r with
  | error s => exact hfailed _ ht s rfl
  | ok u => exact hg.tracks_walk.completed_of_mem ht

/-! ## The second walk -/

namespace Walk

/-- The walk `u`, which begins where `z` has ended, goes the way of `v` again. -/
structure Repeats (z v u : Walk α) : Prop where
  abreast : v.Abreast u
  stop : u.stop = v.stop
  nodes : u.nodes = z.nodes
  pool : u.world.pool = z.world.pool

/-- The nodes that have been attempted are settled at the end of the walk `z`. -/
def Settles (z : Walk α) (ts : List (Tried α)) : Prop :=
  ∀ t ∈ ts, ∃ y, z.nodes[t.place]? = some y ∧ y.Settled z.world.pool t.result

namespace Repeats

variable {z v u : Walk α}

omit [Scalar α] in
theorem isOver (h : Repeats z v u) : u.isOver = v.isOver := by
  rw [Walk.isOver, h.stop, h.abreast.tasks, Walk.isOver]

theorem step (h : Repeats z v u) (hz : Graph.Placed ⟨z.nodes⟩ z.world.pool) (hover : ¬ v.isOver)
    (hts : z.Settles v.attempt?.toList) : Repeats z v.step u.step := by
  obtain ⟨-, ⟨n, rest, htasks, hn, hstep, -⟩ | ⟨n, rest, htasks, hn, hstep, -⟩ |
    ⟨n, rest, htasks, hstep, hattempt⟩⟩ := step_cases hover
  · rw [hstep, step_enter (h.abreast.tasks.trans htasks), h.abreast.mark, if_neg hn]
    exact ⟨h.abreast.pass rest, h.stop, h.nodes, h.pool⟩
  · rw [hstep, step_enter (h.abreast.tasks.trans htasks), h.abreast.mark, if_pos hn]
    exact ⟨h.abreast.enter n rest, h.stop, h.nodes, (u.pool_enter n rest).trans h.pool⟩
  · rw [hstep, step_finish (h.abreast.tasks.trans htasks)]
    cases hx : v.nodes[n]? with
    | none =>
      rw [finish_of_none hx, finish_of_none (h.abreast.keeps.getElem?_eq_none hx)]
      exact ⟨h.abreast.pass rest, h.stop, h.nodes, h.pool⟩
    | some x =>
      rw [hattempt, hx, Option.map_some, Option.toList_some] at hts
      obtain ⟨y, hy, hsettled⟩ := hts _ List.mem_cons_self
      have hyu : u.nodes[n]? = some y := h.nodes ▸ hy
      rw [← h.pool] at hsettled
      obtain ⟨hnode, hresult, hpool⟩ := hsettled.evaluate
        (h.pool ▸ hz.placed n y hy) (h.pool ▸ hz.packed)
      rw [finish_of_some hx, finish_of_some hyu]
      refine ⟨h.abreast.record hx hyu (x.alike_evaluate _) (y.alike_evaluate _) (by rw [hresult])
        rest, ?_, ?_, hpool.trans h.pool⟩
      · simp only [record, hresult, h.stop]
      · show u.nodes.setIfInBounds n (y.evaluate u.world).node = z.nodes
        rw [hnode, ← h.nodes]
        obtain ⟨hlt, rfl⟩ := Array.getElem?_eq_some_iff.1 hyu
        rw [Array.setIfInBounds, dif_pos hlt, Array.set_getElem_self]

theorem run (hz : Graph.Placed ⟨z.nodes⟩ z.world.pool) (v : Walk α) : ∀ u, Repeats z v u →
    z.Settles v.attempts → Repeats z v.run u.run := by
  induction v using Walk.run.induct with
  | case1 v hover =>
    intro u h _
    rwa [run_of_isOver hover, run_of_isOver (h.isOver ▸ hover)]
  | case2 v hover _ ih =>
    intro u h hts
    have hover' : ¬ u.isOver := h.isOver ▸ hover
    rw [attempts_of_not_isOver hover] at hts
    rw [run_of_not_isOver hover, run_of_not_isOver hover']
    refine ih u.step (h.step hz hover fun t ht => hts t (List.mem_append_left _ ht)) fun t ht => ?_
    exact hts t (List.mem_append_right _ ht)

theorem roots (hz : Graph.Placed ⟨z.nodes⟩ z.world.pool) (roots : List Nat) : ∀ v u,
    Repeats z v u → z.Settles (v.attemptsFrom roots) →
    Repeats z (roots.foldl visit v) (roots.foldl visit u) := by
  induction roots with
  | nil => exact fun v u h _ => h
  | cons root roots ih =>
    intro v u h hts
    rw [attemptsFrom] at hts
    rw [List.foldl_cons, List.foldl_cons]
    refine ih _ _ ?_ fun t ht => hts t (List.mem_append_right _ ht)
    by_cases hstop : v.stop.isSome
    · rw [visit, visit, if_pos hstop, if_pos (h.stop ▸ hstop)]
      exact h
    · rw [if_neg hstop] at hts
      rw [visit, visit, if_neg hstop, if_neg (h.stop ▸ hstop)]
      have hroot : Repeats z { v with tasks := [.enter root] } { u with tasks := [.enter root] } :=
        ⟨h.abreast.pass _, h.stop, h.nodes, h.pool⟩
      exact run hz _ _ hroot fun t ht => hts t (List.mem_append_left _ ht)

end Repeats

end Walk

/-- Evaluating a graph again is of no use. -/
theorem Graph.Placed.evaluate_again {g : Graph α} {w w' : World α} (hg : g.Placed w.pool)
    (hw' : w'.pool = (g.evaluate w).world.pool) :
    ((g.evaluate w).node.evaluate w').result = (g.evaluate w).result ∧
      ((g.evaluate w).node.evaluate w').node = (g.evaluate w).node ∧
      ((g.evaluate w).node.evaluate w').world.pool = (g.evaluate w).world.pool := by
  have htracks := hg.tracks_walk
  rw [evaluate_node]
  have hstart : Walk.Repeats (g.walk w) (Walk.start g.nodes w)
      (Walk.start (g.walk w).nodes w') :=
    ⟨.start htracks.keeps w w', rfl, rfl, hw'.trans (evaluate_pool g w)⟩
  have hagain : Walk.Repeats (g.walk w) (g.walk w) (walk ⟨(g.walk w).nodes⟩ w') := by
    have hroots := Walk.Repeats.roots htracks.placed (List.range g.nodes.size) _ _ hstart
      hg.settled_walk
    unfold walk at hroots ⊢
    rwa [show (List.foldl Walk.visit (Walk.start g.nodes w) (List.range g.nodes.size)).nodes.size =
      g.nodes.size from htracks.keeps.size]
  refine ⟨?_, ?_, ?_⟩
  · cases hr : (g.evaluate w).result with
    | ok u =>
      exact evaluate_result_eq_ok_iff.2 (hagain.stop.trans (evaluate_result_eq_ok_iff.1 hr))
    | error s =>
      exact evaluate_result_eq_error_iff.2 (hagain.stop.trans (evaluate_result_eq_error_iff.1 hr))
  · exact (evaluate_node _ _).trans (congrArg Graph.mk hagain.nodes)
  · exact (evaluate_pool _ _).trans (hagain.pool.trans (evaluate_pool g w).symm)

end DeferredMatrix
