import DeferredMatrix.Proofs.Graph.Outcome

/-!
# Evaluation without breaches

Nodes and graphs that fit the pool can fail to be evaluated, but breach nothing: a failure is a
singular determinant, a buffer that is gone or a slot that is not written.

* `Node.Fits.safe` : a node has steps, can be evaluated and read without a breach, and can write
  whatever one of its steps has computed.
* `Graph.Fits.safe` : so it is for all nodes in every state of a graph walk, whose tasks name
  nodes of the graph.
-/

namespace DeferredMatrix

variable {α : Type}

/-- The computation ends with a value or a failure. -/
def NoBreach {β : Type} (x : Except (Stop α) β) : Prop := ∀ b, x ≠ .error (.breach b)

theorem Pool.Holds.noBreach {p : Pool α} {k : Kind} {h : Handle k} (hh : p.Holds h.place k)
    (hp : p.Packed) : NoBreach (p.read h) := by
  intro b hb
  rcases Pool.read_cases hp hh with ⟨v, hv, -⟩ | ⟨hfailed, -, -⟩ | ⟨hfailed, -⟩
  · cases hv.symm.trans hb
  · cases hfailed.symm.trans hb
  · cases hfailed.symm.trans hb

theorem Operand.Sound.noBreach {p : Pool α} {k : Kind} {o : Operand α k} (ho : o.Sound p)
    (hp : p.Packed) : NoBreach (o.resolve p) := by
  cases o with
  | literal v => exact fun b hb => by cases hb
  | handle h => exact Pool.Holds.noBreach ho hp

variable [Scalar α]

/-! ## Nodes -/

namespace Node

/-- The nodes and worlds that the evaluation of a node passes through. -/
inductive Passes (n : Node α) (w : World α) : Node α → World α → Prop
  | start : Passes n w n w
  | step {m m' : Node α} {u u' : World α} (h : Passes n w m u) (ha : m.Advance u m' u') :
      Passes n w m' u'

structure Safe (n : Node α) (w : World α) : Prop where
  steps_ne_nil : n.steps ≠ []
  evaluate : NoBreach (n.evaluate w).result
  /-- Evaluation ends in a node and a pool that it passes through. -/
  passes : ∃ u, n.Passes w (n.evaluate w).node u ∧ u.pool = (n.evaluate w).world.pool
  read : NoBreach (w.pool.read n.handle)
  write : ∀ m u, n.Passes w m u → m.lease.released = false → ∀ step ∈ m.steps, ∀ v,
    step.instruction.execute u.pool = .ok v →
      ∃ q, u.pool.write ⟨m.buffer, step.slot⟩ v.slots = .ok q

variable {n m : Node α} {w u : World α}

theorem Evaluates.passes {a : Attempt (Node α) α} (h : m.Evaluates u a) (hm : n.Passes w m u) :
    ∃ u', n.Passes w a.node u' ∧ u'.pool = a.world.pool := by
  induction h with
  | dead hr | complete hr hc => exact ⟨_, hm, rfl⟩
  | stop hr hstep hs => exact ⟨_, hm, (pool_noteStop _ _ _).symm⟩
  | advance h ha ih => exact ih (hm.step h)

theorem Passes.spec (h : n.Passes w m u) (hn : n.Fits w.pool) (hp : w.pool.Packed) :
    m.Fits u.pool ∧ u.pool.Packed := by
  induction h with
  | start => exact ⟨hn, hp⟩
  | step h ha ih =>
    obtain ⟨hm, hu, -⟩ := ha.spec ih.1 ih.2
    exact ⟨hm, hu⟩

theorem Fits.safe (hn : n.Fits w.pool) (hp : w.pool.Packed) : n.Safe w where
  steps_ne_nil := n.steps_ne_nil
  evaluate := by
    intro b hb
    rcases (evaluate_evaluates hn.placed hp).error_cases hn hp hb with
      ⟨det, epsilon, h⟩ | ⟨b', h, -⟩ | ⟨place, k, h, -⟩
    · cases h
    · cases h
    · cases h
  passes := (evaluate_evaluates hn.placed hp).passes .start
  read := hn.placed.holds_handle.noBreach hp
  write := by
    intro m u hm hr step hstep v _
    obtain ⟨hfits, hpacked⟩ := hm.spec hn hp
    exact hfits.placed.exists_write hpacked hr hstep v

end Node

/-! ## Graphs -/

namespace Graph

structure Safe (g : Graph α) (w : World α) : Prop where
  evaluate : NoBreach (g.evaluate w).result
  exists_node : ∀ v, g.Passes w v → ∀ t ∈ v.tasks, ∃ n, v.nodes[t.place]? = some n
  nodes : ∀ v, g.Passes w v → ∀ n ∈ v.nodes, n.Safe v.world

variable {g : Graph α} {w : World α} {v : Walk α}

theorem Passes.tracks (h : g.Passes w v) (hg : g.Placed w.pool) :
    ∃ as, Walk.Tracks g w.pool as v := by
  induction h with
  | start => exact ⟨[], .start hg w rfl⟩
  | root _ _ hstop htasks ih =>
    obtain ⟨as, has⟩ := ih
    exact ⟨as, has.root hstop htasks _⟩
  | step _ hover ih =>
    obtain ⟨as, has⟩ := ih
    exact ⟨_, has.step hg hover⟩

/-- The tasks of a walk name nodes of the graph. -/
theorem Passes.place_lt (h : g.Passes w v) (hg : g.Fits w.pool) :
    ∀ t ∈ v.tasks, t.place < g.nodes.size := by
  induction h with
  | start =>
    intro t ht
    cases ht
  | root _ hn _ _ _ =>
    intro t ht
    obtain rfl := List.mem_singleton.1 ht
    exact hn
  | @step v hv hover ih =>
    obtain ⟨as, has⟩ := hv.tracks hg.placed
    obtain ⟨-, ⟨n, rest, htasks, -, hstep, -⟩ | ⟨n, rest, htasks, -, hstep, -⟩ |
      ⟨n, rest, htasks, hstep, -⟩⟩ := Walk.step_cases hover
    · rw [hstep]
      exact fun t ht => ih t (htasks ▸ List.mem_cons_of_mem _ ht)
    · rw [hstep, Walk.tasks_enter]
      intro t ht
      rcases List.mem_append.1 ht with ht | ht
      · obtain ⟨d, hd, rfl⟩ := List.mem_map.1 ht
        have hread := (mem_dependenciesOf hg.placed has.keeps).1 (Walk.mem_entering.1 hd).1
        exact hread.lt_right
      · rcases List.mem_cons.1 ht with rfl | ht
        · exact ih (.enter n) (htasks ▸ List.mem_cons_self)
        · exact ih t (htasks ▸ List.mem_cons_of_mem _ ht)
    · rw [hstep, Walk.tasks_finish]
      exact fun t ht => ih t (htasks ▸ List.mem_cons_of_mem _ ht)

theorem Fits.safe (hg : g.Fits w.pool) : g.Safe w where
  evaluate := by
    intro b hb
    rcases evaluate_error_cases hg hb with ⟨det, epsilon, h⟩ | ⟨b', h, -⟩ | ⟨place, h⟩
    · cases h
    · cases h
    · cases h
  exists_node := by
    intro v hv t ht
    obtain ⟨as, has⟩ := hv.tracks hg.placed
    have hlt : t.place < v.nodes.size := has.keeps.size ▸ hv.place_lt hg t ht
    exact ⟨_, Array.getElem?_eq_getElem hlt⟩
  nodes := by
    intro v hv n hn
    obtain ⟨as, has⟩ := hv.tracks hg.placed
    obtain ⟨i, hi⟩ := Array.mem_iff_getElem?.1 hn
    exact ((has.fits hg).fits i n hi).safe has.placed.packed

end Graph

end DeferredMatrix
