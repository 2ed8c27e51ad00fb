import DeferredMatrix.Proofs.Graph.Retry
import DeferredMatrix.Proofs.Session.Computes

/-!
# Catching up

A node or a graph is evaluated in two pools, one of which is behind the other because less has been
evaluated there before. The pool that is behind stays behind, and what succeeds there succeeds in
the other pool too.

* `Node.Evaluates.behind` : nodes.
* `Walk.Trails` : walks over the same graph, up to the failure of the one that is behind.
* `Graph.trails_walk` : graphs.
-/

namespace DeferredMatrix

variable {α : Type} [Scalar α]

theorem Pool.Behind.mono {p q : Pool α} {ds es : List (Definition α)} (h : p.Behind ds q)
    (hes : ∀ d ∈ ds, d ∈ es) : p.Behind es q where
  grows := h.grows
  gained := by
    intro place xs hxs
    refine (h.gained place xs hxs).imp_right ?_
    rintro ⟨d, hd, hstep⟩
    exact ⟨d, hes d hd, hstep⟩

/-! ## Nodes -/

namespace Node

variable {n m : Node α} {w : World α} {a : Attempt (Node α) α} {q : Pool α}
  {r : Except (Stop α) Unit} {ds : List (Definition α)}

omit [Scalar α] in
/-- What has been completed in a pool behind has been completed. -/
theorem Placed.completed_mono {p : Pool α} (hn : n.Placed p) (hm : m.Placed q) (halike : n.Alike m)
    (hr : n.lease.released = false) (hpq : p.Grows q) : n.completed ≤ m.completed := by
  by_contra hlt
  let place : Place := ⟨n.buffer, m.completed⟩
  have hwritten : (p.contents? place).isSome :=
    (hn.isSome_contents_iff hr rfl).2 (Nat.not_le.1 hlt)
  obtain ⟨xs, hxs⟩ := Option.isSome_iff_exists.1 hwritten
  have hahead : (q.contents? place).isSome :=
    Option.isSome_iff_exists.2 ⟨xs, hpq.contents place xs hxs⟩
  exact Nat.lt_irrefl _
    ((hm.isSome_contents_iff (halike.lease ▸ hr) halike.buffer.symm).1 hahead)

/-- A settled node has completed every step that can be executed in a pool behind. -/
theorem Settled.lt_completed {p : Pool α} (hsettled : m.Settled q r) (hm : m.Placed q)
    (halike : n.Alike m) (hn : n.Placed p) (hp : p.Packed) (hpq : p.Grows q)
    (hr : n.lease.released = false) {step : Step α} (hstep : n.steps[n.completed]? = some step)
    {v : Value α step.instruction.output} (hv : step.instruction.execute p = .ok v) :
    n.completed < m.completed := by
  have hle := hn.completed_mono hm halike hr hpq
  refine Nat.lt_of_le_of_ne hle fun hsame => ?_
  rw [hsame, ← halike.steps] at hstep
  cases r with
  | ok u => exact absurd hsettled.2 (Nat.ne_of_lt (List.getElem?_eq_some_iff.1 hstep).1)
  | error s =>
    rcases hsettled with ⟨hdead, -⟩ | ⟨-, stuck, hstuck, hs⟩
    · cases hr.symm.trans (halike.lease ▸ hdead)
    · obtain rfl := Option.some.inj (hstep.symm.trans hstuck)
      cases (Instruction.execute_of_grows hpq hp hv).symm.trans hs

/-- If a node is complete in a pool behind, it is complete. -/
theorem Settled.ok_of_grows {p : Pool α} (hsettled : m.Settled q r) (hm : m.Placed q)
    (halike : n.Alike m) (hn : n.Placed p) (hpq : p.Grows q) (hok : n.Settled p (.ok ())) :
    r = .ok () := by
  have hle := hn.completed_mono hm halike hok.1 hpq
  cases r with
  | ok u => rfl
  | error s =>
    rcases hsettled with ⟨hdead, -⟩ | ⟨-, stuck, hstuck, -⟩
    · cases hok.1.symm.trans (halike.lease ▸ hdead)
    · have hlt := (List.getElem?_eq_some_iff.1 hstuck).1
      rw [halike.steps, ← hok.2] at hlt
      omega

/-- While a node is evaluated in a pool behind, the pool stays behind. -/
theorem Evaluates.behind (h : n.Evaluates w a) (hn : n.Placed w.pool) (hp : w.pool.Packed)
    (hm : m.Placed q) (hsettled : m.Settled q r) (halike : n.Alike m) (hq : w.pool.Behind ds q)
    (hunique : ∀ d ∈ ds, ∀ e ∈ ds, d.place = e.place → d = e)
    (hmem : ∀ step ∈ n.steps, ⟨⟨n.buffer, step.slot⟩, step.instruction⟩ ∈ ds) :
    a.world.pool.Behind ds q := by
  induction h with
  | dead | complete => exact hq
  | @stop n w step s hr hstep hs => exact (pool_noteStop n w s).symm ▸ hq
  | @advance n n' w w' a h ha ih =>
    obtain ⟨hn', hp', -⟩ := h.placed hn hp
    obtain ⟨hr, step, v, p, hstep, hv, hwrite, rfl, rfl⟩ := h
    have hlt := hsettled.lt_completed hm halike hn hp hq.grows hr hstep hv
    have hahead : (q.contents? ⟨n.buffer, step.slot⟩).isSome := by
      rw [hm.isSome_contents_iff (halike.lease ▸ hr) halike.buffer.symm]
      exact (hn.slot _ _ hstep).symm ▸ hlt
    have hcaught : p.Behind ds q := hq.catchUp hunique (hmem step (List.mem_of_getElem? hstep)) hp
      hv hwrite (hn.unwritten hr hstep) hahead
    refine ih hn' hp' (n.alike_advance.symm.trans halike) hcaught fun step' hstep' => ?_
    rw [buffer_advance]
    exact hmem step' (n.steps_advance ▸ hstep')

end Node

/-! ## Walks -/

namespace Walk

theorem keeps_step (v : Walk α) : v.step.Keeps ⟨v.nodes⟩ := by
  unfold step
  split
  · exact .refl v
  · split <;> exact .of_nodes rfl
  · rename_i n rest htasks
    cases hx : v.nodes[n]? with
    | none =>
      rw [finish_of_none hx]
      exact .of_nodes rfl
    | some x =>
      rw [finish_of_some hx]
      exact (Keeps.refl v).record hx (x.alike_evaluate _) rest

theorem keeps_run (v : Walk α) : v.run.Keeps ⟨v.nodes⟩ :=
  run_induction (P := fun _ u => u.Keeps ⟨v.nodes⟩) (fun _ u _ hu => (keeps_step u).trans hu) v []
    (.refl v)

theorem keeps_visit (v : Walk α) (root : Nat) : (v.visit root).Keeps ⟨v.nodes⟩ := by
  unfold visit
  split
  · exact .refl v
  · exact keeps_run _

/-- The walk `v` is in a pool behind that of `u`, and the walks are abreast as long as `v` has not
been stopped. -/
structure Trails (ds : List (Definition α)) (hs ks : List (Holder α)) (v u : Walk α) : Prop where
  tidy : (v.estate hs).Tidy
  tidy_ahead : (u.estate ks).Tidy
  held : ∀ d, d ∈ definitionsOf (v.estate hs).holders ↔ d ∈ ds
  held_ahead : ∀ d, d ∈ definitionsOf (u.estate ks).holders ↔ d ∈ ds
  keeps : u.Keeps ⟨v.nodes⟩
  pool : v.world.pool.Behind ds u.world.pool
  going : v.stop = none → u.stop = none ∧ v.Abreast u

namespace Trails

variable {ds : List (Definition α)} {hs ks : List (Holder α)} {v u : Walk α}

/-- The walk ahead goes on alone. -/
theorem ahead {t : Walk α} (h : Trails ds hs ks v u)
    (hcomputes : Computes (u.estate ks) (t.estate ks)) (hkeeps : t.Keeps ⟨u.nodes⟩)
    (hgoing : v.stop = none → t.stop = none ∧ v.Abreast t) : Trails ds hs ks v t where
  tidy := h.tidy
  tidy_ahead := hcomputes.tidy h.tidy_ahead
  held := h.held
  held_ahead := fun d => (hcomputes.mem_definitions d).trans (h.held_ahead d)
  keeps := hkeeps.trans h.keeps
  pool := by
    refine h.pool.trans ?_ h.tidy_ahead.packed
    exact (hcomputes.behind h.tidy_ahead).mono fun d hd => (h.held_ahead d).1 hd
  going := hgoing

theorem mem_of_step {n : Nat} {x : Node α} (h : Trails ds hs ks v u) (hx : v.nodes[n]? = some x) :
    ∀ step ∈ x.steps, ⟨⟨x.buffer, step.slot⟩, step.instruction⟩ ∈ ds := by
  intro step hstep
  refine (h.held _).1 (List.mem_flatMap.2 ⟨.node x, ?_, List.mem_map_of_mem hstep⟩)
  exact List.mem_append_left _ (mem_nodeHolders hx)

theorem eq_of_place (h : Trails ds hs ks v u) : ∀ d ∈ ds, ∀ e ∈ ds, d.place = e.place → d = e :=
  fun d hd e he hplace => h.tidy.eq_of_place ((h.held d).2 hd) ((h.held e).2 he) hplace

section Finish

variable {n : Nat} {rest : List Task} {x y : Node α}

/-- When both walks have finished a node, one pool is still behind the other. -/
theorem pool_record (h : Trails ds hs ks v u) (hx : v.nodes[n]? = some x)
    (hy : u.nodes[n]? = some y) :
    (x.evaluate v.world).world.pool.Behind ds (y.evaluate u.world).world.pool := by
  have hy' := evaluates h.tidy_ahead hy
  obtain ⟨hplaced, -⟩ := hy'.placed (placed h.tidy_ahead hy) h.tidy_ahead.packed
  have hahead := ((computes_record h.tidy_ahead hy []).behind h.tidy_ahead).mono
    fun d hd => (h.held_ahead d).1 hd
  have halike : x.Alike (y.evaluate u.world).node :=
    (h.keeps.alike n x y hx hy).trans (y.alike_evaluate _)
  exact (evaluates h.tidy hx).behind (placed h.tidy hx) h.tidy.packed hplaced hy'.settled halike
    (h.pool.trans hahead h.tidy_ahead.packed) h.eq_of_place (h.mem_of_step hx)

/-- A node that has been evaluated with success has been so in both walks. -/
theorem result_record (h : Trails ds hs ks v u) (hx : v.nodes[n]? = some x)
    (hy : u.nodes[n]? = some y) (hok : (x.evaluate v.world).result = .ok ()) :
    (y.evaluate u.world).result = .ok () := by
  have hx' := evaluates h.tidy hx
  have hy' := evaluates h.tidy_ahead hy
  obtain ⟨hplaced, -⟩ := hx'.placed (placed h.tidy hx) h.tidy.packed
  obtain ⟨hplaced', -⟩ := hy'.placed (placed h.tidy_ahead hy) h.tidy_ahead.packed
  have halike : (x.evaluate v.world).node.Alike (y.evaluate u.world).node :=
    (x.alike_evaluate _).symm.trans ((h.keeps.alike n x y hx hy).trans (y.alike_evaluate _))
  exact hy'.settled.ok_of_grows hplaced' halike hplaced (h.pool_record hx hy).grows
    (hok ▸ hx'.settled)

end Finish

/-- As long as the walk behind goes on, both do the same. -/
theorem step (h : Trails ds hs ks v u) (hover : ¬ v.isOver) :
    Trails ds hs ks v.step u.step := by
  obtain ⟨hstop, hcases⟩ := step_cases hover
  obtain ⟨hstop', habreast⟩ := h.going hstop
  have hv := computes_step h.tidy
  have hu := computes_step h.tidy_ahead
  suffices hboth : v.step.world.pool.Behind ds u.step.world.pool ∧
      (v.step.stop = none → u.step.stop = none ∧ v.step.Abreast u.step) from
    ⟨hv.tidy h.tidy, hu.tidy h.tidy_ahead, fun d => (hv.mem_definitions d).trans (h.held d),
      fun d => (hu.mem_definitions d).trans (h.held_ahead d),
      ((keeps_step u).trans h.keeps).trans (keeps_step v).symm, hboth.1, hboth.2⟩
  rcases hcases with ⟨n, rest, htasks, hn, hstep, -⟩ | ⟨n, rest, htasks, hn, hstep, -⟩ |
    ⟨n, rest, htasks, hstep, -⟩
  · rw [hstep, step_enter (habreast.tasks.trans htasks), habreast.mark, if_neg hn]
    exact ⟨h.pool, fun _ => ⟨hstop', habreast.pass rest⟩⟩
  · rw [hstep, step_enter (habreast.tasks.trans htasks), habreast.mark, if_pos hn,
      pool_enter, pool_enter]
    exact ⟨h.pool, fun _ => ⟨hstop', habreast.enter n rest⟩⟩
  · rw [hstep, step_finish (habreast.tasks.trans htasks)]
    cases hx : v.nodes[n]? with
    | none =>
      rw [finish_of_none hx, finish_of_none (h.keeps.getElem?_eq_none hx)]
      exact ⟨h.pool, fun _ => ⟨hstop', habreast.pass rest⟩⟩
    | some x =>
      obtain ⟨y, hy, hxy⟩ := h.keeps.exists_node hx
      rw [finish_of_some hx, finish_of_some hy]
      refine ⟨h.pool_record hx hy, fun hnone => ?_⟩
      cases hr : (x.evaluate v.world).result with
      | error s =>
        rw [(record_of_error hr).2] at hnone
        cases hnone
      | ok _ =>
        have hr' := h.result_record hx hy hr
        refine ⟨(record_of_ok hr').2.trans hstop', habreast.record hx hy (x.alike_evaluate _)
          (y.alike_evaluate _) ?_ rest⟩
        rw [hr, hr']

theorem run (v : Walk α) : ∀ u, Trails ds hs ks v u → Trails ds hs ks v.run u.run := by
  induction v using Walk.run.induct with
  | case1 v hover =>
    intro u h
    rw [run_of_isOver hover]
    refine h.ahead (computes_run h.tidy_ahead) (keeps_run u) fun hstop => ?_
    -- Neither walk has been stopped, so that nothing is left to do in either.
    obtain ⟨hstop', habreast⟩ := h.going hstop
    have hover' : u.isOver := by
      rwa [isOver, hstop', habreast.tasks, ← hstop, ← isOver]
    rw [run_of_isOver hover']
    exact ⟨hstop', habreast⟩
  | case2 v hover _ ih =>
    intro u h
    obtain ⟨hstop, -⟩ := step_cases hover
    obtain ⟨hstop', habreast⟩ := h.going hstop
    have hover' : ¬ u.isOver := by
      rwa [isOver, hstop', habreast.tasks, ← hstop, ← isOver]
    rw [run_of_not_isOver hover, run_of_not_isOver hover']
    exact ih u.step (h.step hover)

theorem visit (h : Trails ds hs ks v u) (root : Nat) :
    Trails ds hs ks (v.visit root) (u.visit root) := by
  by_cases hstop : v.stop = none
  · obtain ⟨hstop', habreast⟩ := h.going hstop
    have hroot : Trails ds hs ks { v with tasks := [.enter root] }
        { u with tasks := [.enter root] } :=
      ⟨h.tidy, h.tidy_ahead, h.held, h.held_ahead, ⟨h.keeps.size, h.keeps.alike⟩, h.pool,
        fun _ => ⟨hstop', habreast.pass _⟩⟩
    simpa [Walk.visit, hstop, hstop'] using run _ _ hroot
  · obtain ⟨s, hs'⟩ := Option.ne_none_iff_exists'.1 hstop
    rw [visit_of_stop hs']
    exact h.ahead (computes_visit h.tidy_ahead root) (keeps_visit u root) fun h' => absurd h' hstop

theorem roots (roots : List Nat) : ∀ v u, Trails ds hs ks v u →
    Trails ds hs ks (roots.foldl Walk.visit v) (roots.foldl Walk.visit u) := by
  induction roots with
  | nil => exact fun v u h => h
  | cons root roots ih => exact fun v u h => ih _ _ (h.visit root)

end Trails

end Walk

/-! ## Graphs -/

namespace Graph

variable {ds : List (Definition α)} {hs ks : List (Holder α)} {g h : Graph α} {w w' : World α}

theorem keeps_walk (g : Graph α) (w : World α) : (g.walk w).Keeps g :=
  walk_induction (P := fun _ v => v.Keeps g) g w (g.keeps_start w)
    (fun _ _ _ _ _ _ hv => ⟨hv.size, hv.alike⟩) fun _ v _ hv => v.keeps_step.trans hv

theorem trails_walk (htrails : Walk.Trails ds hs ks (Walk.start g.nodes w)
    (Walk.start h.nodes w')) : Walk.Trails ds hs ks (g.walk w) (h.walk w') := by
  have hsize : h.nodes.size = g.nodes.size := htrails.keeps.size
  unfold walk
  rw [hsize]
  exact .roots _ _ _ htrails

end Graph

end DeferredMatrix
