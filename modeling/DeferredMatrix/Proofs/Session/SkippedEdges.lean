import DeferredMatrix.Proofs.Graph.Safety
import DeferredMatrix.Proofs.Session.Cycles
import Mathlib.Data.List.Chain

/-!
# The stack of a graph walk and the edges that it skips

Tasks of entering lie between those of finishing, and some of them are for nodes that have been
entered since. All the same the nodes that are entered and not finished are those on the stack, and
there they form a path. So a dependency that has been entered and is not finished reaches the node
that is being entered, and the edge that is skipped closes a cycle.

* `Walk.KeepsPath` : the invariant, in every state of a walk that has not been stopped
  (`Graph.Passes.keepsPath`).
* `Graph.Passes.onCommonCycle` : the ends of an edge that is skipped lie on a common cycle.
* `Graph.Passes.skips` : so do those of every edge that is recorded as skipped.
-/

namespace DeferredMatrix

variable {α : Type}

/-- A cycle of nodes that read each other goes through both nodes. -/
def Graph.OnCommonCycle (g : Graph α) (n m : Nat) : Prop :=
  Relation.TransGen g.Reads n m ∧ Relation.TransGen g.Reads m n

theorem Graph.onCommonCycle_of_reads {g : Graph α} {n m : Nat} (h : g.Reads n m)
    (hback : Relation.ReflTransGen g.Reads m n) : g.OnCommonCycle n m := by
  refine ⟨.single h, ?_⟩
  rcases Relation.reflTransGen_iff_eq_or_transGen.1 hback with rfl | hback
  · exact .single h
  · exact hback

theorem Graph.Acyclic.not_onCommonCycle {g : Graph α} (h : g.Acyclic) (n m : Nat) :
    ¬ g.OnCommonCycle n m :=
  fun hcycle => h n (hcycle.1.trans hcycle.2)

/-! ## The path on the stack -/

/-- What a walk that has not been stopped keeps to. -/
structure Walk.KeepsPath (v : Walk α) (g : Graph α) : Prop where
  /-- The nodes that are entered and not finished are on the stack, each once. -/
  pending : ∀ n, v.tasks.count (.finish n) = if v.mark n = .entered then 1 else 0
  /-- From the bottom to the top each of them reads the next one. -/
  path : (Task.pending v.tasks).reverse.IsChain g.Reads
  evaluated : ∀ n x, v.nodes[n]? = some x → v.mark n = .finished → x.isEvaluated
  closed : ∀ n m, g.Reads n m → v.mark n = .finished →
    v.mark m = .finished ∨ g.OnCommonCycle n m

namespace Task

theorem count_finish (ts : List Task) (n : Nat) : ts.count (finish n) = (pending ts).count n := by
  induction ts with
  | nil => rfl
  | cons t ts ih =>
    cases t with
    | enter m =>
      rw [List.count_cons_of_ne (by simp), ih]
      rfl
    | finish m =>
      have hpending : pending (finish m :: ts) = m :: pending ts := rfl
      rw [hpending, List.count_cons, List.count_cons, ih]
      simp

/-- Each pending node is read by the next one below it. -/
theorem Linked.isChain {reads : Nat → Nat → Prop} {ts : List Task} (h : Linked reads ts) :
    (pending ts).IsChain fun n m => reads m n := by
  induction ts with
  | nil => exact .nil
  | cons t ts ih =>
    cases t with
    | enter m => exact ih h.2
    | finish m =>
      refine List.isChain_cons.2 ⟨fun n hn => ?_, ih h.2⟩
      exact h.1 n (Option.mem_def.1 hn)

end Task

namespace Walk

variable {g : Graph α} {v : Walk α}

theorem Ordered.count_finish (hv : v.Ordered g) (n : Nat) :
    v.tasks.count (.finish n) = if v.mark n = .entered then 1 else 0 := by
  rw [Task.count_finish, hv.nodup.count]
  exact if_congr (Task.mem_pending.trans (hv.entered n).symm) rfl rfl

/-- The dependencies that are left out when a node is entered, in order. -/
def skipping (v : Walk α) (n : Nat) : List Nat :=
  (v.dependenciesOf n).filter fun d => (v.setMark n .entered).mark d = .entered

theorem mem_skipping {n d : Nat} : d ∈ v.skipping n ↔
    d ∈ v.dependenciesOf n ∧ (v.setMark n .entered).mark d = .entered := by
  simp [skipping]

/-- What is left out when a node is entered reaches that node along the stack. -/
theorem Ordered.onCommonCycle (hv : v.Ordered g) {p : Pool α} (hg : g.Placed p) (hk : v.Keeps g)
    {n : Nat} {rest : List Task} (htasks : v.tasks = .enter n :: rest) (hn : v.mark n = .unseen)
    {d : Nat} (hd : d ∈ v.skipping n) : g.OnCommonCycle n d := by
  obtain ⟨hdep, hmark⟩ := mem_skipping.1 hd
  have hread : g.Reads n d := (mem_dependenciesOf hg hk).1 hdep
  have hentered : (v.enter n rest).mark d = .entered := hmark
  rcases (hv.enter hg hk htasks hn).path (v.tasks_enter n rest) hentered with habove | hpath
  · simp at habove
  · exact Graph.onCommonCycle_of_reads hread hpath

theorem Tracks.keepsPath [Scalar α] {p : Pool α} {as : List (Tried α)} (h : Tracks g p as v)
    (hstop : v.stop = none) : v.KeepsPath g where
  pending := (h.ordered hstop).count_finish
  path := List.isChain_reverse.2 (h.ordered hstop).linked.isChain
  evaluated := by
    intro n x hx hn
    have hlt : n < g.nodes.size := h.keeps.size ▸ (Array.getElem?_eq_some_iff.1 hx).1
    obtain ⟨y, hy, -, hcompleted⟩ := h.completed_of_mem ((h.finished n hlt).1 hn)
    obtain rfl : x = y := Option.some.inj (hx.symm.trans hy)
    exact x.isEvaluated_iff.2 hcompleted
  closed := by
    intro n m hread hn
    obtain ⟨bs, cs, hsplit⟩ := List.append_of_mem ((h.finished n hread.lt_left).1 hn)
    rcases h.after bs _ cs hsplit m hread with hm | hback
    · have hmem : ⟨m, .ok ()⟩ ∈ as := hsplit ▸ List.mem_append_left _ hm
      exact Or.inl ((h.finished m hread.lt_right).2 hmem)
    · exact Or.inr (Graph.onCommonCycle_of_reads hread hback)

end Walk

/-! ## Skipped edges in the log -/

/-- The log has got longer, and the edges that have been recorded as skipped are of a kind. -/
def World.Skips (kind : Nat → Nat → Prop) (w w' : World α) : Prop :=
  ∃ es, w'.log.toList = w.log.toList ++ es ∧ ∀ n d, .edgeSkipped n d ∈ es → kind n d

namespace World.Skips

variable {kind : Nat → Nat → Prop} {w w' w'' : World α}

theorem refl : w.Skips kind w :=
  ⟨[], (List.append_nil _).symm, fun _ _ h => absurd h List.not_mem_nil⟩

theorem trans (h : w.Skips kind w') (h' : w'.Skips kind w'') : w.Skips kind w'' := by
  obtain ⟨es, hlog, hes⟩ := h
  obtain ⟨es', hlog', hes'⟩ := h'
  refine ⟨es ++ es', by rw [hlog', hlog, List.append_assoc], fun n d hmem => ?_⟩
  rcases List.mem_append.1 hmem with hmem | hmem
  · exact hes n d hmem
  · exact hes' n d hmem

theorem emit {ev : Event α} (hev : ∀ n d, ev = .edgeSkipped n d → kind n d) :
    w.Skips kind (w.emit ev) := by
  refine ⟨[ev], Array.toList_push, fun n d hmem => ?_⟩
  exact hev n d (List.mem_singleton.1 hmem).symm

theorem setPool {p : Pool α} (h : (w.setPool p).Skips kind w') : w.Skips kind w' := h

theorem noteRefusal (s : Stop α) : w.Skips kind (w.noteRefusal s) := by
  unfold World.noteRefusal
  split
  · exact emit (by simp)
  · exact refl

theorem noteStep (b : BufferId) (i : Nat) (s : Stop α) : w.Skips kind (w.noteStep b i s) := by
  unfold World.noteStep
  split
  · exact emit (by simp)
  · exact refl

variable [Scalar α]

theorem runAll (b : BufferId) (steps : List (Step α)) : ∀ (completed : Nat) (w : World α),
    w.Skips kind (Step.runAll b completed steps w).world := by
  induction steps with
  | nil => exact fun _ _ => refl
  | cons step steps ih =>
    intro completed w
    unfold Step.runAll
    split
    · exact (noteRefusal _).trans (noteStep _ _ _)
    · split
      · exact refl
      · exact (setPool (emit (by simp))).trans (ih _ _)

/-- Evaluating a node skips no edge. -/
theorem evaluate (x : Node α) (w : World α) : w.Skips kind (x.evaluate w).world := by
  cases x with
  | operation o =>
    simp only [Node.evaluate, Operation.evaluate]
    split
    · exact refl
    · split
      · exact refl
      · split
        · exact noteRefusal _
        · exact setPool (emit (by simp))
  | compound c =>
    simp only [Node.evaluate, Compound.evaluate]
    split
    · exact refl
    · exact runAll _ _ _ _

end World.Skips

/-- What is left out when a node is entered is recorded, and nothing else is. -/
theorem Walk.log_enter (v : Walk α) (n : Nat) (rest : List Task) :
    (v.enter n rest).world.log.toList =
      v.world.log.toList ++ (v.skipping n).map (.edgeSkipped n) := by
  have hemit : ∀ (ds : List Nat) (w : World α),
      (ds.foldl (fun world d => world.emit (.edgeSkipped n d)) w).log.toList =
        w.log.toList ++ ds.map (.edgeSkipped n) := by
    intro ds
    induction ds with
    | nil => exact fun w => (List.append_nil _).symm
    | cons d ds ih =>
      intro w
      have hpush : (w.emit (.edgeSkipped n d)).log.toList = w.log.toList ++ [.edgeSkipped n d] :=
        Array.toList_push
      rw [List.foldl_cons, ih, hpush, List.append_assoc, List.singleton_append, List.map_cons]
  exact hemit _ _

theorem Walk.skips_enter {kind : Nat → Nat → Prop} {v : Walk α} {n : Nat}
    (h : ∀ d ∈ v.skipping n, kind n d) (rest : List Task) :
    v.world.Skips kind (v.enter n rest).world := by
  refine ⟨_, v.log_enter n rest, fun n' d hmem => ?_⟩
  obtain ⟨d', hd', heq⟩ := List.mem_map.1 hmem
  cases heq
  exact h d hd'

/-! ## States of a walk -/

namespace Graph.Passes

variable [Scalar α] {g : Graph α} {w : World α} {v : Walk α}

theorem keepsPath (h : g.Passes w v) (hg : g.Placed w.pool) (hstop : v.stop = none) :
    v.KeepsPath g := by
  obtain ⟨as, has⟩ := h.tracks hg
  exact has.keepsPath hstop

theorem onCommonCycle (h : g.Passes w v) (hg : g.Placed w.pool) (hstop : v.stop = none) {n : Nat}
    {rest : List Task} (htasks : v.tasks = .enter n :: rest) (hn : v.mark n = .unseen) :
    ∀ d ∈ v.skipping n, g.OnCommonCycle n d := by
  obtain ⟨as, has⟩ := h.tracks hg
  exact fun d hd => (has.ordered hstop).onCommonCycle hg has.keeps htasks hn hd

theorem skips (h : g.Passes w v) (hg : g.Placed w.pool) :
    w.Skips g.OnCommonCycle v.world := by
  induction h with
  | start => exact .refl
  | root _ _ _ _ ih => exact ih
  | @step v hv hover ih =>
    refine ih.trans ?_
    obtain ⟨hstop, ⟨n, rest, -, -, hstep, -⟩ | ⟨n, rest, htasks, hn, hstep, -⟩ |
      ⟨n, rest, -, hstep, -⟩⟩ := Walk.step_cases hover
    · rw [hstep]
      exact .refl
    · rw [hstep]
      exact Walk.skips_enter (hv.onCommonCycle hg hstop htasks hn) rest
    · rw [hstep]
      unfold Walk.finish
      split
      · exact .refl
      · exact .evaluate _ _

end Graph.Passes

theorem Graph.Placed.skips_evaluate [Scalar α] {g : Graph α} {w : World α}
    (hg : g.Placed w.pool) : w.Skips g.OnCommonCycle (g.evaluate w).world := by
  refine ((g.passes_walk w).skips hg).trans ?_
  unfold Graph.evaluate
  simp only
  split
  · exact .refl
  · exact .emit (by simp)

/-! ## Graphs of a session -/

variable [Scalar α] [ToText α]

/-- In every state of every walk through a graph, cyclic or not, the invariant of the stack holds,
and an edge is left out only if its ends lie on a common cycle. The edges that are recorded as
skipped are of this kind. Without cycles no edge is left out, and none is recorded. -/
theorem skipped_edges_close_cycles (cs : List (Command α)) {name : String} {g : Graph α}
    (hg : (Session.empty.run cs).graph? name = some g) :
    (∀ v, g.Passes (Session.empty.run cs).world v → v.stop = none → v.KeepsPath g ∧
      ∀ n rest, v.tasks = .enter n :: rest → v.mark n = .unseen →
        (∀ d ∈ v.skipping n, g.OnCommonCycle n d) ∧ (g.Acyclic → v.skipping n = [])) ∧
    (Session.empty.run cs).world.Skips g.OnCommonCycle
      (g.evaluate (Session.empty.run cs).world).world ∧
    (g.Acyclic → (Session.empty.run cs).world.Skips (fun _ _ => False)
      (g.evaluate (Session.empty.run cs).world).world) := by
  have hplaced : g.Placed (Session.empty.run cs).world.pool :=
    (Session.orderly_run cs).graph_placed hg
  have hskips := hplaced.skips_evaluate
  refine ⟨fun v hv hstop => ⟨hv.keepsPath hplaced hstop, fun n rest htasks hn => ?_⟩, hskips,
    fun hacyclic => ?_⟩
  · have hcycle := hv.onCommonCycle hplaced hstop htasks hn
    refine ⟨hcycle, fun hacyclic => List.eq_nil_iff_forall_not_mem.2 fun d hd => ?_⟩
    exact hacyclic.not_onCommonCycle n d (hcycle d hd)
  · obtain ⟨es, hlog, hes⟩ := hskips
    exact ⟨es, hlog, fun n d hmem => hacyclic.not_onCommonCycle n d (hes n d hmem)⟩

/-- The walk through the compounds that read each other, when the second one is about to be
entered: the first one is on the stack, and the edge back to it is left out. -/
theorem mutualTransposes_skip_closing_edge :
    (Session.empty.run mutualTransposes).graph? "g" = some mutualGraph ∧
    ∃ v, mutualGraph.Passes (Session.empty.run mutualTransposes).world v ∧ v.stop = none ∧
      v.tasks = [.enter 1, .finish 0] ∧ v.mark 1 = .unseen ∧ v.skipping 1 = [0] ∧
      v.KeepsPath mutualGraph ∧ mutualGraph.OnCommonCycle 1 0 ∧
    (Session.empty.run mutualTransposes).world.Skips mutualGraph.OnCommonCycle
      (mutualGraph.evaluate (Session.empty.run mutualTransposes).world).world := by
  have hg : (Session.empty.run mutualTransposes).graph? "g" = some mutualGraph := rfl
  let root : Walk Float32 :=
    { Walk.start mutualGraph.nodes (Session.empty.run mutualTransposes).world with
      tasks := [.enter 0] }
  have hroot : mutualGraph.Passes (Session.empty.run mutualTransposes).world root :=
    .root .start (by decide) rfl rfl
  have hv : mutualGraph.Passes (Session.empty.run mutualTransposes).world root.step :=
    .step hroot (by decide)
  have htasks : root.step.tasks = [.enter 1, .finish 0] := by decide +kernel
  have hskipping : root.step.skipping 1 = [0] := by decide +kernel
  obtain ⟨hwalk, hskips, -⟩ := skipped_edges_close_cycles mutualTransposes hg
  obtain ⟨hpath, hedges⟩ := hwalk root.step hv rfl
  have hcycle : mutualGraph.OnCommonCycle 1 0 :=
    (hedges 1 [.finish 0] htasks rfl).1 0 (hskipping ▸ List.mem_singleton_self 0)
  exact ⟨hg, root.step, hv, rfl, htasks, rfl, hskipping, hpath, hcycle, hskips⟩

end DeferredMatrix
