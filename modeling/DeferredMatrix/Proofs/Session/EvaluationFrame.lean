import DeferredMatrix.Proofs.Graph.Retry
import DeferredMatrix.Proofs.Session.Reachable

/-!
# What evaluations change

An evaluation writes slots of the node or of the nodes of the graph that is evaluated, none of them
over what was written before, and no buffer comes or goes (`Pool.Framed`). That is so whether it
succeeds or fails. When it fails, what it has written is known exactly for operations and
compounds, and for graphs up to the nodes that have been attempted.

Evaluating again at once is of no use (`Attempt.IsFinal`). All this holds in every session, however
handles to buffers have been made, and of graphs with cycles too.
-/

namespace DeferredMatrix

variable {α : Type}

namespace Pool

/-- The slot is written in the second pool only. -/
def NewlyWritten (p q : Pool α) (place : Place) : Prop :=
  p.contents? place = none ∧ (q.contents? place).isSome

/-- What is written stays, the same buffers are live, and those outside of `own` are the same. -/
structure Framed (p q : Pool α) (own : BufferId → Prop) : Prop where
  contents : ∀ place xs, p.contents? place = some xs → q.contents? place = some xs
  store : ∀ b, ¬ own b → q.store? b = p.store? b
  isLive : ∀ b, q.isLive b = p.isLive b

theorem Grows.framed {p q : Pool α} {own : BufferId → Prop} (h : p.Grows q)
    (hstore : ∀ b, ¬ own b → q.store? b = p.store? b) : p.Framed q own :=
  ⟨h.contents, hstore, h.isLive⟩

end Pool

/-- Evaluating again in the pool that an evaluation has left behind has the same result and changes
nothing. -/
def Attempt.IsFinal {ν : Type} (evaluate : World α → ν → Attempt ν α) (a : Attempt ν α) : Prop :=
  ∀ w, w.pool = a.world.pool → (evaluate w a.node).result = a.result ∧
    (evaluate w a.node).node = a.node ∧ (evaluate w a.node).world.pool = w.pool

variable [Scalar α] {w : World α} {s : Stop α}

/-! ## Nodes -/

/-- An operation that fails changes nothing. -/
theorem Operation.evaluate_error {o : Operation α} (h : (o.evaluate w).result = .error s) :
    (o.evaluate w).node = o ∧ (o.evaluate w).world.pool = w.pool := by
  unfold evaluate at h ⊢
  split
  · exact ⟨rfl, rfl⟩
  · split
    · exact ⟨rfl, rfl⟩
    · split
      · rename_i s' hs'
        exact ⟨rfl, Node.pool_noteStop (.operation o) w s'⟩
      · simp_all

/-- What the evaluation of a live node writes for the first time. -/
theorem Node.Evaluates.newlyWritten_iff {n : Node α} {a : Attempt (Node α) α}
    (h : n.Evaluates w a) (hn : n.Placed w.pool) (hp : w.pool.Packed)
    (hr : n.lease.released = false) (place : Place) :
    w.pool.NewlyWritten a.world.pool place ↔
      place.buffer = n.buffer ∧ n.completed ≤ place.slot ∧ place.slot < a.node.completed := by
  obtain ⟨hn', -, hsame, -, hlease, -⟩ := h.placed hn hp
  by_cases hbuffer : place.buffer = n.buffer
  · have hbuffer' : place.buffer = a.node.lease.buffer := by rwa [hlease]
    rw [Pool.NewlyWritten, ← Option.not_isSome_iff_eq_none, hn.isSome_contents_iff hr hbuffer,
      hn'.isSome_contents_iff (hlease ▸ hr) hbuffer']
    simp only [hbuffer, true_and, Nat.not_lt]
  · rw [Pool.NewlyWritten, hsame.contents hbuffer]
    refine iff_of_false (fun ⟨hnone, hsome⟩ => ?_) fun h => hbuffer h.1
    rw [hnone] at hsome
    cases hsome

/-- A compound that fails has been released, or it has written exactly the slots of the steps from
the first one that was not completed up to the one that fails. -/
theorem Compound.evaluate_error {c : Compound α} (hc : (Node.compound c).Placed w.pool)
    (hp : w.pool.Packed) (h : (c.evaluate w).result = .error s) :
    c.lease.released = true ∧ (c.evaluate w).node = c ∧ (c.evaluate w).world.pool = w.pool ∨
      (∃ step, c.steps[(c.evaluate w).node.completed]? = some step ∧
        step.instruction.execute (c.evaluate w).world.pool = .error s) ∧
      ∀ place, w.pool.NewlyWritten (c.evaluate w).world.pool place ↔
        place.buffer = c.buffer ∧ c.completed ≤ place.slot ∧
          place.slot < (c.evaluate w).node.completed := by
  have hevaluates := (Node.compound c).evaluate_evaluates hc hp
  rcases hevaluates.error h with ⟨hr, -⟩ | ⟨hr, step, hstep, hexec⟩
  · have hr : c.lease.released = true := hr
    rw [evaluate, if_pos hr]
    exact Or.inl ⟨hr, rfl, rfl⟩
  · rw [hevaluates.alike.steps] at hstep
    exact Or.inr ⟨⟨step, hstep, hexec⟩, hevaluates.newlyWritten_iff hc hp hr⟩

theorem Operation.exists_evaluate_node (o : Operation α) (w : World α) :
    ∃ evaluated, (o.evaluate w).node = { o with evaluated := evaluated } := by
  unfold evaluate
  split
  · exact ⟨o.evaluated, rfl⟩
  · split
    · exact ⟨o.evaluated, rfl⟩
    · split
      · exact ⟨o.evaluated, rfl⟩
      · exact ⟨true, rfl⟩

theorem Compound.exists_evaluate_node (c : Compound α) (w : World α) :
    ∃ completed, (c.evaluate w).node = { c with completed := completed } := by
  unfold evaluate
  split
  · exact ⟨c.completed, rfl⟩
  · exact ⟨_, rfl⟩

/-- What depends on the handle of the result stays the same. -/
theorem Node.handle_evaluate {β : Type} (f : (k : Kind) → Handle k → β) (n : Node α)
    (w : World α) :
    f (n.evaluate w).node.kind (n.evaluate w).node.handle = f n.kind n.handle := by
  cases n with
  | operation o =>
    obtain ⟨evaluated, ho⟩ := o.exists_evaluate_node w
    simp only [evaluate]
    rw [ho]
    rfl
  | compound c =>
    obtain ⟨completed, hc⟩ := c.exists_evaluate_node w
    simp only [evaluate]
    rw [hc]
    rfl

theorem Node.isFinal_evaluate {n : Node α} (hn : n.Placed w.pool) (hp : w.pool.Packed) :
    (n.evaluate w).IsFinal Node.evaluate := by
  intro w' hw'
  obtain ⟨hresult, hnode, hpool⟩ := Node.evaluate_again hn hp hw'
  exact ⟨hresult, hnode, hpool.trans hw'.symm⟩

/-! ## Graphs -/

namespace Graph.Placed

variable {g : Graph α}

theorem isFinal_evaluate (hg : g.Placed w.pool) :
    (g.evaluate w).IsFinal fun w g => g.evaluate w := by
  intro w' hw'
  obtain ⟨hresult, hnode, hpool⟩ := hg.evaluate_again hw'
  exact ⟨hresult, hnode, hpool.trans hw'.symm⟩

/-- Buffers of no node of the graph stay as they are. -/
theorem store_evaluate (hg : g.Placed w.pool) {b : BufferId} (hb : ¬ ∃ n ∈ g.nodes, n.buffer = b) :
    (g.evaluate w).world.pool.store? b = w.pool.store? b := by
  rw [evaluate_pool]
  refine hg.tracks_walk.stage.others b fun t _ x hx hxb => hb ⟨x, ?_, hxb⟩
  exact Array.mem_of_getElem? hx

/-- Slots are written in buffers of nodes that are attempted. -/
theorem exists_attempt (hg : g.Placed w.pool) {place : Place}
    (hplace : w.pool.NewlyWritten (g.evaluate w).world.pool place) :
    ∃ t ∈ g.attempts w, ∃ x, g.nodes[t.place]? = some x ∧ x.buffer = place.buffer := by
  by_contra hnone
  have hstore := hg.tracks_walk.stage.others place.buffer fun t ht x hx hxb =>
    hnone ⟨t, ht, x, hx, hxb⟩
  obtain ⟨hbefore, hafter⟩ := hplace
  rw [evaluate_pool, Pool.contents?_congr hstore, hbefore] at hafter
  cases hafter

/-- All attempts but the last one leave a node evaluated. -/
theorem exists_stop_evaluated (hg : g.Placed w.pool) (h : (g.evaluate w).result = .error s) :
    ∃ ts k, g.attempts w = ts ++ [⟨k, .error s⟩] ∧
      ∀ t ∈ ts, ∃ y, (g.evaluate w).node.nodes[t.place]? = some y ∧ y.isEvaluated := by
  obtain ⟨ts, k, hsplit, hok⟩ := hg.exists_stop h
  refine ⟨ts, k, hsplit, fun ⟨m, r⟩ ht => ?_⟩
  have hr : r = .ok () := hok _ ht
  subst hr
  obtain ⟨y, hy, -, hcompleted⟩ :=
    hg.tracks_walk.completed_of_mem (hsplit ▸ List.mem_append_left _ ht)
  rw [evaluate_nodes]
  exact ⟨y, hy, y.isEvaluated_iff.2 hcompleted⟩

end Graph.Placed

/-! ## Sessions -/

variable {free : Prop} {s : Session α}

/-- The command evaluates a node or a graph. -/
def Command.evaluates : Command α → Bool
  | .node (.evaluate _) | .node (.compute _) | .graph (.evaluate _) => true
  | _ => false

theorem Catalog.replace_replace {β : Type} (c : Catalog β) (name : String) (x : β) :
    (c.replace name x).replace name x = c.replace name x := by
  induction c with
  | nil => rfl
  | cons entry c ih =>
    obtain ⟨n, y⟩ := entry
    by_cases hn : n = name
    · simp [replace, hn]
    · simp [replace, hn, ih]

namespace Session

/-- The session after the node or the graph that a name stands for has been evaluated. -/
def withNode (s : Session α) (name : String) (a : Attempt (Node α) α) : Session α :=
  ⟨a.world.pool, s.objects.replace name (.node a.node)⟩

def withGraph (s : Session α) (name : String) (a : Attempt (Graph α) α) : Session α :=
  ⟨a.world.pool, s.objects.replace name (.graph a.node)⟩

theorem Orderly.grows_node (hs : s.Orderly free) {n : Node α}
    (hn : .node n ∈ s.objects.holders) : s.pool.Grows (n.evaluate s.world).world.pool := by
  obtain ⟨hs₁, hs₂, hsplit⟩ := List.append_of_mem hn
  have hperm : s.objects.holders.Perm (.node n :: (hs₁ ++ hs₂)) := by
    rw [hsplit]
    exact List.perm_middle
  have hfirst : Computes s.estate ⟨s.world, .node n :: (hs₁ ++ hs₂)⟩ := .single (.perm hperm)
  have hevaluates := n.evaluate_evaluates (w := s.world) (hs.estate.tidy.placed _ hn)
    hs.estate.tidy.packed
  exact ((hfirst.trans (hevaluates.computes _)).behind hs.estate.tidy).grows

theorem Orderly.computes_withNode (hs : s.Orderly free) {name : String} {n : Node α}
    (hn : s.node? name = some n) : Computes s.estate ⟨(n.evaluate s.world).world,
      (s.withNode name (n.evaluate s.world)).objects.holders⟩ := by
  obtain ⟨hs', hperm, hreplace, -⟩ := Catalog.exists_holders hs.names (object?_of_node? hn)
  have hfirst : Computes s.estate ⟨s.world, .node n :: hs'⟩ := .single (.perm hperm)
  have hevaluates := n.evaluate_evaluates (w := s.world) (hs.node_placed hn)
    hs.estate.tidy.packed
  exact hfirst.trans ((hevaluates.computes hs').trans (.single (.perm (hreplace (.node _)).symm)))

theorem Orderly.computes_withGraph (hs : s.Orderly free) {name : String} {g : Graph α}
    (hg : s.graph? name = some g) : Computes s.estate ⟨(g.evaluate s.world).world,
      (s.withGraph name (g.evaluate s.world)).objects.holders⟩ := by
  obtain ⟨hs', hperm, hreplace, -⟩ := Catalog.exists_holders hs.names (object?_of_graph? hg)
  have hfirst : Computes s.estate ⟨s.world, nodeHolders g.nodes ++ hs'⟩ := .single (.perm hperm)
  have hevaluated := g.computes_evaluate (hfirst.tidy hs.estate.tidy)
  exact hfirst.trans (hevaluated.trans (.single (.perm (hreplace (.graph _)).symm)))

section Again

variable {name : String} {t : Session α}

/-- The session after the evaluation of a node stays as it is when that is evaluated again. -/
theorem Orderly.node_again (hs : s.Orderly free) {n : Node α}
    (hn : s.node? name = some n) (hpool : t.pool = (n.evaluate s.world).world.pool)
    (hobjects : t.objects = s.objects.replace name (.node (n.evaluate s.world).node)) :
    ((n.evaluate s.world).node.evaluate t.world).result = (n.evaluate s.world).result ∧
      (⟨((n.evaluate s.world).node.evaluate t.world).world.pool, t.objects.replace name
        (.node ((n.evaluate s.world).node.evaluate t.world).node)⟩ : Session α) = t := by
  obtain ⟨hresult, hnode, hpool'⟩ := Node.isFinal_evaluate (w := s.world) (hs.node_placed hn)
    hs.estate.tidy.packed t.world hpool
  rw [hnode, hpool', hobjects, Catalog.replace_replace, ← hobjects]
  exact ⟨hresult, rfl⟩

theorem Orderly.graph_again (hs : s.Orderly free) {g : Graph α}
    (hg : s.graph? name = some g) (hpool : t.pool = (g.evaluate s.world).world.pool)
    (hobjects : t.objects = s.objects.replace name (.graph (g.evaluate s.world).node)) :
    ((g.evaluate s.world).node.evaluate t.world).result = (g.evaluate s.world).result ∧
      (⟨((g.evaluate s.world).node.evaluate t.world).world.pool, t.objects.replace name
        (.graph ((g.evaluate s.world).node.evaluate t.world).node)⟩ : Session α) = t := by
  obtain ⟨hresult, hgraph, hpool'⟩ :=
    (hs.graph_placed hg).isFinal_evaluate (w := s.world) t.world hpool
  simp only at hresult hgraph hpool'
  rw [hgraph, hpool', hobjects, Catalog.replace_replace, ← hobjects]
  exact ⟨hresult, rfl⟩

end Again

end Session

variable [ToText α]

open Session in
/-- What the commands do that evaluate something. -/
theorem Command.next_of_evaluates {c : Command α} (hc : c.evaluates) : ∃ name : String,
    (∀ s : Session α, s.next c =
        (s.node? name).elim s fun n => s.withNode name (n.evaluate s.world)) ∨
      ∀ s : Session α, s.next c =
        (s.graph? name).elim s fun g => s.withGraph name (g.evaluate s.world) := by
  unfold evaluates at hc
  split at hc
  · rename_i name
    refine ⟨name, Or.inl fun s => ?_⟩
    cases hn : s.node? name <;> simp [next, perform, performNode, hn, change, withNode]
  · rename_i name
    refine ⟨name, Or.inl fun s => ?_⟩
    cases hn : s.node? name <;> simp [next, perform, performNode, hn, change, withNode]
  · rename_i name
    refine ⟨name, Or.inr fun s => ?_⟩
    cases hg : s.graph? name <;> simp [next, perform, performGraph, hg, change, withGraph]
  · cases hc

namespace Session

/-- A command that evaluates something answers the same again and changes nothing. -/
theorem Orderly.perform_again (hs : s.Orderly free) {c : Command α} (hc : c.evaluates) :
    (s.next c).next c = s.next c ∧
      ((s.next c).perform c).map Outcome.reply = (s.perform c).map Outcome.reply := by
  -- It suffices that the outcome of the second time is that of the first, apart from the events.
  suffices h : ∀ o, s.perform c = some o → ∃ o', o.session.perform c = some o' ∧
      o'.session = o.session ∧ o'.reply = o.reply by
    cases ho : s.perform c with
    | none => simp [Session.next, ho]
    | some o =>
      obtain ⟨o', ho', hsession, hreply⟩ := h o ho
      simp [Session.next, ho, ho', hsession, hreply]
  intro o ho
  unfold Command.evaluates at hc
  split at hc
  · rename_i name
    obtain ⟨n, hn, ho⟩ := Option.bind_eq_some_iff.1 ho
    cases ho
    obtain ⟨hresult, hsession⟩ := hs.node_again (t := ⟨_, _⟩) hn rfl rfl
    refine ⟨_, Option.bind_eq_some_iff.2 ⟨_, node?_replace hn, rfl⟩, hsession, ?_⟩
    have hplace := n.handle_evaluate (fun _ h => h.place) s.world
    simp only [change, hresult, hplace]
  · rename_i name
    obtain ⟨n, hn, ho⟩ := Option.bind_eq_some_iff.1 ho
    cases ho
    obtain ⟨hresult, hsession⟩ := hs.node_again (t := ⟨_, _⟩) hn rfl rfl
    refine ⟨_, Option.bind_eq_some_iff.2 ⟨_, node?_replace hn, rfl⟩, hsession, ?_⟩
    have hpool := congrArg Session.pool hsession
    have hread := n.handle_evaluate
      (fun k h => ((n.evaluate s.world).world.pool.read h).map (Answer.value k)) s.world
    simp only at hpool
    simp only [change, hresult, hpool, hread]
  · rename_i name
    obtain ⟨g, hg, ho⟩ := Option.bind_eq_some_iff.1 ho
    cases ho
    obtain ⟨hresult, hsession⟩ := hs.graph_again (t := ⟨_, _⟩) hg rfl rfl
    refine ⟨_, Option.bind_eq_some_iff.2 ⟨_, graph?_replace hg, rfl⟩, hsession, ?_⟩
    simp only [change, hresult]
  · cases hc

end Session

theorem evaluations_are_framed_and_final (cs : List (Command α)) :
    let s := Session.empty.run cs
    (∀ n, .node n ∈ s.objects.holders →
      s.pool.Framed (n.evaluate s.world).world.pool (fun b => b = n.buffer) ∧
      (n.evaluate s.world).IsFinal Node.evaluate) ∧
    (∀ o, .node (.operation o) ∈ s.objects.holders →
      ∀ e, (o.evaluate s.world).result = .error e →
        (o.evaluate s.world).node = o ∧ (o.evaluate s.world).world.pool = s.pool) ∧
    (∀ c, .node (.compound c) ∈ s.objects.holders →
      ∀ e, (c.evaluate s.world).result = .error e →
        c.lease.released = true ∧ (c.evaluate s.world).node = c ∧
          (c.evaluate s.world).world.pool = s.pool ∨
        (∃ step, c.steps[(c.evaluate s.world).node.completed]? = some step ∧
          step.instruction.execute (c.evaluate s.world).world.pool = .error e) ∧
        ∀ place, s.pool.NewlyWritten (c.evaluate s.world).world.pool place ↔
          place.buffer = c.buffer ∧ c.completed ≤ place.slot ∧
            place.slot < (c.evaluate s.world).node.completed) ∧
    (∀ name g, s.graph? name = some g →
      s.pool.Framed (g.evaluate s.world).world.pool (fun b => ∃ n ∈ g.nodes, n.buffer = b) ∧
      (g.evaluate s.world).IsFinal (fun w g => g.evaluate w) ∧
      ∀ e, (g.evaluate s.world).result = .error e →
        (∃ ts k, g.attempts s.world = ts ++ [⟨k, .error e⟩] ∧
          ∀ t ∈ ts, ∃ y, (g.evaluate s.world).node.nodes[t.place]? = some y ∧ y.isEvaluated) ∧
        ∀ place, s.pool.NewlyWritten (g.evaluate s.world).world.pool place →
          ∃ t ∈ g.attempts s.world, ∃ x, g.nodes[t.place]? = some x ∧ x.buffer = place.buffer) ∧
    ∀ c : Command α, c.evaluates → (s.next c).next c = s.next c ∧
      ((s.next c).perform c).map Outcome.reply = (s.perform c).map Outcome.reply := by
  intro s
  have hs : s.Orderly True := Session.orderly_run cs
  have hpacked := hs.estate.tidy.packed
  have hplaced : ∀ n, .node n ∈ s.objects.holders → n.Placed s.pool :=
    fun n hn => hs.estate.tidy.placed _ hn
  refine ⟨fun n hn => ⟨?_, Node.isFinal_evaluate (hplaced n hn) hpacked⟩,
    fun o _ e => Operation.evaluate_error,
    fun c hc e => Compound.evaluate_error (hplaced _ hc) hpacked, fun name g hg => ?_,
    fun c hc => hs.perform_again hc⟩
  · have hevaluates := n.evaluate_evaluates (w := s.world) (hplaced n hn) hpacked
    obtain ⟨-, -, hsame, -⟩ := hevaluates.placed (hplaced n hn) hpacked
    exact (hs.grows_node hn).framed fun b hb => hsame.store b hb
  · have hg' := hs.graph_placed hg
    have hgrows := ((hs.computes_withGraph hg).behind hs.estate.tidy).grows
    exact ⟨hgrows.framed fun b hb => hg'.store_evaluate (w := s.world) hb,
      hg'.isFinal_evaluate (w := s.world), fun e he =>
      ⟨hg'.exists_stop_evaluated (w := s.world) he, fun place hplace =>
        hg'.exists_attempt (w := s.world) hplace⟩⟩

/-- Makes a compound that takes an identity matrix and transposes a slot that is never written. -/
def strandedTranspose : List (Command Float32) :=
  [.buffer (.allocate "user" [.matrix]), .buffer (.takeHandle "user" .matrix 0 "input"),
    .draft (.create "draft"), .draft (.push "draft" .matrix .identity none),
    .draft (.push "draft" .matrix (.transpose (.handle "input")) none),
    .draft (.finish "draft" .matrix "compound")]

theorem strandedTranspose_is_framed_and_final :
    let s := Session.empty.run strandedTranspose
    ∃ c, .node (.compound c) ∈ s.objects.holders ∧
      (c.evaluate s.world).result = .error (.failure (.unevaluated ⟨⟨0⟩, 0⟩)) ∧
      (∀ place, s.pool.NewlyWritten (c.evaluate s.world).world.pool place ↔
        place.buffer = ⟨1⟩ ∧ 0 ≤ place.slot ∧ place.slot < 1) ∧
      (s.next (.node (.evaluate "compound"))).next (.node (.evaluate "compound")) =
        s.next (.node (.evaluate "compound")) := by
  intro s
  let steps : List (Step Float32) := [⟨.identity, 0⟩, ⟨.transpose (.handle ⟨⟨0⟩, 0⟩), 1⟩]
  have hc : .node (.compound ⟨⟨⟨1⟩, false⟩, steps, 0, by simp [steps]⟩) ∈ s.objects.holders :=
    List.mem_cons_self
  obtain ⟨-, -, hcompound, -, hagain⟩ := evaluations_are_framed_and_final strandedTranspose
  obtain ⟨hr, -⟩ | ⟨-, hnew⟩ := hcompound _ hc _ rfl
  · cases hr
  · exact ⟨_, hc, rfl, hnew, (hagain _ rfl).1⟩

end DeferredMatrix
