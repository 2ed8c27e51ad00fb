import DeferredMatrix.Proofs.Graph.Confluence
import DeferredMatrix.Proofs.Session.EvaluationFrame

/-!
# Where nodes come from

A command makes nodes, releases them or moves them about, or it evaluates some of them, each once
and from where it stood to where its evaluation ends. So it is known of every node after a command
what it was before, without looking at the steps in between.

* `Changes.remains` : without computing, nodes change at most their leases.
* `Orderly.origin_next` : the origin of every node after a command.
-/

namespace DeferredMatrix

/-! ## Nodes that remain -/

section Remains

variable {α : Type}

/-- The node is the same, unless its buffer has been released. -/
def Node.Remains (n n' : Node α) : Prop :=
  ∃ l : Lease, n' = n.setLease l ∧ l.buffer = n.buffer ∧
    (l.released = false → n.lease.released = false)

namespace Node.Remains

variable {n n' n'' : Node α}

theorem refl (n : Node α) : n.Remains n := ⟨n.lease, by cases n <;> rfl, rfl, id⟩

theorem trans (h : n.Remains n') (h' : n'.Remains n'') : n.Remains n'' := by
  obtain ⟨l, rfl, hb, hr⟩ := h
  obtain ⟨l', rfl, hb', hr'⟩ := h'
  cases n with
  | operation o | compound c => exact ⟨l', rfl, hb'.trans hb, fun hl => hr (hr' hl)⟩

theorem completed (h : n.Remains n') : n'.completed = n.completed := by
  obtain ⟨l, rfl, -⟩ := h
  cases n <;> rfl

theorem release (n : Node α) (w : World α) : n.Remains (n.release w).1 := by
  refine ⟨(n.lease.release w).1, rfl, n.lease.buffer_release w, fun hr => ?_⟩
  unfold Lease.release at hr
  split at hr
  · exact hr
  · cases hr

end Node.Remains

variable [Scalar α] {free : Prop} {ph : Phase α} {e e' : Estate α}

/-- What is not computed remains, or is new. -/
theorem Move.remains (h : Move ph e e') (hph : ph ≠ .computing) {n' : Node α}
    (hn' : .node n' ∈ e'.holders) :
    n'.completed = 0 ∨ ∃ n, .node n ∈ e.holders ∧ n.Remains n' := by
  have hold : ∀ {hs : List (Holder α)}, .node n' ∈ hs → (∀ k ∈ hs, k ∈ e.holders) →
      n'.completed = 0 ∨ ∃ n, .node n ∈ e.holders ∧ n.Remains n' :=
    fun hmem hsub => Or.inr ⟨n', hsub _ hmem, .refl n'⟩
  cases h with
  | advance h => exact absurd rfl hph
  | allocate label layout | create label =>
    rcases List.mem_cons.1 hn' with heq | hmem
    · cases heq
    · exact hold hmem fun k hk => hk
  | pushSlot hq | write hq | push hi hreads hd =>
    rcases List.mem_cons.1 hn' with heq | hmem
    · cases heq
    · exact hold hmem fun k hk => List.mem_cons_of_mem _ hk
  | finish hc =>
    rcases List.mem_cons.1 hn' with heq | hmem
    · cases heq
      exact Or.inl (Draft.finish_ok hc).2.2.2.1
    · exact hold hmem fun k hk => List.mem_cons_of_mem _ hk
  | start label hi =>
    rcases List.mem_cons.1 hn' with heq | hmem
    · cases heq
      exact Or.inl rfl
    · exact hold hmem fun k hk => hk
  | @release _ w hs h hd =>
    rcases List.mem_cons.1 hn' with heq | hmem
    · cases h with
      | buffer l | draft d => cases heq
      | node n =>
        cases heq
        exact Or.inr ⟨n, List.mem_cons_self, .release n w⟩
    · exact hold hmem fun k hk => List.mem_cons_of_mem _ hk
  | discard h => exact hold hn' fun k hk => List.mem_cons_of_mem _ hk
  | note he => exact hold hn' fun k hk => hk
  | perm hp => exact hold hn' fun k hk => hp.mem_iff.2 hk

theorem Change.remains (h : Change free ph e e') (hph : ph ≠ .computing) {n' : Node α}
    (hn' : .node n' ∈ e'.holders) :
    n'.completed = 0 ∨ ∃ n, .node n ∈ e.holders ∧ n.Remains n' := by
  cases h with
  | move h => exact h.remains hph hn'
  | start label hi =>
    rcases List.mem_cons.1 hn' with heq | hmem
    · cases heq
      exact Or.inl rfl
    · exact Or.inr ⟨n', hmem, .refl n'⟩
  | push hi hreads hd =>
    rcases List.mem_cons.1 hn' with heq | hmem
    · cases heq
    · exact Or.inr ⟨n', List.mem_cons_of_mem _ hmem, .refl n'⟩

theorem Changes.remains (h : Changes free ph e e') (hph : ph ≠ .computing) {n' : Node α}
    (hn' : .node n' ∈ e'.holders) :
    n'.completed = 0 ∨ ∃ n, .node n ∈ e.holders ∧ n.Remains n' := by
  induction h generalizing n' with
  | refl => exact Or.inr ⟨n', hn', .refl n'⟩
  | tail _ hchange ih =>
    rcases hchange.remains hph hn' with h0 | ⟨n₁, hn₁, hremains⟩
    · exact Or.inl h0
    · rcases ih hn₁ with h0 | ⟨n₀, hn₀, hremains'⟩
      · exact Or.inl (hremains.completed.trans h0)
      · exact Or.inr ⟨n₀, hn₀, hremains'.trans hremains⟩

end Remains

/-! ## Origins -/

variable {α : Type} [Scalar α]

/-- How a node has come about by one command, in a session with the pool `p` afterwards. -/
inductive Node.Origin (s : Session α) (p : Pool α) : Node α → Prop
  | new {n : Node α} (h0 : n.completed = 0) : Origin s p n
  | kept {n n' : Node α} (hn : .node n ∈ s.objects.holders) (h : n.Remains n') :
      Origin s p n'
  /-- It has been evaluated in a pool in which its own buffer was as before the command, and its
  buffer is afterwards what that evaluation has left. -/
  | evaluated {n : Node α} {u : World α} (hn : .node n ∈ s.objects.holders)
      (hp : u.pool.Packed) (hplaced : n.Placed u.pool)
      (hbefore : u.pool.store? n.buffer = s.pool.store? n.buffer)
      (hafter : p.store? n.buffer = (n.evaluate u).world.pool.store? n.buffer) :
      Origin s p (n.evaluate u).node

namespace Session

variable {free : Prop} {s : Session α}

omit [Scalar α] in
/-- A command that evaluates nothing can be taken to be there for something else. -/
theorem exists_serves {c : Command α} (hc : c.evaluates = false) :
    ∃ ph, ph ≠ .computing ∧ s.Serves c ph := by
  cases hph : s.phase c with
  | building base => exact ⟨.building base, nofun, hph ▸ s.serves_phase c⟩
  | writing => exact ⟨.writing, nofun, hph ▸ s.serves_phase c⟩
  | computing =>
    refine ⟨.writing, nofun, ?_⟩
    unfold Serves
    split <;> trivial

theorem Orderly.origin_withNode (hs : s.Orderly free) {name : String} {n n' : Node α}
    (hn : s.node? name = some n)
    (hn' : .node n' ∈ (s.withNode name (n.evaluate s.world)).objects.holders) :
    n'.Origin s (n.evaluate s.world).world.pool := by
  have hmem : .node n ∈ s.objects.holders :=
    Catalog.mem_holders (object?_of_node? hn) List.mem_cons_self
  obtain ⟨e, he, hne⟩ := List.mem_flatMap.1 hn'
  rcases Catalog.mem_replace he with he | rfl
  · exact .kept (List.mem_flatMap.2 ⟨e, he, hne⟩) (.refl n')
  · cases List.mem_singleton.1 hne
    exact .evaluated hmem hs.estate.tidy.packed (hs.node_placed hn) rfl rfl

theorem Orderly.origin_withGraph (hs : s.Orderly free) {name : String} {g : Graph α}
    {n' : Node α} (hg : s.graph? name = some g)
    (hn' : .node n' ∈ (s.withGraph name (g.evaluate s.world)).objects.holders) :
    n'.Origin s (g.evaluate s.world).world.pool := by
  have hplaced : g.Placed s.world.pool := hs.graph_placed hg
  have hmem : ∀ {place : Nat} {n : Node α}, g.nodes[place]? = some n →
      .node n ∈ s.objects.holders :=
    fun hn => Catalog.mem_holders (object?_of_graph? hg) (mem_nodeHolders hn)
  obtain ⟨e, he, hne⟩ := List.mem_flatMap.1 hn'
  rcases Catalog.mem_replace he with he | rfl
  · exact .kept (List.mem_flatMap.2 ⟨e, he, hne⟩) (.refl n')
  obtain ⟨m, hm, hmn⟩ := List.mem_map.1 hne
  cases hmn
  obtain ⟨place, hplace⟩ := Array.mem_iff_getElem?.1 (Array.mem_toList_iff.1 hm)
  rw [g.evaluate_nodes] at hplace
  rw [g.evaluate_pool]
  have htracks := hplaced.tracks_walk
  by_cases htried : place ∈ (g.attempts s.world).map Tried.place
  · -- The node has been evaluated by the one attempt that was made of it.
    obtain ⟨t, ht, rfl⟩ := List.mem_map.1 htried
    obtain ⟨bs, cs, hsplit⟩ := List.append_of_mem ht
    obtain ⟨x, u, a, hc⟩ := htracks.course bs t cs hsplit
    obtain rfl := hc.evaluates.unique (Node.evaluate_evaluates hc.placed hc.packed)
    obtain rfl := Option.some.inj (hc.after.symm.trans hplace)
    exact .evaluated (hmem hc.node) hc.packed hc.placed (Graph.store_of_own hplaced hsplit hc)
      hc.store
  · exact .kept (hmem ((htracks.untouched place htried).symm.trans hplace)) (.refl _)

variable [ToText α]

/-- Every node after a command is new, or has been kept, or has been evaluated once. -/
theorem Orderly.origin_next (hs : s.Orderly True) (c : Command α) {n' : Node α}
    (hn' : .node n' ∈ (s.next c).objects.holders) : n'.Origin s (s.next c).pool := by
  cases hc : c.evaluates with
  | false =>
    obtain ⟨ph, hph, hserves⟩ := s.exists_serves hc
    obtain ⟨log, hchanges⟩ := hs.changes_next_of_serves hserves (Or.inl trivial)
    rcases Changes.remains hchanges hph hn' with h0 | ⟨n, hn, hremains⟩
    · exact .new h0
    · exact .kept hn hremains
  | true =>
    obtain ⟨name, hnext | hnext⟩ := Command.next_of_evaluates hc
    · rw [hnext s] at hn' ⊢
      cases hn : s.node? name with
      | none =>
        rw [hn] at hn'
        exact .kept hn' (.refl n')
      | some n =>
        rw [hn] at hn'
        exact hs.origin_withNode hn hn'
    · rw [hnext s] at hn' ⊢
      cases hg : s.graph? name with
      | none =>
        rw [hg] at hn'
        exact .kept hn' (.refl n')
      | some g =>
        rw [hg] at hn'
        exact hs.origin_withGraph hg hn'

end Session

end DeferredMatrix
