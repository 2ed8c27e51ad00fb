import DeferredMatrix.Proofs.Graph.Outcome

/-!
# Graphs of the same nodes

Two graphs of the same nodes may list them in different orders, so that walks attempt them in
different orders too. An attempt depends on the nodes that are read and on what no node owns
(`Node.Evaluates.congr`). If the nodes that are read come first, by induction along the attempts
every node fares as in the other graph.

* `Graph.evaluate_of_same_nodes` : if one evaluation succeeds, the other one does and leaves the
  same stores.
-/

namespace DeferredMatrix

/-- What is true of every element for which it is true of all before it is true throughout. -/
theorem forall_mem_of_split {β : Type} {P : β → Prop} (as : List β)
    (h : ∀ bs a cs, as = bs ++ a :: cs → (∀ b ∈ bs, P b) → P a) : ∀ a ∈ as, P a := by
  have hprefix : ∀ bs cs, as = bs ++ cs → ∀ b ∈ bs, P b := by
    intro bs
    induction bs using List.reverseRecOn with
    | nil =>
      intro cs _ b hb
      cases hb
    | append_singleton bs a ih =>
      intro cs hsplit b hb
      rw [List.append_assoc] at hsplit
      have hbefore := ih _ hsplit
      rcases List.mem_append.1 hb with hb | hb
      · exact hbefore b hb
      · obtain rfl := List.mem_singleton.1 hb
        exact h bs b cs hsplit hbefore
  exact hprefix as [] (List.append_nil as).symm

variable {α : Type} [Scalar α] {g g' : Graph α} {w w' : World α}

namespace Graph

/-- Where the store of a buffer is found when a node that reads it is attempted. -/
theorem store_of_read (hg : g.Fits w.pool) (hacyclic : g.Acyclic) {bs cs : List (Tried α)}
    {t : Tried α} (hsplit : g.attempts w = bs ++ t :: cs) {x y : Node α} {u : World α}
    {a : Attempt (Node α) α} (hc : g.Course w.pool (g.walk w) bs t x u a) {m : Nat}
    (hy : g.nodes[m]? = some y) (hb : y.buffer ∈ x.externalInputs) :
    ⟨m, .ok ()⟩ ∈ bs ∧ u.pool.store? y.buffer = (g.walk w).world.pool.store? y.buffer := by
  have hm := hacyclic.before hg hsplit ⟨x, y, hc.node, hy, hb⟩
  exact ⟨hm, hc.stage.tried _ hm y hy⟩

/-- Nothing that is owned by no attempted node has changed. -/
theorem Course.store_of_not_owned {p : Pool α} {v : Walk α} {bs : List (Tried α)} {t : Tried α}
    {x : Node α} {u : World α} {a : Attempt (Node α) α} (hc : g.Course p v bs t x u a)
    {b : BufferId} (hb : ∀ y ∈ g.nodes, y.buffer ≠ b) : u.pool.store? b = p.store? b :=
  hc.stage.others b fun _ _ y hy => hb y (Array.mem_of_getElem? hy)

/-- A node that is attempted has the store that it had at the start. -/
theorem store_of_own (hg : g.Placed w.pool) {bs cs : List (Tried α)} {t : Tried α}
    (hsplit : g.attempts w = bs ++ t :: cs) {x : Node α} {u : World α} {a : Attempt (Node α) α}
    (hc : g.Course w.pool (g.walk w) bs t x u a) :
    u.pool.store? x.buffer = w.pool.store? x.buffer := by
  refine hc.stage.others _ fun t' ht' y hy hyx => ?_
  have hplace := hg.distinct _ _ y x hy hc.node hyx
  have hnodup := hg.tracks_walk.nodup
  rw [hsplit, List.map_append, List.nodup_append] at hnodup
  exact hnodup.2.2 _ (List.mem_map_of_mem ht') _ List.mem_cons_self hplace

/-- Every attempt of the second graph goes as the attempt of the same node in the first, which has
evaluated all of its nodes. -/
theorem attempts_of_same_nodes (hg : g.Fits w.pool) (hg' : g'.Fits w'.pool)
    (hpool : w'.pool = w.pool) (hnodes : ∀ x, x ∈ g'.nodes ↔ x ∈ g.nodes) (hacyclic : g.Acyclic)
    (hacyclic' : g'.Acyclic) (hok : (g.evaluate w).result = .ok ()) :
    ∀ t ∈ g'.attempts w', t.result = .ok () ∧
      ∀ x, g'.nodes[t.place]? = some x → (g'.walk w').world.pool.store? x.buffer =
        (g.walk w).world.pool.store? x.buffer := by
  have htracks := tracks_walk hg
  have htracks' := tracks_walk hg'
  refine forall_mem_of_split _ fun bs' t' cs' hsplit' hbefore => ?_
  obtain ⟨x, u', a', hc'⟩ := htracks'.course bs' t' cs' hsplit'
  -- The attempt of the same node in the other graph.
  obtain ⟨n, hn⟩ := Array.mem_iff_getElem?.1 ((hnodes x).1 (Array.mem_of_getElem? hc'.node))
  obtain ⟨bs, cs, hsplit⟩ := List.append_of_mem
    (mem_attempts_of_ok hg hok (Array.getElem?_eq_some_iff.1 hn).1)
  obtain ⟨x₀, u, a, hc⟩ := htracks.course bs _ cs hsplit
  obtain rfl : x₀ = x := Option.some.inj (hc.node.symm.trans hn)
  have hown : u'.pool.store? x₀.buffer = u.pool.store? x₀.buffer := by
    rw [store_of_own hg'.placed hsplit' hc', store_of_own hg.placed hsplit hc, hpool]
  have hread : ∀ b ∈ x₀.externalInputs, u'.pool.store? b = u.pool.store? b := by
    intro b hb
    by_cases howned : ∃ y ∈ g'.nodes, y.buffer = b
    · obtain ⟨y, hy, rfl⟩ := howned
      obtain ⟨m', hm'⟩ := Array.mem_iff_getElem?.1 hy
      obtain ⟨m, hm⟩ := Array.mem_iff_getElem?.1 ((hnodes y).1 hy)
      obtain ⟨hmem', hstore'⟩ := store_of_read hg' hacyclic' hsplit' hc' hm' hb
      obtain ⟨-, hstore⟩ := store_of_read hg hacyclic hsplit hc hm hb
      rw [hstore', hstore]
      exact (hbefore _ hmem').2 y hm'
    · have hfree' : ∀ y ∈ g'.nodes, y.buffer ≠ b := fun y hy hyb => howned ⟨y, hy, hyb⟩
      have hfree : ∀ y ∈ g.nodes, y.buffer ≠ b := fun y hy => hfree' y ((hnodes y).2 hy)
      rw [hc'.store_of_not_owned hfree', hc.store_of_not_owned hfree, hpool]
  obtain ⟨a'', ha'', -, hresult, hstore⟩ := hc.evaluates.congr hown hread
  obtain rfl := hc'.evaluates.unique ha''
  refine ⟨?_, fun y hy => ?_⟩
  · rw [← hc'.result, hresult, hc.result]
  · obtain rfl : x₀ = y := Option.some.inj (hc'.node.symm.trans hy)
    rw [hc'.store, hstore, hc.store]

theorem evaluate_of_same_nodes (hg : g.Fits w.pool) (hg' : g'.Fits w'.pool)
    (hpool : w'.pool = w.pool) (hnodes : ∀ x, x ∈ g'.nodes ↔ x ∈ g.nodes) (hacyclic : g.Acyclic)
    (hacyclic' : g'.Acyclic) (hok : (g.evaluate w).result = .ok ()) :
    (g'.evaluate w').result = .ok () ∧
      ∀ b, (g'.evaluate w').world.pool.store? b = (g.evaluate w).world.pool.store? b := by
  have hfare := attempts_of_same_nodes hg hg' hpool hnodes hacyclic hacyclic' hok
  have hok' : (g'.evaluate w').result = .ok () := by
    cases hr : (g'.evaluate w').result with
    | ok u => rfl
    | error s =>
      obtain ⟨bs, n, hsplit, -⟩ := hg'.placed.exists_stop hr
      have hlast := (hfare _ (hsplit ▸ List.mem_append_right _ List.mem_cons_self)).1
      cases hlast
  refine ⟨hok', fun b => ?_⟩
  rw [evaluate_pool, evaluate_pool]
  by_cases howned : ∃ y ∈ g'.nodes, y.buffer = b
  · obtain ⟨y, hy, rfl⟩ := howned
    obtain ⟨m, hm⟩ := Array.mem_iff_getElem?.1 hy
    have hmem := mem_attempts_of_ok hg' hok' (Array.getElem?_eq_some_iff.1 hm).1
    exact (hfare _ hmem).2 y hm
  · have hfree' : ∀ y ∈ g'.nodes, y.buffer ≠ b := fun y hy hyb => howned ⟨y, hy, hyb⟩
    rw [(tracks_walk hg').stage.others b fun _ _ y hy => hfree' y (Array.mem_of_getElem? hy),
      (tracks_walk hg).stage.others b fun _ _ y hy =>
        hfree' y ((hnodes y).2 (Array.mem_of_getElem? hy)),
      hpool]

end Graph

end DeferredMatrix
