import DeferredMatrix.Proofs.Graph.Attempts

/-!
# The outcome of evaluating a graph

* `Graph.evaluate_eq_ok_iff` : an evaluation succeeds exactly if every node is evaluated with
  success.
* `Graph.Placed.exists_stop` : otherwise the last attempt has failed.
-/

namespace DeferredMatrix

variable {α : Type} [Scalar α]

/-! ## Every place is entered -/

namespace Walk

variable {v : Walk α}

theorem seen_step {n : Nat} (h : v.mark n ≠ .unseen) (hover : ¬ v.isOver) :
    v.step.mark n ≠ .unseen := by
  obtain ⟨-, ⟨k, rest, -, -, hstep, -⟩ | ⟨k, rest, -, hk, hstep, -⟩ |
    ⟨k, rest, -, hstep, -⟩⟩ := step_cases hover
  · rw [hstep]
    exact h
  · have hmark : (v.enter k rest).mark n = if n = k then .entered else v.mark n :=
      mark_setMark (mark_lt hk (by decide)) .entered n
    rw [hstep, hmark]
    by_cases hnk : n = k
    · simp [hnk]
    · rwa [if_neg hnk]
  · rw [hstep]
    unfold finish
    split
    · exact h
    · unfold record mark
      simp only
      split
      · rw [Array.getElem?_setIfInBounds]
        split
        · split <;> simp
        · exact h
      · exact h

theorem seen_run {n : Nat} (h : v.mark n ≠ .unseen) : v.run.mark n ≠ .unseen :=
  run_induction (P := fun _ w => w.mark n ≠ .unseen) (fun _ _ hover hw => seen_step hw hover) v [] h

theorem seen_visit {n : Nat} (root : Nat) (h : v.mark n ≠ .unseen) :
    (v.visit root).mark n ≠ .unseen := by
  unfold visit
  split
  · exact h
  · exact seen_run h

theorem seen_root {root : Nat} (hstop : v.stop = none) : (v.visit root).mark root ≠ .unseen := by
  have hvisit : v.visit root = { v with tasks := [.enter root] }.run := by simp [visit, hstop]
  by_cases hmark : v.mark root = .unseen
  · have hover : ¬ ({ v with tasks := [.enter root] } : Walk α).isOver := by simp [isOver, hstop]
    rw [hvisit, run_of_not_isOver hover]
    refine seen_run ?_
    have hstep : ({ v with tasks := [.enter root] } : Walk α).step =
        ({ v with tasks := [.enter root] } : Walk α).enter root [] := if_pos hmark
    have hentered := mark_setMark (mark_lt hmark (by decide)) .entered root
    rw [hstep]
    intro hunseen
    rw [if_pos rfl] at hentered
    cases hentered.symm.trans hunseen
  · exact seen_visit root hmark

theorem visit_of_stop {s : Stop α} (h : v.stop = some s) (root : Nat) : v.visit root = v := by
  simp [visit, h]

theorem seen_roots (roots : List Nat) : ∀ v : Walk α, (roots.foldl visit v).stop = none →
    ∀ n, v.mark n ≠ .unseen ∨ n ∈ roots → (roots.foldl visit v).mark n ≠ .unseen := by
  induction roots with
  | nil =>
    intro v _ n hn
    rcases hn with hn | hn
    · exact hn
    · cases hn
  | cons root roots ih =>
    intro v hend n hn
    rw [List.foldl_cons] at hend ⊢
    refine ih _ hend n ?_
    rcases hn with hn | hn
    · exact Or.inl (seen_visit root hn)
    rcases List.mem_cons.1 hn with rfl | hn
    · left
      cases hstop : v.stop with
      | none => exact seen_root hstop
      | some s =>
        -- A stopped walk stays as it is, so it would be stopped at the end.
        have hstays : ∀ rs : List Nat, rs.foldl visit v = v := by
          intro rs
          induction rs with
          | nil => rfl
          | cons r rs ih' => rw [List.foldl_cons, visit_of_stop hstop, ih']
        rw [visit_of_stop hstop, hstays, hstop] at hend
        cases hend
    · exact Or.inr hn

end Walk

namespace Graph

variable {g : Graph α} {w : World α}

/-! ## Success and failure -/

theorem evaluate_nodes (g : Graph α) (w : World α) :
    (g.evaluate w).node.nodes = (g.walk w).nodes := by
  unfold evaluate
  simp only
  split <;> rfl

theorem evaluate_node (g : Graph α) (w : World α) :
    (g.evaluate w).node = ⟨(g.walk w).nodes⟩ :=
  congrArg mk (g.evaluate_nodes w)

theorem evaluate_pool (g : Graph α) (w : World α) :
    (g.evaluate w).world.pool = (g.walk w).world.pool := by
  unfold evaluate
  simp only
  split <;> rfl

theorem evaluate_result_eq_ok_iff : (g.evaluate w).result = .ok () ↔ (g.walk w).stop = none := by
  unfold evaluate
  simp only
  split
  · rename_i s hs
    simp [hs]
  · rename_i hs
    simp [hs]

theorem evaluate_result_eq_error_iff {s : Stop α} :
    (g.evaluate w).result = .error s ↔ (g.walk w).stop = some s := by
  unfold evaluate
  simp only
  split
  · rename_i s' hs
    simp [hs]
  · rename_i hs
    simp [hs]

/-- A walk that is not stopped has evaluated every node. -/
theorem Placed.mem_attempts_of_ok (hg : g.Placed w.pool)
    (hok : (g.evaluate w).result = .ok ()) {n : Nat} (hn : n < g.nodes.size) :
    ⟨n, .ok ()⟩ ∈ g.attempts w := by
  have htracks := hg.tracks_walk
  have hstop := evaluate_result_eq_ok_iff.1 hok
  have hover := g.isOver_walk w
  have htasks : (g.walk w).tasks = [] := by simpa [Walk.isOver, hstop] using hover
  have hseen := Walk.seen_roots _ _ hstop n (Or.inr (List.mem_range.2 hn))
  rw [← htracks.finished n hn]
  cases hmark : (g.walk w).mark n with
  | finished => rfl
  | unseen => exact absurd hmark hseen
  | entered =>
    have hpending := ((htracks.ordered hstop).entered n).1 hmark
    rw [htasks] at hpending
    cases hpending

theorem mem_attempts_of_ok (hg : g.Fits w.pool) (hok : (g.evaluate w).result = .ok ()) {n : Nat}
    (hn : n < g.nodes.size) : ⟨n, .ok ()⟩ ∈ g.attempts w :=
  hg.placed.mem_attempts_of_ok hok hn

/-- A walk that is stopped has failed at its last attempt. -/
theorem Placed.exists_stop (hg : g.Placed w.pool) {s : Stop α}
    (hs : (g.evaluate w).result = .error s) :
    ∃ bs n, g.attempts w = bs ++ [⟨n, .error s⟩] ∧ ∀ t ∈ bs, t.result = .ok () :=
  hg.tracks_walk.stopped s (evaluate_result_eq_error_iff.1 hs)

theorem evaluate_eq_ok_iff (hg : g.Fits w.pool) : (g.evaluate w).result = .ok () ↔
    ∀ n < g.numNodes, ⟨n, .ok ()⟩ ∈ g.attempts w := by
  refine ⟨fun hok n hn => mem_attempts_of_ok hg hok hn, fun hall => ?_⟩
  cases hr : (g.evaluate w).result with
  | ok u => rfl
  | error s =>
    exfalso
    have htracks := tracks_walk hg
    obtain ⟨bs, n, hsplit, hbs⟩ := hg.placed.exists_stop hr
    obtain ⟨x, u, a, hcourse⟩ := htracks.course bs _ [] hsplit
    have hlt := (Array.getElem?_eq_some_iff.1 hcourse.node).1
    have hmem := hall n hlt
    have hnodup := htracks.nodup
    rw [hsplit] at hmem hnodup
    rcases List.mem_append.1 hmem with hmem | hmem
    · rw [List.map_append, List.nodup_append] at hnodup
      exact hnodup.2.2 n (List.mem_map_of_mem hmem) n List.mem_cons_self rfl
    · simp at hmem

end Graph

/-! ## What has been evaluated -/

namespace Walk.Tracks

variable {g : Graph α} {p : Pool α} {as : List (Tried α)} {v : Walk α}

/-- Buffers are live during a walk if they were so at its start. -/
theorem isLive_iff (h : Tracks g p as v) (hg : g.Placed p) (b : BufferId) :
    v.world.pool.isLive b ↔ p.isLive b := by
  by_cases howned : ∃ (n : Nat) (x : Node α), g.nodes[n]? = some x ∧ x.buffer = b
  · obtain ⟨n, x, hx, rfl⟩ := howned
    obtain ⟨y, hy, hxy⟩ := h.keeps.exists_node hx
    have hbefore := (hg.placed n x hx).released_iff
    have hafter := (h.placed.placed n y hy).released_iff
    rw [hxy.lease] at hafter
    exact not_iff_not.1 (hafter.symm.trans hbefore)
  · have hstore := h.stage.others b fun t _ x hx hxb => howned ⟨t.place, x, hx, hxb⟩
    rw [Pool.isLive_iff, Pool.isLive_iff, Pool.cells?_congr hstore]

/-- A node that has been evaluated with success has all its steps completed. -/
theorem completed_of_mem (h : Tracks g p as v) {n : Nat} (hn : ⟨n, .ok ()⟩ ∈ as) :
    ∃ y, v.nodes[n]? = some y ∧ y.lease.released = false ∧ y.completed = y.steps.length := by
  obtain ⟨bs, cs, hsplit⟩ := List.append_of_mem hn
  obtain ⟨x, u, a, hcourse⟩ := h.course bs _ cs hsplit
  obtain ⟨hr, hcompleted⟩ := hcourse.evaluates.ok hcourse.result
  refine ⟨a.node, hcourse.after, ?_, hcompleted⟩
  rw [hcourse.evaluates.alike.lease]
  exact hr

/-- All slots of such a node are written, in any pool where its buffer is the same. -/
theorem isSome_contents (h : Tracks g p as v) {n : Nat} (hn : ⟨n, .ok ()⟩ ∈ as) {x : Node α}
    (hx : g.nodes[n]? = some x) {u : Pool α} (hu : u.store? x.buffer = v.world.pool.store? x.buffer)
    {place : Place} (hbuffer : place.buffer = x.buffer) {k : Kind} (hholds : u.Holds place k) :
    (u.contents? place).isSome := by
  obtain ⟨y, hy, hr, hcompleted⟩ := h.completed_of_mem hn
  have hplaced := h.placed.placed n y hy
  have hyx : y.lease.buffer = x.buffer := (h.keeps.alike n x y hx hy).buffer
  obtain ⟨cs, hcs, hkinds, hwritten⟩ := hplaced.live hr
  have hlen : cs.length = y.steps.length := by simpa using congrArg List.length hkinds
  have hucs : u.cells? place.buffer = some cs := by
    rw [hbuffer, Pool.cells?_congr hu, ← hyx]
    exact hcs
  obtain ⟨c, hc, -⟩ := hholds.2 cs hucs
  have hlt := (List.getElem?_eq_some_iff.1 hc).1
  rw [Pool.contents?_eq_some hucs hc, hwritten place.slot c hc]
  omega

end Walk.Tracks

namespace Graph

variable {g : Graph α} {w : World α}

/-- In a graph without cycles a node that has been attempted read nodes attempted before it. -/
theorem Acyclic.before (hg : g.Fits w.pool) (hacyclic : g.Acyclic) {bs cs : List (Tried α)}
    {t : Tried α} (hsplit : g.attempts w = bs ++ t :: cs) {m : Nat} (hread : g.Reads t.place m) :
    ⟨m, .ok ()⟩ ∈ bs := by
  rcases (tracks_walk hg).after bs t cs hsplit m hread with hm | hpath
  · exact hm
  · exact absurd (Relation.TransGen.head' hread hpath) (hacyclic t.place)

theorem isEvaluated_of_ok (hg : g.Fits w.pool) (hok : (g.evaluate w).result = .ok ()) {n : Nat}
    {y : Node α} (hy : (g.evaluate w).node.nodes[n]? = some y) : y.isEvaluated := by
  have htracks := tracks_walk hg
  rw [evaluate_nodes] at hy
  have hlt : n < g.nodes.size := htracks.keeps.size ▸ (Array.getElem?_eq_some_iff.1 hy).1
  obtain ⟨y', hy', -, hcompleted⟩ := htracks.completed_of_mem (mem_attempts_of_ok hg hok hlt)
  obtain rfl : y = y' := Option.some.inj (hy.symm.trans hy')
  exact y.isEvaluated_iff.2 hcompleted

/-! ## Why an evaluation fails -/

/-- If the slot of a node is not written when another node needs it, the node lies on a cycle. -/
theorem onCycle_of_unevaluated (hg : g.Fits w.pool) {place : Place}
    (hs : (g.evaluate w).result = .error (.failure (.unevaluated place))) {m : Nat} {y : Node α}
    (hy : g.nodes[m]? = some y) (hb : y.buffer = place.buffer) : g.OnCycle m := by
  have htracks := tracks_walk hg
  obtain ⟨bs, n, hsplit, -⟩ := hg.placed.exists_stop hs
  obtain ⟨x, u, a, hc⟩ := htracks.course bs _ [] hsplit
  rcases hc.evaluates.error_cases (hc.fits hg) hc.packed hc.result with
    ⟨det, epsilon, h⟩ | ⟨b, h, -, -⟩ | ⟨place', k, h, hinput, -, hholds, hnone⟩
  · cases h
  · cases h
  · cases h
    have hreads : g.Reads n m := ⟨x, y, hc.node, hy, hb ▸ hinput⟩
    rcases htracks.after bs _ [] hsplit m hreads with hm | hpath
    · have hall : ⟨m, .ok ()⟩ ∈ g.attempts w := hsplit ▸ List.mem_append_left _ hm
      have hsome := htracks.isSome_contents hall hy (hc.stage.tried _ hm y hy) hb.symm hholds
      rw [hnone] at hsome
      cases hsome
    · exact Relation.TransGen.tail' hpath hreads

/-- An evaluation fails at a singular determinant, for want of a buffer that is gone, or for want
of a slot that is not written. -/
theorem evaluate_error_cases (hg : g.Fits w.pool) {s : Stop α}
    (hs : (g.evaluate w).result = .error s) :
    (∃ det epsilon, s = .failure (.singular det epsilon)) ∨
      (∃ b, s = .failure (.dangling b) ∧ w.pool.Issued b ∧ ¬ w.pool.isLive b) ∨
      ∃ place, s = .failure (.unevaluated place) := by
  have htracks := tracks_walk hg
  obtain ⟨bs, n, hsplit, -⟩ := hg.placed.exists_stop hs
  obtain ⟨x, u, a, hc⟩ := htracks.course bs _ [] hsplit
  rcases hc.evaluates.error_cases (hc.fits hg) hc.packed hc.result with
    hsingular | ⟨b, rfl, hb, hdead⟩ | ⟨place, k, rfl, -⟩
  · exact Or.inl hsingular
  · have hfit := hg.fits n x hc.node
    refine Or.inr (Or.inl ⟨b, rfl, ?_, fun hlive => hdead ?_⟩)
    · rcases hb with rfl | hb
      · exact hfit.issued
      · exact hfit.issued_externalInputs hb
    · -- At the moment of the attempt the buffer is as at the start or as at the end.
      by_cases htried : ∃ t ∈ bs, ∃ y, g.nodes[t.place]? = some y ∧ y.buffer = b
      · obtain ⟨t, ht, y, hy, rfl⟩ := htried
        have hend := (htracks.isLive_iff hg.placed y.buffer).2 hlive
        rw [Pool.isLive_iff] at hend ⊢
        rwa [Pool.cells?_congr (hc.stage.tried t ht y hy)]
      · have hstore := hc.stage.others b fun t ht y hy hyb => htried ⟨t, ht, y, hy, hyb⟩
        rw [Pool.isLive_iff] at hlive ⊢
        rwa [Pool.cells?_congr hstore]
  · exact Or.inr (Or.inr ⟨place, rfl⟩)

end Graph

end DeferredMatrix
