import DeferredMatrix.Proofs.Graph.Order

/-!
# What a graph walk does to nodes and buffers

`Walk.Tracks` relates a walk to the attempts that it has made: what has not been attempted is as
it was at the start, and each attempt was an evaluation of the original node, in a pool where the
nodes attempted before it were as they are now.

* `Graph.tracks_walk` : this holds of every walk.
-/

namespace DeferredMatrix

variable {α : Type}

/-! ## Lists -/

theorem split_concat {β : Type} {as bs cs : List β} {a b : β} (h : as ++ [a] = bs ++ b :: cs) :
    (∃ cs', as = bs ++ b :: cs') ∨ bs = as ∧ b = a := by
  rcases List.eq_nil_or_concat cs with rfl | ⟨cs', c, rfl⟩
  · obtain ⟨rfl, hb⟩ := List.append_inj' h rfl
    cases hb
    exact Or.inr ⟨rfl, rfl⟩
  · have h' : as ++ [a] = (bs ++ b :: cs') ++ [c] := by simpa using h
    obtain ⟨rfl, -⟩ := List.append_inj' h' rfl
    exact Or.inl ⟨cs', rfl⟩

/-! ## Evaluating one node of a graph -/

section Placed

variable [Scalar α] {g : Graph α} {w : World α} {a : Attempt (Node α) α} {n : Nat} {x : Node α}

/-- A graph still has its place in the pool when one of its nodes has been evaluated. -/
theorem Graph.Placed.evaluate (hg : g.Placed w.pool) (hx : g.nodes[n]? = some x)
    (ha : x.Evaluates w a) : Placed ⟨g.nodes.setIfInBounds n a.node⟩ a.world.pool := by
  obtain ⟨hplaced, hpacked, hsame, hext, hlease, -⟩ := ha.placed (hg.placed n x hx) hg.packed
  have hlt := (Array.getElem?_eq_some_iff.1 hx).1
  -- A node afterwards has the buffer of the node before.
  have hbuffer : ∀ (i : Nat) (y : Node α), (g.nodes.setIfInBounds n a.node)[i]? = some y →
      i = n ∧ y = a.node ∨ i ≠ n ∧ g.nodes[i]? = some y := by
    intro i y hy
    rw [Array.getElem?_setIfInBounds] at hy
    by_cases hin : n = i
    · subst hin
      rw [if_pos rfl, if_pos hlt] at hy
      cases hy
      exact Or.inl ⟨rfl, rfl⟩
    · rw [if_neg hin] at hy
      exact Or.inr ⟨Ne.symm hin, hy⟩
  have hsource : ∀ (i : Nat) (y : Node α), (g.nodes.setIfInBounds n a.node)[i]? = some y →
      ∃ z, g.nodes[i]? = some z ∧ y.buffer = z.buffer := by
    intro i y hy
    rcases hbuffer i y hy with ⟨rfl, rfl⟩ | ⟨-, hy⟩
    · exact ⟨x, hx, congrArg Lease.buffer hlease⟩
    · exact ⟨y, hy, rfl⟩
  refine ⟨hpacked, ?_, ?_⟩
  · intro i j y z hy hz hyz
    obtain ⟨y', hy', hyb⟩ := hsource i y hy
    obtain ⟨z', hz', hzb⟩ := hsource j z hz
    exact hg.distinct i j y' z' hy' hz' (hyb.symm.trans (hyz.trans hzb))
  · intro i y hy
    rcases hbuffer i y hy with ⟨rfl, rfl⟩ | ⟨hin, hy⟩
    · exact hplaced
    · have hne : y.buffer ≠ x.buffer := fun h => hin (hg.distinct i n y x hy hx h)
      exact StepsPlaced.frame (hg.placed i y hy) hext (hsame.cells hne)

end Placed

/-! ## Attempts and the pool -/

/-- The pool `u` at the moment after the attempts `as`, seen from the start `p` and from a later
pool `q` : nodes that have been attempted have the stores that they have later, and everything
else has the store that it had at the start. -/
structure Graph.Stage (g : Graph α) (p q : Pool α) (as : List (Tried α)) (u : Pool α) : Prop where
  tried : ∀ t ∈ as, ∀ x, g.nodes[t.place]? = some x → u.store? x.buffer = q.store? x.buffer
  others : ∀ b, (∀ t ∈ as, ∀ x, g.nodes[t.place]? = some x → x.buffer ≠ b) →
    u.store? b = p.store? b

variable [Scalar α]

/-- An attempt as the evaluation of a node of the graph. -/
structure Graph.Course (g : Graph α) (p : Pool α) (v : Walk α) (as : List (Tried α))
    (t : Tried α) (x : Node α) (u : World α) (a : Attempt (Node α) α) : Prop where
  node : g.nodes[t.place]? = some x
  stage : g.Stage p v.world.pool as u.pool
  packed : u.pool.Packed
  placed : x.Placed u.pool
  extends_pool : p.Extends u.pool
  evaluates : x.Evaluates u a
  result : a.result = t.result
  after : v.nodes[t.place]? = some a.node
  store : v.world.pool.store? x.buffer = a.world.pool.store? x.buffer

structure Walk.Tracks (g : Graph α) (p : Pool α) (as : List (Tried α)) (v : Walk α) : Prop where
  keeps : v.Keeps g
  placed : Graph.Placed ⟨v.nodes⟩ v.world.pool
  extends_pool : p.Extends v.world.pool
  ordered : v.stop = none → v.Ordered g
  finished : ∀ n < g.nodes.size, v.mark n = .finished ↔ ⟨n, .ok ()⟩ ∈ as
  nodup : (as.map Tried.place).Nodup
  after : ∀ bs t cs, as = bs ++ t :: cs → ∀ m, g.Reads t.place m →
    ⟨m, .ok ()⟩ ∈ bs ∨ Relation.ReflTransGen g.Reads m t.place
  going : v.stop = none → ∀ t ∈ as, t.result = .ok ()
  stopped : ∀ s, v.stop = some s →
    ∃ bs n, as = bs ++ [⟨n, .error s⟩] ∧ ∀ t ∈ bs, t.result = .ok ()
  untouched : ∀ n, n ∉ as.map Tried.place → v.nodes[n]? = g.nodes[n]?
  stage : g.Stage p v.world.pool as v.world.pool
  course : ∀ bs t cs, as = bs ++ t :: cs → ∃ x u a, g.Course p v bs t x u a

section Record

variable {v : Walk α} {n : Nat} {rest : List Task} {a : Attempt (Node α) α}

omit [Scalar α] in
theorem Walk.record_of_ok (hr : a.result = .ok ()) :
    (v.record n a rest).marks = v.marks.setIfInBounds n .finished ∧
      (v.record n a rest).stop = v.stop := by
  simp [record, hr]

omit [Scalar α] in
theorem Walk.record_of_error {s : Stop α} (hr : a.result = .error s) :
    (v.record n a rest).marks = v.marks ∧ (v.record n a rest).stop = some s := by
  simp [record, hr]

end Record

namespace Walk.Tracks

variable {g : Graph α} {p : Pool α} {as : List (Tried α)} {v v' : Walk α}

/-- Steps that attempt nothing. -/
theorem quiet (h : Tracks g p as v) (hnodes : v'.nodes = v.nodes)
    (hpool : v'.world.pool = v.world.pool) (hstop : v'.stop = v.stop)
    (hmark : ∀ n, v'.mark n = .finished ↔ v.mark n = .finished)
    (hordered : v'.stop = none → v'.Ordered g) : Tracks g p as v' where
  keeps := ⟨hnodes ▸ h.keeps.size, hnodes ▸ h.keeps.alike⟩
  placed := by
    rw [hnodes, hpool]
    exact h.placed
  extends_pool := hpool ▸ h.extends_pool
  ordered := hordered
  finished := fun n hn => (hmark n).trans (h.finished n hn)
  nodup := h.nodup
  after := h.after
  going := hstop ▸ h.going
  stopped := hstop ▸ h.stopped
  untouched := hnodes ▸ h.untouched
  stage := by
    rw [hpool]
    exact h.stage
  course := by
    intro bs t cs hsplit
    obtain ⟨x, u, a, hc⟩ := h.course bs t cs hsplit
    refine ⟨x, u, a, hc.node, ?_, hc.packed, hc.placed, hc.extends_pool, hc.evaluates, hc.result,
      ?_, ?_⟩
    · rw [hpool]
      exact hc.stage
    · rw [hnodes]
      exact hc.after
    · rw [hpool]
      exact hc.store

/-- A place whose finishing is pending has not been attempted. -/
theorem not_mem_of_pending (h : Tracks g p as v) (hstop : v.stop = none) {n : Nat}
    (hn : .finish n ∈ v.tasks) : n < g.nodes.size ∧ n ∉ as.map Tried.place := by
  have hordered := h.ordered hstop
  have hentered := (hordered.entered n).2 hn
  have hlt : n < g.nodes.size := hordered.marks ▸ mark_lt hentered (by decide)
  refine ⟨hlt, fun hmem => ?_⟩
  obtain ⟨⟨m, r⟩, ht, rfl⟩ := List.mem_map.1 hmem
  have hok := h.going hstop _ ht
  simp only at hok
  subst hok
  have hfinished := (h.finished m hlt).2 ht
  simp only at hentered
  rw [hentered] at hfinished
  cases hfinished

omit [Scalar α] in
/-- What has been attempted has another buffer than what has not. -/
theorem buffer_ne (hg : g.Placed p) {n : Nat} {x y : Node α} {t : Tried α}
    (hn : n ∉ as.map Tried.place) (hx : g.nodes[n]? = some x) (ht : t ∈ as)
    (hy : g.nodes[t.place]? = some y) : y.buffer ≠ x.buffer := by
  intro hyx
  have htn := hg.distinct t.place n y x hy hx hyx
  exact hn (htn ▸ List.mem_map_of_mem ht)

section Attempt

variable {n : Nat} {rest : List Task} {x : Node α} {a : Attempt (Node α) α}

theorem finished_record (h : Tracks g p as v) (hn : n < v.marks.size) {k : Nat}
    (hk : k < g.nodes.size) :
    (v.record n a rest).mark k = .finished ↔ ⟨k, .ok ()⟩ ∈ as ++ [⟨n, a.result⟩] := by
  cases hr : a.result with
  | error s =>
    have hmark : (v.record n a rest).mark k = v.mark k := by
      unfold mark
      rw [(record_of_error hr).1]
    rw [hmark, h.finished k hk]
    simp
  | ok u =>
    have hmark : (v.record n a rest).mark k = if k = n then .finished else v.mark k := by
      rw [← mark_setMark hn]
      unfold mark setMark
      rw [(record_of_ok hr).1]
    rw [hmark]
    by_cases hkn : k = n
    · simp [hkn]
    · rw [if_neg hkn, h.finished k hk]
      simp [hkn]

/-- The first failure stops the walk. -/
theorem stop_record (h : Tracks g p as v) (hstop : v.stop = none) :
    ((v.record n a rest).stop = none → ∀ t ∈ as ++ [⟨n, a.result⟩], t.result = .ok ()) ∧
      ∀ s, (v.record n a rest).stop = some s →
        ∃ bs k, as ++ [⟨n, a.result⟩] = bs ++ [⟨k, .error s⟩] ∧ ∀ t ∈ bs, t.result = .ok () := by
  cases hr : a.result with
  | error s =>
    rw [(record_of_error hr).2]
    refine ⟨fun hnone => ?_, fun s' hs => ?_⟩
    · cases hnone
    · cases hs
      exact ⟨as, n, rfl, h.going hstop⟩
  | ok u =>
    rw [(record_of_ok hr).2, hstop]
    refine ⟨fun _ t ht => ?_, fun s hs => ?_⟩
    · rcases List.mem_append.1 ht with ht | ht
      · exact h.going hstop t ht
      · obtain rfl := List.mem_singleton.1 ht
        rfl
    · cases hs

/-- What the pending node at the top reads has been evaluated, or waits for that node. -/
theorem after_attempt (h : Tracks g p as v) (hstop : v.stop = none)
    (htasks : v.tasks = .finish n :: rest) {r : Except (Stop α) Unit} {bs cs : List (Tried α)}
    {t : Tried α} (hsplit : as ++ [⟨n, r⟩] = bs ++ t :: cs) {m : Nat} (hread : g.Reads t.place m) :
    ⟨m, .ok ()⟩ ∈ bs ∨ Relation.ReflTransGen g.Reads m t.place := by
  rcases split_concat hsplit with ⟨cs', hold⟩ | ⟨rfl, rfl⟩
  · exact h.after bs t cs' hold m hread
  · rcases (h.ordered hstop).waits [] n rest htasks m hread with hm | hm | hm | hm
    · exact Or.inl ((h.finished m hread.lt_right).1 hm)
    · cases hm
    · cases hm
    · exact Or.inr hm

theorem course_attempt (h : Tracks g p as v) (hg : g.Placed p) (hnew : n ∉ as.map Tried.place)
    (hx : v.nodes[n]? = some x) (ha : x.Evaluates v.world a) {bs cs : List (Tried α)}
    {t : Tried α} (hsplit : as ++ [⟨n, a.result⟩] = bs ++ t :: cs) :
    ∃ y u b, g.Course p (v.record n a rest) bs t y u b := by
  have hx₀ : g.nodes[n]? = some x := (h.untouched n hnew).symm.trans hx
  have hplaced : x.Placed v.world.pool := h.placed.placed n x hx
  obtain ⟨-, -, hsame, -⟩ := ha.placed hplaced h.placed.packed
  have hnodes : (v.record n a rest).nodes = v.nodes.setIfInBounds n a.node := rfl
  have hpool : (v.record n a rest).world = a.world := rfl
  have hstored : ∀ t ∈ as, ∀ y, g.nodes[t.place]? = some y →
      a.world.pool.store? y.buffer = v.world.pool.store? y.buffer :=
    fun t ht y hy => hsame.store _ (buffer_ne hg hnew hx₀ ht hy)
  rcases split_concat hsplit with ⟨cs', hold⟩ | ⟨rfl, rfl⟩
  · obtain ⟨y, u, b, hc⟩ := h.course bs t cs' hold
    have hbs : ∀ t' ∈ bs, t' ∈ as := fun t' ht' => hold ▸ List.mem_append_left _ ht'
    have ht : t ∈ as := hold ▸ List.mem_append_right _ List.mem_cons_self
    have htn : n ≠ t.place := fun hn => hnew (hn ▸ List.mem_map_of_mem ht)
    refine ⟨y, u, b, hc.node, ⟨fun t' ht' z hz => ?_, hc.stage.others⟩, hc.packed, hc.placed,
      hc.extends_pool, hc.evaluates, hc.result, ?_, ?_⟩
    · rw [hpool, hstored t' (hbs t' ht') z hz]
      exact hc.stage.tried t' ht' z hz
    · rw [hnodes, Array.getElem?_setIfInBounds, if_neg htn]
      exact hc.after
    · rw [hpool, hstored t ht y hc.node]
      exact hc.store
  · have hafter : (v.record n a rest).nodes[n]? = some a.node := by
      rw [hnodes, Array.getElem?_setIfInBounds, if_pos rfl,
        if_pos (Array.getElem?_eq_some_iff.1 hx).1]
    refine ⟨x, v.world, a, hx₀, ⟨fun t ht y hy => ?_, h.stage.others⟩, h.placed.packed, hplaced,
      h.extends_pool, ha, rfl, hafter, rfl⟩
    rw [hpool, hstored t ht y hy]

/-- Finishing the node at a place is an attempt of it. -/
theorem attempt (h : Tracks g p as v) (hg : g.Placed p) (hstop : v.stop = none)
    (htasks : v.tasks = .finish n :: rest) (hx : v.nodes[n]? = some x)
    (ha : x.Evaluates v.world a) :
    Tracks g p (as ++ [⟨n, a.result⟩]) (v.record n a rest) := by
  have hordered := h.ordered hstop
  obtain ⟨hlt, hnew⟩ := h.not_mem_of_pending hstop (htasks ▸ List.mem_cons_self)
  have hx₀ : g.nodes[n]? = some x := (h.untouched n hnew).symm.trans hx
  obtain ⟨-, -, hsame, hext, -⟩ := ha.placed (h.placed.placed n x hx) h.placed.packed
  obtain ⟨hgoing, hstopped⟩ := h.stop_record (n := n) (a := a) hstop
  refine ⟨h.keeps.record hx ha.alike rest, h.placed.evaluate hx ha,
    h.extends_pool.trans hext, fun hnone => ?_,
    fun k hk => h.finished_record (hordered.marks ▸ hlt) hk, ?_,
    fun bs t cs hsplit m hread => h.after_attempt hstop htasks hsplit hread, hgoing, hstopped,
    fun k hk => ?_, ⟨fun _ _ _ _ => rfl, fun b hb => ?_⟩,
    fun bs t cs hsplit => h.course_attempt hg hnew hx ha hsplit⟩
  · cases hr : a.result with
    | error s =>
      rw [(record_of_error hr).2] at hnone
      cases hnone
    | ok u => exact hordered.finish htasks (record_of_ok hr).1 rfl
  · rw [List.map_append, List.nodup_append]
    refine ⟨h.nodup, List.pairwise_singleton _ _, fun k hk k' hk' hkk => ?_⟩
    obtain rfl := List.mem_singleton.1 hk'
    exact hnew (hkk ▸ hk)
  · have hkn : n ≠ k := by
      rintro rfl
      simp at hk
    have hk' : k ∉ as.map Tried.place := fun hmem => hk (by simp [List.mem_map.1 hmem])
    show (v.nodes.setIfInBounds n a.node)[k]? = g.nodes[k]?
    rw [Array.getElem?_setIfInBounds, if_neg hkn]
    exact h.untouched k hk'
  · have hbx : b ≠ x.buffer := fun hbx =>
      hb _ (List.mem_append_right _ List.mem_cons_self) x hx₀ hbx.symm
    show a.world.pool.store? b = p.store? b
    rw [hsame.store b hbx]
    exact h.stage.others b fun t ht => hb t (List.mem_append_left _ ht)

end Attempt

/-- A step keeps track of its attempt. -/
theorem step (h : Tracks g p as v) (hg : g.Placed p) (hover : ¬ v.isOver) :
    Tracks g p (as ++ v.attempt?.toList) v.step := by
  obtain ⟨hstop, hcases⟩ := step_cases hover
  rcases hcases with ⟨n, rest, htasks, hn, hstep, hattempt⟩ |
    ⟨n, rest, htasks, hn, hstep, hattempt⟩ | ⟨n, rest, htasks, hstep, hattempt⟩
  · rw [hattempt, hstep, Option.toList_none, List.append_nil]
    exact h.quiet rfl rfl rfl (fun _ => Iff.rfl) fun _ => (h.ordered hstop).pass htasks hn
  · rw [hattempt, hstep, Option.toList_none, List.append_nil]
    have hordered := (h.ordered hstop).enter hg h.keeps htasks hn
    refine h.quiet rfl ?_ rfl (fun k => ?_) fun _ => hordered
    · exact v.pool_enter n rest
    · have hmark : (v.enter n rest).mark k = if k = n then .entered else v.mark k :=
        mark_setMark (mark_lt hn (by decide)) .entered k
      rw [hmark]
      by_cases hkn : k = n
      · simp [hkn, hn]
      · rw [if_neg hkn]
  · obtain ⟨hlt, -⟩ := h.not_mem_of_pending hstop (htasks ▸ List.mem_cons_self)
    obtain ⟨x, hx, -⟩ := h.keeps.exists_node (Array.getElem?_eq_getElem hlt)
    rw [hattempt, hstep, hx, Option.map_some, Option.toList_some, finish_of_some hx]
    have hplaced : x.Placed v.world.pool := h.placed.placed n x hx
    exact h.attempt hg hstop htasks hx (x.evaluate_evaluates hplaced h.placed.packed)

theorem root (h : Tracks g p as v) (hstop : v.stop = none) (htasks : v.tasks = []) (n : Nat) :
    Tracks g p as { v with tasks := [.enter n] } :=
  h.quiet rfl rfl rfl (fun _ => Iff.rfl) fun _ => (h.ordered hstop).root htasks n

theorem start (hg : g.Placed p) (w : World α) (hw : w.pool = p) :
    Tracks g p [] (Walk.start g.nodes w) where
  keeps := g.keeps_start w
  placed := hw ▸ hg
  extends_pool := hw ▸ .refl _
  ordered := fun _ => .start g w
  finished := by
    intro n hn
    simp [mark, Walk.start, hn]
  nodup := List.nodup_nil
  after := by
    intro bs t cs hsplit
    simp at hsplit
  going := nofun
  stopped := nofun
  untouched := fun _ _ => rfl
  stage := ⟨nofun, fun b _ => hw ▸ rfl⟩
  course := by
    intro bs t cs hsplit
    simp at hsplit

end Walk.Tracks

/-- Every walk keeps track of its attempts. -/
theorem Graph.Placed.tracks_walk {g : Graph α} {w : World α} (hg : g.Placed w.pool) :
    Walk.Tracks g w.pool (g.attempts w) (g.walk w) :=
  g.walk_induction w (P := Walk.Tracks g w.pool) (.start hg w rfl)
    (fun _ _ _ _ hstop htasks h => h.root hstop htasks _) fun _ _ hover h => h.step hg hover

/-! ## Graphs that fit -/

section Fits

variable {g : Graph α} {w : World α}

theorem Graph.tracks_walk (hg : g.Fits w.pool) :
    Walk.Tracks g w.pool (g.attempts w) (g.walk w) :=
  hg.placed.tracks_walk

theorem Walk.Tracks.fits {p : Pool α} {as : List (Tried α)} {v : Walk α} (h : Tracks g p as v)
    (hg : g.Fits p) : Graph.Fits ⟨v.nodes⟩ v.world.pool :=
  hg.of_placed h.extends_pool h.keeps h.placed

theorem Graph.Course.fits {p : Pool α} {as : List (Tried α)} {v : Walk α} {t : Tried α}
    {x : Node α} {u : World α} {a : Attempt (Node α) α} (h : g.Course p v as t x u a)
    (hg : g.Fits p) : x.Fits u.pool :=
  (hg.fits _ x h.node).of_placed h.extends_pool rfl h.placed

end Fits

end DeferredMatrix
