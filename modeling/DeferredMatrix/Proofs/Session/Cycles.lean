import DeferredMatrix.Proofs.Graph.Outcome
import DeferredMatrix.Proofs.Session.Reachable

/-!
# Cycles are refused

As long as no step of a graph has been executed, a node can only be evaluated with success after
all nodes that it reads. So no node on a cycle ever is, and the evaluation of the graph fails.
-/

namespace DeferredMatrix

variable {α : Type} [Scalar α]

/-! ## Attempts of fresh nodes -/

section Fresh

variable {g : Graph α} {w : World α}

theorem Walk.Tracks.ok_of_before {p : Pool α} {as : List (Tried α)} {v : Walk α}
    (h : Walk.Tracks g p as v) {bs cs : List (Tried α)} {t : Tried α}
    (hsplit : as = bs ++ t :: cs) :
    ∀ t' ∈ bs, t'.result = .ok () := by
  intro t' ht'
  cases hstop : v.stop with
  | none => exact h.going hstop t' (hsplit ▸ List.mem_append_left _ ht')
  | some s =>
    obtain ⟨bs', n, hend, hbs'⟩ := h.stopped s hstop
    rcases split_concat (hend.symm.trans hsplit) with ⟨cs', rfl⟩ | ⟨rfl, -⟩
    · exact hbs' t' (List.mem_append_left _ ht')
    · exact hbs' t' ht'

omit [Scalar α] in
/-- Nothing has been written for a fresh node. -/
theorem Node.Fits.contents_of_fresh {x : Node α} {p : Pool α} (h : x.Fits p)
    (hfresh : x.completed = 0) {place : Place} (hbuffer : place.buffer = x.buffer) :
    p.contents? place = none := by
  cases hxs : p.contents? place with
  | none => rfl
  | some xs =>
    exfalso
    obtain ⟨cs, c, hcs, hc, hcxs⟩ := Pool.exists_cell_of_contents hxs
    rw [hbuffer] at hcs
    obtain ⟨cs', hcs', -, hwritten⟩ := h.live (h.placed.released_of_cells hcs)
    obtain rfl : cs = cs' := Option.some.inj (hcs.symm.trans hcs')
    have hlt := (hwritten place.slot c hc).1 (by simp [hcxs])
    omega

theorem Graph.reads_before_of_ok (hg : g.Fits w.pool)
    (hfresh : ∀ (i : Nat) (x : Node α), g.nodes[i]? = some x → x.completed = 0)
    {bs cs : List (Tried α)} {t : Tried α} (hsplit : g.attempts w = bs ++ t :: cs)
    (hok : t.result = .ok ()) {m : Nat} (hread : g.Reads t.place m) : ⟨m, .ok ()⟩ ∈ bs := by
  have htracks := tracks_walk hg
  obtain ⟨x, u, a, hc⟩ := htracks.course bs t cs hsplit
  obtain ⟨x', y, hx', hy, hb⟩ := hread
  obtain rfl : x = x' := Option.some.inj (hc.node.symm.trans hx')
  have hne := (hg.fits _ x hx').ne_of_mem_externalInputs hb
  obtain ⟨step, hstep, place, hplace, hplaceb⟩ := Node.mem_externalInputs hb
  obtain ⟨i, hi⟩ := List.mem_iff_getElem?.1 hstep
  have hsome := hc.evaluates.isSome_contents (hc.fits hg) hc.packed (hc.result.trans hok) i
    step (by rw [hfresh _ x hx']; exact Nat.zero_le i) hi place hplace (hplaceb ▸ hne)
  by_cases hm : ∃ t' ∈ bs, t'.place = m
  · obtain ⟨⟨m', r⟩, ht', rfl⟩ := hm
    have hr := htracks.ok_of_before hsplit _ ht'
    simp only at hr
    exact hr ▸ ht'
  · -- A node that has not been attempted is as fresh as at the start.
    exfalso
    have hstore : u.pool.store? y.buffer = w.pool.store? y.buffer := by
      refine hc.stage.others _ fun t' ht' z hz hzy => hm ⟨t', ht', ?_⟩
      exact hg.distinct _ _ z y hz hy hzy
    have hnone := (hg.fits m y hy).contents_of_fresh (hfresh m y hy) hplaceb
    rw [← hplaceb] at hstore
    rw [Pool.contents?_congr hstore, hnone] at hsome
    cases hsome

theorem Graph.reaches_before_of_ok (hg : g.Fits w.pool)
    (hfresh : ∀ (i : Nat) (x : Node α), g.nodes[i]? = some x → x.completed = 0) {n k : Nat}
    (hpath : Relation.TransGen g.Reads n k) : ∀ bs cs, g.attempts w = bs ++ ⟨n, .ok ()⟩ :: cs →
    ⟨k, .ok ()⟩ ∈ bs := by
  induction hpath with
  | single hread => exact fun bs cs hsplit => reads_before_of_ok hg hfresh hsplit rfl hread
  | tail _ hread ih =>
    intro bs cs hsplit
    obtain ⟨bs₁, bs₂, rfl⟩ := List.append_of_mem (ih bs cs hsplit)
    have hsplit' := hsplit
    rw [List.append_assoc, List.cons_append] at hsplit'
    exact List.mem_append_left _ (reads_before_of_ok hg hfresh hsplit' rfl hread)

/-- No fresh node that reaches a cycle is evaluated with success. -/
theorem Graph.not_mem_attempts_of_cycle (hg : g.Fits w.pool)
    (hfresh : ∀ (i : Nat) (x : Node α), g.nodes[i]? = some x → x.completed = 0) {n k : Nat}
    (hpath : Relation.ReflTransGen g.Reads n k) (hk : g.OnCycle k) :
    ⟨n, .ok ()⟩ ∉ g.attempts w := by
  have hcycle : ⟨k, .ok ()⟩ ∉ g.attempts w := by
    intro hmem
    obtain ⟨bs, cs, hsplit⟩ := List.append_of_mem hmem
    have hbefore := reaches_before_of_ok hg hfresh hk bs cs hsplit
    have hnodup := (tracks_walk hg).nodup
    rw [hsplit, List.map_append, List.nodup_append] at hnodup
    exact hnodup.2.2 k (List.mem_map_of_mem hbefore) k List.mem_cons_self rfl
  intro hmem
  rcases Relation.reflTransGen_iff_eq_or_transGen.1 hpath with rfl | hpath
  · exact hcycle hmem
  · obtain ⟨bs, cs, hsplit⟩ := List.append_of_mem hmem
    have hbefore := reaches_before_of_ok hg hfresh hpath bs cs hsplit
    exact hcycle (hsplit ▸ List.mem_append_left _ hbefore)

/-- A fresh node whose evaluation has not succeeded is not evaluated. -/
theorem Graph.not_isEvaluated_of_not_mem (hg : g.Fits w.pool)
    (hfresh : ∀ (i : Nat) (x : Node α), g.nodes[i]? = some x → x.completed = 0) {n : Nat}
    (hn : ⟨n, .ok ()⟩ ∉ g.attempts w) {y : Node α}
    (hy : (g.evaluate w).node.nodes[n]? = some y) : ¬ y.isEvaluated := by
  have htracks := tracks_walk hg
  rw [evaluate_nodes] at hy
  rw [Node.isEvaluated_iff]
  have hpos : ∀ z : Node α, 0 < z.steps.length := fun z => List.length_pos_iff.2 z.steps_ne_nil
  by_cases htried : n ∈ (g.attempts w).map Tried.place
  · obtain ⟨⟨n', r⟩, ht, rfl⟩ := List.mem_map.1 htried
    obtain ⟨bs, cs, hsplit⟩ := List.append_of_mem ht
    obtain ⟨x, u, a, hc⟩ := htracks.course bs _ cs hsplit
    obtain rfl : y = a.node := Option.some.inj (hy.symm.trans hc.after)
    cases r with
    | ok r => exact absurd ht hn
    | error s =>
      rcases hc.evaluates.error hc.result with ⟨-, ha, -⟩ | ⟨-, step, hstep, -⟩
      · rw [ha, hfresh _ x hc.node]
        exact Nat.ne_of_lt (hpos x)
      · exact Nat.ne_of_lt (List.getElem?_eq_some_iff.1 hstep).1
  · rw [htracks.untouched n htried] at hy
    rw [hfresh n y hy]
    exact Nat.ne_of_lt (hpos y)

end Fresh

/-! ## Cyclic graphs of a session -/

variable [ToText α]

theorem cycles_are_refused {s : Session α} (hs : s.Reachable) {name : String} {g : Graph α}
    (hg : s.graph? name = some g) (hfresh : ∀ n ∈ g.nodes, n.completed = 0) {c : Nat}
    (hc : g.OnCycle c) :
    (∀ n k, Relation.ReflTransGen g.Reads n k → g.OnCycle k →
      ∀ y, (g.evaluate s.world).node.nodes[n]? = some y → ¬ y.isEvaluated) ∧
    ∃ e, (g.evaluate s.world).result = .error e ∧
      ((∃ det epsilon, e = .failure (.singular det epsilon)) ∨
        (∃ b, e = .failure (.dangling b) ∧ s.pool.Issued b ∧ ¬ s.pool.isLive b) ∨
        ∃ place, e = .failure (.unevaluated place) ∧
          ((∀ n ∈ g.nodes, n.buffer ≠ place.buffer) ∨
            ∃ m y, g.nodes[m]? = some y ∧ y.buffer = place.buffer ∧ g.OnCycle m)) := by
  have hfits : g.Fits s.world.pool := hs.consistent.graph_fits hg
  have hfresh' : ∀ (i : Nat) (x : Node α), g.nodes[i]? = some x → x.completed = 0 :=
    fun i x hx => hfresh x (Array.mem_of_getElem? hx)
  refine ⟨fun n k hpath hk y hy => ?_, ?_⟩
  · have hn := Graph.not_mem_attempts_of_cycle hfits hfresh' hpath hk
    exact Graph.not_isEvaluated_of_not_mem hfits hfresh' hn hy
  cases he : (g.evaluate s.world).result with
  | ok u =>
    exfalso
    have hlt : c < g.nodes.size := by
      obtain ⟨m, hread, -⟩ := Relation.TransGen.head'_iff.1 hc
      exact hread.lt_left
    have hmem := Graph.mem_attempts_of_ok hfits he hlt
    exact Graph.not_mem_attempts_of_cycle hfits hfresh' .refl hc hmem
  | error e =>
    refine ⟨e, rfl, ?_⟩
    rcases Graph.evaluate_error_cases hfits he with h | h | ⟨place, rfl⟩
    · exact Or.inl h
    · exact Or.inr (Or.inl h)
    · refine Or.inr (Or.inr ⟨place, rfl, ?_⟩)
      by_cases howned : ∃ n ∈ g.nodes, n.buffer = place.buffer
      · obtain ⟨y, hy, hb⟩ := howned
        obtain ⟨m, hm⟩ := Array.mem_iff_getElem?.1 hy
        exact Or.inr ⟨m, y, hm, hb, Graph.onCycle_of_unevaluated hfits he hm hb⟩
      · exact Or.inl fun n hn hb => howned ⟨n, hn, hb⟩

/-- Makes a graph of two compounds, each of which reads a result of the other. -/
def mutualTransposes : List (Command Float32) :=
  [.draft (.create "a"), .draft (.create "b"),
    .draft (.push "a" .matrix .identity (some "first")),
    .draft (.push "b" .matrix (.transpose (.handle "first")) (some "second")),
    .draft (.push "a" .matrix (.transpose (.handle "second")) none),
    .draft (.finish "a" .matrix "c"), .draft (.finish "b" .matrix "d"),
    .graph (.create "g"), .graph (.push "g" "c" none), .graph (.push "g" "d" none)]

def mutualGraph : Graph Float32 := ⟨#[
  .compound ⟨⟨⟨0⟩, false⟩, [⟨.identity, 0⟩, ⟨.transpose (.handle ⟨⟨1⟩, 0⟩), 1⟩], 0, by simp⟩,
  .compound ⟨⟨⟨1⟩, false⟩, [⟨.transpose (.handle ⟨⟨0⟩, 0⟩), 0⟩], 0, by simp⟩]⟩

theorem mutualTransposes_are_refused :
    (Session.empty.run mutualTransposes).graph? "g" = some mutualGraph ∧ mutualGraph.OnCycle 0 ∧
      ∃ e, (mutualGraph.evaluate (Session.empty.run mutualTransposes).world).result = .error e := by
  have hs : (Session.empty.run mutualTransposes).Reachable :=
    Session.Reachable.empty.run (by decide)
  have hg : (Session.empty.run mutualTransposes).graph? "g" = some mutualGraph := rfl
  have hforth : mutualGraph.Reads 0 1 := ⟨_, _, rfl, rfl, List.mem_cons_self⟩
  have hback : mutualGraph.Reads 1 0 := ⟨_, _, rfl, rfl, List.mem_cons_self⟩
  have hcycle : mutualGraph.OnCycle 0 := .tail (.single hforth) hback
  have hfresh : ∀ n ∈ mutualGraph.nodes, n.completed = 0 := by
    simp [mutualGraph, Node.completed]
  obtain ⟨-, e, he, -⟩ := cycles_are_refused hs hg hfresh hcycle
  exact ⟨hg, hcycle, e, he⟩

end DeferredMatrix
