import DeferredMatrix.Proofs.Graph.Behind
import DeferredMatrix.Proofs.Session.EvaluationFrame
import Mathlib.Data.List.Forall2

/-!
# Sessions behind others

Two sessions have the same objects, apart from the progress of their nodes, and the pool of one is
behind that of the other (`Session.Behind`). So it stays when the session ahead evaluates something
on its own, when both evaluate the same, and when both write to the same slot for the first time.

* `Behind.ahead`, `Behind.both`, `Behind.write` : these three.
* `Behind.graph_ok` : a graph that is evaluated with success in the session behind is so in both,
  and with the same results.
-/

namespace DeferredMatrix

variable {α : Type}

/-! ## Objects -/

namespace Object

/-- Objects that differ in the progress of nodes only. -/
inductive Alike : Object α → Object α → Prop
  | refl (x : Object α) : Alike x x
  | node {n m : Node α} (h : n.Alike m) : Alike (.node n) (.node m)
  | graph {g : Graph α} {v : Walk α} (h : v.Keeps g) :
      Alike (.graph g) (.graph ⟨v.nodes⟩)

namespace Alike

variable {x y : Object α}

/-- The steps that are held are the same. -/
theorem definitions (h : x.Alike y) : definitionsOf y.holders = definitionsOf x.holders := by
  cases h with
  | refl => rfl
  | @node n m h =>
    have hsame : (Holder.node m).definitions = (Holder.node n).definitions :=
      Holder.definitions_congr h.buffer h.steps
    simp only [Object.holders, definitionsOf, List.flatMap_cons, List.flatMap_nil, hsame]
  | @graph g v h =>
    have hsame : (nodeHolders v.nodes).map Holder.definitions =
        (nodeHolders g.nodes).map Holder.definitions := by
      unfold nodeHolders
      rw [List.map_map, List.map_map]
      apply List.ext_getElem?
      intro i
      rw [List.getElem?_map, List.getElem?_map, Array.getElem?_toList, Array.getElem?_toList]
      cases hx : g.nodes[i]? with
      | none => rw [h.getElem?_eq_none hx]
      | some x =>
        obtain ⟨y, hy, hxy⟩ := h.exists_node hx
        rw [hy]
        exact congrArg some (Holder.definitions_congr hxy.buffer hxy.steps)
    rw [Object.holders, Object.holders, definitionsOf, definitionsOf, List.flatMap_def,
      List.flatMap_def, hsame]

end Alike

end Object

namespace Catalog

/-- The same names with objects that differ in the progress of nodes only. -/
def Alike (c d : Catalog (Object α)) : Prop :=
  List.Forall₂ (fun e f => f.1 = e.1 ∧ e.2.Alike f.2) c d

variable {c d : Catalog (Object α)} {name : String} {x y : Object α}

theorem replace_of_get? {β : Type} {c : Catalog β} {x : β} (h : c.get? name = some x) :
    c.replace name x = c := by
  induction c with
  | nil => cases h
  | cons entry c ih =>
    obtain ⟨n, z⟩ := entry
    by_cases hn : n = name
    · have hz : z = x := by simpa [get?, hn] using h
      rw [replace, if_pos hn, hz]
    · have hc : get? name c = some x := by simpa [get?, hn] using h
      rw [replace, if_neg hn, ih hc]

namespace Alike

theorem refl (c : Catalog (Object α)) : c.Alike c :=
  List.forall₂_same.2 fun e _ => ⟨rfl, .refl e.2⟩

theorem replace (h : c.Alike d) (hxy : x.Alike y) :
    Alike (c.replace name x) (d.replace name y) := by
  induction h with
  | nil => exact .nil
  | @cons e f c d hef hcd ih =>
    obtain ⟨n, z⟩ := e
    obtain ⟨n', z'⟩ := f
    obtain ⟨rfl, hz⟩ := hef
    unfold Catalog.replace
    split
    · exact .cons ⟨rfl, hxy⟩ hcd
    · exact .cons ⟨rfl, hz⟩ ih

theorem get? (h : c.Alike d) (name : String) : c.get? name = none ∧ d.get? name = none ∨
    ∃ x y, c.get? name = some x ∧ d.get? name = some y ∧ x.Alike y := by
  induction h with
  | nil => exact Or.inl ⟨rfl, rfl⟩
  | @cons e f c d hef hcd ih =>
    obtain ⟨n, z⟩ := e
    obtain ⟨n', z'⟩ := f
    obtain ⟨rfl, hz⟩ := hef
    unfold Catalog.get?
    split
    · exact Or.inr ⟨z, z', rfl, rfl, hz⟩
    · exact ih

theorem definitions (h : c.Alike d) : definitionsOf d.holders = definitionsOf c.holders := by
  induction h with
  | nil => rfl
  | @cons e f c d hef hcd ih =>
    have hhead := hef.2.definitions
    unfold definitionsOf at hhead ih ⊢
    simp only [Catalog.holders, List.flatMap_cons, List.flatMap_append] at ih ⊢
    rw [hhead, ih]

end Alike

end Catalog

/-! ## Sessions -/

variable [Scalar α]

namespace Session

structure Behind (s t : Session α) : Prop where
  orderly : s.Orderly True
  orderly_ahead : t.Orderly True
  objects : s.objects.Alike t.objects
  pool : s.pool.Behind (definitionsOf s.objects.holders) t.pool

namespace Behind

variable {s t : Session α} {name : String}

theorem refl (hs : s.Orderly True) : s.Behind s := ⟨hs, hs, .refl _, .refl _ _⟩

theorem node?_cases (h : s.Behind t) (name : String) :
    s.node? name = none ∧ t.node? name = none ∨
      ∃ n m, s.node? name = some n ∧ t.node? name = some m ∧ n.Alike m := by
  unfold node? object?
  rcases h.objects.get? name with ⟨hx, hy⟩ | ⟨x, y, hx, hy, hxy⟩
  · rw [hx, hy]
    exact Or.inl ⟨rfl, rfl⟩
  · rw [hx, hy]
    cases hxy with
    | refl x =>
      cases x with
      | node n => exact Or.inr ⟨n, n, rfl, rfl, .refl n⟩
      | _ => exact Or.inl ⟨rfl, rfl⟩
    | node h => exact Or.inr ⟨_, _, rfl, rfl, h⟩
    | graph h => exact Or.inl ⟨rfl, rfl⟩

theorem graph?_cases (h : s.Behind t) (name : String) :
    s.graph? name = none ∧ t.graph? name = none ∨ ∃ (g : Graph α) (v : Walk α),
      s.graph? name = some g ∧ t.graph? name = some ⟨v.nodes⟩ ∧ v.Keeps g := by
  unfold graph? object?
  rcases h.objects.get? name with ⟨hx, hy⟩ | ⟨x, y, hx, hy, hxy⟩
  · rw [hx, hy]
    exact Or.inl ⟨rfl, rfl⟩
  · rw [hx, hy]
    cases hxy with
    | refl x =>
      cases x with
      | graph g => exact Or.inr ⟨g, Walk.start g.nodes .empty, rfl, rfl, g.keeps_start _⟩
      | _ => exact Or.inl ⟨rfl, rfl⟩
    | node h => exact Or.inl ⟨rfl, rfl⟩
    | graph h => exact Or.inr ⟨_, _, rfl, rfl, h⟩

theorem buffer?_eq (h : s.Behind t) (name : String) : t.buffer? name = s.buffer? name := by
  unfold buffer? object?
  rcases h.objects.get? name with ⟨hx, hy⟩ | ⟨x, y, hx, hy, hxy⟩
  · rw [hx, hy]
  · rw [hx, hy]
    cases hxy <;> rfl

theorem mem_definitions (h : s.Behind t) (d : Definition α) :
    d ∈ definitionsOf t.objects.holders ↔ d ∈ definitionsOf s.objects.holders := by
  rw [h.objects.definitions]

/-- The walks over one graph in both sessions. -/
theorem trails (h : s.Behind t) {g : Graph α} {v : Walk α}
    (hg : s.graph? name = some g) (hv : t.graph? name = some ⟨v.nodes⟩) (hgv : v.Keeps g) :
    ∃ hs ks, Walk.Trails (definitionsOf s.objects.holders) hs ks (g.walk s.world)
      (Graph.walk ⟨v.nodes⟩ t.world) := by
  obtain ⟨hs, hperm, -⟩ := Catalog.exists_holders h.orderly.names (object?_of_graph? hg)
  obtain ⟨ks, hperm', -⟩ := Catalog.exists_holders h.orderly_ahead.names (object?_of_graph? hv)
  have hfirst : Computes s.estate ⟨s.world, nodeHolders g.nodes ++ hs⟩ := .single (.perm hperm)
  have hfirst' : Computes t.estate ⟨t.world, nodeHolders v.nodes ++ ks⟩ := .single (.perm hperm')
  refine ⟨hs, ks, Graph.trails_walk ⟨hfirst.tidy h.orderly.estate.tidy,
    hfirst'.tidy h.orderly_ahead.estate.tidy, hfirst.mem_definitions,
    fun d => (hfirst'.mem_definitions d).trans (h.mem_definitions d), ⟨hgv.size, hgv.alike⟩,
    h.pool, fun _ => ⟨rfl, .start hgv _ _⟩⟩⟩

/-- Nodes of one name in both sessions. -/
theorem pool_node (h : s.Behind t) {n m : Node α} (hn : s.node? name = some n)
    (hm : t.node? name = some m) (hnm : n.Alike m)
    (hahead : s.pool.Behind (definitionsOf s.objects.holders) (m.evaluate t.world).world.pool) :
    (n.evaluate s.world).world.pool.Behind (definitionsOf s.objects.holders)
      (m.evaluate t.world).world.pool := by
  have hplaced := h.orderly.node_placed hn
  have hplaced' := h.orderly_ahead.node_placed hm
  have hevaluates :=
    n.evaluate_evaluates (w := s.world) hplaced h.orderly.estate.tidy.packed
  have hevaluates' :=
    m.evaluate_evaluates (w := t.world) hplaced' h.orderly_ahead.estate.tidy.packed
  obtain ⟨hend, -⟩ := hevaluates'.placed hplaced' h.orderly_ahead.estate.tidy.packed
  refine hevaluates.behind hplaced h.orderly.estate.tidy.packed hend hevaluates'.settled
    (hnm.trans (m.alike_evaluate _)) hahead
    (fun d hd e he => h.orderly.estate.tidy.eq_of_place hd he) fun step hstep => ?_
  exact List.mem_flatMap.2 ⟨.node n, Catalog.mem_holders (object?_of_node? hn) List.mem_cons_self,
    List.mem_map_of_mem hstep⟩

/-- A graph that is evaluated with success in the session behind is so in both. -/
theorem graph_ok (h : s.Behind t) {g : Graph α} {v : Walk α}
    (hg : s.graph? name = some g) (hv : t.graph? name = some ⟨v.nodes⟩) (hgv : v.Keeps g)
    (hok : (g.evaluate s.world).result = .ok ()) :
    (Graph.evaluate ⟨v.nodes⟩ t.world).result = .ok () ∧
      ∀ n ∈ g.nodes, (Graph.evaluate ⟨v.nodes⟩ t.world).world.pool.cells? n.buffer =
        (g.evaluate s.world).world.pool.cells? n.buffer := by
  obtain ⟨hs, ks, htrails⟩ := h.trails hg hv hgv
  have hplaced := h.orderly.graph_placed hg
  obtain ⟨hstop, -⟩ := htrails.going (Graph.evaluate_result_eq_ok_iff.1 hok)
  refine ⟨Graph.evaluate_result_eq_ok_iff.2 hstop, fun n hn => ?_⟩
  obtain ⟨i, hi⟩ := Array.mem_iff_getElem?.1 hn
  have hlt := (Array.getElem?_eq_some_iff.1 hi).1
  have htracks := hplaced.tracks_walk (w := s.world)
  obtain ⟨y, hy, hr, hcompleted⟩ :=
    htracks.completed_of_mem (hplaced.mem_attempts_of_ok (w := s.world) hok hlt)
  have hyplaced := htracks.placed.placed i y hy
  obtain ⟨cs, hcs, hkinds, hwritten⟩ := hyplaced.live hr
  have hlen : cs.length = y.steps.length := by simpa using congrArg List.length hkinds
  have hbuffer : y.lease.buffer = n.buffer := (htracks.keeps.alike i n y hi hy).buffer
  rw [Graph.evaluate_pool, Graph.evaluate_pool, ← hbuffer]
  refine htrails.pool.grows.cells_of_written hcs fun c hc => ?_
  obtain ⟨j, hj⟩ := List.mem_iff_getElem?.1 hc
  have hjlt := (List.getElem?_eq_some_iff.1 hj).1
  rw [hwritten j c hj]
  omega

variable [ToText α]

/-- The session ahead evaluates something on its own. -/
theorem ahead (h : s.Behind t) {c : Command α} (hc : c.evaluates) : s.Behind (t.next c) := by
  have horderly := h.orderly_ahead.next (c := c) (Or.inl trivial)
  obtain ⟨name, hnext | hnext⟩ := c.next_of_evaluates hc
  · rcases h.node?_cases name with ⟨-, hnone⟩ | ⟨n, m, hn, hm, hnm⟩
    · rw [hnext, hnone]
      exact h
    · rw [hnext, hm, Option.elim_some] at horderly ⊢
      have hcomputes := h.orderly_ahead.computes_withNode hm
      have hbehind := (hcomputes.behind h.orderly_ahead.estate.tidy).mono
        fun d hd => (h.mem_definitions d).1 hd
      refine ⟨h.orderly, horderly, ?_, h.pool.trans hbehind h.orderly_ahead.estate.tidy.packed⟩
      have hkept : Catalog.Alike (s.objects.replace name (.node n))
          (t.objects.replace name (.node (m.evaluate t.world).node)) :=
        h.objects.replace (.node (hnm.trans (m.alike_evaluate t.world)))
      rwa [Catalog.replace_of_get? (object?_of_node? hn)] at hkept
  · rcases h.graph?_cases name with ⟨-, hnone⟩ | ⟨g, v, hg, hv, hgv⟩
    · rw [hnext, hnone]
      exact h
    · rw [hnext, hv, Option.elim_some] at horderly ⊢
      have hcomputes := h.orderly_ahead.computes_withGraph hv
      have hbehind := (hcomputes.behind h.orderly_ahead.estate.tidy).mono
        fun d hd => (h.mem_definitions d).1 hd
      refine ⟨h.orderly, horderly, ?_, h.pool.trans hbehind h.orderly_ahead.estate.tidy.packed⟩
      have hkeeps : (Graph.walk ⟨v.nodes⟩ t.world).Keeps g :=
        (Graph.keeps_walk ⟨v.nodes⟩ t.world).trans hgv
      have hkept : Catalog.Alike (s.objects.replace name (.graph g))
          (t.objects.replace name (.graph ⟨(Graph.walk ⟨v.nodes⟩ t.world).nodes⟩)) :=
        h.objects.replace (.graph hkeeps)
      rw [Catalog.replace_of_get? (object?_of_graph? hg)] at hkept
      rwa [withGraph, Graph.evaluate_node]

/-- Both sessions evaluate the same. -/
theorem both (h : s.Behind t) {c : Command α} (hc : c.evaluates) :
    (s.next c).Behind (t.next c) := by
  have hs := h.orderly.next (c := c) (Or.inl trivial)
  have ht := h.ahead hc
  have hkept := ((refl h.orderly).ahead hc).objects
  suffices hboth : (s.next c).objects.Alike (t.next c).objects ∧
      (s.next c).pool.Behind (definitionsOf s.objects.holders) (t.next c).pool from
    ⟨hs, ht.orderly_ahead, hboth.1, hkept.definitions ▸ hboth.2⟩
  obtain ⟨name, hnext | hnext⟩ := c.next_of_evaluates hc
  · rcases h.node?_cases name with ⟨hnone, -⟩ | ⟨n, m, hn, hm, hnm⟩
    · rw [hnext s, hnone]
      exact ⟨ht.objects, ht.pool⟩
    · have hpool := ht.pool
      rw [hnext t, hm, Option.elim_some] at hpool ⊢
      rw [hnext s, hn, Option.elim_some]
      refine ⟨h.objects.replace (.node ?_), h.pool_node hn hm hnm hpool⟩
      exact (n.alike_evaluate _).symm.trans (hnm.trans (m.alike_evaluate _))
  · rcases h.graph?_cases name with ⟨hnone, -⟩ | ⟨g, v, hg, hv, hgv⟩
    · rw [hnext s, hnone]
      exact ⟨ht.objects, ht.pool⟩
    · obtain ⟨hs', ks', htrails⟩ := h.trails hg hv hgv
      rw [hnext t, hv, Option.elim_some, hnext s, hg, Option.elim_some]
      unfold withGraph
      rw [Graph.evaluate_pool, Graph.evaluate_pool, Graph.evaluate_node, Graph.evaluate_node]
      exact ⟨h.objects.replace (.graph htrails.keeps), htrails.pool⟩

end Behind

end Session

end DeferredMatrix
