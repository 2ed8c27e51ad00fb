import DeferredMatrix.Proofs.Graph.Runs
import DeferredMatrix.Proofs.Program.Growth
import DeferredMatrix.Proofs.Session.Definitions
import Mathlib.Data.List.Perm.Basic

/-!
# Computing

Evaluating a node or a graph is made of the execution of steps and of notes in the log
(`Compute`), whoever else holds leases. The pool grows by what the steps compute, and the steps
stay as they are.

* `Node.Evaluates.computes`, `Graph.computes_evaluate` : evaluations compute.
* `Computes.behind` : how the pool grows.
-/

namespace DeferredMatrix

variable {α : Type} [Scalar α]

/-- The smallest changes that an evaluation is made of. -/
inductive Compute : Estate α → Estate α → Prop
  | note {w : World α} {hs : List (Holder α)} {e : Event α} (he : e.IsNote) :
      Compute ⟨w, hs⟩ ⟨w.emit e, hs⟩
  | perm {w : World α} {hs ks : List (Holder α)} (hp : hs.Perm ks) : Compute ⟨w, hs⟩ ⟨w, ks⟩
  | advance {w w' : World α} {hs : List (Holder α)} {n n' : Node α} (h : n.Advance w n' w') :
      Compute ⟨w, .node n :: hs⟩ ⟨w', .node n' :: hs⟩

def Computes : Estate α → Estate α → Prop := Relation.ReflTransGen Compute

section Compute

variable {e e' : Estate α}

theorem Compute.move (h : Compute e e') : Move .computing e e' := by
  cases h with
  | note he => exact .note he
  | perm hp => exact .perm hp
  | advance h => exact .advance h

theorem Compute.mem_definitions (h : Compute e e') (d : Definition α) :
    d ∈ definitionsOf e'.holders ↔ d ∈ definitionsOf e.holders := by
  cases h with
  | note he => exact Iff.rfl
  | perm hp => exact (hp.flatMap_right _).mem_iff.symm
  | @advance w w' hs n n' h =>
    obtain ⟨-, step, v, q, -, -, -, rfl, -⟩ := h
    exact mem_definitionsOf_congr (congrArg Lease.buffer n.lease_advance) n.steps_advance

theorem Compute.behind (h : Compute e e') (he : e.Tidy) :
    e.world.pool.Behind (definitionsOf e.holders) e'.world.pool := by
  cases h with
  | note | perm => exact .refl _ _
  | @advance w w' hs n n' h =>
    obtain ⟨hr, step, v, q, hstep, hv, hq, -, rfl⟩ := h
    have hplaced : n.Placed w.pool := he.placed _ List.mem_cons_self
    have hmem : ⟨⟨n.buffer, step.slot⟩, step.instruction⟩ ∈ definitionsOf (.node n :: hs) :=
      mem_definitionsOf_cons.2 (Or.inl (List.mem_map.2 ⟨step, List.mem_of_getElem? hstep, rfl⟩))
    exact .advance hmem he.packed hv hq (hplaced.unwritten hr hstep)

namespace Computes

variable {e'' : Estate α}

theorem refl (e : Estate α) : Computes e e := Relation.ReflTransGen.refl

theorem single (h : Compute e e') : Computes e e' := Relation.ReflTransGen.single h

theorem trans (h : Computes e e') (h' : Computes e' e'') : Computes e e'' :=
  Relation.ReflTransGen.trans h h'

theorem moves (h : Computes e e') : Moves .computing e e' :=
  Relation.ReflTransGen.mono (fun _ _ => Compute.move) _ _ h

theorem tidy (h : Computes e e') (he : e.Tidy) : e'.Tidy := h.moves.tidy he

theorem mem_definitions (h : Computes e e') (d : Definition α) :
    d ∈ definitionsOf e'.holders ↔ d ∈ definitionsOf e.holders := by
  induction h with
  | refl => exact Iff.rfl
  | tail _ hcompute ih => exact (hcompute.mem_definitions d).trans ih

/-- What is written is computed by the steps that are held. -/
theorem behind (h : Computes e e') (he : e.Tidy) :
    e.world.pool.Behind (definitionsOf e.holders) e'.world.pool := by
  induction h with
  | refl => exact .refl _ _
  | @tail e₁ e₂ hcomputes hcompute ih =>
    have he₁ := tidy hcomputes he
    have hlast := hcompute.behind he₁
    refine ih.trans ⟨hlast.grows, fun place xs hxs => ?_⟩ he₁.packed
    refine (hlast.gained place xs hxs).imp_right ?_
    rintro ⟨d, hd, hstep⟩
    exact ⟨d, (mem_definitions hcomputes d).1 hd, hstep⟩

end Computes

end Compute

variable {w w' : World α} {hs : List (Holder α)}

/-! ## Evaluating nodes -/

theorem World.computes_noteRefusal (w : World α) (s : Stop α) (hs : List (Holder α)) :
    Computes ⟨w, hs⟩ ⟨w.noteRefusal s, hs⟩ := by
  unfold noteRefusal
  split
  · exact .single (.note trivial)
  · exact .refl _

theorem Node.computes_noteStop (n : Node α) (w : World α) (s : Stop α) (hs : List (Holder α)) :
    Computes ⟨w, hs⟩ ⟨n.noteStop w s, hs⟩ := by
  have hrefusal := w.computes_noteRefusal s hs
  cases n with
  | operation o => exact hrefusal
  | compound c =>
    refine hrefusal.trans ?_
    cases s with
    | failure f => exact .single (.note trivial)
    | breach b => exact .refl _

theorem Node.Evaluates.computes {n : Node α} {a : Attempt (Node α) α} (h : n.Evaluates w a)
    (hs : List (Holder α)) : Computes ⟨w, .node n :: hs⟩ ⟨a.world, .node a.node :: hs⟩ := by
  induction h with
  | dead hr | complete hr hc => exact .refl _
  | @stop n w step s hr hstep hs' => exact n.computes_noteStop w s _
  | advance h ha ih => exact (Computes.single (.advance h)).trans ih

/-! ## Evaluating graphs -/

/-- The nodes of an array as holders. -/
def nodeHolders (nodes : Array (Node α)) : List (Holder α) := nodes.toList.map .node

omit [Scalar α] in
theorem mem_nodeHolders {nodes : Array (Node α)} {place : Nat} {n : Node α}
    (h : nodes[place]? = some n) : .node n ∈ nodeHolders nodes :=
  List.mem_map_of_mem (Array.mem_toList_iff.2 (Array.mem_of_getElem? h))

omit [Scalar α] in
/-- A node of an array among the other holders. -/
theorem nodeHolders_perm {nodes : Array (Node α)} {place : Nat} {n : Node α}
    (h : nodes[place]? = some n) (hs : List (Holder α)) : ∃ ks,
    (nodeHolders nodes ++ hs).Perm (.node n :: ks) ∧
      ∀ m, (nodeHolders (nodes.setIfInBounds place m) ++ hs).Perm (.node m :: ks) := by
  obtain ⟨hlt, rfl⟩ := Array.getElem?_eq_some_iff.1 h
  refine ⟨(nodes.toList.eraseIdx place).map .node ++ hs, ?_, fun m => ?_⟩
  · have hperm := (List.getElem_cons_eraseIdx_perm (l := nodes.toList) hlt).symm
    exact (hperm.map Holder.node).append_right hs
  · have hperm := List.set_perm_cons_eraseIdx (l := nodes.toList) hlt m
    unfold nodeHolders
    rw [Array.toList_setIfInBounds]
    exact (hperm.map Holder.node).append_right hs

/-- The estate of a walk among other holders. -/
def Walk.estate (v : Walk α) (hs : List (Holder α)) : Estate α :=
  ⟨v.world, nodeHolders v.nodes ++ hs⟩

section Tidy

variable {v : Walk α} {k : Nat} {n : Node α}

omit [Scalar α] in
theorem Walk.placed (hv : (v.estate hs).Tidy) (hn : v.nodes[k]? = some n) :
    n.Placed v.world.pool :=
  hv.placed (.node n) (List.mem_append_left _ (mem_nodeHolders hn))

/-- In a tidy estate a node of a walk evaluates as described. -/
theorem Walk.evaluates (hv : (v.estate hs).Tidy) (hn : v.nodes[k]? = some n) :
    n.Evaluates v.world (n.evaluate v.world) :=
  n.evaluate_evaluates (placed hv hn) hv.packed

theorem Walk.computes_record (hv : (v.estate hs).Tidy) (hn : v.nodes[k]? = some n)
    (rest : List Task) :
    Computes (v.estate hs) ((v.record k (n.evaluate v.world) rest).estate hs) := by
  obtain ⟨ks, hperm, hset⟩ := nodeHolders_perm hn hs
  refine (Computes.single (.perm hperm)).trans (((evaluates hv hn).computes ks).trans ?_)
  exact .single (.perm (hset _).symm)

end Tidy

theorem Walk.computes_step {v : Walk α} (hv : (v.estate hs).Tidy) :
    Computes (v.estate hs) (v.step.estate hs) := by
  have hskip : ∀ (place : Nat) (ds : List Nat) (w : World α) (hs : List (Holder α)),
      Computes ⟨w, hs⟩ ⟨ds.foldl (fun world d => world.emit (.edgeSkipped place d)) w, hs⟩ := by
    intro place ds
    induction ds with
    | nil => exact fun w hs => .refl _
    | cons d ds ih =>
      intro w hs
      have hnote : Compute ⟨w, hs⟩ ⟨w.emit (.edgeSkipped place d), hs⟩ := .note trivial
      exact (Computes.single hnote).trans (ih _ hs)
  unfold step
  split
  · exact .refl _
  · split
    · exact hskip _ _ _ _
    · exact .refl _
  · rename_i place rest htasks
    unfold finish
    split
    · exact .refl _
    · rename_i n hn
      exact computes_record hv hn rest

theorem Walk.computes_run {v : Walk α} (hv : (v.estate hs).Tidy) :
    Computes (v.estate hs) (v.run.estate hs) :=
  run_induction (P := fun _ u => Computes (v.estate hs) (u.estate hs))
    (fun _ _ _ hu => hu.trans (computes_step (hu.tidy hv))) v [] (.refl _)

theorem Walk.computes_visit {v : Walk α} (hv : (v.estate hs).Tidy) (root : Nat) :
    Computes (v.estate hs) ((v.visit root).estate hs) := by
  unfold visit
  split
  · exact .refl _
  · have hroot : Walk.estate { v with tasks := [.enter root] } hs = v.estate hs := rfl
    exact hroot ▸ computes_run (hroot ▸ hv)

theorem Graph.computes_walk (g : Graph α) (he : Estate.Tidy ⟨w, nodeHolders g.nodes ++ hs⟩) :
    Computes ⟨w, nodeHolders g.nodes ++ hs⟩ ((g.walk w).estate hs) :=
  walk_induction (P := fun _ v => Computes ⟨w, nodeHolders g.nodes ++ hs⟩ (v.estate hs)) g w
    (.refl _) (fun _ _ _ _ _ _ hv => hv)
    fun _ _ _ hv => hv.trans (Walk.computes_step (hv.tidy he))

theorem Graph.computes_evaluate (g : Graph α)
    (he : Estate.Tidy ⟨w, nodeHolders g.nodes ++ hs⟩) :
    Computes ⟨w, nodeHolders g.nodes ++ hs⟩
      ⟨(g.evaluate w).world, nodeHolders (g.evaluate w).node.nodes ++ hs⟩ := by
  have hwalk := g.computes_walk he
  unfold Graph.evaluate
  simp only
  split
  · exact hwalk
  · exact hwalk.trans (.single (.note trivial))

end DeferredMatrix
