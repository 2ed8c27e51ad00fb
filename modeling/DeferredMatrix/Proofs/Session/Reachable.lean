import DeferredMatrix.Proofs.Graph.Dependencies
import DeferredMatrix.Proofs.Session.Consistent

/-!
# Reachable sessions

`Session.Reachable` are the sessions that commands lead to, if handles to buffers are only made
to slots that exist or after the release of the buffer (`Session.Admits`).

* `Orderly.performs` : what a command does to the holders of a session is a sequence of changes.
* `orderly_run` : whatever commands lead to is orderly.
* `map_states` : what sessions show along a run in three phases, from what one command does.
* `Reachable.consistent` : reachable sessions are consistent.
-/

namespace DeferredMatrix

variable {α : Type}

/-- The command makes a handle to a slot of a buffer. -/
def Command.takesHandle : Command α → Bool
  | .buffer (.takeHandle ..) => true
  | _ => false

namespace Session

/-- A handle may be made to a slot that exists, and to any slot of a released buffer. -/
def Admits (s : Session α) : Command α → Prop
  | .buffer (.takeHandle buffer _ slot _) =>
    ∀ l, s.buffer? buffer = some l → s.pool.isLive l.buffer → slot < s.pool.numSlots l.buffer
  | _ => True

/-- What a command is there for in a session. -/
def phase (s : Session α) : Command α → Phase α
  | .node (.operation ..) | .node (.make ..) | .draft (.push ..) | .graph (.chain ..) =>
    .building s.pool
  | .buffer (.write ..) => .writing
  | _ => .computing

/-- What a command may be taken to be there for. Most commands neither build nor compute nor
write, and go with every phase. -/
def Serves (s : Session α) (c : Command α) (ph : Phase α) : Prop :=
  match c with
  | .node (.operation ..) | .node (.make ..) | .draft (.push ..) | .graph (.chain ..) =>
    ph = .building s.pool
  | .buffer (.write ..) => ph = .writing
  | .node (.evaluate _) | .node (.compute _) | .graph (.evaluate _) => ph = .computing
  | _ => True

theorem serves_phase (s : Session α) (c : Command α) : s.Serves c (s.phase c) := by
  unfold Serves phase
  split <;> first | rfl | trivial

inductive Reachable [Scalar α] [ToText α] : Session α → Prop
  | empty : Reachable .empty
  | next {s : Session α} {c : Command α} (hs : Reachable s) (hc : s.Admits c) : Reachable (s.next c)

variable {free : Prop} {s : Session α} {o : Outcome α} {ph : Phase α}

/-! ## Orderly sessions and their graphs -/

theorem orderly_empty : (empty : Session α).Orderly free := by
  refine ⟨List.nodup_nil, ⟨⟨Pool.packed_empty, List.nodup_nil, ?_, ?_⟩, ?_⟩, ?_⟩
  · intro h hh
    cases hh
  · intro b hb
    obtain ⟨cs, hcs⟩ := Pool.isLive_iff.1 hb
    obtain ⟨st, hst, -⟩ := Pool.store_of_cells hcs
    cases (Pool.store?_empty b).symm.trans hst
  · intro h hh
    cases hh
  · intro e he
    cases he

theorem consistent_empty : (empty : Session α).Consistent := consistent_iff.2 orderly_empty

/-- The graphs of an orderly session have their places in its pool. -/
theorem Orderly.graph_placed (hs : s.Orderly free) {name : String} {g : Graph α}
    (hg : s.graph? name = some g) : g.Placed s.pool := by
  refine ⟨hs.estate.tidy.packed, ?_, fun i x hx => hs.estate.tidy.placed (.node x)
    (Catalog.mem_holders (object?_of_graph? hg) (mem_nodeHolders hx))⟩
  intro i j x y hx hy hxy
  obtain ⟨hs', hperm, -, -⟩ := Catalog.exists_holders hs.names (object?_of_graph? hg)
  have hnodup : ((nodeHolders g.nodes).map Holder.owned).Nodup := by
    have hall := (hperm.map Holder.owned).nodup_iff.1 hs.estate.tidy.distinct
    rw [List.map_append] at hall
    exact (List.nodup_append.1 hall).1
  rw [nodeHolders, List.map_map] at hnodup
  have hget : ∀ {i : Nat} {x : Node α}, g.nodes[i]? = some x →
      (g.nodes.toList.map (Holder.owned ∘ Holder.node))[i]? = some x.buffer := by
    intro i x hx
    rw [List.getElem?_map, Array.getElem?_toList, hx]
    rfl
  have hlt := (List.getElem?_eq_some_iff.1 (hget hx)).1
  refine (List.getElem?_inj hlt hnodup).1 ?_
  rw [hget hx, hget hy, hxy]

/-- The graphs of a consistent session fit its pool. -/
theorem Consistent.graph_fits (hs : s.Consistent) {name : String} {g : Graph α}
    (hg : s.graph? name = some g) : g.Fits s.pool := by
  have hplaced := (consistent_iff.1 hs).graph_placed hg
  exact ⟨hplaced.packed, hplaced.distinct, fun i x hx => hs.estate.fits (.node x)
    (Catalog.mem_holders (object?_of_graph? hg) (mem_nodeHolders hx))⟩

theorem nodeHolders_push (nodes : Array (Node α)) (n : Node α) :
    nodeHolders (nodes.push n) = nodeHolders nodes ++ [.node n] := by
  simp [nodeHolders]

theorem nodeHolders_pushAll (g : Graph α) (nodes : Array (Node α)) :
    nodeHolders (g.pushAll nodes).nodes = nodeHolders g.nodes ++ nodeHolders nodes := by
  have hlist : ∀ (ns : List (Node α)) (g : Graph α),
      nodeHolders (ns.foldl Graph.push g).nodes = nodeHolders g.nodes ++ ns.map .node := by
    intro ns
    induction ns with
    | nil => intro g; simp
    | cons n ns ih =>
      intro g
      rw [List.foldl_cons, ih, Graph.push, nodeHolders_push]
      simp
  unfold Graph.pushAll
  rw [← Array.foldl_toList, hlist]
  rfl

/-! ## Buffers and handles -/

theorem place_of_handle {p : Pool α} {k : Kind} {place : Place} {h : Handle k}
    (hh : p.handle k place = .ok h) : h.place = place := by
  unfold Pool.handle at hh
  split at hh
  · split at hh
    · cases hh
      rfl
    · cases hh
  · cases hh
    rfl

/-- A handle that is made to an admitted slot holds values of its kind. -/
theorem holds_of_handle {p : Pool α} {k : Kind} {place : Place} {h : Handle k}
    (hissued : p.Issued place.buffer)
    (hslot : p.isLive place.buffer → place.slot < p.numSlots place.buffer)
    (hh : p.handle k place = .ok h) : p.Holds h.place k := by
  rw [place_of_handle hh]
  refine ⟨hissued, fun cs hcs => ?_⟩
  obtain ⟨st, hst, rfl⟩ := Pool.store_of_cells hcs
  have hlt := hslot (Pool.isLive_iff.2 ⟨_, hcs⟩)
  have hslots : place.slot < st.slots.length := by
    simpa [Pool.numSlots, hst, Store.numSlots] using hlt
  have hget : st.slots[place.slot]? = some st.slots[place.slot] := List.getElem?_eq_getElem hslots
  simp only [Pool.handle, hst, Option.bind_some, hget] at hh
  split at hh
  · rename_i hk
    exact ⟨st.cell st.slots[place.slot], by rw [Store.getElem?_cells, hget, Option.map_some], hk⟩
  · cases hh

variable [Scalar α]

theorem Orderly.performs_buffer (hs : s.Orderly free) {c : BufferCommand α}
    (hph : s.Serves (.buffer c) ph) (hc : free ∨ s.Admits (.buffer c))
    (ho : s.performBuffer c = some o) : s.Performs free ph o := by
  cases c with
  | allocate name layout =>
    simp only [performBuffer, Lease.create_eq] at ho
    split at ho
    · rename_i l w hcreate
      split at hcreate
      · obtain ⟨objects, hobjects, ho⟩ := Option.bind_eq_some_iff.1 ho
        cases ho
        cases hcreate
        exact hs.performs_new hobjects (.single (.move (.allocate name layout))) (by simp)
      · cases hcreate
    · cases ho
      exact hs.performs_answer _
  | pushSlot buffer k =>
    obtain ⟨l, hl, ho⟩ := Option.bind_eq_some_iff.1 ho
    cases ho
    split
    · rename_i index p hp
      exact hs.performs_same (object?_of_buffer? hl) fun _ _ => .single (.move (.pushSlot hp))
    · exact hs.performs_answer _
  | takeHandle buffer k slot name =>
    obtain ⟨l, hl, ho⟩ := Option.bind_eq_some_iff.1 ho
    simp only at ho
    split at ho
    · rename_i h hh
      obtain ⟨objects, hobjects, ho⟩ := Option.bind_eq_some_iff.1 ho
      cases ho
      have hmem : .buffer l ∈ s.objects.holders :=
        Catalog.mem_holders (object?_of_buffer? hl) List.mem_cons_self
      have hissued : s.pool.Issued l.buffer := (hs.estate.tidy.placed _ hmem).issued
      have htrusts : s.estate.Trusts free h.place k := by
        rcases hc with hfree | hc
        · have hplace := place_of_handle hh
          exact Or.inr ⟨hfree, hplace ▸ hissued, l, hmem, hplace ▸ rfl⟩
        · have hholds : s.pool.Holds h.place k := holds_of_handle hissued (hc l hl) hh
          exact Or.inl hholds
      exact hs.performs_handle hobjects htrusts
    · cases ho
      exact hs.performs_answer _
  | write buffer slot k v =>
    obtain rfl := hph
    obtain ⟨l, hl, ho⟩ := Option.bind_eq_some_iff.1 ho
    cases ho
    split
    · rename_i p hp
      exact hs.performs_same (object?_of_buffer? hl) fun _ _ => .single (.move (.write hp))
    · exact hs.performs_answer _
  | read buffer slot k | isWritten buffer slot | state buffer =>
    obtain ⟨l, hl, ho⟩ := Option.bind_eq_some_iff.1 ho
    cases ho
    exact hs.performs_answer _

theorem Orderly.performs_of_handle (hs : s.Orderly free) {c : HandleCommand α}
    (ho : s.performHandle c = some o) : s.Performs free ph o := by
  cases c with
  | read h | isAlive h | place h | text h =>
    obtain ⟨⟨k, g⟩, -, ho⟩ := Option.bind_eq_some_iff.1 ho
    cases ho
    exact hs.performs_answer _
  | readAll handles | countDistinct k handles | readOperand k operand =>
    obtain ⟨gs, -, ho⟩ := Option.bind_eq_some_iff.1 ho
    cases ho
    exact hs.performs_answer _
  | same a b =>
    obtain ⟨⟨k, g⟩, -, ho⟩ := Option.bind_eq_some_iff.1 ho
    obtain ⟨g', -, ho⟩ := Option.bind_eq_some_iff.1 ho
    cases ho
    exact hs.performs_answer _

/-! ## Graphs -/

/-- Pushing a node into a graph only moves it. -/
theorem Orderly.performs_graph_push (hs : s.Orderly free) {graph node : String}
    {name : Option String} (ho : s.performGraph (.push graph node name) = some o) :
    s.Performs free ph o := by
  obtain ⟨g, hg, ho⟩ := Option.bind_eq_some_iff.1 ho
  obtain ⟨n, hn, ho⟩ := Option.bind_eq_some_iff.1 ho
  obtain ⟨objects, hobjects, ho⟩ := Option.bind_eq_some_iff.1 ho
  cases ho
  obtain ⟨hnames, hhandles, hget⟩ := withNew_spec hs.names hs.handles hobjects fun k h hx => by
    cases hx
    exact Or.inl (hs.node_placed hn).holds_handle
  have hne : node ≠ graph := by
    rintro rfl
    have hboth := (object?_of_node? hn).symm.trans (object?_of_graph? hg)
    cases hboth
  obtain ⟨hs₁, hperm₁, -, herase⟩ :=
    Catalog.exists_holders hnames (hget _ _ (object?_of_node? hn))
  have hnames' := hnames.sublist (Catalog.names_erase objects node)
  have hg' : (objects.erase node).get? graph = some (.graph g) := by
    rw [Catalog.get?_erase, if_neg hne]
    exact hget _ _ (object?_of_graph? hg)
  obtain ⟨hs₂, hperm₂, hreplace, -⟩ := Catalog.exists_holders hnames' hg'
  have hperm : s.objects.holders.Perm
      ((objects.erase node).replace graph (.graph (g.push n))).holders := by
    rw [← holders_withNew_handle hobjects]
    refine hperm₁.trans (List.Perm.trans ?_ (hreplace _).symm)
    refine ((herase.symm.trans hperm₂).cons (Holder.node n)).trans ?_
    simp only [Object.holders, Graph.push, nodeHolders_push, List.append_assoc,
      List.singleton_append]
    exact List.perm_middle.symm
  have hchanges : Changes free ph s.estate
      ⟨s.world, ((objects.erase node).replace graph (.graph (g.push n))).holders⟩ := .perm hperm
  have hkept := hhandles.imp fun _ _ => hchanges.trusts hs.estate.tidy
  refine ⟨hchanges, ?_, hkept.erase.replace (by simp)⟩
  exact (Catalog.names_replace (objects.erase node) graph _).symm ▸ hnames'

theorem Orderly.performs_graph_chain (hs : s.Orderly free) {graph name : String} {length : Nat}
    {first : Reference α .matrix} {link : Link α (Reference α)} {isReversed : Bool}
    (ho : s.performGraph (.chain graph name length first link isReversed) = some o) :
    s.Performs free (.building s.pool) o := by
  obtain ⟨g, hg, ho⟩ := Option.bind_eq_some_iff.1 ho
  obtain ⟨first', hfirst, ho⟩ := Option.bind_eq_some_iff.1 ho
  obtain ⟨link', hlink, ho⟩ := Option.bind_eq_some_iff.1 ho
  obtain ⟨last, hlast, ho⟩ := Option.bind_eq_some_iff.1 ho
  obtain ⟨objects, hobjects, ho⟩ := Option.bind_eq_some_iff.1 ho
  cases ho
  have hall := Link.all_traverse (fun _ _ _ h => hs.all_resolve h) hlink
  have hbuilt : ∀ {hs' : List (Holder α)},
      Changes free (.building s.pool) s.estate ⟨s.world, hs'⟩ →
      Changes free (.building s.pool) ⟨s.world, hs'⟩
        ⟨(Chain.build s.world name link' first' length).world,
          nodeHolders (Chain.build s.world name link' first' length).nodes ++ hs'⟩ :=
    fun hchanges => (Chain.built_build length (hchanges.tidy hs.estate.tidy)
      (hall.imp fun _ _ => hchanges.trusts hs.estate.tidy)
      ((hs.all_resolve hfirst).imp fun _ _ => hchanges.trusts hs.estate.tidy)).1
  generalize Chain.build s.world name link' first' length = c at hlast hbuilt
  have hplaced : last.Placed c.world.pool := by
    refine ((hbuilt (.refl _)).tidy hs.estate.tidy).placed (.node last)
      (List.mem_append_left _ ?_)
    exact List.mem_map_of_mem (Array.mem_toList_iff.2 (Array.mem_of_back? hlast))
  obtain ⟨hnames, hhandles, hget⟩ := withNew_spec hs.names
    (hs.handles.imp fun place k => Or.inl (b := c.world.pool.Holds place k)) hobjects
    fun k h hx => by
      cases hx
      exact Or.inr hplaced.holds_handle
  refine hs.performs_replace_in hnames (holders_withNew_handle hobjects) hhandles
    (hget _ _ (object?_of_graph? hg))
    (fun hs' hfirst => (hbuilt hfirst).trans (.perm ?_)) (by simp)
  simp only [Object.holders, nodeHolders_pushAll, List.append_assoc]
  have hnodes : (nodeHolders c.nodes).Perm
      (nodeHolders (if isReversed then c.nodes.reverse else c.nodes)) := by
    split
    · unfold nodeHolders
      rw [Array.toList_reverse, List.map_reverse]
      exact (List.reverse_perm _).symm
    · exact .refl _
  exact (List.perm_append_comm_assoc _ _ _).trans ((hnodes.append_right _).append_left _)

theorem Orderly.performs_graph (hs : s.Orderly free) {c : GraphCommand α}
    (hph : s.Serves (.graph c) ph) (ho : s.performGraph c = some o) : s.Performs free ph o := by
  cases c with
  | create name =>
    obtain ⟨objects, hobjects, ho⟩ := Option.bind_eq_some_iff.1 ho
    cases ho
    exact hs.performs_new hobjects (.refl _) (by simp)
  | push graph node name => exact hs.performs_graph_push ho
  | chain graph name length first link isReversed =>
    obtain rfl := hph
    exact hs.performs_graph_chain ho
  | evaluate graph =>
    obtain rfl := hph
    obtain ⟨g, hg, ho⟩ := Option.bind_eq_some_iff.1 ho
    cases ho
    exact hs.performs_replace (object?_of_graph? hg)
      (fun _ hfirst => (g.computes_evaluate (hfirst.tidy hs.estate.tidy)).moves.changes) (by simp)
  | numNodes graph =>
    obtain ⟨g, -, ho⟩ := Option.bind_eq_some_iff.1 ho
    cases ho
    exact hs.performs_answer _

/-! ## Nodes and drafts -/

variable [ToText α]

theorem Orderly.performs_node (hs : s.Orderly free) {c : NodeCommand α}
    (hph : s.Serves (.node c) ph) (ho : s.performNode c = some o) : s.Performs free ph o := by
  cases c with
  | operation name k i =>
    obtain rfl := hph
    obtain ⟨j, hj, ho⟩ := Option.bind_eq_some_iff.1 ho
    simp only [Operation.create] at ho
    split at ho
    · rename_i op w hcreate
      split at hcreate
      · obtain ⟨objects, hobjects, ho⟩ := Option.bind_eq_some_iff.1 ho
        cases ho
        cases hcreate
        have hall := Instruction.all_traverse (fun _ _ _ h => hs.all_resolve h) hj
        exact hs.performs_new hobjects (.single (.start name hall)) (by simp)
      · cases hcreate
    · cases ho
      exact hs.performs_answer _
  | make name r =>
    obtain rfl := hph
    obtain ⟨r', hr', ho⟩ := Option.bind_eq_some_iff.1 ho
    split at ho
    · rename_i n w hmake
      obtain ⟨objects, hobjects, ho⟩ := Option.bind_eq_some_iff.1 ho
      cases ho
      have hall := Recipe.all_traverse (fun _ _ _ h => hs.all_resolve h) hr'
      exact hs.performs_new hobjects (Recipe.changes_make hmake hs.estate.tidy hall) (by simp)
    · cases ho
      exact hs.performs_answer _
  | handle node name =>
    obtain ⟨n, hn, ho⟩ := Option.bind_eq_some_iff.1 ho
    obtain ⟨objects, hobjects, ho⟩ := Option.bind_eq_some_iff.1 ho
    cases ho
    exact hs.performs_handle hobjects (Or.inl (hs.node_placed hn).holds_handle)
  | evaluate node | compute node =>
    obtain rfl := hph
    obtain ⟨n, hn, ho⟩ := Option.bind_eq_some_iff.1 ho
    cases ho
    have hevaluates :=
      n.evaluate_evaluates (w := s.world) (hs.node_placed hn) hs.estate.tidy.packed
    exact hs.performs_replace (object?_of_node? hn)
      (fun _ _ => (hevaluates.computes _).moves.changes) (by simp)
  | state node | text node =>
    obtain ⟨n, -, ho⟩ := Option.bind_eq_some_iff.1 ho
    cases ho
    exact hs.performs_answer _
  | describe node | describeSteps node | listing node =>
    simp only [performNode] at ho
    split at ho
    · cases ho
      exact hs.performs_answer _
    · cases ho

/-- Finishing a draft makes a compound of it, or drops it. -/
theorem Orderly.performs_finish (hs : s.Orderly free) {draft : String} {k : Kind} {name : String}
    (ho : s.performDraft (.finish draft k name) = some o) : s.Performs free ph o := by
  obtain ⟨d, hd, ho⟩ := Option.bind_eq_some_iff.1 ho
  have hx := object?_of_draft? hd
  split at ho
  rename_i r w hfinish
  split at ho
  · rename_i c
    obtain ⟨objects, hobjects, ho⟩ := Option.bind_eq_some_iff.1 ho
    cases ho
    obtain ⟨hnames, hhandles, hget⟩ := withNew_spec hs.names hs.handles hobjects (by simp)
    obtain ⟨hs', hperm, -, herase⟩ := Catalog.exists_holders hs.names hx
    obtain ⟨hs'', hperm', -, herase'⟩ := Catalog.exists_holders hnames (hget _ _ hx)
    -- The new object stands beside the draft before the draft goes.
    have hrest : (Holder.node (.compound c) :: hs').Perm hs'' := by
      rw [holders_withNew_some hobjects] at hperm'
      have hboth := (hperm.cons (Holder.node (.compound c))).symm.trans hperm'
      exact ((List.Perm.swap _ _ _).trans hboth).cons_inv
    have hfinished : Changes free ph s.estate ⟨w, .node (.compound c) :: hs'⟩ :=
      (Changes.perm hperm).trans (.single (.move (.finish hfinish)))
    have hchanges := hfinished.trans (.perm (hrest.trans herase'.symm))
    have hkept : objects.HandlesAll (Estate.Trusts free ⟨w, (objects.erase draft).holders⟩) :=
      hhandles.imp fun _ _ => hchanges.trusts hs.estate.tidy
    exact ⟨hchanges, hnames.sublist (Catalog.names_erase _ _), hkept.erase⟩
  · rename_i b
    cases ho
    rw [Draft.finish_error hfinish]
    exact hs.performs_erase hx fun _ _ => .single (.move (.discard (.draft d)))

theorem Orderly.performs_draft (hs : s.Orderly free) {c : DraftCommand α}
    (hph : s.Serves (.draft c) ph) (ho : s.performDraft c = some o) : s.Performs free ph o := by
  cases c with
  | create name =>
    obtain ⟨objects, hobjects, ho⟩ := Option.bind_eq_some_iff.1 ho
    cases ho
    exact hs.performs_new hobjects (.single (.move (.create name))) (by simp)
  | push draft k i name =>
    obtain rfl := hph
    obtain ⟨d, hd, ho⟩ := Option.bind_eq_some_iff.1 ho
    obtain ⟨j, hj, ho⟩ := Option.bind_eq_some_iff.1 ho
    have hx := object?_of_draft? hd
    have hall := Instruction.all_traverse (fun _ _ _ h => hs.all_resolve h) hj
    split at ho
    · rename_i h d' w hpush
      obtain ⟨objects, hobjects, ho⟩ := Option.bind_eq_some_iff.1 ho
      cases ho
      have hplaced : StepsPlaced d.lease d.steps 0 s.world.pool :=
        hs.estate.tidy.placed _ (Catalog.mem_holders hx List.mem_cons_self)
      obtain ⟨-, -, -, -, -, -, hholds⟩ := Draft.push_spec hpush hplaced hs.estate.tidy.packed
      obtain ⟨hnames, hhandles, hget⟩ := withNew_spec hs.names
        (hs.handles.imp fun place k => Or.inl (b := w.pool.Holds place k)) hobjects
        fun k' g hg => by
          cases hg
          exact Or.inr hholds
      exact hs.performs_replace_in hnames (holders_withNew_handle hobjects) hhandles
        (hget _ _ hx) (fun hs' hfirst => .single (.push
          (hall.imp fun _ _ => hfirst.trusts hs.estate.tidy)
          (Estate.reads_of_all_trusts hall d.buffer) hpush)) (by simp)
    · cases ho
      exact hs.performs_answer _
  | state draft =>
    obtain ⟨d, -, ho⟩ := Option.bind_eq_some_iff.1 ho
    cases ho
    exact hs.performs_answer _
  | finish draft k name => exact hs.performs_finish ho

/-! ## All commands -/

theorem Orderly.performs_of_serves (hs : s.Orderly free) {c : Command α} (hph : s.Serves c ph)
    (hc : free ∨ s.Admits c) (ho : s.perform c = some o) : s.Performs free ph o := by
  cases c with
  | buffer c => exact hs.performs_buffer hph hc ho
  | handle c => exact hs.performs_of_handle ho
  | node c => exact hs.performs_node hph ho
  | draft c => exact hs.performs_draft hph ho
  | graph c => exact hs.performs_graph hph ho
  | release object =>
    obtain ⟨x, hx, ho⟩ := Option.bind_eq_some_iff.1 ho
    split at ho
    · rename_i hreleasable
      cases ho
      cases x with
      | buffer l =>
        exact hs.performs_replace hx (fun _ _ => .single (.move (.release (.buffer l) (by simp))))
          (by simp)
      | node n =>
        exact hs.performs_replace hx (fun _ _ => .single (.move (.release (.node n) (by simp))))
          (by simp)
      | graph g =>
        exact hs.performs_replace hx (fun _ _ => (g.moves_release _ _).1.changes) (by simp)
      | handle k h | draft d => cases hreleasable
    · cases ho
  | drop object =>
    obtain ⟨x, hx, ho⟩ := Option.bind_eq_some_iff.1 ho
    cases ho
    cases x with
    | buffer l => exact hs.performs_erase hx fun _ _ => .single (.move (.discard (.buffer l)))
    | handle k h => exact hs.performs_erase hx fun _ _ => .refl _
    | draft d => exact hs.performs_erase hx fun _ _ => .single (.move (.discard (.draft d)))
    | node n => exact hs.performs_erase hx fun _ _ => .single (.move (.discard (.node n)))
    | graph g => exact hs.performs_erase hx fun _ _ => (g.moves_release _ _).2.changes

theorem Orderly.performs (hs : s.Orderly free) {c : Command α} (hc : free ∨ s.Admits c)
    (ho : s.perform c = some o) : s.Performs free (s.phase c) o :=
  hs.performs_of_serves (s.serves_phase c) hc ho

/-- The session after a command is what changes have led to, apart from the log. -/
theorem Orderly.changes_next_of_serves (hs : s.Orderly free) {c : Command α} (hph : s.Serves c ph)
    (hc : free ∨ s.Admits c) : ∃ log, Changes free ph s.estate
      ⟨⟨(s.next c).pool, log⟩, (s.next c).objects.holders⟩ := by
  unfold Session.next
  cases ho : s.perform c with
  | none => exact ⟨#[], .refl _⟩
  | some o => exact ⟨o.events, (hs.performs_of_serves hph hc ho).changes⟩

theorem Orderly.changes_next (hs : s.Orderly free) {c : Command α} (hc : free ∨ s.Admits c) :
    ∃ log, Changes free (s.phase c) s.estate
      ⟨⟨(s.next c).pool, log⟩, (s.next c).objects.holders⟩ :=
  hs.changes_next_of_serves (s.serves_phase c) hc

theorem Orderly.next (hs : s.Orderly free) {c : Command α} (hc : free ∨ s.Admits c) :
    (s.next c).Orderly free := by
  unfold Session.next
  cases ho : s.perform c with
  | none => exact hs
  | some o => exact (hs.performs hc ho).orderly hs

theorem Consistent.next (hs : s.Consistent) {c : Command α} (hc : s.Admits c) :
    (s.next c).Consistent :=
  consistent_iff.2 ((consistent_iff.1 hs).next (Or.inr hc))

/-! ### Sequences of commands -/

section Run

variable (hs : s.Orderly True)

include hs

/-- Whatever commands are given, the session stays orderly. -/
theorem Orderly.run (cs : List (Command α)) : (s.run cs).Orderly True := by
  induction cs generalizing s with
  | nil => exact hs
  | cons c cs ih => exact ih (hs.next (Or.inl trivial))

theorem Orderly.extends_next (c : Command α) : s.pool.Extends (s.next c).pool := by
  obtain ⟨log, hchanges⟩ := hs.changes_next (c := c) (Or.inl trivial)
  exact hchanges.extends_pool hs.estate.tidy

/-- Whoever holds a buffer afterwards held it before, or the buffer is new. -/
theorem Orderly.descends_next (c : Command α) {h' : Holder α}
    (hh' : h' ∈ (s.next c).objects.holders) :
    (∃ h ∈ s.objects.holders, h.Becomes h') ∨ ¬ s.pool.Issued h'.owned := by
  obtain ⟨log, hchanges⟩ := hs.changes_next (c := c) (Or.inl trivial)
  exact hchanges.descends hs.estate.tidy hh'

theorem Orderly.descends_run (cs : List (Command α)) {h' : Holder α}
    (hh' : h' ∈ (s.run cs).objects.holders) :
    (∃ h ∈ s.objects.holders, h.Becomes h') ∨ ¬ s.pool.Issued h'.owned := by
  induction cs generalizing s with
  | nil => exact Or.inl ⟨h', hh', .refl h'⟩
  | cons c cs ih =>
    rcases ih (hs.next (Or.inl trivial)) hh' with ⟨h₁, hh₁, hbecomes⟩ | hnew
    · rcases hs.descends_next c hh₁ with ⟨h₀, hh₀, hbecomes'⟩ | hnew
      · exact Or.inl ⟨h₀, hh₀, hbecomes'.trans hbecomes⟩
      · exact Or.inr (hbecomes.owned.symm ▸ hnew)
    · exact Or.inr fun hissued => hnew ((hs.extends_next c).issued hissued)

end Run

theorem orderly_run (cs : List (Command α)) : (empty.run cs).Orderly True := orderly_empty.run cs

/-- The sessions on the way, the first and the last one included. -/
def states (s : Session α) : List (Command α) → List (Session α)
  | [] => [s]
  | c :: cs => s :: (s.next c).states cs

section Phases

variable {β : Type} {f : Session α → β} {P : Session α → Prop} {x z : β} {Y : β → Prop}
  (hnext : ∀ s c, P s → P (s.next c))
  (hlast : ∀ s c, P s → f s = z → f (s.next c) = z)
  (hmiddle : ∀ s c, P s → Y (f s) → f (s.next c) = f s ∨ f (s.next c) = z)

include hnext hlast

/-- What is seen in the last phase is seen for ever. -/
theorem map_states_of_last (cs : List (Command α)) {s : Session α} (hs : P s) (hz : f s = z) :
    ∃ n, (s.states cs).map f = List.replicate n z := by
  induction cs generalizing s with
  | nil => exact ⟨1, congrArg (fun a => [a]) hz⟩
  | cons c cs ih =>
    obtain ⟨n, hn⟩ := ih (hnext s c hs) (hlast s c hs hz)
    exact ⟨n + 1, by rw [states, List.map_cons, hz, hn, List.replicate_succ]⟩

include hmiddle

theorem map_states_of_middle (cs : List (Command α)) {s : Session α} (hs : P s) (hy : Y (f s)) :
    ∃ m n, (s.states cs).map f = List.replicate m (f s) ++ List.replicate n z := by
  induction cs generalizing s with
  | nil => exact ⟨1, 0, rfl⟩
  | cons c cs ih =>
    rw [states, List.map_cons]
    rcases hmiddle s c hs hy with hsame | hz
    · obtain ⟨m, n, hmn⟩ := ih (hnext s c hs) (hsame.symm ▸ hy)
      exact ⟨m + 1, n, by rw [hmn, hsame, List.replicate_succ, List.cons_append]⟩
    · obtain ⟨n, hn⟩ := map_states_of_last hnext hlast cs (hnext s c hs) hz
      exact ⟨1, n, by rw [hn]; rfl⟩

/-- If sessions show one thing first, then another, which may depend on the session but stays the
same, and then a third one, then they do so in three phases. -/
theorem map_states (hfirst : ∀ s, P s → f s = x ∨ Y (f s) ∨ f s = z) (hY : ∃ y, Y y)
    (cs : List (Command α)) {s : Session α} (hs : P s) : ∃ l m n y, Y y ∧ (s.states cs).map f =
      List.replicate l x ++ List.replicate m y ++ List.replicate n z := by
  induction cs generalizing s with
  | nil =>
    obtain ⟨y, hy⟩ := hY
    rcases hfirst s hs with h | h | h
    · exact ⟨1, 0, 0, y, hy, congrArg (fun a => [a]) h⟩
    · exact ⟨0, 1, 0, f s, h, rfl⟩
    · exact ⟨0, 0, 1, y, hy, congrArg (fun a => [a]) h⟩
  | cons c cs ih =>
    rcases hfirst s hs with h | h | h
    · obtain ⟨l, m, n, y, hy, hlmn⟩ := ih (hnext s c hs)
      refine ⟨l + 1, m, n, y, hy, ?_⟩
      rw [states, List.map_cons, h, hlmn, List.replicate_succ, List.cons_append, List.cons_append]
    · obtain ⟨m, n, hmn⟩ := map_states_of_middle hnext hlast hmiddle (c :: cs) hs h
      exact ⟨0, m, n, f s, h, hmn⟩
    · obtain ⟨y, hy⟩ := hY
      obtain ⟨n, hn⟩ := map_states_of_last hnext hlast (c :: cs) hs h
      exact ⟨0, 0, n, y, hy, hn⟩

end Phases

theorem Reachable.consistent (hs : s.Reachable) : s.Consistent := by
  induction hs with
  | empty => exact consistent_empty
  | next _ hc ih => exact ih.next hc

/-- Commands that make no handles to buffers are always admitted. -/
theorem Reachable.run (hs : s.Reachable) {cs : List (Command α)} (hcs : cs.all (!·.takesHandle)) :
    (s.run cs).Reachable := by
  induction cs generalizing s with
  | nil => exact hs
  | cons c cs ih =>
    rw [List.all_cons, Bool.and_eq_true] at hcs
    have hc : s.Admits c := by
      unfold Admits
      split
      · cases hcs.1
      · trivial
    exact ih (hs.next hc) hcs.2

end Session

end DeferredMatrix
