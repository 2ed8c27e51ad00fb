import DeferredMatrix.Proofs.Renaming.Sessions

/-!
# Commands in sessions that mirror each other

Every command has the same outcome in a session and in one that mirrors it, if it only mentions
names under which it does.

* `Session.Mirrors.perform` : both commands fit or neither does, and they have the same outcome.
-/

namespace DeferredMatrix

variable {α : Type} {σ : BufferId → BufferId} {mine : String → Prop} {base s t : Session α}

namespace Session.Mirrors

/-! ## What the answers and the graphs contain -/

/-- The result of a node is read from the same slot. -/
theorem read_node {p q : Pool α} (hpq : Pool.Mirrors σ base.pool p q) (n : Node α) :
    Reply.Renames σ ((p.read n.handle).map (Answer.value n.kind))
      ((q.read (n.rename σ).handle).map (Answer.value (n.rename σ).kind)) := by
  have hread : (q.read (n.rename σ).handle).map (Answer.value (n.rename σ).kind) =
      (q.read (n.handle.rename σ)).map (Answer.value n.kind) :=
    congrArg (fun x : (k : Kind) × Handle k => (q.read x.2).map (Answer.value x.1)) n.handle_rename
  rw [hread]
  exact (hpq.read n.handle).map fun _ _ hv => by rw [hv]; rfl

theorem place_answer (n : Node α) :
    (.place (n.rename σ).handle.place : Answer α) = Answer.rename σ (.place n.handle.place) :=
  congrArg Answer.place n.place_rename

theorem push_rename (g : Graph α) (n : Node α) :
    (g.rename σ).push (n.rename σ) = (g.push n).rename σ :=
  congrArg Graph.mk Array.map_push.symm

theorem pushAll_rename (g : Graph α) (nodes : Array (Node α)) :
    (g.rename σ).pushAll (nodes.map (Node.rename σ)) = (g.pushAll nodes).rename σ := by
  have hlist : ∀ (ns : List (Node α)) (g : Graph α),
      (ns.map (Node.rename σ)).foldl Graph.push (g.rename σ) =
        (ns.foldl Graph.push g).rename σ := by
    intro ns
    induction ns with
    | nil => exact fun g => rfl
    | cons n ns ih =>
      intro g
      rw [List.map_cons, List.foldl_cons, List.foldl_cons, push_rename, ih]
  unfold Graph.pushAll
  rw [← Array.foldl_toList, ← Array.foldl_toList, Array.toList_map, hlist]

variable (h : Session.Mirrors σ mine base s t)

include h

/-! ## Handles and objects -/

theorem performHandle {c : HandleCommand α} (hc : ∀ name ∈ c.names, mine name) :
    Option.Rel (Outcome.Mirrors σ mine base) (s.performHandle c) (t.performHandle c) := by
  have hfirst : ∀ {name : String}, c.names.head? = some name → mine name :=
    fun hname => hc _ (List.mem_of_head? hname)
  cases c with
  | read handle =>
    refine rel_bind_map (h.handle? (hfirst rfl)) ?_
    rintro ⟨k, g⟩
    exact .some (h.answer ((h.pool.read g).map fun _ _ hv => by rw [hv]; rfl))
  | readAll handles =>
    refine rel_bind_map (mapM_eq_map fun name hname => h.handle? (hc name hname)) fun gs => ?_
    refine .some (h.answer (.ok ?_))
    simp only [Answer.rename, List.map_map]
    refine congrArg Answer.values (List.map_congr_left fun x _ => ?_)
    exact ((h.pool.read x.2).map fun _ _ hv => congrArg (Sigma.mk x.1) hv).eq_mapError
  | isAlive handle =>
    refine rel_bind_map (h.handle? (hfirst rfl)) ?_
    rintro ⟨k, g⟩
    exact .some (h.answer (.ok (congrArg Answer.flag (h.pool.isLive g.buffer))))
  | place handle =>
    refine rel_bind_map (h.handle? (hfirst rfl)) ?_
    rintro ⟨k, g⟩
    exact .some (h.answer (.ok rfl))
  | text handle =>
    refine rel_bind_map (h.handle? (hfirst rfl)) ?_
    rintro ⟨k, g⟩
    exact .some (h.answer (.ok (congrArg Answer.text (g.text_rename h.label))))
  | same a b =>
    refine rel_bind_map (h.handle? (hfirst rfl)) ?_
    rintro ⟨k, g⟩
    have hb : mine b := hc b (List.mem_cons_of_mem _ List.mem_cons_self)
    refine rel_bind_map (h.handleOf? hb k) fun g' => ?_
    have hsame : decide (g.rename σ = g'.rename σ) = decide (g = g') :=
      decide_eq_decide.2 (Handle.rename_inj h.pool.injective)
    exact .some (h.answer (.ok (congrArg Answer.flag hsame)))
  | countDistinct k handles =>
    refine rel_bind_map (mapM_eq_map fun name hname => h.handleOf? (hc name hname) k) fun gs => ?_
    have hinj : Function.Injective (Handle.rename σ (k := k)) :=
      fun _ _ => (Handle.rename_inj h.pool.injective).1
    refine .some (h.answer (.ok (congrArg Answer.number ?_)))
    rw [eraseDups_map hinj, List.length_map]
  | readOperand k operand =>
    refine rel_bind_map (h.resolve hc) fun o => ?_
    refine .some (h.answer ((h.pool.resolve o).map fun _ _ hv => ?_))
    rw [hv, o.isHandle_rename]
    rfl

theorem dispose (x : Object α) : World.MirrorsWith σ base.pool (Object.rename σ)
    (x.dispose s.world) ((x.rename σ).dispose t.world) := by
  cases x with
  | buffer l =>
    obtain ⟨hlease, hworld⟩ := h.world.release l
    exact ⟨congrArg Object.buffer hlease, hworld⟩
  | handle k g => exact ⟨rfl, h.world⟩
  | draft d =>
    obtain ⟨hlease, hworld⟩ := h.world.release d.lease
    exact ⟨congrArg (fun l => Object.draft ⟨l, (d.rename σ).steps⟩) hlease, hworld⟩
  | node n =>
    obtain ⟨hnode, hworld⟩ := h.world.release_node n
    exact ⟨congrArg Object.node hnode, hworld⟩
  | graph g =>
    obtain ⟨hgraph, hworld⟩ := h.world.release_graph g
    exact ⟨congrArg Object.graph hgraph, hworld⟩

variable [Scalar α]

/-! ## Buffers and graphs -/

theorem performBuffer {c : BufferCommand α} (hc : ∀ name ∈ c.names, mine name) :
    Option.Rel (Outcome.Mirrors σ mine base) (s.performBuffer c) (t.performBuffer c) := by
  have hfirst : ∀ {name : String}, c.names.head? = some name → mine name :=
    fun hname => hc _ (List.mem_of_head? hname)
  cases c with
  | allocate name layout =>
    have hcreate := h.world.create_lease name layout
    simp only [Session.performBuffer]
    generalize Lease.create s.world name layout = x at hcreate ⊢
    generalize Lease.create t.world name layout = y at hcreate ⊢
    cases hcreate with
    | error hb => exact .some (h.answer (.error (congrArg Stop.breach hb)))
    | @ok x y hxy =>
    obtain ⟨l, w⟩ := x
    obtain ⟨_, w'⟩ := y
    obtain ⟨rfl, hw⟩ := hxy
    refine rel_bind (h.withNew_some (hfirst rfl) (.buffer l)) fun objects objects' ho => ?_
    have hslots : w'.pool.numSlots (σ l.buffer) = w.pool.numSlots l.buffer := hw.pool.numSlots _
    exact .some (.change hw ho (.ok (congrArg Answer.slots hslots)))
  | pushSlot buffer k =>
    refine rel_bind_map (h.buffer? (hfirst rfl)) fun l => ?_
    have hpush := h.pool.pushSlot l.buffer k
    simp only [Lease.rename]
    generalize s.pool.pushSlot l.buffer k = x at hpush ⊢
    generalize t.pool.pushSlot (σ l.buffer) k = y at hpush ⊢
    cases hpush with
    | @ok x y hxy =>
      obtain ⟨index, p⟩ := x
      obtain ⟨_, q⟩ := y
      obtain ⟨rfl, hpq⟩ := hxy
      exact .some (.change (h.world.setPool hpq) h.objects (.ok rfl))
    | error he => exact .some (h.answer (.error he))
  | takeHandle buffer k slot name =>
    refine rel_bind_map (h.buffer? (hfirst rfl)) fun l => ?_
    have hhandle := h.pool.handle k ⟨l.buffer, slot⟩
    change SameEnd _ _ _ (t.pool.handle k ⟨(l.rename σ).buffer, slot⟩) at hhandle
    simp only
    generalize s.pool.handle k ⟨l.buffer, slot⟩ = x at hhandle ⊢
    generalize t.pool.handle k ⟨(l.rename σ).buffer, slot⟩ = y at hhandle ⊢
    cases hhandle with
    | @ok g _ hg =>
      subst hg
      have hname : mine name := hc name (List.mem_cons_of_mem _ List.mem_cons_self)
      refine rel_bind (h.withNew_some hname (.handle k g)) ?_
      exact fun objects objects' ho => .some (.change h.world ho (.ok rfl))
    | error hb => exact .some (h.answer (.error (congrArg Stop.breach hb)))
  | write buffer slot k v =>
    refine rel_bind_map (h.buffer? (hfirst rfl)) fun l => ?_
    have hwrite := h.pool.write ⟨l.buffer, slot⟩ v.slots
    change SameEnd _ _ _ (t.pool.write ⟨(l.rename σ).buffer, slot⟩ v.slots) at hwrite
    generalize s.pool.write ⟨l.buffer, slot⟩ v.slots = x at hwrite ⊢
    generalize t.pool.write ⟨(l.rename σ).buffer, slot⟩ v.slots = y at hwrite ⊢
    cases hwrite with
    | ok hpq => exact .some (.change (h.world.setPool hpq) h.objects (.ok rfl))
    | error he => exact .some (h.answer (.error he))
  | read buffer slot k =>
    refine rel_bind_map (h.buffer? (hfirst rfl)) fun l => ?_
    exact .some (h.answer ((h.pool.read ⟨l.buffer, slot⟩).map fun _ _ hv => by rw [hv]; rfl))
  | isWritten buffer slot =>
    refine rel_bind_map (h.buffer? (hfirst rfl)) fun l => ?_
    exact .some (h.answer ((h.pool.isWritten ⟨l.buffer, slot⟩).map fun _ _ hv => by rw [hv]; rfl))
  | state buffer =>
    refine rel_bind_map (h.buffer? (hfirst rfl)) fun l => ?_
    have hslots : t.pool.numSlots (l.rename σ).buffer = s.pool.numSlots l.buffer :=
      h.pool.numSlots l.buffer
    have hlive : t.pool.isLive (l.rename σ).buffer = s.pool.isLive l.buffer :=
      h.pool.isLive l.buffer
    refine .some (h.answer (.ok ?_))
    rw [hslots, hlive]
    rfl

theorem performGraph {c : GraphCommand α} (hc : ∀ name ∈ c.names, mine name) :
    Option.Rel (Outcome.Mirrors σ mine base) (s.performGraph c) (t.performGraph c) := by
  have hfirst : ∀ {name : String}, c.names.head? = some name → mine name :=
    fun hname => hc _ (List.mem_of_head? hname)
  cases c with
  | create name =>
    have hempty : Graph.rename σ (.empty : Graph α) = .empty :=
      congrArg Graph.mk Array.map_empty
    have hnew := h.withNew_some (hfirst rfl) (.graph .empty)
    rw [Object.rename, hempty] at hnew
    exact rel_bind hnew fun objects objects' ho => .some (.change h.world ho (.ok rfl))
  | push graph node name =>
    refine rel_bind_map (h.graph? (hfirst rfl)) fun g => ?_
    have hnode : mine node := hc node (List.mem_cons_of_mem _ List.mem_cons_self)
    refine rel_bind_map (h.node? hnode) fun n => ?_
    have hname : ∀ n ∈ name.toList, mine n :=
      fun n hn => hc n (List.mem_cons_of_mem _ (List.mem_cons_of_mem _ hn))
    refine rel_bind (h.withNew_handle hname n) fun objects objects' ho => ?_
    have hreplace := (ho.erase hnode).replace (hfirst rfl) (.graph (g.push n))
    rw [Object.rename, ← push_rename] at hreplace
    exact .some (.change h.world hreplace (.ok (place_answer n)))
  | chain graph name length first link isReversed =>
    refine rel_bind_map (h.graph? (hfirst rfl)) fun g => ?_
    have hfirst' : ∀ n ∈ first.names, mine n := fun n hn =>
      hc n (List.mem_append_left _ (List.mem_cons_of_mem _ (List.mem_cons_of_mem _ hn)))
    refine rel_bind_map (h.resolve hfirst') fun first => ?_
    have hlink : ∀ n ∈ link.names, mine n := fun n hn => hc n (List.mem_append_right _ hn)
    refine rel_bind_map (h.traverse_link hlink) fun link => ?_
    obtain ⟨hnodes, -, hworld⟩ := h.world.build name link first length
    simp only
    generalize Chain.build s.world name link first length = x at hnodes hworld ⊢
    generalize Chain.build t.world name (link.rename σ) (first.rename (Place.rename σ)) length = y
      at hnodes hworld ⊢
    have hlast : y.nodes.back? = x.nodes.back?.map (Node.rename σ) := by
      rw [hnodes, Array.back?_map]
    refine rel_bind_map hlast fun last => ?_
    have hname : ∀ n ∈ (some name).toList, mine n := List.forall_mem_singleton.2
      (hc name (List.mem_append_left _ (List.mem_cons_of_mem _ List.mem_cons_self)))
    refine rel_bind (h.withNew_handle hname last) fun objects objects' ho => ?_
    have hreversed : (if isReversed then y.nodes.reverse else y.nodes) =
        (if isReversed then x.nodes.reverse else x.nodes).map (Node.rename σ) := by
      cases isReversed with
      | true => simp [hnodes]
      | false => simp [hnodes]
    have hreplace := ho.replace (hfirst rfl)
      (.graph (g.pushAll (if isReversed then x.nodes.reverse else x.nodes)))
    rw [Object.rename, ← pushAll_rename, ← hreversed] at hreplace
    exact .some (.change hworld hreplace (.ok (place_answer last)))
  | evaluate graph =>
    refine rel_bind_map (h.graph? (hfirst rfl)) fun g => ?_
    obtain ⟨hgraph, hworld, hresult⟩ := h.world.evaluate_graph g
    have hreplace := h.objects.replace (hfirst rfl) (.graph (g.evaluate s.world).node)
    rw [Object.rename, ← hgraph] at hreplace
    exact .some (.change hworld hreplace (hresult.map fun _ _ _ => rfl))
  | numNodes graph =>
    refine rel_bind_map (h.graph? (hfirst rfl)) fun g => ?_
    have hsize : (g.rename σ).numNodes = g.numNodes := Array.size_map
    exact .some (h.answer (.ok (congrArg Answer.number hsize)))

/-! ## Nodes and drafts -/

/-- A node that has been evaluated takes its place in the catalog. -/
theorem replace_evaluated {name : String} (hname : mine name) (n : Node α) :
    Catalog.Mirrors σ mine base.objects
      (s.objects.replace name (.node (n.evaluate s.world).node))
      (t.objects.replace name (.node ((n.rename σ).evaluate t.world).node)) := by
  have hreplace := h.objects.replace hname (.node (n.evaluate s.world).node)
  rwa [Object.rename, ← (h.world.evaluate n).1] at hreplace

variable [ToText α]

theorem performNode {c : NodeCommand α} (hc : ∀ name ∈ c.names, mine name) :
    Option.Rel (Outcome.Mirrors σ mine base) (s.performNode c) (t.performNode c) := by
  have hfirst : ∀ {name : String}, c.names.head? = some name → mine name :=
    fun hname => hc _ (List.mem_of_head? hname)
  have hrest : ∀ {name : String}, name ∈ c.names.tail → mine name :=
    fun hname => hc _ (List.mem_of_mem_tail hname)
  cases c with
  | operation name k i =>
    refine rel_bind_map (h.traverse fun n hn => hrest hn) fun j => ?_
    have hcreate := h.world.create_operation name k j
    simp only
    generalize Operation.create s.world name k j = x at hcreate ⊢
    generalize Operation.create t.world name k (j.rename σ) = y at hcreate ⊢
    cases hcreate with
    | @ok x y hxy =>
      obtain ⟨o, w⟩ := x
      obtain ⟨_, w'⟩ := y
      obtain ⟨rfl, hw⟩ := hxy
      refine rel_bind (h.withNew_some (hfirst rfl) (.node (.operation o))) ?_
      exact fun objects objects' ho => .some (.change hw ho (.ok rfl))
    | error hb => exact .some (h.answer (.error (congrArg Stop.breach hb)))
  | make name r =>
    refine rel_bind_map (h.traverse_recipe fun n hn => hrest hn) fun r => ?_
    have hmake := h.world.make name r
    generalize r.make s.world name = x at hmake ⊢
    generalize (r.rename σ).make t.world name = y at hmake ⊢
    cases hmake with
    | @ok x y hxy =>
      obtain ⟨n, w⟩ := x
      obtain ⟨_, w'⟩ := y
      obtain ⟨rfl, hw⟩ := hxy
      refine rel_bind (h.withNew_some (hfirst rfl) (.node n)) fun objects objects' ho => ?_
      exact .some (.change hw ho (.ok (congrArg Answer.state n.state_rename)))
    | error he => exact .some (h.answer (.error he))
  | handle node name =>
    refine rel_bind_map (h.node? (hfirst rfl)) fun n => ?_
    have hname : ∀ n ∈ (some name).toList, mine n := fun n hn => hrest hn
    refine rel_bind (h.withNew_handle hname n) fun objects objects' ho => ?_
    exact .some (.change h.world ho (.ok (place_answer n)))
  | evaluate node =>
    refine rel_bind_map (h.node? (hfirst rfl)) fun n => ?_
    obtain ⟨-, hworld, hresult⟩ := h.world.evaluate n
    refine .some (.change hworld (h.replace_evaluated (hfirst rfl) n) (hresult.map ?_))
    exact fun _ _ _ => place_answer n
  | compute node =>
    refine rel_bind_map (h.node? (hfirst rfl)) fun n => ?_
    obtain ⟨-, hworld, hresult⟩ := h.world.evaluate n
    refine .some (.change hworld (h.replace_evaluated (hfirst rfl) n) (hresult.bind ?_))
    exact fun _ _ _ => read_node hworld.pool n
  | state node =>
    refine rel_bind_map (h.node? (hfirst rfl)) fun n => ?_
    refine .some (h.answer (.ok ?_))
    rw [n.state_rename, n.buffer_rename, h.pool.isLive, n.externalInputs_rename h.pool.injective]
    rfl
  | text node =>
    refine rel_bind_map (h.node? (hfirst rfl)) fun n => ?_
    exact .some (h.answer (.ok (congrArg Answer.text (n.text_rename h.label))))
  | describe node =>
    simp only [Session.performNode, h.node? (hfirst rfl)]
    cases s.node? node with
    | none => exact .none
    | some n =>
      cases n with
      | compound c => exact .none
      | operation o =>
        refine .some (h.answer (.ok (congrArg Answer.description ?_)))
        exact o.instruction.describe_rename h.pool.injective o.buffer
  | describeSteps node =>
    simp only [Session.performNode, h.node? (hfirst rfl)]
    cases s.node? node with
    | none => exact .none
    | some n =>
      cases n with
      | operation o => exact .none
      | compound c =>
        refine .some (h.answer (.ok (congrArg Answer.descriptions ?_)))
        simp only [Compound.rename, List.map_map]
        refine List.map_congr_left fun step _ => ?_
        exact step.instruction.describe_rename h.pool.injective c.buffer
  | listing node =>
    simp only [Session.performNode, h.node? (hfirst rfl)]
    cases s.node? node with
    | none => exact .none
    | some n =>
      cases n with
      | operation o => exact .none
      | compound c =>
        exact .some (h.answer (.ok (congrArg Answer.text (c.listing_rename h.pool.injective))))

theorem performDraft {c : DraftCommand α} (hc : ∀ name ∈ c.names, mine name) :
    Option.Rel (Outcome.Mirrors σ mine base) (s.performDraft c) (t.performDraft c) := by
  have hfirst : ∀ {name : String}, c.names.head? = some name → mine name :=
    fun hname => hc _ (List.mem_of_head? hname)
  cases c with
  | create name =>
    obtain ⟨hdraft, hworld⟩ := h.world.create name
    simp only [Session.performDraft]
    generalize Draft.create s.world name = x at hdraft hworld ⊢
    generalize Draft.create t.world name = y at hdraft hworld ⊢
    obtain ⟨d, w⟩ := x
    obtain ⟨d', w'⟩ := y
    cases hdraft
    refine rel_bind (h.withNew_some (hfirst rfl) (.draft d)) fun objects objects' ho => ?_
    exact .some (.change hworld ho (.ok rfl))
  | push draft k i name =>
    refine rel_bind_map (h.draft? (hfirst rfl)) fun d => ?_
    have hi : ∀ n ∈ i.names, mine n :=
      fun n hn => hc n (List.mem_append_left _ (List.mem_cons_of_mem _ hn))
    refine rel_bind_map (h.traverse hi) fun j => ?_
    have hpush := h.world.push d k j
    generalize d.push s.world k j = x at hpush ⊢
    generalize (d.rename σ).push t.world k (j.rename σ) = y at hpush ⊢
    cases hpush with
    | @ok x y hxy =>
      obtain ⟨g, d', w⟩ := x
      obtain ⟨_, _, w'⟩ := y
      obtain ⟨rfl, rfl, hw⟩ := hxy
      have hname : ∀ n ∈ name.toList, mine n := fun n hn => hc n (List.mem_append_right _ hn)
      refine rel_bind (h.withNew hname (.handle k g)) fun objects objects' ho => ?_
      exact .some (.change hw (ho.replace (hfirst rfl) (.draft d')) (.ok rfl))
    | error he => exact .some (h.answer (.error he))
  | state draft =>
    refine rel_bind_map (h.draft? (hfirst rfl)) fun d => ?_
    have hsteps : (d.rename σ).steps.length = d.steps.length := List.length_map _
    refine .some (h.answer (.ok ?_))
    rw [hsteps, d.text_rename h.label]
    rfl
  | finish draft k name =>
    refine rel_bind_map (h.draft? (hfirst rfl)) fun d => ?_
    obtain ⟨hresult, hworld⟩ := h.world.finish d k
    generalize d.finish s.world k = x at hresult hworld ⊢
    generalize (d.rename σ).finish t.world k = y at hresult hworld ⊢
    obtain ⟨r, w⟩ := x
    obtain ⟨r', w'⟩ := y
    cases hresult with
    | @ok c _ hcompound =>
      subst hcompound
      have hname : mine name := hc name (List.mem_cons_of_mem _ List.mem_cons_self)
      refine rel_bind (h.withNew_some hname (.node (.compound c))) fun objects objects' ho => ?_
      refine .some (.change hworld (ho.erase (hfirst rfl)) (.ok ?_))
      exact congrArg Answer.state (Node.state_rename (.compound c))
    | error hb =>
      exact .some (.change hworld (h.objects.erase (hfirst rfl))
        (.error (congrArg Stop.breach hb)))

/-! ## All commands -/

/-- A command on names of its own has the same outcome in both sessions. -/
theorem perform {c : Command α} (hc : ∀ name ∈ c.names, mine name) :
    Option.Rel (Outcome.Mirrors σ mine base) (s.perform c) (t.perform c) := by
  cases c with
  | buffer c => exact h.performBuffer hc
  | handle c => exact h.performHandle hc
  | node c => exact h.performNode hc
  | draft c => exact h.performDraft hc
  | graph c => exact h.performGraph hc
  | release object =>
    have hname : mine object := hc object List.mem_cons_self
    refine rel_bind_map (h.object? hname) fun x => ?_
    obtain ⟨hobject, hworld⟩ := h.dispose x
    have hreleasable : (x.rename σ).isReleasable = x.isReleasable := by cases x <;> rfl
    have hreplace := h.objects.replace hname (x.dispose s.world).1
    rw [← hobject] at hreplace
    rw [hreleasable]
    by_cases hr : x.isReleasable
    · simp only [if_pos hr]
      exact .some (.change hworld hreplace (.ok rfl))
    · simp only [if_neg hr]
      exact .none
  | drop object =>
    have hname : mine object := hc object List.mem_cons_self
    refine rel_bind_map (h.object? hname) fun x => ?_
    exact .some (.change (h.dispose x).world (h.objects.erase hname) (.ok rfl))

end Session.Mirrors

end DeferredMatrix
