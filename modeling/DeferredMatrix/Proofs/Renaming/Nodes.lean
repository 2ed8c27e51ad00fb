import DeferredMatrix.Proofs.Renaming.Pool

/-!
# Nodes in worlds that mirror each other

Renamed nodes are made, evaluated and released in a mirroring world with the renamed outcome.

* `Attempt.Mirrors` : two evaluations of a node have the same outcome.
* `World.Mirrors.evaluate` : so do those of a node and the renamed one.
* `World.Mirrors.make`, `World.Mirrors.build` : what recipes and chains make.
-/

namespace DeferredMatrix

variable {α : Type}

/-- The outcomes of two evaluations, one of something renamed by `f`. -/
structure Attempt.Mirrors {ν : Type} (σ : BufferId → BufferId) (base : Pool α) (f : ν → ν)
    (a a' : Attempt ν α) : Prop where
  node : a'.node = f a.node
  world : World.Mirrors σ base a.world a'.world
  result : SameEnd (Stop.Renames σ) Eq a.result a'.result

/-- Two sequences of steps have come as far. -/
structure Progress.Mirrors (σ : BufferId → BufferId) (base : Pool α) (a a' : Progress α) :
    Prop where
  completed : a'.completed = a.completed
  world : World.Mirrors σ base a.world a'.world
  result : SameEnd (Stop.Renames σ) Eq a.result a'.result

variable [Scalar α] {σ : BufferId → BufferId} {base : Pool α}

/-! ## Execution -/

theorem Instruction.sameEnd_checkInvertible (determinant threshold : α) :
    SameEnd (Stop.Renames σ) Eq (checkInvertible determinant threshold)
      (checkInvertible determinant threshold) := by
  unfold checkInvertible
  by_cases h : Scalar.reaches determinant threshold
  · simp only [if_pos h]
    exact .ok rfl
  · simp only [if_neg h]
    exact .error rfl

namespace Pool.Mirrors

variable {p q : Pool α} (h : Pool.Mirrors σ base p q)

include h

/-- Instructions compute the same elements, although the kinds of their results are the same only
for each instruction on its own. -/
theorem execute (i : Instruction α (Operand α)) :
    SameEnd (Stop.Renames σ) Eq ((i.execute p).map Value.slots)
      (((i.rename σ).execute q).map Value.slots) := by
  cases i with
  | identity => exact .ok rfl
  | transpose a | adjugate a =>
    refine SameEnd.map ((h.resolve a).bind ?_) fun _ _ => congrArg Value.slots
    rintro v _ rfl
    exact .ok rfl
  | multiply a b | add a b | scale a b | transform a b =>
    refine SameEnd.map ((h.resolve a).bind ?_) fun _ _ => congrArg Value.slots
    rintro v _ rfl
    refine (h.resolve b).bind ?_
    rintro u _ rfl
    exact .ok rfl
  | determinant a threshold =>
    refine SameEnd.map ((h.resolve a).bind ?_) fun _ _ => congrArg Value.slots
    rintro v _ rfl
    cases threshold with
    | none => exact .ok rfl
    | some epsilon =>
      refine (Instruction.sameEnd_checkInvertible _ epsilon).bind ?_
      rintro _ _ -
      exact .ok rfl
  | divide a b threshold =>
    refine SameEnd.map ((h.resolve b).bind ?_) fun _ _ => congrArg Value.slots
    rintro u _ rfl
    refine (Instruction.sameEnd_checkInvertible _ threshold).bind ?_
    rintro _ _ -
    refine (h.resolve a).bind ?_
    rintro v _ rfl
    exact .ok rfl

theorem run (i : Instruction α (Operand α)) (place : Place) :
    SameEnd (Stop.Renames σ) (Pool.Mirrors σ base) (i.run place p)
      ((i.rename σ).run (place.rename σ) q) := by
  have hslots : ∀ (j : Instruction α (Operand α)) (place : Place) (p : Pool α),
      j.run place p = ((j.execute p).map Value.slots).bind (p.write place) := by
    intro j place p
    unfold Instruction.run
    cases j.execute p <;> rfl
  rw [hslots, hslots]
  refine (h.execute i).bind ?_
  rintro xs _ rfl
  exact h.write place xs

end Pool.Mirrors

namespace World.Mirrors

variable {w w' : World α} (h : World.Mirrors σ base w w')

include h

theorem evaluate_operation (o : Operation α) :
    Attempt.Mirrors σ base (Operation.rename σ) (o.evaluate w) ((o.rename σ).evaluate w') := by
  have hreleased : (o.rename σ).lease.released = o.lease.released := rfl
  have hevaluated : (o.rename σ).evaluated = o.evaluated := rfl
  have hcode : (o.rename σ).instruction.code = o.instruction.code := o.instruction.code_rename
  have hrun := h.pool.run o.instruction o.handle.place
  unfold Operation.evaluate
  rw [hreleased, hevaluated, hcode]
  by_cases hr : o.lease.released
  · simp only [if_pos hr]
    exact ⟨rfl, h, .error rfl⟩
  by_cases he : o.evaluated
  · simp only [if_neg hr, if_pos he]
    exact ⟨rfl, h, .ok rfl⟩
  simp only [if_neg hr, if_neg he]
  change SameEnd _ _ _ ((o.rename σ).instruction.run (o.rename σ).handle.place w'.pool) at hrun
  generalize o.instruction.run o.handle.place w.pool = x at hrun ⊢
  generalize (o.rename σ).instruction.run (o.rename σ).handle.place w'.pool = y at hrun ⊢
  cases hrun with
  | ok hpq => exact ⟨rfl, (h.setPool hpq).emit (.evaluated o.buffer o.instruction.code), .ok rfl⟩
  | @error s _ hs =>
    subst hs
    exact ⟨rfl, h.noteRefusal s, .error rfl⟩

theorem runAll (b : BufferId) (completed : Nat) (steps : List (Step α)) :
    Progress.Mirrors σ base (Step.runAll b completed steps w)
      (Step.runAll (σ b) completed (steps.map (Step.rename σ)) w') := by
  induction steps generalizing completed w w' with
  | nil => exact ⟨rfl, h, .ok rfl⟩
  | cons step steps ih =>
    have hexecute := h.pool.execute step.instruction
    have hcode : (step.rename σ).instruction.code = step.instruction.code :=
      step.instruction.code_rename
    change SameEnd _ _ _ (((step.rename σ).instruction.execute w'.pool).map Value.slots) at hexecute
    simp only [Step.runAll, List.map_cons, hcode]
    generalize step.instruction.execute w.pool = x at hexecute ⊢
    generalize (step.rename σ).instruction.execute w'.pool = y at hexecute ⊢
    match x, y, hexecute with
    | .error s, .error _, .error hs =>
      subst hs
      exact ⟨rfl, (h.noteRefusal s).noteStep b completed s, .error rfl⟩
    | .ok v, .ok v', .ok hslots =>
      have hwrite := h.pool.write ⟨b, step.slot⟩ v.slots
      change SameEnd _ _ _ (w'.pool.write ⟨σ b, (step.rename σ).slot⟩ v.slots) at hwrite
      simp only [← hslots]
      generalize w.pool.write ⟨b, step.slot⟩ v.slots = p at hwrite ⊢
      generalize w'.pool.write ⟨σ b, (step.rename σ).slot⟩ v.slots = q at hwrite ⊢
      cases hwrite with
      | ok hpq => exact ih ((h.setPool hpq).emit _) (completed + 1)
      | error hs => exact ⟨rfl, h, .error hs⟩

theorem evaluate_compound (c : Compound α) :
    Attempt.Mirrors σ base (Compound.rename σ) (c.evaluate w) ((c.rename σ).evaluate w') := by
  have hreleased : (c.rename σ).lease.released = c.lease.released := rfl
  have hsteps : (c.rename σ).steps.drop c.completed =
      (c.steps.drop c.completed).map (Step.rename σ) := List.map_drop.symm
  have hrun := h.runAll c.buffer c.completed (c.steps.drop c.completed)
  unfold Compound.evaluate
  rw [hreleased]
  by_cases hr : c.lease.released
  · simp only [if_pos hr]
    exact ⟨rfl, h, .error rfl⟩
  simp only [if_neg hr]
  change Progress.Mirrors σ base _
    (Step.runAll (c.rename σ).buffer (c.rename σ).completed _ w') at hrun
  rw [← hsteps] at hrun
  have hnode := congrArg (Compound.mk (c.lease.rename σ) (c.steps.map (Step.rename σ)) ·
    (c.rename σ).steps_ne_nil) hrun.completed
  exact ⟨hnode, hrun.world, hrun.result⟩

/-- A renamed node does the same as the node. -/
theorem evaluate (n : Node α) :
    Attempt.Mirrors σ base (Node.rename σ) (n.evaluate w) ((n.rename σ).evaluate w') := by
  cases n with
  | operation o =>
    obtain ⟨hnode, hworld, hresult⟩ := h.evaluate_operation o
    exact ⟨congrArg Node.operation hnode, hworld, hresult⟩
  | compound c =>
    obtain ⟨hnode, hworld, hresult⟩ := h.evaluate_compound c
    exact ⟨congrArg Node.compound hnode, hworld, hresult⟩

/-! ## Release -/

omit [Scalar α] in
theorem release_node (n : Node α) :
    MirrorsWith σ base (Node.rename σ) (n.release w) ((n.rename σ).release w') := by
  obtain ⟨hlease, hworld⟩ := h.release n.lease
  unfold Node.release
  rw [n.lease_rename]
  refine ⟨?_, hworld⟩
  show (n.rename σ).setLease _ = _
  rw [hlease, n.setLease_rename]

/-! ## Making nodes -/

theorem start (label : String) (i : Instruction α (Operand α)) :
    MirrorsWith σ base (Operation.rename σ) (Operation.start w label i)
      (Operation.start w' label (i.rename σ)) := by
  obtain ⟨hlease, hworld⟩ := h.allocate label [i.output]
  unfold Operation.start
  rw [i.output_rename]
  exact ⟨congrArg (Operation.mk (i.rename σ) · false) hlease, hworld⟩

theorem create (label : String) : MirrorsWith σ base (Draft.rename σ) (Draft.create w label)
    (Draft.create w' label) := by
  obtain ⟨hlease, hworld⟩ := h.allocate label []
  exact ⟨congrArg (Draft.mk · []) hlease, hworld⟩

theorem create_operation (label : String) (k : Kind) (i : Instruction α (Operand α)) :
    SameEnd (fun b b' => b' = Breach.rename σ b) (MirrorsWith σ base (Operation.rename σ))
      (Operation.create w label k i) (Operation.create w' label k (i.rename σ)) := by
  unfold Operation.create
  rw [i.output_rename, i.code_rename]
  by_cases hk : i.output = k
  · simp only [if_pos hk]
    exact .ok (h.start label i)
  · simp only [if_neg hk]
    exact .error rfl

/-- A step that is pushed to a draft has the same slot in the renamed one. -/
theorem push (d : Draft α) (k : Kind) (i : Instruction α (Operand α)) :
    SameEnd (Stop.Renames σ)
      (fun x y => y.1 = x.1.rename σ ∧ MirrorsWith σ base (Draft.rename σ) x.2 y.2)
      (d.push w k i) ((d.rename σ).push w' k (i.rename σ)) := by
  have hnext : (d.rename σ).nextSlot = d.nextSlot :=
    congrArg (· % Store.capacity) (List.length_map _)
  unfold Draft.push
  rw [i.output_rename, i.code_rename, d.slotAhead?_rename h.pool.injective, hnext]
  by_cases hk : i.output ≠ k
  · simp only [if_pos hk]
    exact .error rfl
  simp only [if_neg hk]
  cases d.slotAhead? i with
  | some slot => exact .error rfl
  | none =>
    refine (h.pool.pushSlot d.buffer k).bind ?_
    rintro ⟨slot, p⟩ ⟨_, q⟩ ⟨rfl, hpq⟩
    have hconcat : (d.rename σ).steps ++ [Step.mk (i.rename σ) slot] =
        (d.steps ++ [Step.mk i slot]).map (Step.rename σ) := by
      simp only [Draft.rename, List.map_append, List.map_cons, List.map_nil, Step.rename]
    exact .ok ⟨rfl, congrArg (Draft.mk _) hconcat, h.setPool hpq⟩

/-- The two ends of a draft. -/
structure FinishesWith (σ : BufferId → BufferId) (base : Pool α)
    (x y : Except Breach (Compound α) × World α) : Prop where
  result : SameEnd (fun b b' => b' = b.rename σ) (fun c c' => c' = c.rename σ) x.1 y.1
  world : World.Mirrors σ base x.2 y.2

omit [Scalar α] in
theorem finish (d : Draft α) (k : Kind) :
    FinishesWith σ base (d.finish w k) ((d.rename σ).finish w' k) := by
  have hrelease := h.release d.lease
  unfold Draft.finish
  by_cases hnil : d.steps = []
  · have hnil' : (d.rename σ).steps = [] := List.map_eq_nil_iff.2 hnil
    rw [dif_pos hnil, dif_pos hnil']
    exact ⟨.error rfl, hrelease.world⟩
  · have hnil' : (d.rename σ).steps ≠ [] := mt List.map_eq_nil_iff.1 hnil
    have hlast : ((d.rename σ).steps.getLast hnil').instruction.output =
        (d.steps.getLast hnil).instruction.output := by
      simp only [Draft.rename, List.getLast_map]
      exact Instruction.output_rename _
    rw [dif_neg hnil, dif_neg hnil']
    simp only [hlast]
    by_cases hk : (d.steps.getLast hnil).instruction.output = k
    · simp only [if_pos hk]
      exact ⟨.ok rfl, h⟩
    · simp only [if_neg hk]
      exact ⟨.error rfl, hrelease.world⟩

theorem makeInverse (label : String) (input : Operand α .matrix) (epsilon : α) :
    SameEnd (Stop.Renames σ) (MirrorsWith σ base (Compound.rename σ))
      (Recipe.makeInverse w label input epsilon)
      (Recipe.makeInverse w' label (input.rename (Place.rename σ)) epsilon) := by
  obtain ⟨hdraft, hworld⟩ := h.create label
  unfold Recipe.makeInverse
  simp only [hdraft]
  refine (hworld.push _ .scalar (.determinant input (some epsilon))).bind ?_
  rintro ⟨det, d₁, w₁⟩ ⟨_, _, w₁'⟩ ⟨rfl, rfl, h₁⟩
  refine (h₁.push d₁ .matrix (.adjugate input)).bind ?_
  rintro ⟨adj, d₂, w₂⟩ ⟨_, _, w₂'⟩ ⟨rfl, rfl, h₂⟩
  refine (h₂.push d₂ .matrix (.divide (.handle adj) (.handle det) epsilon)).bind ?_
  rintro ⟨_, d₃, w₃⟩ ⟨_, _, w₃'⟩ ⟨rfl, rfl, h₃⟩
  obtain ⟨hresult, hfinish⟩ := h₃.finish d₃ .matrix
  dsimp only at hresult hfinish ⊢
  generalize d₃.finish w₃ .matrix = x at hresult hfinish ⊢
  generalize (d₃.rename σ).finish w₃' .matrix = y at hresult hfinish ⊢
  obtain ⟨r, u⟩ := x
  obtain ⟨r', u'⟩ := y
  cases hresult with
  | ok hc => exact .ok ⟨hc, hfinish⟩
  | error hb => exact .error (congrArg Stop.breach hb)

theorem make (label : String) (r : Recipe α (Operand α)) :
    SameEnd (Stop.Renames σ) (MirrorsWith σ base (Node.rename σ)) (r.make w label)
      ((r.rename σ).make w' label) := by
  cases r with
  | single i =>
    obtain ⟨hoperation, hworld⟩ := h.start label i
    exact .ok ⟨congrArg Node.operation hoperation, hworld⟩
  | inverse input epsilon =>
    refine (h.makeInverse label input epsilon).bind ?_
    rintro ⟨c, u⟩ ⟨_, u'⟩ ⟨rfl, hworld⟩
    exact .ok ⟨rfl, hworld⟩

end World.Mirrors

/-! ## Chains -/

/-- A chain and the renamed one are under construction. -/
structure Chain.Mirrors (σ : BufferId → BufferId) (base : Pool α) (c c' : Chain α) : Prop where
  nodes : c'.nodes = c.nodes.map (Node.rename σ)
  next : c'.next = c.next.rename (Place.rename σ)
  world : World.Mirrors σ base c.world c'.world

theorem Chain.Mirrors.extend {c c' : Chain α} (h : Chain.Mirrors σ base c c') (label : String)
    (l : Link α (Operand α)) :
    Chain.Mirrors σ base (c.extend label l) (c'.extend label (l.rename σ)) := by
  have hsize : c'.nodes.size = c.nodes.size := by rw [h.nodes, Array.size_map]
  have hfill : (l.rename σ).fill (c.next.rename (Place.rename σ)) = (l.fill c.next).rename σ :=
    l.map_fill c.next
  obtain ⟨hoperation, hworld⟩ :=
    h.world.start (label ++ "." ++ toString c.nodes.size) (l.fill c.next)
  unfold Chain.extend
  rw [h.next, hfill, hsize]
  refine ⟨?_, ?_, hworld⟩
  · simp only [hoperation, h.nodes, Array.map_push]
    rfl
  · simp only [hoperation]
    rfl

theorem World.Mirrors.build {w w' : World α} (h : World.Mirrors σ base w w') (label : String)
    (l : Link α (Operand α)) (first : Operand α .matrix) (length : Nat) :
    Chain.Mirrors σ base (Chain.build w label l first length)
      (Chain.build w' label (l.rename σ) (first.rename (Place.rename σ)) length) := by
  unfold Chain.build
  induction length with
  | zero => exact ⟨Array.map_empty.symm, rfl, h⟩
  | succ length ih =>
    rw [List.range_succ, List.foldl_append, List.foldl_append]
    exact ih.extend label l

end DeferredMatrix
