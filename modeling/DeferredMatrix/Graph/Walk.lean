import DeferredMatrix.Graph.Basic

/-!
# Evaluation of graphs

The nodes of a graph are evaluated along a depth-first walk with an explicit stack of tasks, so
that long chains need no deep recursion. Entering a node puts its finishing and, above it, the
entering of the nodes it depends on onto the stack. A dependency that has been entered and is
not finished closes a cycle and is left out.

* `Walk.step` performs the task on top, `Walk.run` all of them, `Walk.visit` those from a root.
* `Graph.evaluate` visits every node in turn and stops at the first failure.
-/

namespace DeferredMatrix

variable {α : Type}

inductive Mark where
  | unseen
  | entered
  | finished
  deriving DecidableEq

inductive Task where
  | enter (place : Nat)
  | finish (place : Nat)
  deriving DecidableEq

/-- A walk under way. Tasks are listed from the top of the stack. -/
structure Walk (α : Type) where
  nodes : Array (Node α)
  world : World α
  marks : Array Mark
  tasks : List Task
  stop : Option (Stop α)

namespace Walk

/-- The mark of a place; what is no place of the graph counts as finished. -/
def mark (w : Walk α) (place : Nat) : Mark := w.marks[place]?.getD .finished

def setMark (w : Walk α) (place : Nat) (m : Mark) : Walk α :=
  { w with marks := w.marks.setIfInBounds place m }

/-- The places that the node at a place depends on. -/
def dependenciesOf (w : Walk α) (place : Nat) : List Nat :=
  w.nodes[place]?.elim [] (dependencies w.nodes)

/-- Enters a node: its dependencies that are unseen come first, the last one on top. -/
def enter (w : Walk α) (place : Nat) (rest : List Task) : Walk α :=
  let w := w.setMark place .entered
  let deps := w.dependenciesOf place
  let unseen := deps.filter fun d => w.mark d = .unseen
  let skipped := deps.filter fun d => w.mark d = .entered
  { w with
    world := skipped.foldl (fun world d => world.emit (.edgeSkipped place d)) w.world
    tasks := unseen.reverse.map Task.enter ++ .finish place :: rest }

/-- The walk after an attempt to evaluate the node at a place. -/
def record (w : Walk α) (place : Nat) (a : Attempt (Node α) α) (rest : List Task) : Walk α where
  nodes := w.nodes.setIfInBounds place a.node
  world := a.world
  marks :=
    match a.result with
    | .ok () => w.marks.setIfInBounds place .finished
    | .error _ => w.marks
  tasks := rest
  stop :=
    match a.result with
    | .ok () => w.stop
    | .error s => some s

/-- Finishes a node by evaluating it. -/
def finish [Scalar α] (w : Walk α) (place : Nat) (rest : List Task) : Walk α :=
  match w.nodes[place]? with
  | none => { w with tasks := rest }
  | some n => w.record place (n.evaluate w.world) rest

/-- Performs the task on top. Entering a node for the second time does nothing. -/
def step [Scalar α] (w : Walk α) : Walk α :=
  match w.tasks with
  | [] => w
  | .enter place :: rest =>
    if w.mark place = .unseen then w.enter place rest else { w with tasks := rest }
  | .finish place :: rest => w.finish place rest

/-- Whether nothing is left to do. -/
def isOver (w : Walk α) : Bool := w.stop.isSome || w.tasks.isEmpty

/-! ## Termination

A task either enters an unseen node, which is unseen no more, or disappears. -/

/-- The number of unseen nodes. -/
def numUnseen (w : Walk α) : Nat := w.marks.count .unseen

theorem count_setIfInBounds_le {marks : Array Mark} {place : Nat} {m : Mark} (h : m ≠ .unseen) :
    (marks.setIfInBounds place m).count .unseen ≤ marks.count .unseen := by
  unfold Array.setIfInBounds
  split
  · rw [Array.count_set]
    have : (m == Mark.unseen) = false := by simpa using h
    simp only [this, Bool.false_eq_true, if_false]
    omega
  · exact Nat.le_refl _

theorem numUnseen_enter {w : Walk α} {place : Nat} {rest : List Task}
    (h : w.mark place = .unseen) : (w.enter place rest).numUnseen < w.numUnseen := by
  have hlt : place < w.marks.size := by
    rcases Nat.lt_or_ge place w.marks.size with hlt | hge
    · exact hlt
    · simp [mark, Array.getElem?_eq_none hge] at h
  have hm : w.marks[place] = .unseen := by simpa [mark, Array.getElem?_eq_getElem hlt] using h
  have hpos : 0 < w.marks.count .unseen := Array.count_pos_iff.2 (hm ▸ Array.getElem_mem hlt)
  show (w.marks.setIfInBounds place .entered).count .unseen < w.marks.count .unseen
  unfold Array.setIfInBounds
  rw [dif_pos hlt, Array.count_set, hm]
  simp only [beq_self_eq_true, if_true, show (Mark.entered == Mark.unseen) = false from rfl,
    Bool.false_eq_true, if_false]
  omega

theorem tasks_finish [Scalar α] (w : Walk α) (place : Nat) (rest : List Task) :
    (w.finish place rest).tasks = rest := by
  unfold finish
  split <;> rfl

theorem numUnseen_record (w : Walk α) (place : Nat) (a : Attempt (Node α) α)
    (rest : List Task) : (w.record place a rest).numUnseen ≤ w.numUnseen := by
  simp only [record, numUnseen]
  split
  · exact count_setIfInBounds_le (by decide)
  · exact Nat.le_refl _

theorem numUnseen_finish [Scalar α] (w : Walk α) (place : Nat) (rest : List Task) :
    (w.finish place rest).numUnseen ≤ w.numUnseen := by
  unfold finish
  split
  · exact Nat.le_refl _
  · exact numUnseen_record _ _ _ _

/-- A step leaves fewer unseen nodes, or as many and fewer tasks. -/
theorem step_decreases [Scalar α] {w : Walk α} (h : w.tasks ≠ []) :
    w.step.numUnseen < w.numUnseen ∨
      w.step.numUnseen ≤ w.numUnseen ∧ w.step.tasks.length < w.tasks.length := by
  unfold step
  split
  · contradiction
  · rename_i place rest ht
    split
    · rename_i hu
      exact Or.inl (numUnseen_enter hu)
    · exact Or.inr ⟨Nat.le_refl _, by simp [ht]⟩
  · rename_i place rest ht
    exact Or.inr ⟨numUnseen_finish w place rest, by simp [tasks_finish, ht]⟩

theorem tasks_ne_nil {w : Walk α} (h : ¬ w.isOver) : w.tasks ≠ [] := by
  intro ht
  simp [isOver, ht] at h

/-- Performs all tasks, or stops at the first failure. -/
def run [Scalar α] (w : Walk α) : Walk α :=
  if h : w.isOver then w
  else
    have := step_decreases (tasks_ne_nil h)
    run w.step
termination_by (w.numUnseen, w.tasks.length)
decreasing_by
  rcases this with h | ⟨h, h'⟩
  · exact Prod.Lex.left _ _ h
  · rcases Nat.lt_or_eq_of_le h with h | h
    · exact Prod.Lex.left _ _ h
    · rw [h]
      exact Prod.Lex.right _ h'

/-- The walk before its first root. -/
def start (nodes : Array (Node α)) (world : World α) : Walk α where
  nodes := nodes
  world := world
  marks := Array.replicate nodes.size .unseen
  tasks := []
  stop := none

/-- Walks from a root with a stack of its own. The marks stay from the roots before it. A walk
that was stopped visits no further root. -/
def visit [Scalar α] (w : Walk α) (root : Nat) : Walk α :=
  if w.stop.isSome then w else { w with tasks := [.enter root] }.run

end Walk

/-- The walk that visits every node of the graph in turn. -/
def Graph.walk [Scalar α] (g : Graph α) (w : World α) : Walk α :=
  (List.range g.nodes.size).foldl Walk.visit (Walk.start g.nodes w)

/-- Evaluates every node after the nodes it depends on. -/
def Graph.evaluate [Scalar α] (g : Graph α) (w : World α) : Attempt (Graph α) α :=
  let walk := g.walk w
  match walk.stop with
  | some s => ⟨⟨walk.nodes⟩, walk.world, .error s⟩
  | none => ⟨⟨walk.nodes⟩, walk.world.emit (.graphEvaluated walk.nodes.size), .ok ()⟩

end DeferredMatrix
