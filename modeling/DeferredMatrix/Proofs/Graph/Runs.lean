import DeferredMatrix.Graph.Walk

/-!
# Runs of a graph walk

A walk attempts to evaluate nodes one after the other. `Graph.attempts` lists the places of these
nodes, each with the result of the attempt, in order.

* `Graph.walk_induction` : what the start, every new root and every step establish for the
  attempts so far and the walk is true of all attempts and the end of the walk.
* `Graph.Passes` : the states of such a walk.
-/

namespace DeferredMatrix

variable {α : Type} [Scalar α]

/-- A place of a graph and the result of evaluating its node. -/
structure Tried (α : Type) where
  place : Nat
  result : Except (Stop α) Unit

namespace Walk

/-- The attempt that the next step makes, if it finishes a node. -/
def attempt? (w : Walk α) : Option (Tried α) :=
  match w.tasks with
  | .finish place :: _ => (w.nodes[place]?).map fun n => ⟨place, (n.evaluate w.world).result⟩
  | _ => none

/-- The attempts of a run. -/
def attempts (w : Walk α) : List (Tried α) :=
  if h : w.isOver then []
  else
    have := step_decreases (tasks_ne_nil h)
    w.attempt?.toList ++ attempts w.step
termination_by (w.numUnseen, w.tasks.length)
decreasing_by
  rcases this with h | ⟨h, h'⟩
  · exact Prod.Lex.left _ _ h
  · rcases Nat.lt_or_eq_of_le h with h | h
    · exact Prod.Lex.left _ _ h
    · rw [h]
      exact Prod.Lex.right _ h'

/-- The attempts from one root after the other. -/
def attemptsFrom : List Nat → Walk α → List (Tried α)
  | [], _ => []
  | root :: roots, w =>
    (if w.stop.isSome then [] else { w with tasks := [.enter root] }.attempts) ++
      attemptsFrom roots (w.visit root)

theorem run_of_isOver {w : Walk α} (h : w.isOver) : w.run = w := by
  rw [run, dif_pos h]

theorem run_of_not_isOver {w : Walk α} (h : ¬ w.isOver) : w.run = w.step.run := by
  rw [run, dif_neg h]

theorem attempts_of_isOver {w : Walk α} (h : w.isOver) : w.attempts = [] := by
  rw [attempts, dif_pos h]

theorem attempts_of_not_isOver {w : Walk α} (h : ¬ w.isOver) :
    w.attempts = w.attempt?.toList ++ w.step.attempts := by
  rw [attempts, dif_neg h]

theorem isOver_run (w : Walk α) : w.run.isOver := by
  induction w using run.induct with
  | case1 w h => rwa [run_of_isOver h]
  | case2 w h _ ih => rwa [run_of_not_isOver h]

/-- What every step of a run establishes is true of its end. -/
theorem run_induction {P : List (Tried α) → Walk α → Prop}
    (hstep : ∀ as w, ¬ w.isOver → P as w → P (as ++ w.attempt?.toList) w.step) (w : Walk α) :
    ∀ as, P as w → P (as ++ w.attempts) w.run := by
  induction w using run.induct with
  | case1 w h =>
    intro as has
    rwa [run_of_isOver h, attempts_of_isOver h, List.append_nil]
  | case2 w h _ ih =>
    intro as has
    rw [run_of_not_isOver h, attempts_of_not_isOver h, ← List.append_assoc]
    exact ih _ (hstep as w h has)

theorem roots_induction {P : List (Tried α) → Walk α → Prop}
    (hstep : ∀ as w, ¬ w.isOver → P as w → P (as ++ w.attempt?.toList) w.step)
    (roots : List Nat)
    (hroot : ∀ as w, ∀ root ∈ roots, w.stop = none → w.tasks = [] → P as w →
      P as { w with tasks := [.enter root] }) : ∀ as w, w.isOver → P as w →
    P (as ++ w.attemptsFrom roots) (roots.foldl visit w) ∧ (roots.foldl visit w).isOver := by
  induction roots with
  | nil =>
    intro as w hover has
    simpa [attemptsFrom] using ⟨has, hover⟩
  | cons root roots ih =>
    intro as w hover has
    have hroot' : ∀ as w, ∀ r ∈ roots, w.stop = none → w.tasks = [] → P as w →
        P as { w with tasks := [.enter r] } :=
      fun as w r hr => hroot as w r (List.mem_cons_of_mem _ hr)
    rw [List.foldl_cons, attemptsFrom, ← List.append_assoc]
    by_cases hstop : w.stop.isSome
    · have hvisit : w.visit root = w := if_pos hstop
      rw [hvisit, if_pos hstop, List.append_nil]
      exact ih hroot' as w hover has
    · have hvisit : w.visit root = { w with tasks := [.enter root] }.run := if_neg hstop
      have hnone : w.stop = none := by simpa using hstop
      have htasks : w.tasks = [] := by simpa [isOver, hnone] using hover
      rw [hvisit, if_neg hstop]
      have hnew := hroot as w root List.mem_cons_self hnone htasks has
      exact ih hroot' _ _ (isOver_run _) (run_induction hstep _ as hnew)

end Walk

namespace Graph

/-- The attempts of an evaluation of the graph. -/
def attempts (g : Graph α) (w : World α) : List (Tried α) :=
  (Walk.start g.nodes w).attemptsFrom (List.range g.nodes.size)

/-- What the start, every new root and every step establish holds at the end of the walk. -/
theorem walk_induction {P : List (Tried α) → Walk α → Prop} (g : Graph α) (w : World α)
    (hstart : P [] (Walk.start g.nodes w))
    (hroot : ∀ as v, ∀ root < g.nodes.size, v.stop = none → v.tasks = [] → P as v →
      P as { v with tasks := [.enter root] })
    (hstep : ∀ as v, ¬ v.isOver → P as v → P (as ++ v.attempt?.toList) v.step) :
    P (g.attempts w) (g.walk w) := by
  have hroots : ∀ as v, ∀ root ∈ List.range g.nodes.size, v.stop = none → v.tasks = [] →
      P as v → P as { v with tasks := [.enter root] } :=
    fun as v root hmem => hroot as v root (List.mem_range.1 hmem)
  exact (Walk.roots_induction hstep _ hroots [] _ rfl hstart).1

theorem isOver_walk (g : Graph α) (w : World α) : (g.walk w).isOver :=
  (Walk.roots_induction (P := fun _ _ => True) (fun _ _ _ _ => trivial) _
    (fun _ _ _ _ _ _ _ => trivial) [] _ rfl trivial).2

/-! ## States of a walk -/

/-- The states that an evaluation of the graph passes through. -/
inductive Passes (g : Graph α) (w : World α) : Walk α → Prop
  | start : Passes g w (Walk.start g.nodes w)
  | root {v : Walk α} {n : Nat} (hv : Passes g w v) (hn : n < g.nodes.size)
      (hstop : v.stop = none) (htasks : v.tasks = []) : Passes g w { v with tasks := [.enter n] }
  | step {v : Walk α} (hv : Passes g w v) (hover : ¬ v.isOver) : Passes g w v.step

theorem passes_walk (g : Graph α) (w : World α) : g.Passes w (g.walk w) :=
  g.walk_induction w (P := fun _ v => g.Passes w v) .start
    (fun _ _ _ hn hstop htasks hv => .root hv hn hstop htasks) fun _ _ hover hv => .step hv hover

end Graph

end DeferredMatrix
