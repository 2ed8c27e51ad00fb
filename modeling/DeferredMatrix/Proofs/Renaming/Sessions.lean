import DeferredMatrix.Proofs.Renaming.Graphs
import Mathlib.Data.List.Forall2

/-!
# Sessions that mirror each other

A session mirrors another one under some names if it has the same objects there, in renamed
buffers. Commands on these names have the same outcome in both, and change nothing else.

* `Command.names` : the names that a command mentions.
* `Session.Mirrors` : the objects of one session are those of another one.
* `Session.Mirrors.perform` : what a command does in both.
-/

namespace DeferredMatrix

variable {α : Type}

/-! ## Optional things -/

section Option

variable {β β' γ γ' : Type} {R : β → β' → Prop} {S : γ → γ' → Prop}

theorem rel_bind {x : Option β} {y : Option β'} (h : Option.Rel R x y) {f : β → Option γ}
    {g : β' → Option γ'} (hfg : ∀ a b, R a b → Option.Rel S (f a) (g b)) :
    Option.Rel S (x.bind f) (y.bind g) := by
  cases h with
  | some h => exact hfg _ _ h
  | none => exact .none

/-- Going on with what has been found replaced. -/
theorem rel_bind_map {r : β → β'} {x : Option β} {y : Option β'} (h : y = x.map r)
    {f : β → Option γ} {g : β' → Option γ'} (hfg : ∀ a, Option.Rel S (f a) (g (r a))) :
    Option.Rel S (x.bind f) (y.bind g) := by
  subst h
  cases x with
  | none => exact .none
  | some a => exact hfg a

/-- Looking up a list where everything is found replaced. -/
theorem mapM_eq_map {f : γ → Option β} {g : γ → Option β'} {r : β → β'} {xs : List γ}
    (h : ∀ x ∈ xs, g x = (f x).map r) : xs.mapM g = (xs.mapM f).map (List.map r) := by
  induction xs with
  | nil => rfl
  | cons x xs ih =>
    rw [List.mapM_cons, List.mapM_cons, h x List.mem_cons_self,
      ih fun x hx => h x (List.mem_cons_of_mem _ hx)]
    cases f x with
    | none => rfl
    | some a => cases xs.mapM f <;> rfl

end Option

/-- Replacing things injectively keeps apart what is different. -/
theorem eraseDups_map {β γ : Type} [DecidableEq β] [DecidableEq γ] {f : β → γ}
    (hf : Function.Injective f) : ∀ xs : List β, (xs.map f).eraseDups = xs.eraseDups.map f
  | [] => rfl
  | x :: xs => by
    have hfilter : (xs.map f).filter (fun y => !y == f x) =
        (xs.filter fun y => !y == x).map f := by
      rw [List.filter_map]
      refine congrArg (List.map f) (congrArg (List.filter · xs) (funext fun y => ?_))
      simp [hf.eq_iff, beq_eq_decide]
    rw [List.map_cons, List.eraseDups_cons, List.eraseDups_cons, hfilter, eraseDups_map hf,
      List.map_cons]
termination_by xs => xs.length
decreasing_by exact Nat.lt_succ_of_le (List.length_filter_le _ _)

/-! ## Names -/

def Reference.names {k : Kind} : Reference α k → List String
  | literal _ => []
  | handle name | node name => [name]

def Instruction.names (i : Instruction α (Reference α)) : List String :=
  i.operands.flatMap fun x => x.2.2.names

def Recipe.names : Recipe α (Reference α) → List String
  | single i => i.names
  | inverse input _ => input.names

def Link.names : Link α (Reference α) → List String
  | transpose => []
  | scale factor => factor.names
  | multiply m | multiplyLeft m | add m => m.names

def BufferCommand.names : BufferCommand α → List String
  | allocate name _ => [name]
  | takeHandle buffer _ _ name => [buffer, name]
  | pushSlot buffer _ | write buffer _ _ _ | read buffer _ _ | isWritten buffer _ | state buffer =>
    [buffer]

def HandleCommand.names : HandleCommand α → List String
  | read handle | isAlive handle | place handle | text handle => [handle]
  | readAll handles | countDistinct _ handles => handles
  | same a b => [a, b]
  | readOperand _ operand => operand.names

def NodeCommand.names : NodeCommand α → List String
  | operation name _ i => name :: i.names
  | make name r => name :: r.names
  | handle node name => [node, name]
  | evaluate node | compute node | state node | text node | describe node | describeSteps node
  | listing node => [node]

def DraftCommand.names : DraftCommand α → List String
  | create name => [name]
  | push draft _ i name => draft :: i.names ++ name.toList
  | state draft => [draft]
  | finish draft _ name => [draft, name]

def GraphCommand.names : GraphCommand α → List String
  | create name => [name]
  | push graph node name => graph :: node :: name.toList
  | chain graph name _ first link _ => graph :: name :: first.names ++ link.names
  | evaluate graph | numNodes graph => [graph]

/-- The names of all objects that a command uses or makes. -/
def Command.names : Command α → List String
  | buffer c => c.names
  | handle c => c.names
  | node c => c.names
  | draft c => c.names
  | graph c => c.names
  | release object | drop object => [object]

/-! ## Objects under names -/

/-- Under the names that are `mine` there are the same objects, in renamed buffers. All others are
as in `base`. -/
structure Catalog.Mirrors (σ : BufferId → BufferId) (mine : String → Prop)
    (base c d : Catalog (Object α)) : Prop where
  own : ∀ name, mine name → d.get? name = (c.get? name).map (Object.rename σ)
  foreign : ∀ name, ¬ mine name → d.get? name = base.get? name

namespace Catalog.Mirrors

variable {σ : BufferId → BufferId} {mine : String → Prop} {base c d : Catalog (Object α)}
  (h : Catalog.Mirrors σ mine base c d) {name : String} (hname : mine name)

include h hname

theorem insert (x : Object α) :
    Catalog.Mirrors σ mine base (c.insert name x) (d.insert name (x.rename σ)) where
  own := by
    intro other hother
    rw [get?_insert, get?_insert]
    by_cases heq : name = other
    · rw [if_pos heq, if_pos heq, Option.map_some]
    · rw [if_neg heq, if_neg heq, h.own other hother]
  foreign := by
    intro other hother
    rw [get?_insert, if_neg fun heq : name = other => hother (heq ▸ hname), h.foreign other hother]

theorem replace (x : Object α) :
    Catalog.Mirrors σ mine base (c.replace name x) (d.replace name (x.rename σ)) where
  own := by
    intro other hother
    rw [get?_replace, get?_replace]
    by_cases heq : name = other
    · rw [if_pos heq, if_pos heq, h.own name hname, Option.map_map, Option.map_map]
      rfl
    · rw [if_neg heq, if_neg heq, h.own other hother]
  foreign := by
    intro other hother
    rw [get?_replace, if_neg fun heq : name = other => hother (heq ▸ hname), h.foreign other hother]

theorem erase : Catalog.Mirrors σ mine base (c.erase name) (d.erase name) where
  own := by
    intro other hother
    rw [get?_erase, get?_erase]
    by_cases heq : name = other
    · rw [if_pos heq, if_pos heq, Option.map_none]
    · rw [if_neg heq, if_neg heq, h.own other hother]
  foreign := by
    intro other hother
    rw [get?_erase, if_neg fun heq : name = other => hother (heq ▸ hname), h.foreign other hother]

end Catalog.Mirrors

/-! ## Sessions -/

structure Session.Mirrors (σ : BufferId → BufferId) (mine : String → Prop)
    (base s t : Session α) : Prop where
  pool : Pool.Mirrors σ base.pool s.pool t.pool
  objects : Catalog.Mirrors σ mine base.objects s.objects t.objects

/-- The same reply, with buffers renamed. -/
abbrev Reply.Renames (σ : BufferId → BufferId) : Reply α → Reply α → Prop :=
  SameEnd (Stop.Renames σ) fun a a' => a' = a.rename σ

/-- Two commands have done the same and have the same reply. -/
structure Outcome.Mirrors (σ : BufferId → BufferId) (mine : String → Prop) (base : Session α)
    (o o' : Outcome α) : Prop where
  session : Session.Mirrors σ mine base o.session o'.session
  events : o'.events = o.events.map (Event.rename σ)
  reply : Reply.Renames σ o.reply o'.reply

section Sessions

variable {σ : BufferId → BufferId} {mine : String → Prop} {base s t : Session α}

theorem Outcome.Mirrors.change {w w' : World α} {c c' : Catalog (Object α)} {r r' : Reply α}
    (hw : World.Mirrors σ base.pool w w') (hc : Catalog.Mirrors σ mine base.objects c c')
    (hr : Reply.Renames σ r r') :
    Outcome.Mirrors σ mine base (Session.change w c r) (Session.change w' c' r') :=
  ⟨⟨hw.pool, hc⟩, hw.log, hr⟩

namespace Session.Mirrors

variable (h : Session.Mirrors σ mine base s t)

include h

theorem answer {r r' : Reply α} (hr : Reply.Renames σ r r') :
    Outcome.Mirrors σ mine base (s.answer r) (t.answer r') :=
  ⟨h, Array.map_empty.symm, hr⟩

theorem world : World.Mirrors σ base.pool s.world t.world := ⟨h.pool, Array.map_empty.symm⟩

theorem label (b : BufferId) : t.label (σ b) = s.label b := h.pool.label b

/-! ### Looking up -/

section Lookup

variable {name : String} (hname : mine name)

include hname

theorem object? : t.object? name = (s.object? name).map (Object.rename σ) :=
  h.objects.own name hname

theorem isFree : t.isFree name = s.isFree name := by
  rw [Session.isFree, Session.isFree, h.object? hname, Option.isNone_map]

theorem buffer? : t.buffer? name = (s.buffer? name).map (Lease.rename σ) := by
  unfold Session.buffer?
  rw [h.object? hname]
  cases s.object? name with
  | none => rfl
  | some x => cases x <;> rfl

theorem handle? : t.handle? name = (s.handle? name).map fun x => ⟨x.1, x.2.rename σ⟩ := by
  unfold Session.handle?
  rw [h.object? hname]
  cases s.object? name with
  | none => rfl
  | some x => cases x <;> rfl

theorem draft? : t.draft? name = (s.draft? name).map (Draft.rename σ) := by
  unfold Session.draft?
  rw [h.object? hname]
  cases s.object? name with
  | none => rfl
  | some x => cases x <;> rfl

theorem node? : t.node? name = (s.node? name).map (Node.rename σ) := by
  unfold Session.node?
  rw [h.object? hname]
  cases s.object? name with
  | none => rfl
  | some x => cases x <;> rfl

theorem graph? : t.graph? name = (s.graph? name).map (Graph.rename σ) := by
  unfold Session.graph?
  rw [h.object? hname]
  cases s.object? name with
  | none => rfl
  | some x => cases x <;> rfl

omit h hname in
theorem ofKind_rename (k : Kind) (x : (j : Kind) × Handle j) :
    ofKind k ⟨x.1, x.2.rename σ⟩ = (ofKind k x).map (Handle.rename σ) := by
  obtain ⟨j, g⟩ := x
  by_cases hj : j = k
  · simp only [ofKind, if_pos hj, Option.map_some]
    rfl
  · simp only [ofKind, if_neg hj, Option.map_none]

theorem handleOf? (k : Kind) : t.handleOf? k name = (s.handleOf? k name).map (Handle.rename σ) := by
  unfold Session.handleOf?
  rw [h.handle? hname, Option.bind_map, Option.map_bind]
  exact congrArg _ (funext fun x => ofKind_rename k x)

end Lookup

theorem resolve {k : Kind} {r : Reference α k} (hr : ∀ name ∈ r.names, mine name) :
    t.resolve k r = (s.resolve k r).map (Operand.rename (Place.rename σ)) := by
  cases r with
  | literal v => rfl
  | handle name =>
    have hname : mine name := hr name List.mem_cons_self
    simp only [Session.resolve, h.handleOf? hname, Option.map_map]
    rfl
  | node name =>
    have hname : mine name := hr name List.mem_cons_self
    simp only [Session.resolve, h.node? hname]
    cases s.node? name with
    | none => rfl
    | some n =>
      show (ofKind k ⟨(n.rename σ).kind, (n.rename σ).handle⟩).map Operand.handle =
        ((ofKind k ⟨n.kind, n.handle⟩).map Operand.handle).map (Operand.rename (Place.rename σ))
      rw [n.handle_rename, ofKind_rename k ⟨n.kind, n.handle⟩, Option.map_map, Option.map_map]
      rfl

theorem traverse {i : Instruction α (Reference α)} (hi : ∀ name ∈ i.names, mine name) :
    i.traverse t.resolve = (i.traverse s.resolve).map (Instruction.rename σ) :=
  Instruction.traverse_eq_map fun x hx =>
    h.resolve fun name hname => hi name (List.mem_flatMap.2 ⟨x, hx, hname⟩)

theorem traverse_recipe {r : Recipe α (Reference α)} (hr : ∀ name ∈ r.names, mine name) :
    r.traverse t.resolve = (r.traverse s.resolve).map (Recipe.rename σ) := by
  cases r with
  | single i =>
    simp only [Recipe.traverse, h.traverse hr, Option.map_map]
    rfl
  | inverse input epsilon =>
    simp only [Recipe.traverse, h.resolve hr, Option.map_map]
    rfl

theorem traverse_link {l : Link α (Reference α)} (hl : ∀ name ∈ l.names, mine name) :
    l.traverse t.resolve = (l.traverse s.resolve).map (Link.rename σ) := by
  cases l with
  | transpose => rfl
  | scale a | multiply a | multiplyLeft a | add a =>
    simp only [Link.traverse, h.resolve hl, Option.map_map]
    rfl

theorem withNew {name : Option String} (hname : ∀ n ∈ name.toList, mine n) (x : Object α) :
    Option.Rel (Catalog.Mirrors σ mine base.objects) (s.withNew name x)
      (t.withNew name (x.rename σ)) := by
  cases name with
  | none => exact .some h.objects
  | some name =>
    have hmine : mine name := hname name List.mem_cons_self
    simp only [Session.withNew, h.isFree hmine]
    by_cases hfree : s.isFree name
    · simp only [if_pos hfree]
      exact .some (h.objects.insert hmine x)
    · simp only [if_neg hfree]
      exact .none

theorem withNew_some {name : String} (hname : mine name) (x : Object α) :
    Option.Rel (Catalog.Mirrors σ mine base.objects) (s.withNew name x)
      (t.withNew name (x.rename σ)) := by
  have hname' : ∀ n ∈ (some name).toList, mine n := List.forall_mem_singleton.2 hname
  exact h.withNew hname' x

/-- A handle to a result as an object. -/
theorem withNew_handle {name : Option String} (hname : ∀ n ∈ name.toList, mine n)
    (n : Node α) :
    Option.Rel (Catalog.Mirrors σ mine base.objects) (s.withNew name (.handle n.kind n.handle))
      (t.withNew name (.handle (n.rename σ).kind (n.rename σ).handle)) := by
  have hhandle : (.handle (n.rename σ).kind (n.rename σ).handle : Object α) =
      Object.rename σ (.handle n.kind n.handle) :=
    congrArg (fun x : (k : Kind) × Handle k => Object.handle x.1 x.2) n.handle_rename
  rw [hhandle]
  exact h.withNew hname _

end Session.Mirrors

end Sessions

end DeferredMatrix
