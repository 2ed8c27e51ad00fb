import DeferredMatrix.Proofs.Renaming.Commands
import DeferredMatrix.Proofs.Session.Reachable

/-!
# Independent programs

Programs that share a session, but none of the names, do not notice each other: however their
commands are interleaved, every command has the reply that it has if its program runs alone. Only
the numbers of buffers may differ.

* `Session.Hosts` : a session contains the objects of several sessions in renamed buffers.
* `Session.Hosts.next` : a command on names of one of them has the outcome that it has there.
* `independent_programs_are_isolated` : so the programs run as if they were alone.
-/

namespace DeferredMatrix

variable {α : Type}

/-! ## What renaming depends on -/

namespace Session

variable {s : Session α} {σ τ : BufferId → BufferId}

/-- Objects only mention buffers that have been issued. -/
theorem Orderly.rename_object {free : Prop} (hs : s.Orderly free) {name : String} {x : Object α}
    (hx : s.object? name = some x) (h : ∀ b, s.pool.Issued b → σ b = τ b) :
    x.rename σ = x.rename τ := by
  have howned : ∀ k ∈ x.holders, σ k.owned = τ k.owned := fun k hk =>
    h _ (hs.estate.tidy.placed k (Catalog.mem_holders hx hk)).issued
  have hsteps : ∀ k ∈ x.holders, ∀ step ∈ k.steps,
      step.instruction.rename σ = step.instruction.rename τ := by
    intro k hk step hstep
    refine Instruction.rename_congr fun place hplace => h _ ?_
    have htrusted := hs.estate.trusted k (Catalog.mem_holders hx hk) step hstep
    obtain ⟨k', hk'⟩ := htrusted.exists_of_mem hplace
    exact hk'.issued
  cases x with
  | buffer l => exact congrArg Object.buffer (Lease.rename_congr (howned _ List.mem_cons_self))
  | handle k g =>
    have htrusts := hs.handles _ (Catalog.mem_of_get? hx) k g rfl
    have hbuffer : σ g.buffer = τ g.buffer := h _ htrusts.issued
    simp only [Object.rename, Handle.rename, hbuffer]
  | draft d =>
    have hlease : d.lease.rename σ = d.lease.rename τ :=
      Lease.rename_congr (howned _ List.mem_cons_self)
    have hmap : d.steps.map (Step.rename σ) = d.steps.map (Step.rename τ) :=
      List.map_congr_left fun step hstep =>
        congrArg (Step.mk · step.slot) (hsteps _ List.mem_cons_self step hstep)
    simp only [Object.rename, Draft.rename, hlease, hmap]
  | node n =>
    exact congrArg Object.node
      (Node.rename_congr (howned _ List.mem_cons_self) (hsteps _ List.mem_cons_self))
  | graph g =>
    refine congrArg (fun nodes => Object.graph ⟨nodes⟩) (Array.map_congr_left fun n hn => ?_)
    have hmem : Holder.node n ∈ (Object.graph g).holders :=
      List.mem_map_of_mem (Array.mem_toList_iff.2 hn)
    exact Node.rename_congr (howned _ hmem) (hsteps _ hmem)

end Session

/-! ## Several sessions in one -/

variable {ι : Type} {names : ι → String → Prop} {ρ : ι → BufferId → BufferId}
  {alone : ι → Session α} {t : Session α}

namespace Session

/-- The session contains the objects of all the others under their `names`. The buffer `b` of the
session number `i` is `ρ i b`, and none of another one. -/
structure Hosts (names : ι → String → Prop) (ρ : ι → BufferId → BufferId) (alone : ι → Session α)
    (t : Session α) : Prop where
  orderly : ∀ i, (alone i).Orderly True
  object? : ∀ i name, names i name →
    t.object? name = ((alone i).object? name).map (Object.rename (ρ i))
  entry : ∀ i b, (alone i).pool.Issued b →
    t.pool.entries[(ρ i b).serial]? = (alone i).pool.entries[b.serial]?
  apart : ∀ i j b c, (alone i).pool.Issued b → (alone j).pool.Issued c → ρ i b = ρ j c →
    i = j ∧ b = c

theorem hosts_empty : (empty : Session α).Hosts names (fun _ b => b) fun _ => empty where
  orderly := fun _ => orderly_empty
  object? := fun _ _ _ => rfl
  entry := fun _ _ _ => rfl
  apart := fun _ _ _ _ hb => absurd hb (Nat.not_lt_zero _)

section Hosts

variable (h : t.Hosts names ρ alone)

include h

theorem Hosts.issued {i : ι} {b : BufferId} (hb : (alone i).pool.Issued b) :
    t.pool.Issued (ρ i b) := by
  have hentry := h.entry i b hb
  rw [Array.getElem?_eq_getElem hb] at hentry
  exact (Array.getElem?_eq_some_iff.1 hentry).1

/-- Only the names of buffers that have been issued matter. -/
theorem Hosts.congr {τ : ι → BufferId → BufferId}
    (hτ : ∀ i b, (alone i).pool.Issued b → τ i b = ρ i b) : t.Hosts names τ alone where
  orderly := h.orderly
  object? := by
    intro i name hname
    rw [h.object? i name hname]
    cases hx : (alone i).object? name with
    | none => rfl
    | some x => exact congrArg some ((h.orderly i).rename_object hx (hτ i)).symm
  entry := fun i b hb => (hτ i b hb).symm ▸ h.entry i b hb
  apart := by
    intro i j b c hb hc heq
    rw [hτ i b hb, hτ j c hc] at heq
    exact h.apart i j b c hb hc heq

/-- The host mirrors each of the sessions if its renaming is continued. -/
theorem Hosts.mirrors (i : ι) : Session.Mirrors ((alone i).pool.continued t.pool (ρ i)) (names i) t
    (alone i) t where
  pool := Pool.mirrors_continued (fun b c hb hc heq => (h.apart i i b c hb hc heq).2) (h.entry i)
  objects := ⟨(h.congr fun _ _ => Pool.continued_of_issued).object? i, fun _ _ => rfl⟩

/-- The buffers that a session has or will have are none of another one. -/
theorem Hosts.continued_ne {i j : ι} (hj : j ≠ i) {c : BufferId} (hc : (alone j).pool.Issued c)
    (b : BufferId) : (alone i).pool.continued t.pool (ρ i) b ≠ ρ j c := by
  intro heq
  by_cases hb : (alone i).pool.Issued b
  · rw [Pool.continued_of_issued hb] at heq
    exact hj (h.apart i j b c hb hc heq).1.symm
  · exact Pool.not_issued_continued hb (heq ▸ h.issued hc)

end Hosts

end Session

/-! ## Commands -/

variable [Scalar α] [ToText α]

namespace Session

/-- Both sessions perform the command alike: the buffers in the events and in the reply are the
same, when `b` is called `ρ b`, and have the same labels. -/
def PerformsAlike (ρ : BufferId → BufferId) (s t : Session α) (c : Command α) : Prop :=
  ∃ σ : BufferId → BufferId, Function.Injective σ ∧
    (∀ b, (s.next c).pool.Issued b → σ b = ρ b) ∧
    (∀ b, (t.next c).label (σ b) = (s.next c).label b) ∧
    (t.perform c).map (fun o => (o.events, o.reply)) = (s.perform c).map fun o =>
      (o.events.map (Event.rename σ), (o.reply.mapError (Stop.rename σ)).map (Answer.rename σ))

theorem Mirrors.next {σ : BufferId → BufferId} {mine : String → Prop} {base s t : Session α}
    (h : Session.Mirrors σ mine base s t) {c : Command α} (hc : ∀ name ∈ c.names, mine name) :
    Session.Mirrors σ mine base (s.next c) (t.next c) := by
  have hperform := h.perform hc
  unfold Session.next
  generalize s.perform c = x at hperform ⊢
  generalize t.perform c = y at hperform ⊢
  cases hperform with
  | none => exact h
  | some ho => exact ho.session

theorem Mirrors.performsAlike {σ : BufferId → BufferId} {mine : String → Prop}
    {base s t : Session α} (h : Session.Mirrors σ mine base s t) {c : Command α}
    (hc : ∀ name ∈ c.names, mine name) : PerformsAlike σ s t c := by
  refine ⟨σ, h.pool.injective, fun _ _ => rfl, (h.next hc).label, ?_⟩
  have hperform := h.perform hc
  generalize s.perform c = x at hperform ⊢
  generalize t.perform c = y at hperform ⊢
  cases hperform with
  | none => rfl
  | some ho => simp only [Option.map_some, ho.events, ho.reply.eq_map]

theorem PerformsAlike.congr {σ τ : BufferId → BufferId} {s t : Session α} {c : Command α}
    (h : PerformsAlike σ s t c) (hτ : ∀ b, (s.next c).pool.Issued b → τ b = σ b) :
    PerformsAlike τ s t c := by
  obtain ⟨υ, hinj, hagrees, hlabels, hperform⟩ := h
  exact ⟨υ, hinj, fun b hb => (hagrees b hb).trans (hτ b hb).symm, hlabels, hperform⟩

/-- The commands of one program among those of all. -/
def programOf [DecidableEq ι] (i : ι) (r : List (ι × Command α)) : List (Command α) :=
  (r.filter fun x => x.1 = i).map Prod.snd

variable [DecidableEq ι]

/-- A command on the names of one session does there what it does in the host, and the others do
not notice. -/
theorem Hosts.next (h : t.Hosts names ρ alone)
    (hnames : ∀ i j name, names i name → names j name → i = j) {i : ι} {c : Command α}
    (hc : ∀ name ∈ c.names, names i name) :
    ∃ τ : ι → BufferId → BufferId, (∀ j b, (alone j).pool.Issued b → τ j b = ρ j b) ∧
      PerformsAlike (τ i) (alone i) t c ∧
      (t.next c).Hosts names τ (Function.update alone i ((alone i).next c)) := by
  let τ := fun j => (alone j).pool.continued t.pool (ρ j)
  have hτ : ∀ j b, (alone j).pool.Issued b → τ j b = ρ j b :=
    fun j b hb => Pool.continued_of_issued hb
  have h' := h.congr hτ
  have hmirrors : Session.Mirrors (τ i) (names i) t (alone i) t := h.mirrors i
  have hnext := hmirrors.next hc
  have hforeign : ∀ j ≠ i, ∀ c, (alone j).pool.Issued c → ∀ b, τ i b ≠ τ j c :=
    fun j hj c hc b => hτ j c hc ▸ h.continued_ne hj hc b
  refine ⟨τ, hτ, hmirrors.performsAlike hc, ?_, ?_, ?_, ?_⟩
  · intro j
    rcases eq_or_ne j i with rfl | hj
    · rw [Function.update_self]
      exact (h.orderly j).next (Or.inl trivial)
    · rw [Function.update_of_ne hj]
      exact h.orderly j
  · intro j name hname
    rcases eq_or_ne j i with rfl | hj
    · rw [Function.update_self]
      exact hnext.objects.own name hname
    · rw [Function.update_of_ne hj]
      exact (hnext.objects.foreign name fun hi => hj (hnames j i name hname hi)).trans
        (h'.object? j name hname)
  · intro j b hb
    rcases eq_or_ne j i with rfl | hj
    · rw [Function.update_self]
      exact hnext.pool.entry b
    · rw [Function.update_of_ne hj] at hb ⊢
      exact (hnext.pool.frame _ (hforeign j hj b hb)).trans (h'.entry j b hb)
  · intro j k b c hb hc heq
    rcases eq_or_ne j i with rfl | hj
    · rcases eq_or_ne k j with rfl | hk
      · exact ⟨rfl, hnext.pool.injective heq⟩
      · rw [Function.update_of_ne hk] at hc
        exact absurd heq (hforeign k hk c hc b)
    · rw [Function.update_of_ne hj] at hb
      rcases eq_or_ne k i with rfl | hk
      · exact absurd heq.symm (hforeign j hj b hb c)
      · rw [Function.update_of_ne hk] at hc
        exact h'.apart j k b c hb hc heq

theorem run_programOf_cons (alone : ι → Session α) (i : ι) (c : Command α)
    (r : List (ι × Command α)) (j : ι) :
    (Function.update alone i ((alone i).next c) j).run (programOf j r) =
      (alone j).run (programOf j ((i, c) :: r)) := by
  rcases eq_or_ne j i with rfl | hj
  · rw [Function.update_self, programOf, programOf, List.filter_cons_of_pos (by simp)]
    rfl
  · rw [Function.update_of_ne hj, programOf, programOf,
      List.filter_cons_of_neg (by simpa using hj.symm)]

/-- In a run of the host every command does what it does in its own session. -/
theorem Hosts.run (h : t.Hosts names ρ alone)
    (hnames : ∀ i j name, names i name → names j name → i = j) (r : List (ι × Command α))
    (hr : ∀ x ∈ r, ∀ name ∈ x.2.names, names x.1 name) :
    ∃ τ : ι → BufferId → BufferId, (∀ j b, (alone j).pool.Issued b → τ j b = ρ j b) ∧
      ∀ r₁ i c r₂, r = r₁ ++ (i, c) :: r₂ → PerformsAlike (τ i)
        ((alone i).run (programOf i r₁)) (t.run (r₁.map Prod.snd)) c := by
  induction r generalizing t ρ alone with
  | nil => exact ⟨ρ, fun _ _ _ => rfl, fun r₁ i c r₂ hsplit => by simp at hsplit⟩
  | cons x r ih =>
    obtain ⟨i, c⟩ := x
    obtain ⟨τ₁, hτ₁, halike, hnext⟩ := h.next hnames (hr (i, c) List.mem_cons_self)
    obtain ⟨τ, hτ, hrest⟩ := ih hnext fun x hx => hr x (List.mem_cons_of_mem _ hx)
    have hissued : ∀ b, ((alone i).next c).pool.Issued b → τ i b = τ₁ i b := by
      intro b hb
      refine hτ i b ?_
      rwa [Function.update_self]
    refine ⟨τ, fun j b hb => ?_, fun r₁ j d r₂ hsplit => ?_⟩
    · rw [← hτ₁ j b hb]
      rcases eq_or_ne j i with rfl | hj
      · exact hissued b (((h.orderly j).extends_next c).issued hb)
      · refine hτ j b ?_
        rwa [Function.update_of_ne hj]
    · cases r₁ with
      | nil =>
        cases hsplit
        exact halike.congr hissued
      | cons x r₁ =>
        obtain ⟨rfl, rfl⟩ := List.cons.inj hsplit
        have hlater := hrest r₁ j d r₂ rfl
        rwa [run_programOf_cons] at hlater

end Session

/-- Programs that share no names are isolated from each other in every interleaving `r` of their
commands: each command does what it does if its program runs alone. -/
theorem independent_programs_are_isolated {ι : Type} [DecidableEq ι] (r : List (ι × Command α))
    (hr : ∀ x ∈ r, ∀ y ∈ r, x.1 ≠ y.1 → ∀ name ∈ x.2.names, name ∉ y.2.names) :
    ∃ ρ : ι → BufferId → BufferId, ∀ r₁ i c r₂, r = r₁ ++ (i, c) :: r₂ →
      Session.PerformsAlike (ρ i) (Session.empty.run (Session.programOf i r₁))
        (Session.empty.run (r₁.map Prod.snd)) c := by
  let names (i : ι) (name : String) : Prop := ∃ x ∈ r, x.1 = i ∧ name ∈ x.2.names
  have hnames : ∀ i j name, names i name → names j name → i = j := by
    rintro i j name ⟨x, hx, rfl, hxname⟩ ⟨y, hy, rfl, hyname⟩
    by_contra hne
    exact hr x hx y hy hne name hxname hyname
  obtain ⟨ρ, -, hrun⟩ := Session.hosts_empty.run hnames r
    fun x hx name hname => ⟨x, hx, rfl, hname⟩
  exact ⟨ρ, hrun⟩

/-- One program makes a buffer and releases it, the other one transposes a slot that it has not
written, which fails. -/
def sharedSession : List (Bool × Command Float32) :=
  [(false, .buffer (.allocate "scratch" [.scalar])), (true, .buffer (.allocate "user" [.matrix])),
    (false, .release "scratch"), (true, .buffer (.takeHandle "user" .matrix 0 "input")),
    (true, .node (.operation "transpose" .matrix (.transpose (.handle "input")))),
    (false, .drop "scratch"), (true, .node (.evaluate "transpose"))]

theorem sharedSession_isolates_failure :
    (∀ x ∈ sharedSession, ∀ y ∈ sharedSession, x.1 ≠ y.1 →
      ∀ name ∈ x.2.names, name ∉ y.2.names) ∧
    ∃ ρ : BufferId → BufferId, ρ ⟨0⟩ = ⟨1⟩ ∧ Session.PerformsAlike ρ
      (Session.empty.run (Session.programOf true (sharedSession.take 6)))
      (Session.empty.run ((sharedSession.take 6).map Prod.snd))
      (.node (.evaluate "transpose")) := by
  have hr : ∀ x ∈ sharedSession, ∀ y ∈ sharedSession, x.1 ≠ y.1 →
      ∀ name ∈ x.2.names, name ∉ y.2.names := by
    decide
  obtain ⟨ρ, halike⟩ := independent_programs_are_isolated sharedSession hr
  have hevaluate := halike (sharedSession.take 6) true (.node (.evaluate "transpose")) [] rfl
  refine ⟨hr, ρ true, ?_, hevaluate⟩
  obtain ⟨σ, -, hagrees, -, hperform⟩ := hevaluate
  have hreply : (some (.error (.failure (.unevaluated ⟨⟨1⟩, 0⟩))) : Option (Reply Float32)) =
      some (.error (.failure (.unevaluated ⟨σ ⟨0⟩, 0⟩))) :=
    congrArg (Option.map Prod.snd) hperform
  simp only [Option.some.injEq, Except.error.injEq, Stop.failure.injEq, Failure.unevaluated.injEq,
    Place.mk.injEq, and_true] at hreply
  exact (hagrees ⟨0⟩ Nat.zero_lt_two).symm.trans hreply.symm

end DeferredMatrix
