import DeferredMatrix.Session.Basic

/-!
# Commands on operations, drafts and compounds

Commands that name objects that do not exist, or objects of the wrong sort, have no outcome.
-/

namespace DeferredMatrix

variable {α : Type}

inductive NodeCommand (α : Type) where
  /-- Makes an operation whose result has the kind `k`. -/
  | operation (name : String) (k : Kind) (i : Instruction α (Reference α))
  | make (name : String) (r : Recipe α (Reference α))
  | handle (node : String) (name : String)
  | evaluate (node : String)
  /-- Evaluates a node and reads its result. -/
  | compute (node : String)
  | state (node : String)
  | text (node : String)
  /-- Describes the instruction of an operation. -/
  | describe (node : String)
  /-- Describes the instructions of a compound. -/
  | describeSteps (node : String)
  | listing (node : String)

inductive DraftCommand (α : Type) where
  | create (name : String)
  | push (draft : String) (k : Kind) (i : Instruction α (Reference α))
      (name : Option String)
  | state (draft : String)
  /-- Makes a compound whose result has the kind `k`. -/
  | finish (draft : String) (k : Kind) (name : String)

namespace Session

def performNode [Scalar α] [ToText α] (s : Session α) : NodeCommand α → Option (Outcome α)
  | .operation name k i => do
    let i ← i.traverse s.resolve
    match Operation.create s.world name k i with
    | .ok (o, w) =>
      let n := Node.operation o
      return change w (← s.withNew name (.node n)) (.ok (.state n.state))
    | .error b => return s.answer (.error (.breach b))
  | .make name r => do
    let r ← r.traverse s.resolve
    match r.make s.world name with
    | .ok (n, w) => return change w (← s.withNew name (.node n)) (.ok (.state n.state))
    | .error e => return s.answer (.error e)
  | .handle node name => do
    let n ← s.node? node
    let objects ← s.withNew name (.handle n.kind n.handle)
    return change s.world objects (.ok (.place n.handle.place))
  | .evaluate node => do
    let n ← s.node? node
    let a := n.evaluate s.world
    return change a.world (s.objects.replace node (.node a.node))
      (a.result.map fun () => .place n.handle.place)
  | .compute node => do
    let n ← s.node? node
    let a := n.evaluate s.world
    return change a.world (s.objects.replace node (.node a.node))
      (a.result.bind fun () => (a.world.pool.read n.handle).map (.value n.kind))
  | .state node => do
    let n ← s.node? node
    return s.answer
      (.ok (.node n.state n.buffer (s.pool.isLive n.buffer) n.externalInputs))
  | .text node => do
    let n ← s.node? node
    return s.answer (.ok (.text (n.text s.label)))
  | .describe node =>
    match s.node? node with
    | some (.operation o) =>
      some (s.answer (.ok (.description (o.instruction.describe o.buffer))))
    | _ => none
  | .describeSteps node =>
    match s.node? node with
    | some (.compound c) =>
      some (s.answer (.ok (.descriptions (c.steps.map fun step =>
        step.instruction.describe c.buffer))))
    | _ => none
  | .listing node =>
    match s.node? node with
    | some (.compound c) => some (s.answer (.ok (.text c.listing)))
    | _ => none

def performDraft [Scalar α] [ToText α] (s : Session α) : DraftCommand α → Option (Outcome α)
  | .create name => do
    let (d, w) := Draft.create s.world name
    return change w (← s.withNew name (.draft d)) (.ok .done)
  | .push draft k i name => do
    let d ← s.draft? draft
    let i ← i.traverse s.resolve
    match d.push s.world k i with
    | .ok (h, d, w) =>
      let objects ← s.withNew name (.handle k h)
      return change w (objects.replace draft (.draft d)) (.ok (.place h.place))
    | .error e => return s.answer (.error e)
  | .state draft => do
    let d ← s.draft? draft
    return s.answer (.ok (.draft d.steps.length (d.text s.label)))
  | .finish draft k name => do
    let d ← s.draft? draft
    let (r, w) := d.finish s.world k
    match r with
    | .ok c =>
      let n := Node.compound c
      let objects ← s.withNew name (.node n)
      return change w (objects.erase draft) (.ok (.state n.state))
    | .error b => return change w (s.objects.erase draft) (.error (.breach b))

end Session

end DeferredMatrix
