import DeferredMatrix.Graph.Chain
import DeferredMatrix.Graph.Walk
import DeferredMatrix.Node.Recipe
import DeferredMatrix.Session.Catalog

/-!
# Sessions

A session is a pool together with named objects. An object is a buffer, a handle, a draft, a
node or a graph; apart from handles, objects own the buffers they stand for.

* `Session.resolve` turns references to named objects into operands.
* `Answer` lists what commands answer and `Outcome` what they do.
-/

namespace DeferredMatrix

variable {α : Type}

/-! ## Objects -/

inductive Object (α : Type) where
  | buffer (l : Lease)
  | handle (k : Kind) (h : Handle k)
  | draft (d : Draft α)
  | node (n : Node α)
  | graph (g : Graph α)

namespace Object

/-- Gives back every buffer that the object owns. -/
def dispose (w : World α) : Object α → Object α × World α
  | buffer l =>
    let (l, w) := l.release w
    (buffer l, w)
  | handle k h => (handle k h, w)
  | draft d =>
    let (l, w) := d.lease.release w
    (draft { d with lease := l }, w)
  | node n =>
    let (n, w) := n.release w
    (node n, w)
  | graph g =>
    let (g, w) := g.release w
    (graph g, w)

/-- Whether the object can be released and kept. -/
def isReleasable : Object α → Bool
  | buffer _ | node _ | graph _ => true
  | handle .. | draft _ => false

end Object

/-! ## Answers -/

/-- How far a node has come. -/
structure NodeState where
  evaluated : Bool
  /-- The numbers of completed steps and of all steps of a compound. -/
  progress : Option (Nat × Nat)

def Node.state : Node α → NodeState
  | operation o => ⟨o.evaluated, none⟩
  | compound c => ⟨c.isEvaluated, some (c.completed, c.numSteps)⟩

/-- An instruction from outside. -/
structure Description where
  code : Opcode
  inputs : List Place
  listing : String
  /-- The listing in which the slots of the own buffer are shown by their numbers. -/
  ownListing : String

def Instruction.describe (owner : BufferId) (i : Instruction α (Operand α)) :
    Description :=
  ⟨i.code, i.inputs, i.listing none, i.listing (some owner)⟩

inductive Answer (α : Type) where
  | done
  | number (n : Nat)
  | flag (b : Bool)
  | text (s : String)
  | value (k : Kind) (v : Value α k)
  | place (p : Place)
  | slots (count : Nat)
  | buffer (slots : Nat) (released live : Bool)
  /-- A value and whether it came from a handle. -/
  | operand (fromHandle : Bool) (k : Kind) (v : Value α k)
  /-- One answer for every handle. -/
  | values (vs : List (Except (Stop α) ((k : Kind) × Value α k)))
  | draft (steps : Nat) (text : String)
  | state (s : NodeState)
  | node (s : NodeState) (buffer : BufferId) (live : Bool) (inputs : List BufferId)
  | description (d : Description)
  | descriptions (ds : List Description)

abbrev Reply (α : Type) := Except (Stop α) (Answer α)

/-! ## Sessions -/

structure Session (α : Type) where
  pool : Pool α
  objects : Catalog (Object α)

/-- What a command does: the session afterwards, the events, and the reply. -/
structure Outcome (α : Type) where
  session : Session α
  events : Array (Event α)
  reply : Reply α

/-- A literal value, or the name of a handle or of a node whose handle is meant. -/
inductive Reference (α : Type) (k : Kind) where
  | literal (v : Value α k)
  | handle (name : String)
  | node (name : String)

namespace Session

def empty : Session α := ⟨.empty, []⟩

/-- The pool with an empty log. -/
def world (s : Session α) : World α := ⟨s.pool, #[]⟩

/-- What messages call a buffer. -/
def label (s : Session α) : BufferId → String := s.pool.label

/-! ### Looking up -/

def object? (s : Session α) (name : String) : Option (Object α) := s.objects.get? name

def isFree (s : Session α) (name : String) : Bool := (s.object? name).isNone

def buffer? (s : Session α) (name : String) : Option Lease :=
  match s.object? name with
  | some (.buffer l) => some l
  | _ => none

def handle? (s : Session α) (name : String) : Option ((k : Kind) × Handle k) :=
  match s.object? name with
  | some (.handle k h) => some ⟨k, h⟩
  | _ => none

def draft? (s : Session α) (name : String) : Option (Draft α) :=
  match s.object? name with
  | some (.draft d) => some d
  | _ => none

def node? (s : Session α) (name : String) : Option (Node α) :=
  match s.object? name with
  | some (.node n) => some n
  | _ => none

def graph? (s : Session α) (name : String) : Option (Graph α) :=
  match s.object? name with
  | some (.graph g) => some g
  | _ => none

/-- A handle as a handle of the kind `k`, if it is one. -/
def ofKind (k : Kind) : (j : Kind) × Handle j → Option (Handle k)
  | ⟨j, h⟩ => if j = k then some ⟨h.buffer, h.slot⟩ else none

def handleOf? (s : Session α) (k : Kind) (name : String) : Option (Handle k) :=
  (s.handle? name).bind (ofKind k)

/-- The operand that a reference stands for. -/
def resolve (s : Session α) (k : Kind) : Reference α k → Option (Operand α k)
  | .literal v => some (.literal v)
  | .handle name => (s.handleOf? k name).map .handle
  | .node name => do
    let n ← s.node? name
    (ofKind k ⟨n.kind, n.handle⟩).map .handle

/-! ### Outcomes -/

/-- A reply that leaves everything as it was. -/
def answer (s : Session α) (r : Reply α) : Outcome α := ⟨s, #[], r⟩

/-- A reply together with a changed world and changed objects. -/
def change (w : World α) (objects : Catalog (Object α)) (r : Reply α) : Outcome α :=
  ⟨⟨w.pool, objects⟩, w.log, r⟩

/-- The objects with a new one under a name, if one is given and it is free. -/
def withNew (s : Session α) (name : Option String) (x : Object α) : Option (Catalog (Object α)) :=
  match name with
  | none => some s.objects
  | some name => if s.isFree name then some (s.objects.insert name x) else none

end Session

end DeferredMatrix
