import DeferredMatrix.Session.Basic

/-!
# Commands on graphs

Pushing a node moves it into the graph: its name is gone and the graph owns its buffer.
-/

namespace DeferredMatrix

variable {α : Type}

inductive GraphCommand (α : Type) where
  | create (name : String)
  | push (graph node : String) (name : Option String)
  /-- Makes a chain of operations, moves them into the graph in their order or in reverse, and
  names the handle of the last one. -/
  | chain (graph name : String) (length : Nat) (first : Reference α .matrix)
      (link : Link α (Reference α)) (isReversed : Bool)
  | evaluate (graph : String)
  | numNodes (graph : String)

namespace Session

def performGraph [Scalar α] (s : Session α) : GraphCommand α → Option (Outcome α)
  | .create name => do
    return change s.world (← s.withNew name (.graph .empty)) (.ok .done)
  | .push graph node name => do
    let g ← s.graph? graph
    let n ← s.node? node
    let objects ← s.withNew name (.handle n.kind n.handle)
    return change s.world ((objects.erase node).replace graph (.graph (g.push n)))
      (.ok (.place n.handle.place))
  | .chain graph name length first link isReversed => do
    let g ← s.graph? graph
    let first ← s.resolve .matrix first
    let link ← link.traverse s.resolve
    let c := Chain.build s.world name link first length
    let last ← c.nodes.back?
    let objects ← s.withNew name (.handle last.kind last.handle)
    let nodes := if isReversed then c.nodes.reverse else c.nodes
    return change c.world (objects.replace graph (.graph (g.pushAll nodes)))
      (.ok (.place last.handle.place))
  | .evaluate graph => do
    let g ← s.graph? graph
    let a := g.evaluate s.world
    return change a.world (s.objects.replace graph (.graph a.node))
      (a.result.map fun () => .done)
  | .numNodes graph => do
    let g ← s.graph? graph
    return s.answer (.ok (.number g.numNodes))

end Session

end DeferredMatrix
