import CodeGraph.Graph.Query

/-!
# Control flow of a method

Control flow is read off the edges of two kinds.  The parameters and the exit of
a method are its children in the syntax tree.  What may be executed next is
given by the control-flow edges.

`reversePostOrder` lists the nodes that can be reached from a method.  It is the
reverse of the order in which a depth-first walk leaves them, so that a node
comes before what follows it except where control flows back.  The walk takes
the edges of a node oldest first.
-/

namespace CodeGraph.Graph

/-- The kind of a node. -/
def kind? (g : Graph) (id : NodeId) : Option NodeKind := (g.node? id).map Node.kind

/-- What may be executed after a node. -/
def successors (g : Graph) (id : NodeId) : List NodeId := g.outNeighbors id .cfg

/-- What may be executed before a node. -/
def predecessors (g : Graph) (id : NodeId) : List NodeId := g.inNeighbors id .cfg

/-- A node with its position if it is a parameter. -/
def parameter? (g : Graph) (id : NodeId) : Option (UInt32 × NodeId) :=
  match g.kind? id with
  | some (.parameter _ order) => some (order, id)
  | _ => none

/-- The parameters of a method, ordered by their positions. -/
def parametersOf (g : Graph) (method : NodeId) : List NodeId :=
  (((g.outNeighbors method .ast).filterMap g.parameter?).mergeSort
    fun a b => a.1 ≤ b.1).map Prod.snd

/-- The exit of a method. -/
def methodReturn? (g : Graph) (method : NodeId) : Option NodeId :=
  (g.outNeighbors method .ast).find? fun id => (g.kind? id).any NodeKind.isMethodReturn

/-- The first node of the body of a method. -/
def firstNode? (g : Graph) (method : NodeId) : Option NodeId :=
  (g.successors method).find? fun id => some id ≠ g.methodReturn? method

/-! ## Depth-first walks -/

/-- A depth-first walk over slots. -/
structure Walk where
  /-- The slots that were discovered. -/
  seen : List Nat := []
  /-- The slots that were left, the last one first. -/
  order : List Nat := []

/-- The walk after visiting a slot and all that can be reached from it and was
not seen.  Every level of the recursion discovers a slot, so `fuel` need not
exceed the number of slots. -/
def Walk.visit (next : Nat → List Nat) : Nat → Walk → Nat → Walk
  | 0, w, _ => w
  | fuel + 1, w, i =>
    if i ∈ w.seen then w
    else
      let w := (next i).foldl (visit next fuel) { w with seen := i :: w.seen }
      { w with order := i :: w.order }

/-- The slots that control flow leads to from a slot, oldest edge first. -/
def nextSlots (g : Graph) (slot : Nat) : List Nat :=
  (g.recent.filterMap fun i =>
    match g.arcs.get? i with
    | some a => if a.src = slot && a.edge.kind = .cfg then some a.dst else none
    | none => none).reverse

/-- The nodes that can be reached from a method over control flow, the method
included, in reverse post-order. -/
def reversePostOrder (g : Graph) (method : NodeId) : List NodeId :=
  match g.slot? method with
  | none => []
  | some i =>
    ((Walk.visit g.nextSlots g.nodeCount {} i).order.filterMap g.nodes.get?).map Node.id

end CodeGraph.Graph
