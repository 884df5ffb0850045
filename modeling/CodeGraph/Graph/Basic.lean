import CodeGraph.Graph.Error
import CodeGraph.Slots
import Std.Data.TreeMap

/-!
# The graph

A graph keeps its nodes and its edges in slots.  An edge in its slot is an
*arc*: it names the slots of its ends.  Three things are kept besides.

* `recent` lists the slots of all arcs, newest first.  The edges at a node are
  found in this order.
* `index` gives the slot of each id.  In a graph that was not loaded from a file
  with a repeated id, it lists exactly the nodes.  Where an id is repeated, the
  last slot has it.
* `nextId` is where the graph's own allocator looks for the next id.  Ids that
  are taken are passed over, and no id is handed out twice.

Every operation either gives a new graph or an error, and then the graph at hand
is still the old one.
-/

namespace CodeGraph

/-- An edge between two node slots. -/
structure Arc where
  /-- The slot of the source. -/
  src : Nat
  /-- The slot of the target. -/
  dst : Nat
  /-- The edge. -/
  edge : Edge
  deriving DecidableEq, Inhabited

/-- An edge between two nodes. -/
structure Link where
  /-- The source. -/
  src : NodeId
  /-- The target. -/
  dst : NodeId
  /-- The edge. -/
  edge : Edge
  deriving DecidableEq, Inhabited

/-- A code property graph. -/
structure Graph where
  /-- The nodes in their slots. -/
  nodes : Slots Node := {}
  /-- The edges in their slots. -/
  arcs : Slots Arc := {}
  /-- The slots of the edges, newest first. -/
  recent : List Nat := []
  /-- The slot of each id. -/
  index : Std.TreeMap NodeId Nat := {}
  /-- Where the allocator looks next. -/
  nextId : UInt64 := 1

namespace Graph

/-- The graph without nodes. -/
def empty : Graph := {}

instance : EmptyCollection Graph := ⟨empty⟩

instance : Inhabited Graph := ⟨empty⟩

/-! ## Look-up -/

/-- The slot of an id. -/
def slot? (g : Graph) (id : NodeId) : Option Nat := g.index[id]?

/-- Whether a node has the id. -/
def contains (g : Graph) (id : NodeId) : Bool := (g.slot? id).isSome

/-- The node with an id. -/
def node? (g : Graph) (id : NodeId) : Option Node := (g.slot? id).bind g.nodes.get?

/-- The number of nodes. -/
def nodeCount (g : Graph) : Nat := g.nodes.size

/-- The number of edges. -/
def edgeCount (g : Graph) : Nat := g.arcs.size

/-! ## Nodes -/

/-- The first number from `n` on that is not taken, within `fuel` steps. -/
def firstFree (taken : NodeId → Bool) : Nat → UInt64 → Except GraphError UInt64
  | 0, n => .ok n
  | fuel + 1, n =>
    if taken ⟨n⟩ then do
      let n ← successor n
      firstFree taken fuel n
    else .ok n

/-- The next free id, and the graph that will not hand it out again.  There are
no more taken ids than entries of the index, so as many steps are enough. -/
def allocate (g : Graph) : Except GraphError (NodeId × Graph) := do
  let n ← firstFree g.contains g.index.size g.nextId
  let nextId ← successor n
  return (⟨n⟩, { g with nextId })

/-- The graph with a node under its own id, whatever the index says. -/
def place (g : Graph) (node : Node) : Graph :=
  let (i, nodes) := g.nodes.insert node
  { g with nodes, index := g.index.insert node.id i }

/-- The graph with a node under its own id. -/
def insertNode (g : Graph) (node : Node) : Except GraphError Graph :=
  if g.contains node.id then .error (.duplicateNodeId node.id) else .ok (g.place node)

/-- The graph with a node under an id of the allocator, and that id. -/
def addNode (g : Graph) (kind : NodeKind) (properties : Properties) :
    Except GraphError (NodeId × Graph) := do
  let (id, g) ← g.allocate
  return (id, g.place ⟨id, kind, properties⟩)

/-- Whether an arc starts or ends at a slot. -/
def touches (g : Graph) (slot arc : Nat) : Bool :=
  match g.arcs.get? arc with
  | some a => a.src = slot || a.dst = slot
  | none => false

/-- The slots of the arcs that leave a slot, newest first. -/
def leaving (g : Graph) (slot : Nat) : List Nat :=
  g.recent.filter fun i => (g.arcs.get? i).any fun a => a.src = slot

/-- The slots of the arcs that come to a slot from another one, newest first. -/
def entering (g : Graph) (slot : Nat) : List Nat :=
  g.recent.filter fun i => (g.arcs.get? i).any fun a => a.dst = slot && a.src ≠ slot

/-- The graph without the node in a slot and without its edges.  The slots of
the edges that leave it are vacated first, then those of the edges that come to
it, each newest first. -/
def vacate (g : Graph) (id : NodeId) (slot : Nat) : Graph :=
  { g with
    nodes := g.nodes.erase slot
    arcs := g.arcs.eraseAll (g.leaving slot ++ g.entering slot)
    recent := g.recent.filter fun i => !g.touches slot i
    index := g.index.erase id }

/-- The graph without a node and its edges, and the node. -/
def removeNode (g : Graph) (id : NodeId) : Except GraphError (Node × Graph) :=
  match g.slot? id with
  | none => .error (.nodeNotFound id)
  | some i =>
    match g.nodes.get? i with
    | none => .error (.nodeNotFound id)
    | some node => .ok (node, g.vacate id i)

/-! ## Node properties -/

/-- The properties of a node replaced by what `f` makes of them, or the error of
`f`.  The value of `key` before is returned with the graph. -/
def updateProperties (g : Graph) (id : NodeId) (key : String)
    (f : Properties → Except GraphError Properties) :
    Except GraphError (Option PropertyValue × Graph) :=
  match g.slot? id with
  | none => .error (.nodeNotFound id)
  | some i =>
    match g.nodes.get? i with
    | none => .error (.nodeNotFound id)
    | some node =>
      match f node.properties with
      | .error e => .error e
      | .ok p =>
        .ok (node.properties.get? key,
          { g with nodes := g.nodes.replace i { node with properties := p } })

/-- A property set to a value. -/
def setProperty (g : Graph) (id : NodeId) (key : String) (value : PropertyValue) :
    Except GraphError (Option PropertyValue × Graph) :=
  g.updateProperties id key fun p => .ok (p.insert key value)

/-- A property removed. -/
def removeProperty (g : Graph) (id : NodeId) (key : String) :
    Except GraphError (Option PropertyValue × Graph) :=
  g.updateProperties id key fun p => .ok (p.erase key)

/-- Properties with a value put at the end of a list.  A missing list counts as empty. -/
def appended (id : NodeId) (key : String) (value : PropertyValue) (p : Properties) :
    Except GraphError Properties :=
  match p.get? key with
  | none => .ok (p.insert key (.list [value]))
  | some (.list items) => .ok (p.insert key (.list (items ++ [value])))
  | some _ => .error (.propertyNotList id key)

/-- A value put at the end of a property that is a list. -/
def appendProperty (g : Graph) (id : NodeId) (key : String) (value : PropertyValue) :
    Except GraphError (Option PropertyValue × Graph) :=
  g.updateProperties id key (appended id key value)

/-! ## Edges -/

/-- The graph with an arc between two slots. -/
def join (g : Graph) (src dst : Nat) (edge : Edge) : Graph :=
  let (i, arcs) := g.arcs.insert ⟨src, dst, edge⟩
  { g with arcs, recent := i :: g.recent }

/-- The graph with an edge between two nodes. -/
def addEdge (g : Graph) (src dst : NodeId) (edge : Edge) : Except GraphError Graph :=
  match g.slot? src, g.slot? dst with
  | none, _ => .error (.nodeNotFound src)
  | _, none => .error (.nodeNotFound dst)
  | some i, some j => .ok (g.join i j edge)

/-- The newest arc between two slots whose edge is the same as the given one. -/
def findArc? (g : Graph) (src dst : Nat) (edge : Edge) : Option (Nat × Edge) :=
  g.recent.findSome? fun i =>
    match g.arcs.get? i with
    | some a => if a.src = src && a.dst = dst && a.edge.same edge then some (i, a.edge) else none
    | none => none

/-- The graph without an arc. -/
def cut (g : Graph) (arc : Nat) : Graph :=
  { g with arcs := g.arcs.erase arc, recent := g.recent.erase arc }

/-- The graph without the newest edge between two nodes that is the same as the
given one, and that edge. -/
def removeEdge (g : Graph) (src dst : NodeId) (edge : Edge) : Except GraphError (Edge × Graph) :=
  match g.slot? src, g.slot? dst with
  | none, _ => .error (.nodeNotFound src)
  | _, none => .error (.nodeNotFound dst)
  | some i, some j =>
    match g.findArc? i j edge with
    | some (arc, found) => .ok (found, g.cut arc)
    | none => .error (.edgeNotFound src dst edge.kind)

end Graph

end CodeGraph
