import CodeGraph.Graph.Basic

/-!
# Questions to a graph

Neighbours and edges at a node are listed in the order in which the edges were
added.  The lists of all nodes and of all edges are in the order of the slots.
-/

namespace CodeGraph.Graph

/-- An arc with the ids of its ends. -/
def link? (g : Graph) (a : Arc) : Option Link :=
  match g.nodes.get? a.src, g.nodes.get? a.dst with
  | some s, some d => some ⟨s.id, d.id, a.edge⟩
  | _, _ => none

/-- The edges of a list of arc slots. -/
def linksOf (g : Graph) (slots : List Nat) : List Link :=
  slots.filterMap fun i => (g.arcs.get? i).bind g.link?

/-- The edges that leave a node, oldest first. -/
def outLinks (g : Graph) (id : NodeId) : List Link :=
  match g.slot? id with
  | none => []
  | some i => (g.linksOf (g.leaving i)).reverse

/-- The edges that come to a node, oldest first. -/
def inLinks (g : Graph) (id : NodeId) : List Link :=
  match g.slot? id with
  | none => []
  | some i =>
    (g.linksOf (g.recent.filter fun k => (g.arcs.get? k).any fun a => a.dst = i)).reverse

/-- The targets of the edges of a kind that leave a node, oldest edge first. -/
def outNeighbors (g : Graph) (id : NodeId) (kind : EdgeKind) : List NodeId :=
  ((g.outLinks id).filter fun l => l.edge.kind = kind).map Link.dst

/-- The sources of the edges of a kind that come to a node, oldest edge first. -/
def inNeighbors (g : Graph) (id : NodeId) (kind : EdgeKind) : List NodeId :=
  ((g.inLinks id).filter fun l => l.edge.kind = kind).map Link.src

/-- The edges at a node: those that leave it, then those that come to it from
other nodes, each newest first. -/
def incidentLinks (g : Graph) (id : NodeId) : List Link :=
  match g.slot? id with
  | none => []
  | some i => g.linksOf (g.leaving i ++ g.entering i)

/-- All nodes. -/
def allNodes (g : Graph) : List Node := g.nodes.elements

/-- All edges. -/
def allLinks (g : Graph) : List Link := g.arcs.elements.filterMap g.link?

/-- The ids of all methods, in ascending order. -/
def methods (g : Graph) : List NodeId :=
  ((g.allNodes.filter fun n => n.kind.isMethod).map Node.id).mergeSort fun a b => (compare a b).isLE

/-- The arguments of a call, ordered by their positions.  Nodes without a position come last. -/
def arguments (g : Graph) (call : NodeId) : List Node :=
  ((g.outNeighbors call .argument).filterMap g.node?).mergeSort fun a b =>
    a.kind.argumentIndex?.getD 0xFFFFFFFF ≤ b.kind.argumentIndex?.getD 0xFFFFFFFF

end CodeGraph.Graph
