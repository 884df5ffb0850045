import CodeGraph.Graph.Query
import CodeGraph.Codec.Property
import CodeGraph.Json.Render

/-!
# The content of a graph

The content of a graph is what is left when slots, the order of additions and
the state of the allocator are forgotten: the nodes by their ids, and the edges
as a multiset.  Both are sorted, and properties are sorted by their names, so
equal contents are equal lists.
-/

namespace CodeGraph

/-- A node of a content. -/
structure ContentNode where
  /-- The id. -/
  id : NodeId
  /-- The kind. -/
  kind : NodeKind
  /-- The properties by name. -/
  properties : List (String × PropertyValue)
  deriving DecidableEq

/-- An edge of a content. -/
structure ContentEdge where
  /-- The source. -/
  src : NodeId
  /-- The target. -/
  dst : NodeId
  /-- The kind. -/
  kind : EdgeKind
  /-- The properties by name. -/
  properties : List (String × PropertyValue)
  deriving DecidableEq

/-- What a graph contains. -/
structure Content where
  /-- The nodes by id. -/
  nodes : List ContentNode
  /-- The edges by ends, kind and properties. -/
  edges : List ContentEdge
  deriving DecidableEq

namespace ContentNode

/-- A node without the order of its properties. -/
def ofNode (n : Node) : ContentNode := ⟨n.id, n.kind, n.properties.sorted⟩

end ContentNode

namespace ContentEdge

/-- An edge without the order of its properties. -/
def ofLink (l : Link) : ContentEdge := ⟨l.src, l.dst, l.edge.kind, l.edge.properties.sorted⟩

/-- The text that orders edges of the same ends and kind. -/
def text (e : ContentEdge) : String := Json.compact (.obj (Properties.membersOf e.properties))

/-- The order of edges: by source, target, kind, and the text of the properties. -/
def order (e f : ContentEdge) : Ordering :=
  (compare e.src f.src).then <| (compare e.dst f.dst).then <|
    (compare e.kind.rank f.kind.rank).then <| compare e.text f.text

end ContentEdge

namespace Graph

/-- The nodes by id.  Of nodes with the same id the one in the last slot counts. -/
def nodesById (g : Graph) : Std.TreeMap NodeId Node :=
  g.allNodes.foldl (fun m n => m.insert n.id n) {}

/-- The content of a graph. -/
def content (g : Graph) : Content where
  nodes := g.nodesById.toList.map fun (_, n) => ContentNode.ofNode n
  edges := (g.allLinks.map ContentEdge.ofLink).mergeSort fun e f => (e.order f).isLE

end Graph

end CodeGraph
