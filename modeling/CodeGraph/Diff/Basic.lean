import CodeGraph.Graph.Error

/-!
# Edit scripts

A `Diff` is an ordered list of changes to a graph.  An analysis never changes a
graph itself.  It records its edits with a `DiffBuilder` and hands over the
script.  A node that a script creates has no id yet, so the script refers to it
by a key.

The first four changes are what analyses record.  The others occur in scripts
that undo something, and name nodes by their ids.
-/

namespace CodeGraph

/-- A node as an edit script names it. -/
inductive NodeRef where
  /-- A node of the graph. -/
  | existing (id : NodeId)
  /-- A node that the script creates. -/
  | new (key : NewKey)
  deriving DecidableEq, Inhabited

/-- The text of a reference. -/
def NodeRef.text : NodeRef → String
  | .existing id => id.text
  | .new key => key.text

/-- One change to a graph. -/
inductive Change where
  /-- Create a node and let the key name it. -/
  | createNode (key : NewKey) (kind : NodeKind) (properties : Properties)
  /-- Create an edge. -/
  | createEdge (src dst : NodeRef) (edge : Edge)
  /-- Set a property of a node. -/
  | setProperty (node : NodeRef) (key : String) (value : PropertyValue)
  /-- Append to a property of a node that is a list. -/
  | addProperty (node : NodeRef) (key : String) (value : PropertyValue)
  /-- Remove a node with its edges. -/
  | removeNode (node : NodeId)
  /-- Remove an edge. -/
  | removeEdge (src dst : NodeId) (edge : Edge)
  /-- Put a property back to a value, or remove it. -/
  | restoreProperty (node : NodeId) (key : String) (value : Option PropertyValue)
  /-- Put a node back under its id. -/
  | restoreNode (node : Node)
  deriving DecidableEq, Inhabited

namespace Change

/-- The number of properties of the node or edge that a change carries. -/
def carried : Change → Nat
  | .createNode _ _ properties => properties.size
  | .createEdge _ _ edge | .removeEdge _ _ edge => edge.properties.size
  | .restoreNode node => node.properties.size
  | _ => 0

/-- Whether a change creates a node. -/
def isCreateNode : Change → Bool
  | .createNode _ _ _ => true
  | _ => false

end Change

/-- An edit script. -/
structure Diff where
  /-- The changes in their order. -/
  changes : List Change := []
  deriving DecidableEq, Inhabited

namespace Diff

/-- The number of changes. -/
def size (d : Diff) : Nat := d.changes.length

/-- Whether there is no change. -/
def isEmpty (d : Diff) : Bool := d.changes.isEmpty

/-- The number of changes and of the properties that they carry. -/
def expandedSize (d : Diff) : Nat := d.changes.foldl (fun n c => n + 1 + c.carried) 0

/-- The number of nodes created. -/
def newNodeCount (d : Diff) : Nat := d.changes.countP Change.isCreateNode

end Diff

/-! ## Recording -/

/-- An edit as an analysis records it. -/
inductive Edit where
  /-- A new node. -/
  | node (kind : NodeKind) (properties : Properties)
  /-- A new edge. -/
  | edge (src dst : NodeRef) (edge : Edge)
  /-- A property set to a value. -/
  | set (node : NodeRef) (key : String) (value : PropertyValue)
  /-- A value appended to a property. -/
  | add (node : NodeRef) (key : String) (value : PropertyValue)
  deriving DecidableEq, Inhabited

/-- A script that is being recorded. -/
structure DiffBuilder where
  /-- The changes so far. -/
  changes : Array Change := #[]
  /-- The key of the next new node. -/
  nextKey : UInt32 := 0

namespace DiffBuilder

/-- Whether nothing was recorded. -/
def isEmpty (b : DiffBuilder) : Bool := b.changes.isEmpty

/-- The script with one more change. -/
def push (b : DiffBuilder) (c : Change) : DiffBuilder := { b with changes := b.changes.push c }

/-- The script with a new node, and the reference to it. -/
def addNode (b : DiffBuilder) (kind : NodeKind) (properties : Properties) :
    Except GraphError (NodeRef × DiffBuilder) := do
  let nextKey ← successor b.nextKey
  return (.new ⟨b.nextKey⟩, { b.push (.createNode ⟨b.nextKey⟩ kind properties) with nextKey })

/-- The script with one more edit, and the reference to the node if the edit is a new node. -/
def record (b : DiffBuilder) : Edit → Except GraphError (Option NodeRef × DiffBuilder)
  | .node kind properties => do
    let (ref, b) ← b.addNode kind properties
    return (some ref, b)
  | .edge src dst edge => .ok (none, b.push (.createEdge src dst edge))
  | .set node key value => .ok (none, b.push (.setProperty node key value))
  | .add node key value => .ok (none, b.push (.addProperty node key value))

/-- The script with more edits, and the references to the new nodes in their order. -/
def recordAll (b : DiffBuilder) : List Edit → Except GraphError (List NodeRef × DiffBuilder)
  | [] => .ok ([], b)
  | e :: es => do
    let (ref, b) ← b.record e
    let (refs, b) ← b.recordAll es
    return (ref.toList ++ refs, b)

/-- The script that was recorded. -/
def build (b : DiffBuilder) : Diff := ⟨b.changes.toList⟩

end DiffBuilder

/-- The script of a list of edits. -/
def Diff.ofEdits (es : List Edit) : Except GraphError Diff :=
  (({} : DiffBuilder).recordAll es).map fun r => r.2.build

end CodeGraph
