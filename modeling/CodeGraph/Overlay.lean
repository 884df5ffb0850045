import CodeGraph.Diff.Apply
import CodeGraph.Store.Error

/-!
# Overlays

An overlay is an edit script in which every node is named by its id.  It is what
a store keeps of an application: the script that was applied, or the script that
undoes it.  An overlay can be replayed without a key pool.
-/

namespace CodeGraph

/-- One edit of an overlay. -/
inductive OverlayEntry where
  /-- A node under an id. -/
  | addNode (id : NodeId) (kind : NodeKind) (properties : Properties)
  /-- An edge. -/
  | addEdge (src dst : NodeId) (edge : Edge)
  /-- A property set to a value. -/
  | setProperty (node : NodeId) (key : String) (value : PropertyValue)
  /-- A value appended to a property. -/
  | appendProperty (node : NodeId) (key : String) (value : PropertyValue)
  /-- A node removed. -/
  | removeNode (id : NodeId)
  /-- An edge removed. -/
  | removeEdge (src dst : NodeId) (edge : Edge)
  /-- A property put back to a value, or removed. -/
  | restoreProperty (node : NodeId) (key : String) (value : Option PropertyValue)
  deriving DecidableEq, Inhabited

namespace OverlayEntry

/-- The change that replays an entry. -/
def toChange : OverlayEntry → Change
  | .addNode id kind properties => .restoreNode ⟨id, kind, properties⟩
  | .addEdge src dst edge => .createEdge (.existing src) (.existing dst) edge
  | .setProperty node key value => .setProperty (.existing node) key value
  | .appendProperty node key value => .addProperty (.existing node) key value
  | .removeNode id => .removeNode id
  | .removeEdge src dst edge => .removeEdge src dst edge
  | .restoreProperty node key value => .restoreProperty node key value

/-- The entry of a change, with references resolved by an application. -/
def ofChange (a : Applied) : Change → Except StoreError OverlayEntry
  | .createNode key kind properties => do
    return .addNode (← id (.new key)) kind properties
  | .createEdge src dst edge => do
    return .addEdge (← id src) (← id dst) edge
  | .setProperty node key value => do
    return .setProperty (← id node) key value
  | .addProperty node key value => do
    return .appendProperty (← id node) key value
  | .removeNode node => .ok (.removeNode node)
  | .removeEdge src dst edge => .ok (.removeEdge src dst edge)
  | .restoreProperty node key value => .ok (.restoreProperty node key value)
  | .restoreNode node => .ok (.addNode node.id node.kind node.properties)
where
  /-- The id of the node that a reference names. -/
  id (ref : NodeRef) : Except StoreError NodeId :=
    match a.resolve? ref with
    | some id => .ok id
    | none => .error (.unresolvedNode ref.text)

end OverlayEntry

/-- A resolved edit script. -/
structure Overlay where
  /-- The entries in their order. -/
  entries : List OverlayEntry := []
  deriving DecidableEq, Inhabited

namespace Overlay

/-- The number of entries. -/
def size (o : Overlay) : Nat := o.entries.length

/-- Whether there is no entry. -/
def isEmpty (o : Overlay) : Bool := o.entries.isEmpty

/-- A script with its references resolved by an application. -/
def resolve (d : Diff) (a : Applied) : Except StoreError Overlay := do
  return ⟨← d.changes.mapM (OverlayEntry.ofChange a)⟩

/-- The overlay of what was applied. -/
def forward (a : Applied) : Except StoreError Overlay := resolve a.diff a

/-- The overlay that undoes what was applied, if the application has an inverse. -/
def inverse? (a : Applied) : Option (Except StoreError Overlay) := a.inverse.map (resolve · a)

/-- The script that replays an overlay. -/
def toDiff (o : Overlay) : Diff := ⟨o.entries.map OverlayEntry.toChange⟩

/-- An overlay replayed onto a graph.  The graph afterwards is returned with the
error, if there is one; it is then the graph as far as it could be put back. -/
def applyTo (o : Overlay) (g : Graph) : Graph × Option StoreError :=
  let a := g.apply o.toDiff none false
  match a.result with
  | .ok _ => (a.graph, none)
  | .error e => (a.graph, some (.replay e))

end Overlay

end CodeGraph
