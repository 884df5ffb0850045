import CodeGraph.Diff.Basic
import CodeGraph.Graph.Query
import CodeGraph.KeyPool

/-!
# Applying edit scripts

A script is applied change by change.  A new node gets its id from the key pool
that the script is bound to, or from the graph's allocator when there is none.
For every change the changes that undo it are noted.

Application is all or nothing.  When a change fails, what was noted is applied
newest first and the error is returned.  Ids that were drawn are not given back.
When every change succeeds, the notes give the inverse script.  Only a crash leaves
a script half applied.
-/

namespace CodeGraph

/-- What the application of a script did. -/
structure Applied where
  /-- The script. -/
  diff : Diff
  /-- The script that undoes it, if it was asked for. -/
  inverse : Option Diff
  /-- The ids of the created nodes, by key. -/
  created : Std.TreeMap UInt32 NodeId

namespace Applied

/-- The id of the node that a key names. -/
def nodeId? (a : Applied) (key : NewKey) : Option NodeId := a.created[key.value]?

/-- The id of the node that a reference names. -/
def resolve? (a : Applied) : NodeRef → Option NodeId
  | .existing id => some id
  | .new key => a.nodeId? key

/-- The ids of the created nodes, in the order of their keys. -/
def newNodeIds (a : Applied) : List NodeId := a.created.toList.map Prod.snd

end Applied

/-- An application under way. -/
structure Progress where
  /-- The graph so far. -/
  graph : Graph
  /-- The pool that ids are drawn from. -/
  pool : Option KeyPool
  /-- The ids of the created nodes, by key. -/
  created : Std.TreeMap UInt32 NodeId := {}
  /-- For every change made, newest first, the changes that undo it. -/
  undo : List (List Change) := []

namespace Progress

/-- An id for a new node, and the progress without it. -/
def draw (p : Progress) : Except GraphError (NodeId × Progress) :=
  match p.pool with
  | some pool =>
    match pool.next with
    | .ok (id, pool) => .ok (id, { p with pool := some pool })
    | .error e => .error e
  | none =>
    match p.graph.allocate with
    | .ok (id, graph) => .ok (id, { p with graph })
    | .error e => .error e

/-- The id of the node that a reference names. -/
def resolve (p : Progress) : NodeRef → Except GraphError NodeId
  | .existing id => .ok id
  | .new key =>
    match p.created[key.value]? with
    | some id => .ok id
    | none => .error (.unresolvedNewNode key)

/-- The progress after a change that gave a graph and can be undone, or the error of the change. -/
def commit (p : Progress) : Except GraphError (Graph × List Change) → Progress × Option GraphError
  | .ok (graph, undo) => ({ p with graph, undo := undo :: p.undo }, none)
  | .error e => (p, some e)

/-- A node created. -/
def createNode (p : Progress) (key : NewKey) (kind : NodeKind) (properties : Properties) :
    Progress × Option GraphError :=
  match p.draw with
  | .error e => (p, some e)
  | .ok (id, p) =>
    match p.graph.insertNode ⟨id, kind, properties⟩ with
    | .error e => (p, some e)
    | .ok graph =>
      { p with created := p.created.insert key.value id }.commit (.ok (graph, [.removeNode id]))

/-- The changes that put back a node and its edges. -/
def restoring (node : Node) (links : List Link) : List Change :=
  .restoreNode node :: links.map fun l => .createEdge (.existing l.src) (.existing l.dst) l.edge

/-- A change made, with the error if it fails. -/
def apply (p : Progress) : Change → Progress × Option GraphError
  | .createNode key kind properties => p.createNode key kind properties
  | .createEdge src dst edge => p.commit do
    let src ← p.resolve src
    let dst ← p.resolve dst
    let graph ← p.graph.addEdge src dst edge
    return (graph, [.removeEdge src dst edge])
  | .setProperty node key value => p.commit do
    let node ← p.resolve node
    let (previous, graph) ← p.graph.setProperty node key value
    return (graph, [.restoreProperty node key previous])
  | .addProperty node key value => p.commit do
    let node ← p.resolve node
    let (previous, graph) ← p.graph.appendProperty node key value
    return (graph, [.restoreProperty node key previous])
  | .removeNode node => p.commit do
    let (removed, graph) ← p.graph.removeNode node
    return (graph, restoring removed (p.graph.incidentLinks node))
  | .removeEdge src dst edge => p.commit do
    let (removed, graph) ← p.graph.removeEdge src dst edge
    return (graph, [.createEdge (.existing src) (.existing dst) removed])
  | .restoreProperty node key value => p.commit do
    let (previous, graph) ← match value with
      | some value => p.graph.setProperty node key value
      | none => p.graph.removeProperty node key
    return (graph, [.restoreProperty node key previous])
  | .restoreNode node => p.commit do
    let graph ← p.graph.insertNode node
    return (graph, [.removeNode node.id])

/-- Changes made one after the other, up to the first that fails. -/
def applyAll (p : Progress) : List Change → Progress × Option GraphError
  | [] => (p, none)
  | c :: cs =>
    match p.apply c with
    | (p, none) => p.applyAll cs
    | (p, some e) => (p, some e)

/-- The changes that undo everything so far. -/
def inverse (p : Progress) : List Change := p.undo.flatten

/-- Everything undone so far.  A change that cannot be undone is left. -/
def rollback (p : Progress) : Progress := p.inverse.foldl (fun p c => (p.apply c).1) p

end Progress

/-- The outcome of an application: the graph and the pool afterwards, with what
was done or why it failed. -/
structure Application where
  /-- The graph afterwards. -/
  graph : Graph
  /-- The pool afterwards. -/
  pool : Option KeyPool
  /-- What was done, or why nothing was. -/
  result : Except GraphError Applied

/-- A script applied to a graph. -/
def Graph.apply (g : Graph) (d : Diff) (pool : Option KeyPool) (withInverse : Bool) : Application :=
  match Progress.applyAll { graph := g, pool } d.changes with
  | (p, none) =>
    { graph := p.graph
      pool := p.pool
      result := .ok
        { diff := d
          inverse := if withInverse then some ⟨p.inverse⟩ else none
          created := p.created } }
  | (p, some e) =>
    let p := if e = .overflow then p else p.rollback
    { graph := p.graph, pool := p.pool, result := .error e }

end CodeGraph
