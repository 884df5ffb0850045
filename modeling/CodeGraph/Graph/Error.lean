import CodeGraph.Node
import CodeGraph.Edge

/-!
# Errors of graph operations

Arithmetic is checked, as in a build with assertions.  A number that has no
successor, an index that is out of range or an assertion that does not hold stops
the program.  Such a crash is given as an error too, but no call answers with it:
it is not cleaned up after, and ends whatever is under way.
-/

namespace CodeGraph

open Text (natText)

/-- Why an operation on a graph, an edit script or a key pool failed. -/
inductive GraphError where
  /-- No node has the id. -/
  | nodeNotFound (id : NodeId)
  /-- A node has the id already. -/
  | duplicateNodeId (id : NodeId)
  /-- No edge of this kind with the given properties joins the nodes. -/
  | edgeNotFound (src dst : NodeId) (kind : EdgeKind)
  /-- A value cannot be appended, because the property is not a list. -/
  | propertyNotList (node : NodeId) (key : String)
  /-- An edit script names a node that it has not created yet. -/
  | unresolvedNewNode (key : NewKey)
  /-- A key pool has handed out every id of its range. -/
  | keyPoolExhausted (start stop : UInt64)
  /-- The range of a key pool ends before it starts, or is split into no parts. -/
  | invalidKeyPool (start stop : UInt64)
  /-- A crash: a number was counted on that is the last of its width. -/
  | overflow
  deriving DecidableEq

/-- A range of ids in messages. -/
def GraphError.range (start stop : UInt64) : String :=
  "[" ++ natText start.toNat ++ ", " ++ natText stop.toNat ++ ")"

/-- The message of an error. -/
def GraphError.message : GraphError → String
  | .nodeNotFound id => "node not found: NodeId(" ++ id.text ++ ")"
  | .duplicateNodeId id => "duplicate node id: NodeId(" ++ id.text ++ ")"
  | .edgeNotFound src dst kind =>
    "edge not found: " ++ src.text ++ " -[" ++ kind.name ++ "]-> " ++ dst.text
  | .propertyNotList node key =>
    "property '" ++ key ++ "' on node " ++ node.text ++ " is not a list"
  | .unresolvedNewNode key => "unresolved new node " ++ key.text ++ " in diff graph"
  | .keyPoolExhausted start stop => "key pool " ++ range start stop ++ " exhausted"
  | .invalidKeyPool start stop => "invalid key pool range " ++ range start stop
  | .overflow => "attempt to add with overflow"

/-- The number after another of the same width. -/
def successor {Word : Type} [DecidableEq Word] [Add Word] [OfNat Word 0] [OfNat Word 1] (n : Word) :
    Except GraphError Word :=
  if n + 1 = 0 then .error .overflow else .ok (n + 1)

end CodeGraph
