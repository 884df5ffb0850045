import CodeGraph.ControlFlow

/-!
# Flow graphs

A flow graph numbers the nodes of a method: the method, its parameters in order,
the nodes of its body in reverse post-order, and its exit.  A node that occurs
twice in this sequence keeps its first place.

The tables of successors and predecessors follow control flow, with the
parameters threaded in as a chain between the method and the first node of its
body.  A return statement is followed by the exit alone.  A node of a kind that
has no part in control flow is isolated.  Neighbours outside the method are left
out.

The parameters are counted with repetition.  A method whose parameters are
repeated may therefore name a position that its table does not have.  Building
its flow graph then fails with `outOfRange`.
-/

namespace CodeGraph.DataFlow

/-- Why a method has no flow graph. -/
inductive FlowError where
  /-- The node is not a method. -/
  | notAMethod (node : NodeId)
  /-- The method has no exit. -/
  | missingMethodReturn (method : NodeId)
  /-- A position beyond the end of the table was asked for. -/
  | outOfRange (index : Nat)
  deriving DecidableEq

/-- The message of an error. -/
def FlowError.message : FlowError → String
  | .notAMethod node => "node " ++ node.text ++ " is not a method"
  | .missingMethodReturn method => "method " ++ method.text ++ " has no method return node"
  | .outOfRange index => "index " ++ Text.natText index ++ " is out of range"

/-- The control flow of one method, by position. -/
structure FlowGraph where
  /-- The method. -/
  method : NodeId
  /-- The node at each position. -/
  nodes : Array NodeId
  /-- The number of parameters. -/
  paramCount : Nat
  /-- The successors of each position. -/
  succTable : Array (List Nat)
  /-- The predecessors of each position. -/
  predTable : Array (List Nat)
  deriving DecidableEq

namespace FlowGraph

/-! ## Access -/

/-- The number of positions. -/
def size (fg : FlowGraph) : Nat := fg.nodes.size

/-- The position of the method. -/
def entry (_ : FlowGraph) : Nat := 0

/-- The position of the exit of the method. -/
def exit (fg : FlowGraph) : Nat := fg.size - 1

/-- The node at a position. -/
def node? (fg : FlowGraph) (i : Nat) : Option NodeId := fg.nodes[i]?

/-- The position of a node. -/
def indexOf? (fg : FlowGraph) (id : NodeId) : Option Nat := fg.nodes.toList.idxOf? id

/-- The parameters. -/
def params (fg : FlowGraph) : List NodeId := (fg.nodes.toList.drop 1).take fg.paramCount

/-- The successors of a position. -/
def succ (fg : FlowGraph) (i : Nat) : List Nat := fg.succTable.getD i []

/-- The predecessors of a position. -/
def pred (fg : FlowGraph) (i : Nat) : List Nat := fg.predTable.getD i []

/-! ## Construction -/

/-- How a position takes part in control flow. -/
inductive Role where
  /-- The method. -/
  | entry
  /-- A parameter, counted from zero. -/
  | param (k : Nat)
  /-- A return statement. -/
  | ret
  /-- Any other statement. -/
  | statement
  /-- The exit. -/
  | exit
  /-- A node that takes no part. -/
  | isolated
  deriving DecidableEq

/-- What the tables of a method are made of. -/
structure Layout where
  /-- The graph. -/
  graph : Graph
  /-- The method. -/
  method : NodeId
  /-- Its exit. -/
  exit : NodeId
  /-- Its number of parameters. -/
  paramCount : Nat
  /-- The first node of its body. -/
  first : Option NodeId
  /-- The node at each position. -/
  nodes : List NodeId

namespace Layout

/-- The layout of a method with the given exit. -/
def ofMethod (g : Graph) (method exit : NodeId) : Layout :=
  let params := g.parametersOf method
  let body := (g.reversePostOrder method).filter fun n => n ≠ method && n ≠ exit
  { graph := g, method, exit
    paramCount := params.length
    first := g.firstNode? method
    nodes := (method :: params ++ body ++ [exit]).eraseDups }

/-- The positions of some nodes.  Nodes without a position are left out. -/
def positions (l : Layout) (ids : List NodeId) : List Nat :=
  ids.filterMap fun id => l.nodes.idxOf? id

/-- The position of the node at a position, or an error beyond the end. -/
def position (l : Layout) (i : Nat) : Except FlowError (List Nat) :=
  match l.nodes[i]? with
  | some id => .ok (l.positions [id])
  | none => .error (.outOfRange i)

/-- The role of a node at a position. -/
def role (l : Layout) (i : Nat) (node : NodeId) : Role :=
  if i = 0 then .entry
  else if i ≤ l.paramCount then .param (i - 1)
  else if node = l.exit then .exit
  else
    match l.graph.kind? node with
    | some (.ret _) => .ret
    | some (.call _ _) | some (.identifier _ _) | some (.literal _ _)
    | some (.controlStructure _) =>
      .statement
    | _ => .isolated

/-- The successors of a node at a position. -/
def successors (l : Layout) (i : Nat) (node : NodeId) : Except FlowError (List Nat) :=
  match l.role i node with
  | .ret => .ok (l.positions [l.exit])
  | .param k =>
    if k + 1 < l.paramCount then l.position (i + 1)
    else .ok (l.positions l.first.toList)
  | .entry =>
    if 0 < l.paramCount then l.position 1 else .ok (l.positions (l.graph.successors node))
  | .statement | .exit => .ok (l.positions (l.graph.successors node))
  | .isolated => .ok []

/-- The predecessors of the first node of the body when there are parameters.
The last parameter stands in for the method. -/
def firstPredecessors (l : Layout) (node : NodeId) : Except FlowError (List Nat) :=
  match l.nodes[l.paramCount]? with
  | some last =>
    .ok (l.positions ((l.graph.predecessors node).map fun p => if p = l.method then last else p))
  | none => .error (.outOfRange l.paramCount)

/-- The predecessors of a node at a position. -/
def predecessors (l : Layout) (i : Nat) (node : NodeId) : Except FlowError (List Nat) :=
  match l.role i node with
  | .param 0 => .ok (l.positions [l.method])
  | .param _ => l.position (i - 1)
  | .isolated => .ok []
  | .entry | .statement | .ret | .exit =>
    if 0 < l.paramCount ∧ some node = l.first then l.firstPredecessors node
    else .ok (l.positions (l.graph.predecessors node))

/-- The entries of a table for all positions. -/
def table (l : Layout) (row : Nat → NodeId → Except FlowError (List Nat)) :
    Except FlowError (List (List Nat)) :=
  l.nodes.zipIdx.mapM fun (node, i) => row i node

end Layout

/-- The flow graph of a method. -/
def ofMethod (g : Graph) (method : NodeId) : Except FlowError FlowGraph := do
  if !(g.kind? method).any NodeKind.isMethod then throw (.notAMethod method)
  match g.methodReturn? method with
  | none => throw (.missingMethodReturn method)
  | some exit =>
    let l := Layout.ofMethod g method exit
    let succs ← l.table l.successors
    let preds ← l.table l.predecessors
    return {
      method
      nodes := l.nodes.toArray
      paramCount := l.paramCount
      succTable := succs.toArray
      predTable := preds.toArray }

end FlowGraph

end CodeGraph.DataFlow
