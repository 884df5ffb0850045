import CodeGraph.DataFlow.FactSet
import CodeGraph.DataFlow.Solver

/-!
# Reaching definitions

A parameter defines the variable of its name.  An assignment defines the
variable that is its first argument, and uses the variables that are its other
arguments.  Any other call, a return statement and a control structure use the
variables that are their arguments.

A definition of a variable reaches a position if some path leads there on which
the variable is not defined again.  Facts are sets of positions that define
something.  The transfer function removes the other definitions of the variable
that is defined at a position and adds the position.

Outputs only grow.  An output changes at most once for each defining position,
and a change puts the successors on the worklist.  So the solver is done after
`bound` visits.
-/

namespace CodeGraph.DataFlow

/-- The variables that nodes of a flow graph define and use. -/
structure ReachingDefs where
  /-- The flow graph. -/
  graph : FlowGraph
  /-- The variable that each position defines. -/
  defines : Array (Option String)
  /-- The variables that each position uses. -/
  uses : Array (List String)

namespace ReachingDefs

/-! ## Definitions and uses -/

/-- The name of a node if it is an identifier. -/
def identifier? (n : Node) : Option String :=
  match n.kind with
  | .identifier name _ => some name
  | _ => none

/-- The variable that an argument of an assignment makes it define. -/
def target? (n : Node) : Option String :=
  match n.kind with
  | .identifier name i => if i = 1 then some name else none
  | _ => none

/-- The variable that an argument of an assignment makes it use. -/
def source? (n : Node) : Option String :=
  match n.kind with
  | .identifier name i => if i = 1 then none else some name
  | _ => none

/-- The variable that a node defines. -/
def definition? (g : Graph) (id : NodeId) : Option String :=
  match g.kind? id with
  | some (.parameter name _) => some name
  | some (.call name _) =>
    if name = NodeKind.assignment then ((g.arguments id).filterMap target?).getLast? else none
  | _ => none

/-- The variables that a node uses, in the order of its arguments. -/
def usesOf (g : Graph) (id : NodeId) : List String :=
  match g.kind? id with
  | some (.call name _) =>
    if name = NodeKind.assignment then (g.arguments id).filterMap source?
    else (g.arguments id).filterMap identifier?
  | some (.ret _) | some (.controlStructure _) => (g.arguments id).filterMap identifier?
  | _ => []

/-- The definitions and uses of a method. -/
def ofMethod (g : Graph) (method : NodeId) : Except FlowError ReachingDefs := do
  let graph ← FlowGraph.ofMethod g method
  return { graph, defines := graph.nodes.map (definition? g), uses := graph.nodes.map (usesOf g) }

/-- The variable that a position defines. -/
def definedAt? (r : ReachingDefs) (i : Nat) : Option String := (r.defines[i]?).join

/-- The variables that a position uses. -/
def usedAt (r : ReachingDefs) (i : Nat) : List String := r.uses.getD i []

/-- The positions of a set that define a variable. -/
def definitionsOf (r : ReachingDefs) (var : String) (facts : FactSet Nat) : List Nat :=
  facts.toList.filter fun i => r.definedAt? i = some var

/-! ## The problem -/

/-- The facts after a position. -/
def transfer (r : ReachingDefs) (i : Nat) (facts : FactSet Nat) : FactSet Nat :=
  match r.definedAt? i with
  | none => facts
  | some var => (facts.filter fun d => r.definedAt? d ≠ some var).insert i

/-- Reaching definitions as a data-flow problem. -/
def problem (r : ReachingDefs) : Problem (FactSet Nat) where
  graph := r.graph
  direction := .forward
  empty := {}
  transfer := r.transfer
  meet := FactSet.union

/-- The number of positions that define a variable. -/
def definitionCount (r : ReachingDefs) : Nat := r.defines.countP Option.isSome

/-- The number of edges of the flow graph. -/
def edgeCount (r : ReachingDefs) : Nat :=
  r.graph.succTable.toList.foldl (fun n js => n + js.length) 0

/-- A number of visits that is always enough. -/
def bound (r : ReachingDefs) : Nat := r.graph.size + r.definitionCount * r.edgeCount

/-- The definitions that reach each position. -/
def solve (r : ReachingDefs) : Solution (FactSet Nat) := r.problem.solution (r.problem.run r.bound)

end ReachingDefs

end CodeGraph.DataFlow
