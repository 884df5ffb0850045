import CodeGraph.DataFlow.ReachingDefs
import CodeGraph.Pass.Runner

/-!
# The reaching-definitions pass

One part per method.  For every use of a variable the pass adds an edge from
each definition that reaches it, with the variable as a property.  The edges of
a method are in ascending order of definition, use and variable, and each is
added once.
-/

namespace CodeGraph

open DataFlow (FactSet FlowError ReachingDefs)

/-- A definition that reaches a use. -/
structure DefUse where
  /-- The node that defines the variable. -/
  definition : NodeId
  /-- The node that uses it. -/
  use : NodeId
  /-- The variable. -/
  var : String
  deriving DecidableEq

namespace DefUse

/-- The order: by definition, use and variable. -/
instance : Ord DefUse :=
  ⟨compareLex (compareOn definition) (compareLex (compareOn use) (compareOn var))⟩

instance : Std.TransOrd DefUse :=
  inferInstanceAs
    (Std.TransCmp (compareLex (compareOn definition) (compareLex (compareOn use) (compareOn var))))

/-- The change that records a definition and its use. -/
def change (d : DefUse) : Change :=
  .createEdge (.existing d.definition) (.existing d.use)
    ⟨.reachingDef, Properties.empty.insert "variable" (.str d.var)⟩

end DefUse

namespace DataFlow.ReachingDefs

/-- The definitions that reach the uses of a position. -/
def defUsesAt (r : ReachingDefs) (facts : FactSet Nat) (i : Nat) (use : NodeId) : List DefUse :=
  (r.usedAt i).flatMap fun var =>
    (r.definitionsOf var facts).filterMap fun d => (r.graph.node? d).map fun n => ⟨n, use, var⟩

/-- The definitions that reach uses, in order. -/
def defUses (r : ReachingDefs) : FactSet DefUse :=
  let solution := r.solve
  FactSet.ofList (r.graph.nodes.toList.zipIdx.flatMap fun (node, i) =>
    match solution.before? node with
    | some facts => r.defUsesAt facts i node
    | none => [])

end DataFlow.ReachingDefs

/-- The script that records definitions and their uses. -/
def defUseDiff (flows : List DefUse) : Diff :=
  ((flows.map DefUse.change).foldl DiffBuilder.push {}).build

/-- The scripts that record the definitions and uses of a method.  There is none
when nothing reaches a use. -/
def defUseDiffs (r : ReachingDefs) : List Diff :=
  match r.defUses.toList with
  | [] => []
  | flows => [defUseDiff flows]

/-- The part of a method. -/
def reachingDefsPart (method : NodeId) : Part := fun g =>
  match ReachingDefs.ofMethod g method with
  | .ok r => .emitted (defUseDiffs r)
  | .error (.outOfRange _) => .crashed
  | .error e => .failed e.message

/-- The pass that records which definitions reach which uses. -/
def reachingDefsPass : Pass where
  name := "ReachingDefPass"
  parts g := g.methods.map reachingDefsPart

end CodeGraph
