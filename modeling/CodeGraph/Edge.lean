import CodeGraph.Property

/-!
# Edges

An edge has a kind and properties.  Syntax, control flow and the results of
analyses live in one graph, and the kind of an edge says to which layer it
belongs.
-/

namespace CodeGraph

/-- The kind of an edge. -/
inductive EdgeKind where
  /-- From a syntax tree node to its child. -/
  | ast
  /-- From a node to one that may be executed next. -/
  | cfg
  /-- From a call to one of its arguments. -/
  | argument
  /-- From a definition to a use that it reaches. -/
  | reachingDef
  deriving DecidableEq, Inhabited

namespace EdgeKind

/-- The place of a kind in the order of kinds. -/
def rank : EdgeKind → Nat
  | .ast => 0
  | .cfg => 1
  | .argument => 2
  | .reachingDef => 3

/-- The name of a kind in messages. -/
def name : EdgeKind → String
  | .ast => "Ast"
  | .cfg => "Cfg"
  | .argument => "Argument"
  | .reachingDef => "ReachingDef"

/-- The label of a kind in stored graphs. -/
def label : EdgeKind → String
  | .ast => "AST"
  | .cfg => "CFG"
  | .argument => "ARGUMENT"
  | .reachingDef => "REACHING_DEF"

end EdgeKind

/-- An edge, without its ends. -/
structure Edge where
  /-- The kind of the edge. -/
  kind : EdgeKind
  /-- Its properties. -/
  properties : Properties := {}
  deriving DecidableEq, Inhabited

namespace Edge

/-- Whether two edges are equal up to the order of their properties. -/
def same (e f : Edge) : Bool := e.kind = f.kind && e.properties.same f.properties

end Edge

end CodeGraph
