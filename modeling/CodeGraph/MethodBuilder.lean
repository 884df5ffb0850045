import CodeGraph.Graph.Basic

/-!
# Building methods

A `MethodBuilder` adds a method to a graph: its entry, its parameters, a block
of statements that are chained by control flow, the arguments of the statements,
and its exit.  A statement is appended after the *cursor*.  The cursor can be
moved, and control-flow edges can be added, so that branches and loops can be
laid out.

A statement can only be appended when the node under the cursor exists.  If it
does not, the statement stays in the graph without its control-flow edge, and
the builder is stuck.  So it is when there is no id for a new node.
-/

namespace CodeGraph

/-- The ids of a method that was built. -/
structure MethodHandle where
  /-- The entry. -/
  method : NodeId
  /-- The parameters in their order. -/
  params : List NodeId
  /-- The exit. -/
  methodReturn : NodeId
  deriving DecidableEq

/-- A method under construction. -/
structure MethodBuilder where
  /-- The graph so far. -/
  graph : Graph
  /-- The entry. -/
  method : NodeId
  /-- The block that holds the statements. -/
  block : NodeId
  /-- The exit. -/
  methodReturn : NodeId
  /-- The parameters so far. -/
  params : List NodeId
  /-- The node that the next statement follows. -/
  cursor : NodeId
  /-- Whether the node under the cursor still has to be connected to the exit. -/
  fallsThrough : Bool

namespace MethodBuilder

/-- A graph with a plain edge where both ends exist, and the graph as it was otherwise. -/
def connected (g : Graph) (src dst : NodeId) (kind : EdgeKind) : Graph :=
  match g.addEdge src dst ⟨kind, {}⟩ with
  | .ok g => g
  | .error _ => g

/-- A method without parameters and statements added to a graph, and the graph afterwards. -/
def new (g : Graph) (name : String) : Except GraphError MethodBuilder × Graph :=
  match g.addNode (.method name name) {} with
  | .error e => (.error e, g)
  | .ok (method, g) =>
    match g.addNode .block {} with
    | .error e => (.error e, g)
    | .ok (block, g) =>
      match g.addNode .methodReturn {} with
      | .error e => (.error e, g)
      | .ok (methodReturn, g) =>
        let g := connected (connected g method block .ast) method methodReturn .ast
        let b : MethodBuilder :=
          { graph := g, method, block, methodReturn, params := [], cursor := method
            fallsThrough := false }
        (.ok b, g)

/-- The next parameter. -/
def parameter (b : MethodBuilder) (name : String) : Except GraphError NodeId × MethodBuilder :=
  match b.graph.addNode (.parameter name (UInt32.ofNat b.params.length)) {} with
  | .error e => (.error e, b)
  | .ok (param, g) =>
    (.ok param, { b with graph := connected g b.method param .ast, params := b.params ++ [param] })

/-- A statement after the cursor.  It fails when the node under the cursor does not exist. -/
def statement (b : MethodBuilder) (kind : NodeKind) : Except GraphError NodeId × MethodBuilder :=
  match b.graph.addNode kind {} with
  | .error e => (.error e, b)
  | .ok (node, g) =>
    let g := connected g b.block node .ast
    match g.addEdge b.cursor node ⟨.cfg, {}⟩ with
    | .ok g => (.ok node, { b with graph := g, cursor := node, fallsThrough := true })
    | .error e => (.error e, { b with graph := g })

/-- An argument of a statement. -/
def argument (b : MethodBuilder) (call : NodeId) (kind : NodeKind) :
    Except GraphError Unit × MethodBuilder :=
  match b.graph.addNode kind {} with
  | .error e => (.error e, b)
  | .ok (arg, g) =>
    (.ok (), { b with graph := connected (connected g call arg .ast) call arg .argument })

/-- Arguments of a statement, one after the other. -/
def arguments (b : MethodBuilder) (call : NodeId) :
    List NodeKind → Except GraphError Unit × MethodBuilder
  | [] => (.ok (), b)
  | kind :: kinds =>
    match b.argument call kind with
    | (.ok (), b) => b.arguments call kinds
    | (.error e, b) => (.error e, b)

/-- Identifiers as arguments, at positions from `i` on. -/
def identifiersFrom : Nat → List String → List NodeKind
  | _, [] => []
  | i, name :: names => .identifier name (UInt32.ofNat i) :: identifiersFrom (i + 1) names

/-- A statement with its arguments. -/
def statementWith (b : MethodBuilder) (kind : NodeKind) (args : List NodeKind) :
    Except GraphError NodeId × MethodBuilder :=
  match b.statement kind with
  | (.error e, b) => (.error e, b)
  | (.ok node, b) =>
    match b.arguments node args with
    | (.error e, b) => (.error e, b)
    | (.ok (), b) => (.ok node, b)

/-- An assignment of the sum of some variables, or of zero, to a variable. -/
def assignment (b : MethodBuilder) (target : String) (sources : List String) :
    Except GraphError NodeId × MethodBuilder :=
  let value := if sources.isEmpty then "0" else " + ".intercalate sources
  b.statementWith (.call NodeKind.assignment (target ++ " = " ++ value))
    (.identifier target 1 ::
      if sources.isEmpty then [.literal "0" 2] else identifiersFrom 2 sources)

/-- A call with variables as arguments. -/
def call (b : MethodBuilder) (name : String) (args : List String) :
    Except GraphError NodeId × MethodBuilder :=
  b.statementWith (.call name (name ++ "(" ++ ", ".intercalate args ++ ")"))
    (identifiersFrom 1 args)

/-- The header of a branch or a loop. -/
def controlStructure (b : MethodBuilder) (code : String) :
    Except GraphError NodeId × MethodBuilder :=
  b.statement (.controlStructure code)

/-- A return statement, which is followed by the exit. -/
def returnValue (b : MethodBuilder) (var : Option String) :
    Except GraphError NodeId × MethodBuilder :=
  let (code, args) : String × List NodeKind := match var with
    | some v => ("return " ++ v, [.identifier v 1])
    | none => ("return", [])
  match b.statementWith (.ret code) args with
  | (.error e, b) => (.error e, b)
  | (.ok node, b) =>
    (.ok node,
      { b with graph := connected b.graph node b.methodReturn .cfg, fallsThrough := false })

/-- The cursor moved to a node. -/
def moveTo (b : MethodBuilder) (node : NodeId) : MethodBuilder := { b with cursor := node }

/-- A control-flow edge between two nodes. -/
def link (b : MethodBuilder) (src dst : NodeId) : Except GraphError MethodBuilder :=
  match b.graph.addEdge src dst ⟨.cfg, {}⟩ with
  | .ok g => .ok { b with graph := g }
  | .error e => .error e

/-- The method as it is now.  A statement that falls off the end is followed by the exit. -/
def finish (b : MethodBuilder) : Except GraphError MethodHandle × Graph :=
  let handle : MethodHandle := ⟨b.method, b.params, b.methodReturn⟩
  if b.fallsThrough then
    match b.graph.addEdge b.cursor b.methodReturn ⟨.cfg, {}⟩ with
    | .ok g => (.ok handle, g)
    | .error e => (.error e, b.graph)
  else (.ok handle, b.graph)

/-! ## Scripts of builder calls -/

/-- A node that a script names. -/
inductive Place where
  /-- By its id. -/
  | known (node : NodeId)
  /-- By the number of the call that made it. -/
  | made (step : Nat)

/-- One call to a builder. -/
inductive Step where
  /-- The next parameter. -/
  | parameter (name : String)
  /-- An assignment. -/
  | assignment (target : String) (sources : List String)
  /-- A call. -/
  | call (name : String) (args : List String)
  /-- The header of a branch or a loop. -/
  | control (code : String)
  /-- A return statement. -/
  | ret (var : Option String)
  /-- The cursor moved. -/
  | moveTo (place : Place)
  /-- A control-flow edge. -/
  | link (src dst : Place)

/-- What a call to a builder gave. -/
inductive Made where
  /-- A node. -/
  | node (id : NodeId)
  /-- Nothing. -/
  | nothing
  /-- An edge could not be added. -/
  | refused (e : GraphError)

/-- Why a script came to a halt. -/
inductive Halt where
  /-- A node could not be made or connected. -/
  | stuck (e : GraphError)
  /-- A place names a call that made no node. -/
  | notMade (step : Nat)

/-- The node at a place, when the calls so far gave `mades`. -/
def Place.resolve (mades : List Made) : Place → Except Halt NodeId
  | .known node => .ok node
  | .made step =>
    match mades[step]? with
    | some (.node id) => .ok id
    | _ => .error (.notMade step)

/-- A script under way. -/
structure Script where
  /-- The builder. -/
  builder : MethodBuilder
  /-- What the calls so far gave. -/
  mades : List Made := []

namespace Script

/-- What a call gave noted. -/
def note (s : Script) (made : Made) (b : MethodBuilder) : Script := ⟨b, s.mades ++ [made]⟩

/-- A node noted, or the reason why there is none. -/
def noteNode (s : Script) : Except GraphError NodeId × MethodBuilder → Script × Option Halt
  | (.ok id, b) => (s.note (.node id) b, none)
  | (.error e, b) => (⟨b, s.mades⟩, some (.stuck e))

/-- One call. -/
def step (s : Script) : Step → Script × Option Halt
  | .parameter name => s.noteNode (s.builder.parameter name)
  | .assignment target sources => s.noteNode (s.builder.assignment target sources)
  | .call name args => s.noteNode (s.builder.call name args)
  | .control code => s.noteNode (s.builder.controlStructure code)
  | .ret var => s.noteNode (s.builder.returnValue var)
  | .moveTo place =>
    match place.resolve s.mades with
    | .ok node => (s.note .nothing (s.builder.moveTo node), none)
    | .error h => (s, some h)
  | .link src dst =>
    match src.resolve s.mades, dst.resolve s.mades with
    | .ok src, .ok dst =>
      match s.builder.link src dst with
      | .ok b => (s.note .nothing b, none)
      | .error e => (s.note (.refused e) s.builder, none)
    | .error h, _ => (s, some h)
    | .ok _, .error h => (s, some h)

/-- Calls one after the other, up to the first that comes to a halt. -/
def run (s : Script) : List Step → Script × Option Halt
  | [] => (s, none)
  | call :: calls =>
    match s.step call with
    | (s, none) => s.run calls
    | (s, some h) => (s, some h)

end Script

/-- What became of a new method: the graph as the calls have left it, and the script that was
made, or why it came to a halt. -/
structure Building where
  /-- The graph afterwards. -/
  graph : Graph
  /-- The script, or why it came to a halt. -/
  outcome : Except Halt Script

/-- The graph once the method is finished.  One that came to a halt is left as it is. -/
def Building.finished (b : Building) : Graph :=
  match b.outcome with
  | .ok s => s.builder.finish.2
  | .error _ => b.graph

/-- The calls of a script made to a new method of a graph. -/
def build (g : Graph) (name : String) (calls : List Step) : Building :=
  match new g name with
  | (.error e, g) => { graph := g, outcome := .error (.stuck e) }
  | (.ok b, _) =>
    match ({ builder := b } : Script).run calls with
    | (s, none) => { graph := s.builder.graph, outcome := .ok s }
    | (s, some h) => { graph := s.builder.graph, outcome := .error h }

end MethodBuilder

end CodeGraph
