import CodeGraph.Overlay
import CodeGraph.Proofs.MethodBuilder.Growth
import Mathlib

/-!
# Actions and the operations behind them

Besides the primitive operations, a script can be applied to a graph, an overlay can be replayed
onto it, and a method can be built in it.  None of these changes the graph in a way of its own.
Each comes to a row of primitive operations.  Which ones these are depends on the graph and on what
fails on the way.

`Graph.operations` gives the row of an action, and `Graph.foldl_operations` says that it leads to
the graph that the action leaves.  So what holds along every run of operations holds along every
run of actions.
-/

namespace CodeGraph

/-- What can be done to a graph. -/
inductive Action where
  /-- A primitive operation. -/
  | operation (op : Operation)
  /-- A script applied with a key pool, whatever that has handed out before, or without one. -/
  | apply (d : Diff) (pool : Option KeyPool) (withInverse : Bool)
  /-- An overlay replayed. -/
  | replay (o : Overlay)
  /-- A method built by calls to a builder, and then finished or abandoned. -/
  | build (name : String) (calls : List MethodBuilder.Step) (finished : Bool)

/-! ## Operations one after the other -/

namespace Graph

variable {g h : Graph} {op : Operation} {a : Answer} {e : GraphError}

/-- The graph after an operation.  One that fails leaves the graph as it is. -/
def after (g : Graph) (op : Operation) : Graph :=
  match g.perform op with
  | .ok (_, h) => h
  | .error _ => g

theorem after_of_ok (hop : g.perform op = .ok (a, h)) : g.after op = h := by
  rw [after, hop]

theorem after_of_error (hop : g.perform op = .error e) : g.after op = g := by
  rw [after, hop]

theorem run_perform_snd (g : Graph) (ops : List Operation) :
    (Operation.run perform g ops).2 = ops.foldl after g := by
  induction ops generalizing g with
  | nil => rfl
  | cons op ops ih =>
    rw [Operation.run, List.foldl_cons]
    cases hop : g.perform op with
    | error e =>
      rw [after_of_error hop]
      exact ih g
    | ok result =>
      rw [after_of_ok hop]
      exact ih result.2

end Graph

/-! ## Scripts -/

namespace Progress

/-- The operations that a change comes to.  There are none if it fails before it gets to the
graph. -/
def operations (p : Progress) : Change → List Operation
  | .createNode _ kind properties =>
    match p.pool with
    | none =>
      match p.graph.allocate with
      | .ok (id, _) => [.allocate, .insertNode ⟨id, kind, properties⟩]
      | .error _ => [.allocate]
    | some pool =>
      match pool.next with
      | .ok (id, _) => [.insertNode ⟨id, kind, properties⟩]
      | .error _ => []
  | .createEdge src dst edge =>
    match p.resolve src, p.resolve dst with
    | .ok src, .ok dst => [.addEdge src dst edge]
    | _, _ => []
  | .setProperty node key value =>
    match p.resolve node with
    | .ok node => [.setProperty node key value]
    | .error _ => []
  | .addProperty node key value =>
    match p.resolve node with
    | .ok node => [.appendProperty node key value]
    | .error _ => []
  | .removeNode node => [.removeNode node]
  | .removeEdge src dst edge => [.removeEdge src dst edge]
  | .restoreProperty node key (some value) => [.setProperty node key value]
  | .restoreProperty node key none => [.removeProperty node key]
  | .restoreNode node => [.insertNode node]

/-- The operations of changes up to the first that fails. -/
def operationsAll (p : Progress) : List Change → List Operation
  | [] => []
  | c :: cs =>
    p.operations c ++
      match p.apply c with
      | (p, none) => p.operationsAll cs
      | (_, some _) => []

/-- The operations of changes that are all tried. -/
def operationsEach (p : Progress) : List Change → List Operation
  | [] => []
  | c :: cs => p.operations c ++ (p.apply c).1.operationsEach cs

variable {p p' : Progress}

/-- A change that makes one operation leaves the graph that the operation leaves. -/
theorem after_eq_graph_commit {α : Type} {x : Except GraphError α} {op : Operation}
    (answer : α → Answer) (graph : α → Graph) (undo : α → List Change)
    (hop : p.graph.perform op = x.map fun r => (answer r, graph r)) :
    p.graph.after op = (p.commit (x >>= fun r => pure (graph r, undo r))).1.graph := by
  cases x with
  | error e => exact Graph.after_of_error hop
  | ok r => exact Graph.after_of_ok hop

theorem after_insertNode_eq_graph_createNode {id : NodeId} (hdraw : p.draw = .ok (id, p'))
    (key : NewKey) (kind : NodeKind) (properties : Properties) :
    p'.graph.after (.insertNode ⟨id, kind, properties⟩) =
      (p.createNode key kind properties).1.graph := by
  rw [createNode, hdraw, Graph.after, Graph.perform]
  dsimp only
  cases p'.graph.insertNode ⟨id, kind, properties⟩ <;> rfl

theorem foldl_operations_createNode (p : Progress) (key : NewKey) (kind : NodeKind)
    (properties : Properties) :
    (p.operations (.createNode key kind properties)).foldl Graph.after p.graph =
      (p.createNode key kind properties).1.graph := by
  rw [operations]
  split
  · next hpool =>
    split
    · next id h hallocate =>
      have hdraw : p.draw = .ok (id, { p with graph := h }) := by
        simp only [draw, hpool, hallocate]
      have hafter : p.graph.after .allocate = h := by
        rw [Graph.after, Graph.perform, hallocate]
        rfl
      have hinsert := after_insertNode_eq_graph_createNode hdraw key kind properties
      rw [List.foldl_cons, hafter]
      exact hinsert
    · next e hallocate =>
      have hdraw : p.draw = .error e := by simp only [draw, hpool, hallocate]
      have hafter : p.graph.after .allocate = p.graph := by
        rw [Graph.after, Graph.perform, hallocate]
        rfl
      rw [createNode, hdraw]
      exact hafter
  · next pool hpool =>
    split
    · next id pool' hnext =>
      have hdraw : p.draw = .ok (id, { p with pool := some pool' }) := by
        simp only [draw, hpool, hnext]
      have hinsert := after_insertNode_eq_graph_createNode hdraw key kind properties
      exact hinsert
    · next e hnext =>
      have hdraw : p.draw = .error e := by simp only [draw, hpool, hnext]
      rw [createNode, hdraw]
      rfl

theorem foldl_operations (p : Progress) (c : Change) :
    (p.operations c).foldl Graph.after p.graph = (p.apply c).1.graph := by
  cases c with
  | createNode key kind properties => exact p.foldl_operations_createNode key kind properties
  | createEdge src dst edge =>
    rw [operations, apply]
    cases p.resolve src with
    | error e => rfl
    | ok src =>
      cases p.resolve dst with
      | error e => rfl
      | ok dst =>
        exact after_eq_graph_commit (fun _ => .none) id (fun _ => [.removeEdge src dst edge]) rfl
  | setProperty node key value =>
    rw [operations, apply]
    cases p.resolve node with
    | error e => rfl
    | ok node =>
      exact after_eq_graph_commit (fun r => .previous r.1) Prod.snd
        (fun r => [.restoreProperty node key r.1]) rfl
  | addProperty node key value =>
    rw [operations, apply]
    cases p.resolve node with
    | error e => rfl
    | ok node =>
      exact after_eq_graph_commit (fun r => .previous r.1) Prod.snd
        (fun r => [.restoreProperty node key r.1]) rfl
  | removeNode node =>
    exact after_eq_graph_commit (fun r => .node r.1) Prod.snd
      (fun r => restoring r.1 (p.graph.incidentLinks node)) rfl
  | removeEdge src dst edge =>
    exact after_eq_graph_commit (fun r => .edge r.1) Prod.snd
      (fun r => [.createEdge (.existing src) (.existing dst) r.1]) rfl
  | restoreProperty node key value =>
    cases value with
    | some value =>
      exact after_eq_graph_commit (fun r => .previous r.1) Prod.snd
        (fun r => [.restoreProperty node key r.1]) rfl
    | none =>
      exact after_eq_graph_commit (fun r => .previous r.1) Prod.snd
        (fun r => [.restoreProperty node key r.1]) rfl
  | restoreNode node =>
    exact after_eq_graph_commit (fun _ => .none) id (fun _ => [.removeNode node.id]) rfl

theorem foldl_operationsAll (p : Progress) (cs : List Change) :
    (p.operationsAll cs).foldl Graph.after p.graph = (p.applyAll cs).1.graph := by
  induction cs generalizing p with
  | nil => rfl
  | cons c cs ih =>
    have hc := p.foldl_operations c
    rw [operationsAll, applyAll, List.foldl_append, hc]
    cases p.apply c with
    | mk p' error =>
      cases error with
      | none => exact ih p'
      | some e => rfl

theorem foldl_operationsEach (p : Progress) (cs : List Change) :
    (p.operationsEach cs).foldl Graph.after p.graph =
      (cs.foldl (fun p c => (p.apply c).1) p).graph := by
  induction cs generalizing p with
  | nil => rfl
  | cons c cs ih =>
    rw [operationsEach, List.foldl_append, p.foldl_operations c, List.foldl_cons]
    exact ih _

end Progress

/-! ## Methods -/

/-- The operations of adding a plain node, and of what is done once it is there. -/
def Graph.adding (g : Graph) (kind : NodeKind) (next : NodeId → Graph → List Operation) :
    List Operation :=
  .addNode kind {} ::
    match g.addNode kind {} with
    | .ok (id, h) => next id h
    | .error _ => []

theorem Graph.foldl_adding_of_ok {g h : Graph} {kind : NodeKind} {id : NodeId}
    (hadd : g.addNode kind {} = .ok (id, h)) (next : NodeId → Graph → List Operation) :
    (g.adding kind next).foldl after g = (next id h).foldl after h := by
  have hafter : g.after (.addNode kind {}) = h := by
    rw [after, perform, hadd]
    rfl
  rw [adding, hadd, List.foldl_cons, hafter]

theorem Graph.foldl_adding_of_error {g : Graph} {kind : NodeKind} {e : GraphError}
    (hadd : g.addNode kind {} = .error e) (next : NodeId → Graph → List Operation) :
    (g.adding kind next).foldl after g = g := by
  have hafter : g.after (.addNode kind {}) = g := by
    rw [after, perform, hadd]
    rfl
  rw [adding, hadd]
  exact hafter

namespace MethodBuilder

/-- The operations of a new method. -/
def newOperations (g : Graph) (name : String) : List Operation :=
  g.adding (.method name name) fun method g =>
    g.adding .block fun block g =>
      g.adding .methodReturn fun exit _ =>
        [.addEdge method block ⟨.ast, {}⟩, .addEdge method exit ⟨.ast, {}⟩]

/-- The operations of the arguments of a statement. -/
def argumentOperations (b : MethodBuilder) (call : NodeId) : List NodeKind → List Operation
  | [] => []
  | kind :: kinds =>
    b.graph.adding kind fun arg _ =>
      .addEdge call arg ⟨.ast, {}⟩ :: .addEdge call arg ⟨.argument, {}⟩ ::
        (b.argument call kind).2.argumentOperations call kinds

/-- The operations that put a node after the cursor. -/
def appendOperations (b : MethodBuilder) (kind : NodeKind) : List Operation :=
  b.graph.adding kind fun node _ =>
    [.addEdge b.block node ⟨.ast, {}⟩, .addEdge b.cursor node ⟨.cfg, {}⟩]

/-- The operations of a statement.  If it cannot be put after the cursor, it gets no arguments. -/
def statementOperations (b : MethodBuilder) (shape : Shape) : List Operation :=
  b.appendOperations shape.kind ++
    match b.statement shape.kind with
    | (.ok node, b) =>
      b.argumentOperations node shape.arguments ++
        match b.arguments node shape.arguments with
        | (.ok (), b) => if shape.returns then [.addEdge node b.methodReturn ⟨.cfg, {}⟩] else []
        | (.error _, _) => []
    | (.error _, _) => []

/-- The operations of closing a method. -/
def finishOperations (b : MethodBuilder) : List Operation :=
  if b.fallsThrough then [.addEdge b.cursor b.methodReturn ⟨.cfg, {}⟩] else []

namespace Script

/-- The operations of a call. -/
def operations (s : Script) (call : Step) : List Operation :=
  match call with
  | .parameter name =>
    s.builder.graph.adding (.parameter name (UInt32.ofNat s.builder.params.length)) fun param _ =>
      [.addEdge s.builder.method param ⟨.ast, {}⟩]
  | .link src dst =>
    match src.resolve s.mades, dst.resolve s.mades with
    | .ok src, .ok dst => [.addEdge src dst ⟨.cfg, {}⟩]
    | _, _ => []
  | _ =>
    match call.shape? with
    | some shape => s.builder.statementOperations shape
    | none => []

/-- The operations of calls up to the first that comes to a halt. -/
def operationsAll (s : Script) : List Step → List Operation
  | [] => []
  | call :: calls =>
    s.operations call ++
      match s.step call with
      | (s, none) => s.operationsAll calls
      | (_, some _) => []

end Script

theorem after_addEdge (g : Graph) (src dst : NodeId) (kind : EdgeKind) :
    g.after (.addEdge src dst ⟨kind, {}⟩) = connected g src dst kind := by
  rw [Graph.after, Graph.perform, connected]
  cases g.addEdge src dst ⟨kind, {}⟩ <;> rfl

theorem foldl_newOperations (g : Graph) (name : String) :
    (newOperations g name).foldl Graph.after g = (new g name).2 := by
  rw [newOperations, new]
  cases hmethod : g.addNode (.method name name) {} with
  | error e => exact Graph.foldl_adding_of_error hmethod _
  | ok made =>
    obtain ⟨method, g₁⟩ := made
    rw [Graph.foldl_adding_of_ok hmethod]
    dsimp only
    cases hblock : g₁.addNode .block {} with
    | error e => exact Graph.foldl_adding_of_error hblock _
    | ok made =>
      obtain ⟨block, g₂⟩ := made
      rw [Graph.foldl_adding_of_ok hblock]
      dsimp only
      cases hexit : g₂.addNode .methodReturn {} with
      | error e => exact Graph.foldl_adding_of_error hexit _
      | ok made =>
        obtain ⟨exit, g₃⟩ := made
        rw [Graph.foldl_adding_of_ok hexit]
        simp only [List.foldl_cons, List.foldl_nil, after_addEdge]

theorem graph_of_new (g : Graph) (name : String) (b : MethodBuilder)
    (h : (new g name).1 = .ok b) : (new g name).2 = b.graph := by
  unfold new at h ⊢
  cases hmethod : g.addNode (.method name name) {} with
  | error e => simp only [hmethod] at h; cases h
  | ok made =>
    obtain ⟨method, g₁⟩ := made
    simp only [hmethod] at h ⊢
    cases hblock : g₁.addNode .block {} with
    | error e => simp only [hblock] at h; cases h
    | ok made =>
      obtain ⟨block, g₂⟩ := made
      simp only [hblock] at h ⊢
      cases hexit : g₂.addNode .methodReturn {} with
      | error e => simp only [hexit] at h; cases h
      | ok made =>
        simp only [hexit] at h ⊢
        cases h
        rfl

theorem foldl_argumentOperations (b : MethodBuilder) (call : NodeId) (kinds : List NodeKind) :
    (b.argumentOperations call kinds).foldl Graph.after b.graph =
      (b.arguments call kinds).2.graph := by
  induction kinds generalizing b with
  | nil => rfl
  | cons kind kinds ih =>
    have hrest := ih (b.argument call kind).2
    rw [argumentOperations, arguments]
    rw [argument] at hrest ⊢
    cases hadd : b.graph.addNode kind {} with
    | error e => exact Graph.foldl_adding_of_error hadd _
    | ok made =>
      obtain ⟨arg, g⟩ := made
      rw [hadd] at hrest
      rw [Graph.foldl_adding_of_ok hadd]
      simp only [List.foldl_cons, after_addEdge]
      exact hrest

theorem foldl_appendOperations (b : MethodBuilder) (kind : NodeKind) :
    (b.appendOperations kind).foldl Graph.after b.graph = (b.statement kind).2.graph := by
  rw [appendOperations, statement]
  cases hadd : b.graph.addNode kind {} with
  | error e => exact Graph.foldl_adding_of_error hadd _
  | ok made =>
    obtain ⟨node, g⟩ := made
    rw [Graph.foldl_adding_of_ok hadd]
    simp only [List.foldl_cons, List.foldl_nil, after_addEdge]
    rw [connected]
    cases (connected g b.block node .ast).addEdge b.cursor node ⟨.cfg, {}⟩ <;> rfl

theorem foldl_statementOperations (b : MethodBuilder) (shape : Shape) :
    (b.statementOperations shape).foldl Graph.after b.graph = (b.append shape).2.graph := by
  have hstatement := b.foldl_appendOperations shape.kind
  rw [statementOperations, List.foldl_append, hstatement, append, statementWith]
  cases b.statement shape.kind with
  | mk outcome b =>
    cases outcome with
    | error e => rfl
    | ok node =>
      dsimp only
      rw [List.foldl_append, foldl_argumentOperations]
      cases b.arguments node shape.arguments with
      | mk outcome b =>
        cases outcome with
        | error e => rfl
        | ok made =>
          cases shape.returns with
          | false => rfl
          | true => exact after_addEdge _ _ _ _

theorem builder_noteNode (s : Script) (x : Except GraphError NodeId × MethodBuilder) :
    (s.noteNode x).1.builder = x.2 := by
  obtain ⟨outcome, b⟩ := x
  cases outcome <;> rfl

theorem Script.foldl_operations_parameter (s : Script) (name : String) :
    (s.operations (.parameter name)).foldl Graph.after s.builder.graph =
      (s.step (.parameter name)).1.builder.graph := by
  rw [operations, step, builder_noteNode, parameter]
  cases hadd : s.builder.graph.addNode
      (.parameter name (UInt32.ofNat s.builder.params.length)) {} with
  | error e => exact Graph.foldl_adding_of_error hadd _
  | ok made =>
    obtain ⟨param, g⟩ := made
    rw [Graph.foldl_adding_of_ok hadd]
    exact after_addEdge _ _ _ _

theorem Script.foldl_operations (s : Script) (c : Step) :
    (s.operations c).foldl Graph.after s.builder.graph = (s.step c).1.builder.graph := by
  have hstatement : ∀ shape, c.shape? = some shape →
      (s.builder.statementOperations shape).foldl Graph.after s.builder.graph =
        (s.step c).1.builder.graph := by
    intro shape hshape
    rw [step_of_shape? hshape, builder_noteNode]
    exact foldl_statementOperations _ _
  cases c with
  | parameter name => exact s.foldl_operations_parameter name
  | assignment target sources => exact hstatement _ rfl
  | call name args => exact hstatement _ rfl
  | control code => exact hstatement _ rfl
  | ret var => cases var <;> exact hstatement _ rfl
  | moveTo place =>
    rw [step]
    cases place.resolve s.mades <;> rfl
  | link src dst =>
    rw [operations, step]
    cases src.resolve s.mades with
    | error h => rfl
    | ok src =>
      cases dst.resolve s.mades with
      | error h => rfl
      | ok dst =>
        dsimp only [List.foldl_cons, List.foldl_nil]
        rw [after_addEdge, MethodBuilder.link, connected]
        cases s.builder.graph.addEdge src dst ⟨.cfg, {}⟩ <;> rfl

theorem Script.foldl_operationsAll (s : Script) (calls : List Step) :
    (s.operationsAll calls).foldl Graph.after s.builder.graph = (s.run calls).1.builder.graph := by
  induction calls generalizing s with
  | nil => rfl
  | cons call calls ih =>
    have hcall := s.foldl_operations call
    rw [operationsAll, run, List.foldl_append, hcall]
    cases s.step call with
    | mk s' halt =>
      cases halt with
      | none => exact ih s'
      | some h => rfl

theorem foldl_finishOperations (b : MethodBuilder) :
    b.finishOperations.foldl Graph.after b.graph = b.finish.2 := by
  rw [finishOperations, finish]
  cases b.fallsThrough with
  | false => rfl
  | true =>
    refine (after_addEdge _ _ _ _).trans ?_
    rw [connected]
    cases b.graph.addEdge b.cursor b.methodReturn ⟨.cfg, {}⟩ <;> rfl

end MethodBuilder

/-! ## Actions -/

namespace Graph

/-- The graph that an action leaves. -/
def act (g : Graph) : Action → Graph
  | .operation op => g.after op
  | .apply d pool withInverse => (g.apply d pool withInverse).graph
  | .replay o => (o.applyTo g).1
  | .build name calls finished =>
    let b := MethodBuilder.build g name calls
    if finished then b.finished else b.graph

/-- The operations of a script, with those that clean up after a failure. -/
def scriptOperations (g : Graph) (d : Diff) (pool : Option KeyPool) : List Operation :=
  Progress.operationsAll { graph := g, pool } d.changes ++
    match Progress.applyAll { graph := g, pool } d.changes with
    | (_, none) => []
    | (p, some e) => if e = .overflow then [] else p.operationsEach p.inverse

/-- The operations that an action comes to. -/
def operations (g : Graph) : Action → List Operation
  | .operation op => [op]
  | .apply d pool _ => g.scriptOperations d pool
  | .replay o => g.scriptOperations o.toDiff none
  | .build name calls finished =>
    MethodBuilder.newOperations g name ++
      match (MethodBuilder.new g name).1 with
      | .error _ => []
      | .ok b =>
        MethodBuilder.Script.operationsAll { builder := b } calls ++
          match MethodBuilder.Script.run { builder := b } calls with
          | (s, none) => if finished then s.builder.finishOperations else []
          | (_, some _) => []

/-- The operations that actions come to, one after the other. -/
def trace (g : Graph) : List Action → List Operation
  | [] => []
  | a :: as => g.operations a ++ (g.act a).trace as

theorem foldl_scriptOperations (g : Graph) (d : Diff) (pool : Option KeyPool)
    (withInverse : Bool) :
    (g.scriptOperations d pool).foldl after g = (g.apply d pool withInverse).graph := by
  have hall := Progress.foldl_operationsAll { graph := g, pool } d.changes
  rw [scriptOperations, List.foldl_append, hall]
  cases h : Progress.applyAll { graph := g, pool } d.changes with
  | mk p error =>
    cases error with
    | none => rw [apply_of_applyAll_none h]; rfl
    | some e =>
      by_cases he : e = .overflow
      · subst he
        rw [apply_of_crash h]
        rfl
      · rw [apply_of_applyAll_some h he]
        dsimp only
        rw [if_neg he]
        exact p.foldl_operationsEach p.inverse

/-- The operations of an action lead to the graph that it leaves. -/
theorem foldl_operations (g : Graph) (a : Action) : (g.operations a).foldl after g = g.act a := by
  cases a with
  | operation op => rfl
  | apply d pool withInverse => exact g.foldl_scriptOperations d pool withInverse
  | replay o =>
    have hscript := g.foldl_scriptOperations o.toDiff none false
    rw [operations, hscript, act, Overlay.applyTo]
    cases (g.apply o.toDiff none false).result <;> rfl
  | build name calls finished =>
    have hnew := MethodBuilder.foldl_newOperations g name
    have hgraph := MethodBuilder.graph_of_new g name
    rw [operations, List.foldl_append, hnew, act, MethodBuilder.build]
    cases hmade : MethodBuilder.new g name with
    | mk outcome h =>
      rw [hmade] at hgraph
      cases outcome with
      | error e => cases finished <;> rfl
      | ok b =>
        obtain rfl : h = b.graph := hgraph b rfl
        have hcalls := MethodBuilder.Script.foldl_operationsAll { builder := b } calls
        dsimp only at hcalls ⊢
        rw [List.foldl_append, hcalls]
        cases MethodBuilder.Script.run { builder := b } calls with
        | mk s halt =>
          cases halt with
          | some halt => cases finished <;> rfl
          | none =>
            cases finished with
            | false => rfl
            | true => exact s.builder.foldl_finishOperations

theorem foldl_trace (g : Graph) (as : List Action) :
    (g.trace as).foldl after g = as.foldl act g := by
  induction as generalizing g with
  | nil => rfl
  | cons a as ih =>
    rw [trace, List.foldl_append, foldl_operations, List.foldl_cons]
    exact ih _

theorem trace_append (g : Graph) (as bs : List Action) :
    g.trace (as ++ bs) = g.trace as ++ (as.foldl act g).trace bs := by
  induction as generalizing g with
  | nil => rfl
  | cons a as ih => rw [List.cons_append, trace, trace, ih, List.append_assoc, List.foldl_cons]

end Graph

end CodeGraph
