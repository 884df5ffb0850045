import CodeGraph.MethodBuilder
import CodeGraph.Proofs.Pass.DefUse
import Mathlib

/-!
# What a call to a builder adds

A call to a builder takes nothing away.  `Graph.Grows` says of two graphs which nodes and edges the
second has and the first has not.  The ids of the nodes are the next ones of the allocator, so what
is left of those is known too.  Edges are listed in the order in which they were added, so what is
found at a node is known from this list.

All statements are made alike.  They differ in the kind of their node, in their arguments and in
whether they leave the method, which is their `Shape`.

`Script.Does` says what one call does when nothing stops it, and `Script.exists_does` that nothing
stops it where the nodes it names exist and ids are left for the new ones.  What holds of a builder
is derived from these two and the calls are not looked into again.
-/

namespace CodeGraph

/-! ## Graphs that grow -/

/-- An edge without properties. -/
def Link.plain (src dst : NodeId) (kind : EdgeKind) : Link := ⟨src, dst, ⟨kind, {}⟩⟩

/-- A graph with more nodes and edges, and otherwise unchanged.  The nodes and the edges are listed
in the order in which they were added. -/
structure Graph.Grows (g h : Graph) (nodes : List Node) (links : List Link) : Prop where
  wellFormed : h.WellFormed
  perm_allNodes : h.allNodes.Perm (nodes ++ g.allNodes)
  links_eq : h.links = links.reverse ++ g.links
  /-- The ids of the nodes are the next ones of the allocator. -/
  supply_eq : g.supply = nodes.map Node.id ++ h.supply

namespace Graph

variable {g h f : Graph} {nodes more : List Node} {links added : List Link} {id : NodeId} {n : Node}

theorem WellFormed.grows_nil (hg : g.WellFormed) : g.Grows g [] [] :=
  ⟨hg, .refl _, rfl, rfl⟩

namespace Grows

theorem trans (hgh : g.Grows h nodes links) (hhf : h.Grows f more added) :
    g.Grows f (nodes ++ more) (links ++ added) where
  wellFormed := hhf.wellFormed
  perm_allNodes := by
    refine hhf.perm_allNodes.trans ((hgh.perm_allNodes.append_left more).trans ?_)
    rw [← List.append_assoc]
    exact List.perm_append_comm.append_right _
  links_eq := by rw [hhf.links_eq, hgh.links_eq, List.reverse_append, List.append_assoc]
  supply_eq := by rw [hgh.supply_eq, hhf.supply_eq, List.map_append, List.append_assoc]

theorem length_supply_eq (hgh : g.Grows h nodes links) :
    g.supply.length = nodes.length + h.supply.length := by
  rw [hgh.supply_eq, List.length_append, List.length_map]

theorem nodeCount_eq (hgh : g.Grows h nodes links) :
    h.nodeCount = g.nodeCount + nodes.length := by
  have hlength := hgh.perm_allNodes.length_eq
  rw [List.length_append] at hlength
  exact hlength.trans (Nat.add_comm _ _)

theorem edgeCount_eq (hg : g.WellFormed) (hgh : g.Grows h nodes links) :
    h.edgeCount = g.edgeCount + links.length := by
  rw [hgh.wellFormed.edgeCount_eq, hg.edgeCount_eq, hgh.links_eq, List.length_append,
    List.length_reverse, Nat.add_comm]

/-- Every node of the larger graph is new or was there. -/
theorem node?_iff (hg : g.WellFormed) (hgh : g.Grows h nodes links) :
    h.node? id = some n ↔ (n ∈ nodes ∧ n.id = id) ∨ g.node? id = some n := by
  have hmem : h.node? n.id = some n ↔ n ∈ nodes ∨ g.node? n.id = some n := by
    rw [← hgh.wellFormed.mem_allNodes, ← hg.mem_allNodes, hgh.perm_allNodes.mem_iff,
      List.mem_append]
  by_cases hid : n.id = id
  · subst hid
    simpa using hmem
  · simp only [hid, and_false, false_or]
    exact ⟨fun hn => absurd (hgh.wellFormed.id_of_node? hn) hid,
      fun hn => absurd (hg.id_of_node? hn) hid⟩

theorem node?_of_node? (hg : g.WellFormed) (hgh : g.Grows h nodes links)
    (hn : g.node? id = some n) : h.node? id = some n :=
  (hgh.node?_iff hg).mpr (Or.inr hn)

theorem node?_of_mem (hg : g.WellFormed) (hgh : g.Grows h nodes links) (hn : n ∈ nodes) :
    h.node? n.id = some n :=
  (hgh.node?_iff hg).mpr (Or.inl ⟨hn, rfl⟩)

/-- A new node has an id of its own. -/
theorem node?_eq_none (hg : g.WellFormed) (hgh : g.Grows h nodes links) (hn : n ∈ nodes) :
    g.node? n.id = none := by
  have hnodup := (hgh.perm_allNodes.map Node.id).nodup_iff.mp hgh.wellFormed.nodup_ids
  rw [List.map_append] at hnodup
  rw [Option.eq_none_iff_forall_ne_some]
  intro m hm
  have hmid := hg.id_of_node? hm
  have hold : m ∈ g.allNodes := hg.mem_allNodes.mpr (hmid.symm ▸ hm)
  exact List.disjoint_of_nodup_append hnodup (List.mem_map_of_mem hn)
    (List.mem_map.mpr ⟨m, hold, hmid⟩)

theorem kind?_of_kind? {kind : NodeKind} (hg : g.WellFormed) (hgh : g.Grows h nodes links)
    (hkind : g.kind? id = some kind) : h.kind? id = some kind := by
  obtain ⟨n, hn, rfl⟩ := Option.map_eq_some_iff.mp hkind
  rw [kind?, hgh.node?_of_node? hg hn]
  rfl

theorem kind?_eq (hg : g.WellFormed) (hgh : g.Grows h nodes links) (hid : (g.node? id).isSome) :
    h.kind? id = g.kind? id := by
  obtain ⟨n, hn⟩ := Option.isSome_iff_exists.mp hid
  rw [kind?, kind?, hn, hgh.node?_of_node? hg hn]

theorem kind?_of_mem (hg : g.WellFormed) (hgh : g.Grows h nodes links) (hn : n ∈ nodes) :
    h.kind? n.id = some n.kind := by
  rw [kind?, hgh.node?_of_mem hg hn]
  rfl

theorem isSome_node? (hg : g.WellFormed) (hgh : g.Grows h nodes links)
    (hid : (g.node? id).isSome) : (h.node? id).isSome := by
  obtain ⟨n, hn⟩ := Option.isSome_iff_exists.mp hid
  rw [hgh.node?_of_node? hg hn]
  rfl

theorem isSome_of_mem (hg : g.WellFormed) (hgh : g.Grows h nodes links) (hn : n ∈ nodes) :
    (h.node? n.id).isSome :=
  Option.isSome_of_eq_some (hgh.node?_of_mem hg hn)

/-- The new edges at a node come after those that were there. -/
theorem outNeighbors_eq (hg : g.WellFormed) (hgh : g.Grows h nodes links) (id : NodeId)
    (kind : EdgeKind) : h.outNeighbors id kind = g.outNeighbors id kind ++
      (links.filter fun l => l.src = id ∧ l.edge.kind = kind).map Link.dst := by
  rw [hgh.wellFormed.reflects.outNeighbors, hg.reflects.outNeighbors, model, model, hgh.links_eq,
    List.reverse_append, List.reverse_reverse, List.filter_append, List.map_append]

/-- A node is left alone if no new edge of the kind leaves it. -/
theorem outNeighbors_of_forall (hg : g.WellFormed) (hgh : g.Grows h nodes links) {kind : EdgeKind}
    (hnone : ∀ l ∈ links, ¬ (l.src = id ∧ l.edge.kind = kind)) :
    h.outNeighbors id kind = g.outNeighbors id kind := by
  rw [hgh.outNeighbors_eq hg, List.filter_eq_nil_iff.mpr (by simpa using hnone), List.map_nil,
    List.append_nil]

/-- No edge leaves a node before it is there. -/
theorem outNeighbors_of_mem (hg : g.WellFormed) (hgh : g.Grows h nodes links) (hn : n ∈ nodes)
    (kind : EdgeKind) : h.outNeighbors n.id kind =
      (links.filter fun l => l.src = n.id ∧ l.edge.kind = kind).map Link.dst := by
  have hold : g.outNeighbors n.id kind = [] := by
    have hnode := hg.node?_eq_none_iff.mp (hgh.node?_eq_none hg hn)
    rw [outNeighbors, outLinks, hnode]
    rfl
  rw [hgh.outNeighbors_eq hg, hold, List.nil_append]

end Grows

/-! ## One node, one edge -/

theorem WellFormed.nodup_allNodes (hg : g.WellFormed) : g.allNodes.Nodup :=
  List.Nodup.of_map _ hg.nodup_ids

theorem WellFormed.perm_allNodes_place (hg : g.WellFormed) (hnew : g.node? n.id = none) :
    (g.place n).allNodes.Perm (n :: g.allNodes) := by
  have hnotMem : n ∉ g.allNodes := by
    rw [hg.mem_allNodes, hnew]
    exact (Option.some_ne_none n).symm
  refine (List.perm_ext_iff_of_nodup (hg.place hnew).nodup_allNodes
    (List.nodup_cons.mpr ⟨hnotMem, hg.nodup_allNodes⟩)).mpr fun m => ?_
  rw [(hg.place hnew).mem_allNodes, hg.node?_place, List.mem_cons, hg.mem_allNodes]
  by_cases hid : m.id = n.id
  · rw [if_pos hid, hid, hnew, Option.some.injEq, eq_comm]
    simp
  · have hne : m ≠ n := fun heq => hid (congrArg Node.id heq)
    simp [hid, hne]

/-- A node can be added as long as an id is left. -/
theorem WellFormed.grows_addNode (hg : g.WellFormed) (hroom : 1 ≤ g.supply.length)
    (kind : NodeKind) :
    ∃ id h, g.addNode kind {} = .ok (id, h) ∧ g.Grows h [⟨id, kind, {}⟩] [] := by
  obtain ⟨id, rest, hsupply⟩ := List.exists_cons_of_length_pos hroom
  have hid : g.node? id = none := hg.node?_of_mem_supply (hsupply ▸ List.mem_cons_self)
  obtain ⟨passed, hpassed⟩ : ∃ passed : Graph, passed = { g with nextId := id.value + 1 } :=
    ⟨_, rfl⟩
  have hshows : Shows passed g.node? g.links := hpassed ▸ hg.shows_withNextId (id.value + 1)
  have hnew : passed.node? (Node.mk id kind {}).id = none := hshows.node?_eq ▸ hid
  have hplaced := hshows.wellFormed.shows_place hnew
  refine ⟨id, passed.place ⟨id, kind, {}⟩, ?_, hplaced.wellFormed, ?_, ?_, ?_⟩
  · rw [addNode, allocate_of_supply hsupply, hpassed]
    rfl
  · have hperm := hshows.wellFormed.perm_allNodes_place hnew
    rw [hpassed] at hperm ⊢
    exact hperm
  · exact hplaced.links_eq.trans hshows.links_eq
  · rw [hsupply, supply_of_passed hsupply (h := passed.place ⟨id, kind, {}⟩)]
    · rfl
    · rw [hpassed]
      rfl
    · intro later hlater
      have hne : later ≠ id := fun heq => UInt64.lt_irrefl _ (heq ▸ hlater)
      rw [hplaced.wellFormed.contains_eq, hplaced.node?_eq, Function.update_of_ne hne,
        hshows.node?_eq, hg.contains_eq]

theorem WellFormed.grows_addEdge (hg : g.WellFormed) {src dst : NodeId} (kind : EdgeKind)
    (hsrc : (g.node? src).isSome) (hdst : (g.node? dst).isSome) :
    ∃ h, g.addEdge src dst ⟨kind, {}⟩ = .ok h ∧ g.Grows h [] [.plain src dst kind] := by
  obtain ⟨s, hs⟩ := Option.isSome_iff_exists.mp hsrc
  obtain ⟨d, hd⟩ := Option.isSome_iff_exists.mp hdst
  obtain ⟨h, hadd, _⟩ := hg.shows_addEdge hs hd ⟨kind, {}⟩
  have hextends := hg.extends_addEdge hadd
  refine ⟨h, hadd, hextends.wellFormed, ?_, hextends.links, ?_⟩
  · rw [allNodes, hextends.nodes]
    exact .refl _
  · have hcontains : h.contains = g.contains := by
      funext id
      rw [contains, contains, slot?, slot?, hextends.index]
    rw [supply, supply, hcontains, nextId_addEdge hadd]
    rfl

end Graph

/-! ## Statements -/

namespace MethodBuilder

/-- What tells one statement from another. -/
structure Shape where
  /-- The kind of its node. -/
  kind : NodeKind
  /-- The kinds of its arguments. -/
  arguments : List NodeKind := []
  /-- Whether it leaves the method. -/
  returns : Bool := false

/-- The shape of the statement that a call makes. -/
def Step.shape? : Step → Option Shape
  | .assignment target sources =>
    let value := if sources.isEmpty then "0" else " + ".intercalate sources
    some {
      kind := .call NodeKind.assignment (target ++ " = " ++ value)
      arguments := .identifier target 1 ::
        if sources.isEmpty then [.literal "0" 2] else identifiersFrom 2 sources }
  | .call name args =>
    some {
      kind := .call name (name ++ "(" ++ ", ".intercalate args ++ ")")
      arguments := identifiersFrom 1 args }
  | .control code => some { kind := .controlStructure code }
  | .ret (some var) =>
    some { kind := .ret ("return " ++ var), arguments := [.identifier var 1], returns := true }
  | .ret none => some { kind := .ret "return", returns := true }
  | .parameter _ | .moveTo _ | .link _ _ => none

/-- A statement of a shape after the cursor. -/
def append (b : MethodBuilder) (shape : Shape) : Except GraphError NodeId × MethodBuilder :=
  match b.statementWith shape.kind shape.arguments with
  | (.error e, b) => (.error e, b)
  | (.ok node, b) =>
    if shape.returns then
      (.ok node,
        { b with graph := connected b.graph node b.methodReturn .cfg, fallsThrough := false })
    else (.ok node, b)

variable {b : MethodBuilder} {s t : Script} {c : Step} {shape : Shape} {call : NodeId}

theorem append_of_not_returns (h : shape.returns = false) :
    b.append shape = b.statementWith shape.kind shape.arguments := by
  rw [append, h]
  cases b.statementWith shape.kind shape.arguments with
  | mk outcome b => cases outcome <;> rfl

theorem statementWith_nil (b : MethodBuilder) (kind : NodeKind) :
    b.statementWith kind [] = b.statement kind := by
  rw [statementWith]
  cases b.statement kind with
  | mk outcome b => cases outcome <;> rfl

/-- Every statement is made by its shape. -/
theorem step_of_shape? (h : c.shape? = some shape) :
    s.step c = s.noteNode (s.builder.append shape) := by
  cases c with
  | assignment target sources =>
    cases h
    rw [append_of_not_returns rfl]
    rfl
  | call name args =>
    cases h
    rw [append_of_not_returns rfl]
    rfl
  | control code =>
    cases h
    rw [append_of_not_returns rfl, statementWith_nil]
    rfl
  | ret var =>
    cases var <;> cases h <;> rfl
  | _ => cases h

/-! ## What one call does -/

/-- The nodes that a builder adds edges to exist. -/
structure Ready (b : MethodBuilder) : Prop where
  wellFormed : b.graph.WellFormed
  method : (b.graph.node? b.method).isSome
  block : (b.graph.node? b.block).isSome
  methodReturn : (b.graph.node? b.methodReturn).isSome
  cursor : (b.graph.node? b.cursor).isSome

/-- The edges from a statement to its arguments. -/
def argumentLinks (call : NodeId) (args : List Node) : List Link :=
  args.flatMap fun arg => [.plain call arg.id .ast, .plain call arg.id .argument]

/-- The edges that come with a statement. -/
def statementLinks (b : MethodBuilder) (shape : Shape) (node : NodeId) (args : List Node) :
    List Link :=
  .plain b.block node .ast :: .plain b.cursor node .cfg :: argumentLinks node args ++
    if shape.returns then [.plain node b.methodReturn .cfg] else []

theorem mem_argumentLinks {args : List Node} {l : Link} : l ∈ argumentLinks call args ↔
    ∃ arg ∈ args, l = .plain call arg.id .ast ∨ l = .plain call arg.id .argument := by
  simp [argumentLinks]

/-- Apart from control flow, an edge that comes with a statement leaves the statement or leads from
the block to it. -/
theorem src_of_mem_statementLinks {node : NodeId} {args : List Node} {l : Link}
    (hl : l ∈ b.statementLinks shape node args) (hkind : l.edge.kind ≠ .cfg) :
    l.src = node ∨ l.src = b.block ∧ l.edge.kind = .ast := by
  simp only [statementLinks, List.cons_append, List.mem_cons, List.mem_append, mem_argumentLinks]
    at hl
  rcases hl with rfl | rfl | ⟨arg, _, rfl | rfl⟩ | hret
  · exact Or.inr ⟨rfl, rfl⟩
  · exact absurd rfl hkind
  · exact Or.inl rfl
  · exact Or.inl rfl
  · split at hret
    · rw [List.mem_singleton.mp hret] at hkind
      exact absurd rfl hkind
    · cases hret

theorem grows_connected {g : Graph} (hg : g.WellFormed) {src dst : NodeId} (kind : EdgeKind)
    (hsrc : (g.node? src).isSome) (hdst : (g.node? dst).isSome) :
    g.Grows (connected g src dst kind) [] [.plain src dst kind] := by
  obtain ⟨h, hadd, hgrows⟩ := hg.grows_addEdge kind hsrc hdst
  rw [connected, hadd]
  exact hgrows

theorem exists_argument (hg : b.graph.WellFormed) (hroom : 1 ≤ b.graph.supply.length)
    (hcall : (b.graph.node? call).isSome) (kind : NodeKind) :
    ∃ arg h, b.argument call kind = (.ok (), { b with graph := h }) ∧
      b.graph.Grows h [⟨arg, kind, {}⟩] (argumentLinks call [⟨arg, kind, {}⟩]) := by
  obtain ⟨arg, h, hadd, hnode⟩ := hg.grows_addNode hroom kind
  have harg : (h.node? arg).isSome := hnode.isSome_of_mem hg List.mem_cons_self
  have hast := grows_connected hnode.wellFormed .ast (hnode.isSome_node? hg hcall) harg
  have hcalled := hast.isSome_node? hnode.wellFormed (hnode.isSome_node? hg hcall)
  have hargument := grows_connected hast.wellFormed .argument hcalled
    (hast.isSome_node? hnode.wellFormed harg)
  refine ⟨arg, _, ?_, (hnode.trans hast).trans hargument⟩
  rw [argument, hadd]

theorem exists_arguments (hg : b.graph.WellFormed) (hcall : (b.graph.node? call).isSome)
    (kinds : List NodeKind) (hroom : kinds.length ≤ b.graph.supply.length) :
    ∃ args h, b.arguments call kinds = (.ok (), { b with graph := h }) ∧
      args.map Node.kind = kinds ∧ b.graph.Grows h args (argumentLinks call args) := by
  induction kinds generalizing b with
  | nil => exact ⟨[], b.graph, rfl, rfl, hg.grows_nil⟩
  | cons kind kinds ih =>
    rw [List.length_cons] at hroom
    obtain ⟨arg, h, harg, hgrows⟩ := exists_argument hg (by omega) hcall kind
    have hleft := hgrows.length_supply_eq
    rw [List.length_singleton] at hleft
    obtain ⟨args, f, hargs, hkinds, hmore⟩ := ih (b := { b with graph := h }) hgrows.wellFormed
      (hgrows.isSome_node? hg hcall) (by dsimp only; omega)
    refine ⟨⟨arg, kind, {}⟩ :: args, f, ?_, by rw [List.map_cons, hkinds], hgrows.trans hmore⟩
    rw [arguments, harg]
    exact hargs

theorem exists_statement (hb : b.Ready) (hroom : 1 ≤ b.graph.supply.length)
    (kind : NodeKind) : ∃ node h,
      b.statement kind = (.ok node, { b with graph := h, cursor := node, fallsThrough := true }) ∧
      b.graph.Grows h [⟨node, kind, {}⟩] [.plain b.block node .ast, .plain b.cursor node .cfg] := by
  have hg := hb.wellFormed
  obtain ⟨node, h, hadd, hnode⟩ := hg.grows_addNode hroom kind
  have hmade : (h.node? node).isSome := hnode.isSome_of_mem hg List.mem_cons_self
  have hast := grows_connected hnode.wellFormed .ast (hnode.isSome_node? hg hb.block) hmade
  have hcursor := hast.isSome_node? hnode.wellFormed (hnode.isSome_node? hg hb.cursor)
  obtain ⟨f, hflow, hgrows⟩ := hast.wellFormed.grows_addEdge .cfg hcursor
    (hast.isSome_node? hnode.wellFormed hmade)
  refine ⟨node, f, ?_, (hnode.trans hast).trans hgrows⟩
  rw [statement, hadd]
  simp only [hflow]

theorem exists_append (hb : b.Ready)
    (hroom : 1 + shape.arguments.length ≤ b.graph.supply.length) :
    ∃ node args h, b.append shape =
        (.ok node, { b with graph := h, cursor := node, fallsThrough := !shape.returns }) ∧
      args.map Node.kind = shape.arguments ∧
      b.graph.Grows h (⟨node, shape.kind, {}⟩ :: args) (b.statementLinks shape node args) := by
  have hg := hb.wellFormed
  obtain ⟨node, h, hstatement, hgrows⟩ := exists_statement hb (by omega) shape.kind
  have hleft := hgrows.length_supply_eq
  rw [List.length_singleton] at hleft
  have hnode : (h.node? node).isSome := hgrows.isSome_of_mem hg List.mem_cons_self
  obtain ⟨args, f, hargs, hkinds, hmore⟩ := exists_arguments
    (b := { b with graph := h, cursor := node, fallsThrough := true }) hgrows.wellFormed hnode
    shape.arguments (by dsimp only; omega)
  have hboth := hgrows.trans hmore
  cases hreturns : shape.returns with
  | false =>
    refine ⟨node, args, f, ?_, hkinds, ?_⟩
    · simp only [append, statementWith, hstatement, hargs, hreturns]
      rfl
    · simpa [statementLinks, hreturns] using hboth
  | true =>
    have hreturn := grows_connected hmore.wellFormed .cfg
      (hmore.isSome_node? hgrows.wellFormed hnode)
      (hboth.isSome_node? hg hb.methodReturn)
    refine ⟨node, args, connected f node b.methodReturn .cfg, ?_, hkinds, ?_⟩
    · simp only [append, statementWith, hstatement, hargs, hreturns]
      rfl
    · simpa [statementLinks, hreturns] using hboth.trans hreturn

/-- The number of nodes that a call makes. -/
def Step.nodeCount : Step → Nat
  | .parameter _ => 1
  | .assignment _ sources => 2 + max 1 sources.length
  | .call _ args => 1 + args.length
  | .control _ => 1
  | .ret var => 1 + var.toList.length
  | .moveTo _ | .link _ _ => 0

/-- The number of edges that a call adds. -/
def Step.edgeCount : Step → Nat
  | .parameter _ => 1
  | .assignment _ sources => 2 + 2 * (1 + max 1 sources.length)
  | .call _ args => 2 + 2 * args.length
  | .control _ => 2
  | .ret var => 2 + 2 * var.toList.length + 1
  | .moveTo _ => 0
  | .link _ _ => 1

theorem length_identifiersFrom (i : Nat) (names : List String) :
    (identifiersFrom i names).length = names.length := by
  induction names generalizing i with
  | nil => rfl
  | cons name names ih => simp [identifiersFrom, ih]

theorem length_argumentLinks (call : NodeId) (args : List Node) :
    (argumentLinks call args).length = 2 * args.length := by
  simp [argumentLinks, Nat.mul_comm]

theorem Step.nodeCount_of_shape? (h : c.shape? = some shape) :
    c.nodeCount = 1 + shape.arguments.length := by
  cases c with
  | assignment target sources =>
    cases h
    cases sources with
    | nil => rfl
    | cons source sources =>
      simp [nodeCount, length_identifiersFrom]
      omega
  | call name args =>
    cases h
    simp [nodeCount, length_identifiersFrom]
  | control code => cases h; rfl
  | ret var => cases var <;> cases h <;> rfl
  | _ => cases h

theorem Step.edgeCount_of_shape? {node : NodeId} {args : List Node} (h : c.shape? = some shape)
    (hargs : args.map Node.kind = shape.arguments) :
    (b.statementLinks shape node args).length = c.edgeCount := by
  have hlength : args.length = shape.arguments.length := by rw [← hargs, List.length_map]
  simp only [statementLinks, List.length_append, List.length_cons, length_argumentLinks, hlength]
  cases c with
  | assignment target sources =>
    cases h
    cases sources with
    | nil => rfl
    | cons source sources =>
      simp [edgeCount, length_identifiersFrom]
      omega
  | call name args =>
    cases h
    simp [edgeCount, length_identifiersFrom]
    omega
  | control code => cases h; rfl
  | ret var => cases var <;> cases h <;> rfl
  | _ => cases h

/-- The places that a call names. -/
def Step.places : Step → List Place
  | .moveTo place => [place]
  | .link src dst => [src, dst]
  | _ => []

/-- Whether a place names a node of the graph. -/
def Place.isThere (s : Script) (place : Place) : Bool :=
  match place.resolve s.mades with
  | .ok node => (s.builder.graph.node? node).isSome
  | .error _ => false

namespace Script

/-- Whether every place that some calls name is there when its call is made. -/
def targetsExist (s : Script) : List Step → Bool
  | [] => true
  | c :: calls => c.places.all (·.isThere s) && (s.step c).1.targetsExist calls

/-- What a call does when nothing stops it. -/
inductive Does (s : Script) : Step → Script → Prop
  | parameter {name : String} {id : NodeId} {h : Graph} :
      s.builder.graph.Grows h [⟨id, .parameter name (UInt32.ofNat s.builder.params.length), {}⟩]
        [.plain s.builder.method id .ast] →
      Does s (.parameter name)
        (s.note (.node id) { s.builder with graph := h, params := s.builder.params ++ [id] })
  | statement {c : Step} {shape : Shape} {node : NodeId} {args : List Node} {h : Graph} :
      c.shape? = some shape → args.map Node.kind = shape.arguments →
      s.builder.graph.Grows h (⟨node, shape.kind, {}⟩ :: args)
        (s.builder.statementLinks shape node args) →
      Does s c (s.note (.node node)
        { s.builder with graph := h, cursor := node, fallsThrough := !shape.returns })
  | moveTo {place : Place} {node : NodeId} :
      place.resolve s.mades = .ok node → (s.builder.graph.node? node).isSome →
      Does s (.moveTo place) (s.note .nothing { s.builder with cursor := node })
  | link {src dst : Place} {source target : NodeId} {h : Graph} :
      src.resolve s.mades = .ok source → dst.resolve s.mades = .ok target →
      s.builder.graph.Grows h [] [.plain source target .cfg] →
      Does s (.link src dst) (s.note .nothing { s.builder with graph := h })

theorem exists_resolve {place : Place} (h : place.isThere s = true) :
    ∃ node, place.resolve s.mades = .ok node ∧ (s.builder.graph.node? node).isSome := by
  unfold Place.isThere at h
  split at h
  · rename_i node hnode
    exact ⟨node, hnode, h⟩
  · cases h

theorem exists_parameter (hs : s.builder.Ready) (hroom : 1 ≤ s.builder.graph.supply.length)
    (name : String) : ∃ t, s.step (.parameter name) = (t, none) ∧ s.Does (.parameter name) t := by
  have hg := hs.wellFormed
  obtain ⟨id, h, hadd, hnode⟩ := hg.grows_addNode hroom
    (.parameter name (UInt32.ofNat s.builder.params.length))
  have hmade : (h.node? id).isSome := hnode.isSome_of_mem hg List.mem_cons_self
  have hast := grows_connected hnode.wellFormed .ast (hnode.isSome_node? hg hs.method) hmade
  refine ⟨_, ?_, .parameter (hnode.trans hast)⟩
  simp only [step, MethodBuilder.parameter, hadd, noteNode]

/-- Where ids are left and the nodes that it names exist, nothing stops a call. -/
theorem exists_does (hs : s.builder.Ready)
    (hroom : c.nodeCount ≤ s.builder.graph.supply.length)
    (hthere : c.places.all (·.isThere s) = true) :
    ∃ t, s.step c = (t, none) ∧ s.Does c t := by
  cases hshape : c.shape? with
  | some shape =>
    rw [Step.nodeCount_of_shape? hshape] at hroom
    obtain ⟨node, args, h, hmade, hkinds, hgrows⟩ := exists_append hs hroom
    refine ⟨_, ?_, .statement hshape hkinds hgrows⟩
    rw [step_of_shape? hshape, hmade]
    rfl
  | none =>
    cases c with
    | parameter name => exact exists_parameter hs hroom name
    | moveTo place =>
      simp only [Step.places, List.all_cons, List.all_nil, Bool.and_true] at hthere
      obtain ⟨node, hresolve, hnode⟩ := exists_resolve hthere
      refine ⟨_, ?_, .moveTo hresolve hnode⟩
      simp only [step, hresolve]
      rfl
    | link src dst =>
      simp only [Step.places, List.all_cons, List.all_nil, Bool.and_true,
        Bool.and_eq_true] at hthere
      obtain ⟨source, hsource, hsrc⟩ := exists_resolve hthere.1
      obtain ⟨target, htarget, hdst⟩ := exists_resolve hthere.2
      obtain ⟨h, hadd, hgrows⟩ := hs.wellFormed.grows_addEdge .cfg hsrc hdst
      refine ⟨_, ?_, .link hsource htarget hgrows⟩
      simp only [step, hsource, htarget, MethodBuilder.link, hadd]
    | assignment target sources => cases hshape
    | call name args => cases hshape
    | control code => cases hshape
    | ret var => cases var <;> cases hshape

/-- A call adds as many nodes and edges as it is said to.  Edges to arguments leave new nodes. -/
theorem Does.grows (hs : s.builder.Ready) (h : s.Does c t) : ∃ nodes links,
    s.builder.graph.Grows t.builder.graph nodes links ∧ nodes.length = c.nodeCount ∧
      links.length = c.edgeCount ∧
      ∀ l ∈ links, l.edge.kind = .argument → s.builder.graph.node? l.src = none := by
  cases h with
  | parameter hgrows => exact ⟨_, _, hgrows, rfl, rfl, by simp [Link.plain]⟩
  | @statement _ shape node args h hshape hargs hgrows =>
    refine ⟨_, _, hgrows, ?_, Step.edgeCount_of_shape? hshape hargs, ?_⟩
    · rw [Step.nodeCount_of_shape? hshape, ← hargs, List.length_map, List.length_cons, Nat.add_comm]
    · intro l hl hkind
      rcases src_of_mem_statementLinks hl (by rw [hkind]; decide) with hsrc | ⟨_, hast⟩
      · rw [hsrc]
        exact hgrows.node?_eq_none hs.wellFormed List.mem_cons_self
      · rw [hkind] at hast
        cases hast
  | moveTo _ _ => exact ⟨[], [], hs.wellFormed.grows_nil, rfl, rfl, by simp⟩
  | link _ _ hgrows => exact ⟨_, _, hgrows, rfl, rfl, by simp [Link.plain]⟩

theorem Does.ready (hs : s.builder.Ready) (h : s.Does c t) : t.builder.Ready := by
  have hg := hs.wellFormed
  have hready : ∀ {h nodes links}, s.builder.graph.Grows h nodes links → ∀ cursor,
      (h.node? cursor).isSome → ∀ params fallsThrough,
      Ready { s.builder with graph := h, params, cursor, fallsThrough } := by
    intro h nodes links hgrows cursor hcursor params fallsThrough
    exact ⟨hgrows.wellFormed, hgrows.isSome_node? hg hs.method, hgrows.isSome_node? hg hs.block,
      hgrows.isSome_node? hg hs.methodReturn, hcursor⟩
  cases h with
  | parameter hgrows => exact hready hgrows _ (hgrows.isSome_node? hg hs.cursor) _ _
  | statement _ _ hgrows =>
    exact hready hgrows _ (hgrows.isSome_of_mem hg List.mem_cons_self) _ _
  | moveTo _ hnode => exact hready hg.grows_nil _ hnode _ _
  | link _ _ hgrows => exact hready hgrows _ (hgrows.isSome_node? hg hs.cursor) _ _

/-- Calls one after the other, when nothing stops them. -/
inductive DoesAll : Script → List Step → Script → Prop
  | nil (s : Script) : DoesAll s [] s
  | cons {s t u : Script} {c : Step} {calls : List Step} :
      s.Does c t → DoesAll t calls u → DoesAll s (c :: calls) u

theorem exists_doesAll {calls : List Step} (hs : s.builder.Ready)
    (hroom : (calls.map Step.nodeCount).sum ≤ s.builder.graph.supply.length)
    (hthere : s.targetsExist calls = true) :
    ∃ t, s.run calls = (t, none) ∧ s.DoesAll calls t := by
  induction calls generalizing s with
  | nil => exact ⟨s, rfl, .nil s⟩
  | cons c calls ih =>
    rw [List.map_cons, List.sum_cons] at hroom
    rw [targetsExist, Bool.and_eq_true] at hthere
    obtain ⟨t, hstep, hdoes⟩ := exists_does hs (c := c) (by omega) hthere.1
    obtain ⟨nodes, links, hgrows, hnodes, _, _⟩ := hdoes.grows hs
    have hleft := hgrows.length_supply_eq
    rw [hstep] at hthere
    obtain ⟨u, hrun, hall⟩ := ih (hdoes.ready hs) (by omega) hthere.2
    refine ⟨u, ?_, .cons hdoes hall⟩
    rw [run, hstep]
    exact hrun

theorem DoesAll.of_append {calls more : List Step} (h : s.DoesAll (calls ++ more) t) :
    ∃ u, s.DoesAll calls u ∧ u.DoesAll more t := by
  induction calls generalizing s with
  | nil => exact ⟨s, .nil s, h⟩
  | cons c calls ih =>
    cases h with
    | cons hdoes hrest =>
      obtain ⟨u, hfirst, hmore⟩ := ih hrest
      exact ⟨u, .cons hdoes hfirst, hmore⟩

/-- What every call keeps holds after all calls. -/
theorem DoesAll.induction {P : List Step → Script → Prop}
    (hstep : ∀ {past s c t}, s.builder.Ready → s.Does c t → P past s → P (past ++ [c]) t)
    {past calls : List Step} (h : s.DoesAll calls t) (hs : s.builder.Ready) (hP : P past s) :
    t.builder.Ready ∧ P (past ++ calls) t := by
  induction h generalizing past with
  | nil s => exact ⟨hs, by rwa [List.append_nil]⟩
  | @cons s t u c calls hdoes _ ih =>
    have hnext := ih (hdoes.ready hs) (hstep hs hdoes hP)
    rwa [List.append_assoc, List.singleton_append] at hnext

end Script

/-! ## The first and the last call -/

theorem exists_new {g : Graph} (hg : g.WellFormed) (hroom : 3 ≤ g.supply.length)
    (name : String) : ∃ method block exit h,
      new g name = (.ok ⟨h, method, block, exit, [], method, false⟩, h) ∧
      g.Grows h [⟨method, .method name name, {}⟩, ⟨block, .block, {}⟩, ⟨exit, .methodReturn, {}⟩]
        [.plain method block .ast, .plain method exit .ast] := by
  obtain ⟨method, g₁, hadd₁, h₁⟩ := hg.grows_addNode (by omega) (.method name name)
  have hleft₁ := h₁.length_supply_eq
  rw [List.length_singleton] at hleft₁
  obtain ⟨block, g₂, hadd₂, h₂⟩ := h₁.wellFormed.grows_addNode (by omega) .block
  have hleft₂ := h₂.length_supply_eq
  rw [List.length_singleton] at hleft₂
  obtain ⟨exit, g₃, hadd₃, h₃⟩ := h₂.wellFormed.grows_addNode (by omega) .methodReturn
  have hnodes := (h₁.trans h₂).trans h₃
  have hmade : ∀ n ∈ ([⟨method, .method name name, {}⟩, ⟨block, .block, {}⟩,
      ⟨exit, .methodReturn, {}⟩] : List Node), (g₃.node? n.id).isSome :=
    fun n hn => hnodes.isSome_of_mem hg hn
  simp only [List.forall_mem_cons] at hmade
  obtain ⟨hmethod, hblock, hexit, _⟩ := hmade
  have h₄ := grows_connected hnodes.wellFormed .ast hmethod hblock
  have h₅ := grows_connected h₄.wellFormed .ast (h₄.isSome_node? hnodes.wellFormed hmethod)
    (h₄.isSome_node? hnodes.wellFormed hexit)
  refine ⟨method, block, exit, _, ?_, (hnodes.trans h₄).trans h₅⟩
  simp only [new, hadd₁, hadd₂, hadd₃]

theorem exists_finish (hb : b.Ready) : ∃ h,
    b.finish = (.ok ⟨b.method, b.params, b.methodReturn⟩, h) ∧
      b.graph.Grows h []
        (if b.fallsThrough then [.plain b.cursor b.methodReturn .cfg] else []) := by
  cases hfalls : b.fallsThrough with
  | false =>
    refine ⟨b.graph, ?_, hb.wellFormed.grows_nil⟩
    simp [finish, hfalls]
  | true =>
    obtain ⟨h, hadd, hgrows⟩ := hb.wellFormed.grows_addEdge .cfg hb.cursor hb.methodReturn
    refine ⟨h, ?_, hgrows⟩
    simp [finish, hfalls, hadd]

end MethodBuilder

end CodeGraph
