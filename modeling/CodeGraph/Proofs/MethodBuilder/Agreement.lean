import CodeGraph.Proofs.DataFlow.Equations
import CodeGraph.Proofs.DataFlow.Parameters
import CodeGraph.Proofs.MethodBuilder.Growth
import Mathlib

/-!
# Builders and reaching definitions

A builder is told which variable an assignment sets and which variables a statement reads.  The
analysis does not know of builders.  It reads the same off the kinds of nodes and off the positions
of arguments.  Here the two are compared.

`Stands` says how the node of a call looks.  A later call may add a control-flow edge at any node,
but no argument and no child of the method, so the node keeps this look (`Laid`).

Parameters and arguments are numbered by 32 bits, as the slots of a graph are.  So a graph that fits
into its slots has no number twice, and to sort by numbers is to keep the order of the calls.
-/

namespace CodeGraph

open DataFlow (FlowGraph ReachingDefs)

/-! ## Arguments in their order -/

theorem filterMap_of_map_eq {α β : Type} {f : α → Option β} {as : List α} {bs : List β}
    (h : as.map f = bs.map some) : as.filterMap f = bs := by
  have hmap : as.filterMap f = (as.map f).filterMap id := by
    rw [List.filterMap_map]
    rfl
  rw [hmap, h, List.filterMap_map]
  exact List.filterMap_some

namespace Graph

variable {g h : Graph} {nodes : List Node} {links : List Link} {id : NodeId}

/-- The position by which arguments are ordered. -/
def rank (kind : NodeKind) : UInt32 := kind.argumentIndex?.getD 0xFFFFFFFF

/-- Arguments that were added in their order are listed in it. -/
theorem map_kind_arguments {kinds : List NodeKind}
    (hkinds : (g.outNeighbors id .argument).map g.kind? = kinds.map some)
    (hsorted : kinds.Pairwise fun a b => rank a ≤ rank b) :
    (g.arguments id).map Node.kind = kinds := by
  have hnodes : ((g.outNeighbors id .argument).filterMap g.node?).map Node.kind = kinds := by
    rw [List.map_filterMap]
    exact filterMap_of_map_eq hkinds
  rw [← hnodes, List.pairwise_map] at hsorted
  rw [arguments, List.mergeSort_of_pairwise, hnodes]
  refine hsorted.imp fun {a b} hab => ?_
  exact decide_eq_true hab

/-- Nodes keep their kinds when a graph grows. -/
theorem Grows.map_kind? {ids : List NodeId} {kinds : List NodeKind} (hg : g.WellFormed)
    (hgh : g.Grows h nodes links) (hkinds : ids.map g.kind? = kinds.map some) :
    ids.map h.kind? = kinds.map some := by
  rw [← hkinds]
  refine List.map_congr_left fun id hid => ?_
  have hmem : g.kind? id ∈ kinds.map some := hkinds ▸ List.mem_map_of_mem hid
  obtain ⟨kind, _, hkind⟩ := List.mem_map.mp hmem
  rw [← hkind]
  exact hgh.kind?_of_kind? hg hkind.symm

end Graph

namespace MethodBuilder

variable {g h : Graph} {b : MethodBuilder} {s t : Script} {c : Step} {shape : Shape}
  {id : NodeId} {name : String} {past : List Step}

theorem mem_identifiersFrom {kind : NodeKind} {i : Nat} {names : List String}
    (hkind : kind ∈ identifiersFrom i names) :
    ∃ name j, kind = .identifier name (UInt32.ofNat j) ∧ i ≤ j ∧ j < i + names.length := by
  induction names generalizing i with
  | nil => cases hkind
  | cons name names ih =>
    rw [List.length_cons]
    rcases List.mem_cons.mp hkind with rfl | hkind
    · exact ⟨name, i, rfl, Nat.le_refl i, by omega⟩
    · obtain ⟨name, j, rfl, hi, hj⟩ := ih hkind
      exact ⟨name, j, rfl, by omega, by omega⟩

theorem pairwise_identifiersFrom {i : Nat} {names : List String}
    (hroom : i + names.length ≤ UInt32.size) :
    (identifiersFrom i names).Pairwise fun a b => Graph.rank a ≤ Graph.rank b := by
  induction names generalizing i with
  | nil => exact List.Pairwise.nil
  | cons name names ih =>
    rw [List.length_cons] at hroom
    refine List.pairwise_cons.mpr ⟨fun kind hkind => ?_, ih (by omega)⟩
    obtain ⟨name, j, rfl, hi, hj⟩ := mem_identifiersFrom hkind
    change UInt32.ofNat i ≤ UInt32.ofNat j
    rw [UInt32.le_iff_toNat_le, UInt32.toNat_ofNat_of_lt' (by omega),
      UInt32.toNat_ofNat_of_lt' (by omega)]
    omega

/-! ## The node of a call -/

/-- The node of a call looks as the call says. -/
inductive Stands (g : Graph) : Step → Made → Prop
  | parameter {name : String} {order : UInt32} {id : NodeId} :
      g.kind? id = some (.parameter name order) → Stands g (.parameter name) (.node id)
  | statement {c : Step} {shape : Shape} {id : NodeId} :
      c.shape? = some shape → g.kind? id = some shape.kind →
      (g.outNeighbors id .argument).map g.kind? = shape.arguments.map some →
      Stands g c (.node id)
  | moveTo (place : Place) : Stands g (.moveTo place) .nothing
  | link (src dst : Place) : Stands g (.link src dst) .nothing

/-- A node keeps its look while new arguments are those of new nodes. -/
theorem Stands.of_grows {nodes : List Node} {links : List Link} {made : Made} (hg : g.WellFormed)
    (hgh : g.Grows h nodes links)
    (hnew : ∀ l ∈ links, l.edge.kind = .argument → g.node? l.src = none)
    (hstands : Stands g c made) : Stands h c made := by
  cases hstands with
  | parameter hkind => exact .parameter (hgh.kind?_of_kind? hg hkind)
  | statement hshape hkind hargs =>
    refine .statement hshape (hgh.kind?_of_kind? hg hkind) ?_
    rw [hgh.outNeighbors_of_forall hg]
    · exact hgh.map_kind? hg hargs
    · rintro l hl ⟨rfl, hargument⟩
      rw [Graph.kind?, hnew l hl hargument] at hkind
      cases hkind
  | moveTo place => exact .moveTo place
  | link src dst => exact .link src dst

/-- The variable that the node of a call defines, and the variables that it uses.  Nothing is said
of a call that makes no node, and of one that passes itself off as an assignment. -/
def Step.reported? : Step → Option (Option String × List String)
  | .parameter name => some (some name, [])
  | .assignment target sources => some (some target, sources)
  | .call name args => if name = NodeKind.assignment then none else some (none, args)
  | .control _ => some (none, [])
  | .ret var => some (none, var.toList)
  | .moveTo _ | .link _ _ => none

open DataFlow.ReachingDefs (identifier? target? source? definition? usesOf)

/-- A node of a kind. -/
def nodeOf (kind : NodeKind) : Node := ⟨default, kind, {}⟩

/-- What is read off the arguments of a node depends on their kinds. -/
theorem filterMap_arguments {kinds : List NodeKind} {f : Node → Option String}
    (hf : ∀ n, f n = f (nodeOf n.kind)) (hkinds : (g.arguments id).map Node.kind = kinds) :
    (g.arguments id).filterMap f = kinds.filterMap fun kind => f (nodeOf kind) := by
  rw [← hkinds, List.filterMap_map]
  exact List.filterMap_congr fun n _ => hf n

theorem filterMap_identifier? (i : Nat) (names : List String) :
    (identifiersFrom i names).filterMap (fun kind => identifier? (nodeOf kind)) = names := by
  induction names generalizing i with
  | nil => rfl
  | cons name names ih =>
    rw [identifiersFrom, List.filterMap_cons]
    exact congrArg (name :: ·) (ih (i + 1))

theorem ofNat_ne_one {i : Nat} (hi : 2 ≤ i) (hsize : i < UInt32.size) : UInt32.ofNat i ≠ 1 := by
  intro heq
  have hnat := congrArg UInt32.toNat heq
  rw [UInt32.toNat_ofNat_of_lt' hsize] at hnat
  change i = 1 at hnat
  omega

theorem filterMap_target? {i : Nat} {names : List String} (hi : 2 ≤ i)
    (hroom : i + names.length ≤ UInt32.size) :
    (identifiersFrom i names).filterMap (fun kind => target? (nodeOf kind)) = [] := by
  rw [List.filterMap_eq_nil_iff]
  intro kind hkind
  obtain ⟨name, j, rfl, hle, hlt⟩ := mem_identifiersFrom hkind
  exact if_neg (ofNat_ne_one (by omega) (by omega))

theorem filterMap_source? {i : Nat} {names : List String} (hi : 2 ≤ i)
    (hroom : i + names.length ≤ UInt32.size) :
    (identifiersFrom i names).filterMap (fun kind => source? (nodeOf kind)) = names := by
  refine (List.filterMap_congr fun kind hkind => ?_).trans (filterMap_identifier? i names)
  obtain ⟨name, j, rfl, hle, hlt⟩ := mem_identifiersFrom hkind
  exact if_neg (ofNat_ne_one (by omega) (by omega))

/-- The arguments of a statement are in order. -/
theorem pairwise_arguments (hshape : c.shape? = some shape) (hroom : c.nodeCount ≤ UInt32.size) :
    shape.arguments.Pairwise fun a b => Graph.rank a ≤ Graph.rank b := by
  cases c with
  | assignment target sources =>
    cases hshape
    rw [Step.nodeCount] at hroom
    cases sources with
    | nil =>
      refine List.pairwise_cons.mpr ⟨fun kind hkind => ?_, List.pairwise_singleton _ _⟩
      rw [List.mem_singleton.mp hkind]
      change (1 : UInt32) ≤ 2
      decide
    | cons source sources =>
      have hfits : 2 + (source :: sources).length ≤ UInt32.size := by
        rw [List.length_cons] at hroom ⊢
        omega
      have hsources := pairwise_identifiersFrom hfits
      refine List.pairwise_cons.mpr ⟨fun kind hkind => ?_, hsources⟩
      obtain ⟨name, j, rfl, hle, hlt⟩ := mem_identifiersFrom hkind
      rw [List.length_cons] at hroom hlt
      change (1 : UInt32) ≤ UInt32.ofNat j
      rw [UInt32.le_iff_toNat_le, UInt32.toNat_ofNat_of_lt' (by omega)]
      change 1 ≤ j
      omega
  | call name args =>
    cases hshape
    exact pairwise_identifiersFrom hroom
  | control code => cases hshape; exact List.Pairwise.nil
  | ret var =>
    cases var with
    | none => cases hshape; exact List.Pairwise.nil
    | some var => cases hshape; exact List.pairwise_singleton _ _
  | _ => cases hshape

/-- Apart from its target, an assignment reads its arguments. -/
theorem filterMap_assignment (target : String) {sources : List String}
    (hroom : 2 + sources.length ≤ UInt32.size) :
    let kinds := .identifier target 1 ::
      if sources.isEmpty then [.literal "0" 2] else identifiersFrom 2 sources
    kinds.filterMap (fun kind => target? (nodeOf kind)) = [target] ∧
      kinds.filterMap (fun kind => source? (nodeOf kind)) = sources := by
  cases sources with
  | nil => exact ⟨rfl, rfl⟩
  | cons source sources =>
    exact ⟨congrArg (target :: ·) (filterMap_target? (Nat.le_refl 2) hroom),
      filterMap_source? (Nat.le_refl 2) hroom⟩

/-- The analysis finds at the node of a call what the builder was told. -/
theorem Stands.reports {defined : Option String} {used : List String}
    (hstands : Stands g c (.node id)) (hroom : c.nodeCount ≤ UInt32.size)
    (hreported : c.reported? = some (defined, used)) :
    definition? g id = defined ∧ usesOf g id = used := by
  cases hstands with
  | parameter hkind =>
    cases hreported
    simp [definition?, usesOf, hkind]
  | statement hshape hkind hargs =>
    have harguments := Graph.map_kind_arguments hargs (pairwise_arguments hshape hroom)
    have hread : ∀ f : Node → Option String, (∀ n, f n = f (nodeOf n.kind)) →
        (g.arguments id).filterMap f = _ := fun f hf => filterMap_arguments hf harguments
    cases c with
    | assignment target sources =>
      cases hshape
      obtain ⟨rfl, rfl⟩ := Prod.mk.inj (Option.some.inj hreported)
      have hfits : 2 + sources.length ≤ UInt32.size := by
        rw [Step.nodeCount] at hroom
        omega
      obtain ⟨htarget, hsources⟩ := filterMap_assignment target hfits
      simp only [definition?, usesOf, hkind, if_true, hread target? fun _ => rfl,
        hread source? fun _ => rfl]
      rw [htarget, hsources]
      exact ⟨rfl, rfl⟩
    | call name args =>
      cases hshape
      rw [Step.reported?] at hreported
      split at hreported
      · cases hreported
      · rename_i hname
        obtain ⟨rfl, rfl⟩ := Prod.mk.inj (Option.some.inj hreported)
        simp only [definition?, usesOf, hkind, if_neg hname, hread identifier? fun _ => rfl]
        exact ⟨trivial, filterMap_identifier? 1 args⟩
    | control code =>
      cases hshape
      cases hreported
      simp only [definition?, usesOf, hkind, hread identifier? fun _ => rfl]
      exact ⟨trivial, rfl⟩
    | ret var =>
      cases hreported
      cases var <;> cases hshape <;>
        simp only [definition?, usesOf, hkind, hread identifier? fun _ => rfl] <;>
        exact ⟨trivial, rfl⟩
    | _ => cases hshape

/-! ## Methods under construction -/

/-- The name of the parameter that a call makes. -/
def Step.parameter? : Step → Option String
  | .parameter name => some name
  | _ => none

/-- The node of a call that makes a parameter. -/
def declared? : Step × Made → Option NodeId
  | (.parameter _, .node id) => some id
  | _ => none

/-- The nodes of the calls that make parameters, in the order of the calls. -/
def declared (calls : List Step) (mades : List Made) : List NodeId :=
  (calls.zip mades).filterMap declared?

/-- How a method under construction looks after some calls. -/
structure Laid (name : String) (past : List Step) (s : Script) : Prop where
  method : s.builder.graph.kind? s.builder.method = some (.method name name)
  block : s.builder.graph.kind? s.builder.block = some .block
  methodReturn : s.builder.graph.kind? s.builder.methodReturn = some .methodReturn
  children : s.builder.graph.outNeighbors s.builder.method .ast =
    s.builder.block :: s.builder.methodReturn :: s.builder.params
  params : s.builder.params.map s.builder.graph.kind? =
    ((past.filterMap Step.parameter?).mapIdx fun i name =>
      NodeKind.parameter name (UInt32.ofNat i)).map some
  stands : List.Forall₂ (Stands s.builder.graph) past s.mades
  declared : declared past s.mades = s.builder.params

namespace Laid

/-- The calls and what they made go together. -/
theorem length_mades (hl : Laid name past s) : s.mades.length = past.length :=
  hl.stands.length_eq.symm

theorem length_params (hl : Laid name past s) :
    s.builder.params.length = (past.filterMap Step.parameter?).length := by
  have hlength := congrArg List.length hl.params
  rwa [List.length_map, List.length_map, List.length_mapIdx] at hlength

theorem method_ne_block (hl : Laid name past s) : s.builder.method ≠ s.builder.block := by
  intro heq
  have hmethod := hl.method
  rw [heq, hl.block] at hmethod
  cases hmethod

/-- The children of the method are added to by parameters only. -/
theorem children_does (hs : s.builder.Ready) (hdoes : s.Does c t) (hl : Laid name past s) :
    t.builder.graph.outNeighbors t.builder.method .ast =
      t.builder.block :: t.builder.methodReturn :: t.builder.params := by
  have hg := hs.wellFormed
  cases hdoes with
  | parameter hgrows =>
    dsimp only [Script.note]
    rw [hgrows.outNeighbors_eq hg, hl.children]
    simp [Link.plain]
  | statement _ _ hgrows =>
    dsimp only [Script.note]
    rw [hgrows.outNeighbors_of_forall hg, hl.children]
    rintro l hlink ⟨hsrc, hkind⟩
    rcases src_of_mem_statementLinks hlink (by rw [hkind]; decide) with hnode | ⟨hblock, _⟩
    · have hnew := hgrows.node?_eq_none hg List.mem_cons_self
      have hmethod := hl.method
      rw [Graph.kind?, ← hsrc, hnode, hnew] at hmethod
      cases hmethod
    · exact hl.method_ne_block (hsrc.symm.trans hblock)
  | moveTo _ _ => exact hl.children
  | link _ _ hgrows =>
    dsimp only [Script.note]
    rw [hgrows.outNeighbors_of_forall hg, hl.children]
    simp [Link.plain]

theorem params_does (hs : s.builder.Ready) (hdoes : s.Does c t) (hl : Laid name past s) :
    t.builder.params.map t.builder.graph.kind? =
      (((past ++ [c]).filterMap Step.parameter?).mapIdx fun i name =>
        NodeKind.parameter name (UInt32.ofNat i)).map some := by
  have hg := hs.wellFormed
  rw [List.filterMap_append]
  cases hdoes with
  | parameter hgrows =>
    have hkind := hgrows.kind?_of_mem hg List.mem_cons_self
    dsimp only [Script.note] at hkind ⊢
    rw [List.map_append, hgrows.map_kind? hg hl.params, List.map_singleton, hkind,
      hl.length_params]
    simp [Step.parameter?, List.mapIdx_append]
  | statement hshape _ hgrows =>
    have hnone : c.parameter? = none := by
      cases c with
      | parameter name => cases hshape
      | _ => rfl
    rw [List.filterMap_cons_none hnone, List.filterMap_nil, List.append_nil]
    exact hgrows.map_kind? hg hl.params
  | moveTo _ _ =>
    rw [List.filterMap_cons_none rfl, List.filterMap_nil, List.append_nil]
    exact hl.params
  | link _ _ hgrows =>
    rw [List.filterMap_cons_none rfl, List.filterMap_nil, List.append_nil]
    exact hgrows.map_kind? hg hl.params

end Laid

namespace Script

theorem Does.builder_eq (hdoes : s.Does c t) : t.builder.method = s.builder.method ∧
    t.builder.block = s.builder.block ∧ t.builder.methodReturn = s.builder.methodReturn := by
  cases hdoes <;> exact ⟨rfl, rfl, rfl⟩

theorem map_dst_statementLinks (b : MethodBuilder) (shape : Shape) (node : NodeId)
    (args : List Node) : ((b.statementLinks shape node args).filter fun l =>
      l.src = node ∧ l.edge.kind = .argument).map Link.dst = args.map Node.id := by
  have hargs : ((argumentLinks node args).filter fun l =>
      l.src = node ∧ l.edge.kind = .argument).map Link.dst = args.map Node.id := by
    induction args with
    | nil => rfl
    | cons arg args ih => simpa [argumentLinks, Link.plain] using ih
  cases hreturns : shape.returns <;>
    simpa [statementLinks, hreturns, Link.plain, List.filter_append] using hargs

/-- A call makes a node that looks as the call says, and notes it. -/
theorem Does.exists_made (hs : s.builder.Ready) (hdoes : s.Does c t) : ∃ made,
    t.mades = s.mades ++ [made] ∧ Stands t.builder.graph c made ∧
      t.builder.params = s.builder.params ++ (declared? (c, made)).toList := by
  have hg := hs.wellFormed
  cases hdoes with
  | parameter hgrows =>
    exact ⟨_, rfl, .parameter (hgrows.kind?_of_mem hg List.mem_cons_self), rfl⟩
  | @statement _ shape node args h hshape hargs hgrows =>
    have hnone : declared? (c, .node node) = none := by
      cases c with
      | parameter name => cases hshape
      | _ => rfl
    refine ⟨_, rfl, .statement hshape (hgrows.kind?_of_mem hg List.mem_cons_self) ?_, ?_⟩
    · have hneighbors := hgrows.outNeighbors_of_mem hg List.mem_cons_self .argument
      dsimp only [note] at hneighbors ⊢
      rw [hneighbors, map_dst_statementLinks, ← hargs, List.map_map, List.map_map]
      refine List.map_congr_left fun arg harg => ?_
      exact hgrows.kind?_of_mem hg (List.mem_cons_of_mem _ harg)
    · rw [hnone, Option.toList_none, List.append_nil]
      rfl
  | moveTo _ _ => exact ⟨_, rfl, .moveTo _, (List.append_nil _).symm⟩
  | link _ _ _ => exact ⟨_, rfl, .link _ _, (List.append_nil _).symm⟩

end Script

theorem Laid.does (hs : s.builder.Ready) (hdoes : s.Does c t) (hl : Laid name past s) :
    Laid name (past ++ [c]) t := by
  have hg := hs.wellFormed
  obtain ⟨hmethod, hblock, hexit⟩ := hdoes.builder_eq
  obtain ⟨nodes, links, hgrows, _, _, hnew⟩ := hdoes.grows hs
  obtain ⟨made, hmades, hstands, hparams⟩ := hdoes.exists_made hs
  exact {
    method := hmethod ▸ hgrows.kind?_of_kind? hg hl.method
    block := hblock ▸ hgrows.kind?_of_kind? hg hl.block
    methodReturn := hexit ▸ hgrows.kind?_of_kind? hg hl.methodReturn
    children := hl.children_does hs hdoes
    params := hl.params_does hs hdoes
    stands := by
      rw [hmades]
      exact List.rel_append (hl.stands.imp fun _ _ hold => hold.of_grows hg hgrows hnew)
        (.cons hstands .nil)
    declared := by
      rw [hmades, hparams, MethodBuilder.declared, List.zip_append hl.length_mades.symm,
        List.filterMap_append]
      refine congrArg₂ (· ++ ·) hl.declared ?_
      cases hmade : declared? (c, made) <;> simp [hmade] }

/-- Control flow leaves a method as it is. -/
theorem Laid.of_cfg {links : List Link} (hl : Laid name past s) (hg : s.builder.graph.WellFormed)
    (hgrows : s.builder.graph.Grows h [] links) (hcfg : ∀ l ∈ links, l.edge.kind = .cfg) :
    Laid name past ⟨{ s.builder with graph := h }, s.mades⟩ where
  method := hgrows.kind?_of_kind? hg hl.method
  block := hgrows.kind?_of_kind? hg hl.block
  methodReturn := hgrows.kind?_of_kind? hg hl.methodReturn
  children := by
    refine (hgrows.outNeighbors_of_forall hg ?_).trans hl.children
    rintro l hlink ⟨_, hkind⟩
    rw [hcfg l hlink] at hkind
    cases hkind
  params := hgrows.map_kind? hg hl.params
  stands := by
    refine hl.stands.imp fun _ _ hold => hold.of_grows hg hgrows fun l hlink hkind => ?_
    rw [hcfg l hlink] at hkind
    cases hkind
  declared := hl.declared

/-! ## What the analysis finds -/

namespace Laid

theorem methodReturn?_eq (hl : Laid name past s) :
    s.builder.graph.methodReturn? s.builder.method = some s.builder.methodReturn := by
  simp [Graph.methodReturn?, hl.children, hl.block, hl.methodReturn, NodeKind.isMethodReturn]

/-- Each parameter has its own number. -/
theorem kind?_getElem_params (hl : Laid name past s) {i : Nat} (hi : i < s.builder.params.length) :
    ∃ name, s.builder.graph.kind? s.builder.params[i] =
      some (.parameter name (UInt32.ofNat i)) := by
  have hkind := congrArg (·[i]?) hl.params
  have hname : i < (past.filterMap Step.parameter?).length := hl.length_params ▸ hi
  simp only [List.getElem?_map, List.getElem?_mapIdx, List.getElem?_eq_getElem hi,
    List.getElem?_eq_getElem hname, Option.map_some, Option.some.injEq] at hkind
  exact ⟨_, hkind⟩

/-- The parameters are listed in the order in which they were declared. -/
theorem parametersOf_eq (hl : Laid name past s) (hroom : s.builder.params.length ≤ UInt32.size) :
    s.builder.graph.parametersOf s.builder.method = s.builder.params := by
  have hnumbers : s.builder.params.filterMap s.builder.graph.parameter? =
      s.builder.params.mapIdx fun i id => (UInt32.ofNat i, id) := by
    refine filterMap_of_map_eq (List.ext_getElem (by simp) fun i hi _ => ?_)
    rw [List.length_map] at hi
    obtain ⟨name, hkind⟩ := hl.kind?_getElem_params hi
    simp [Graph.parameter?, hkind]
  have hsorted : (s.builder.params.mapIdx fun i id => (UInt32.ofNat i, id)).Pairwise
      fun a b => decide (a.1 ≤ b.1) = true := by
    refine List.pairwise_iff_getElem.mpr fun i j hi hj hij => ?_
    rw [List.length_mapIdx] at hi hj
    simp only [List.getElem_mapIdx, decide_eq_true_eq, UInt32.le_iff_toNat_le]
    rw [UInt32.toNat_ofNat_of_lt' (by omega), UInt32.toNat_ofNat_of_lt' (by omega)]
    exact hij.le
  have hblock : s.builder.graph.parameter? s.builder.block = none := by
    simp [Graph.parameter?, hl.block]
  have hexit : s.builder.graph.parameter? s.builder.methodReturn = none := by
    simp [Graph.parameter?, hl.methodReturn]
  rw [Graph.parametersOf, hl.children, List.filterMap_cons_none hblock,
    List.filterMap_cons_none hexit, hnumbers, List.mergeSort_of_pairwise hsorted]
  exact List.ext_getElem (by simp) (by simp)

theorem nodup_params (hl : Laid name past s) (hroom : s.builder.params.length ≤ UInt32.size) :
    s.builder.params.Nodup := by
  refine List.pairwise_iff_getElem.mpr fun i j hi hj hij heq => ?_
  obtain ⟨_, hkind⟩ := hl.kind?_getElem_params hi
  obtain ⟨_, hsame⟩ := hl.kind?_getElem_params hj
  rw [heq, hsame, Option.some.injEq, NodeKind.parameter.injEq] at hkind
  have hnat := congrArg UInt32.toNat hkind.2
  rw [UInt32.toNat_ofNat_of_lt' (by omega), UInt32.toNat_ofNat_of_lt' (by omega)] at hnat
  omega

/-- A method that was built has a flow graph, in which its parameters come first. -/
theorem exists_ofMethod (hl : Laid name past s) (hroom : s.builder.params.length ≤ UInt32.size) :
    ∃ r, ReachingDefs.ofMethod s.builder.graph s.builder.method = .ok r ∧
      r.graph.params = s.builder.params := by
  have hparams := hl.parametersOf_eq hroom
  have hnodup : (s.builder.graph.parametersOf s.builder.method).Nodup :=
    hparams ▸ hl.nodup_params hroom
  have hmethod : (s.builder.graph.kind? s.builder.method).any NodeKind.isMethod = true := by
    rw [hl.method]
    rfl
  obtain ⟨fg, hfg, hnodes, hcount⟩ := FlowGraph.ofMethod_of_lt_length hmethod hl.methodReturn?_eq
    (FlowGraph.length_lt_of_nodup hnodup)
  refine ⟨_, by rw [ReachingDefs.ofMethod, hfg]; rfl, ?_⟩
  exact (FlowGraph.params_of_nodup hnodes hcount hnodup).trans hparams

/-- Every position of a node that a call made reports what the call says. -/
theorem reports {r : ReachingDefs} (hl : Laid name past s)
    (hr : ReachingDefs.ofMethod s.builder.graph s.builder.method = .ok r) {k : Nat}
    (hc : past[k]? = some c) (hroom : c.nodeCount ≤ UInt32.size)
    {defined : Option String} {used : List String}
    (hreported : c.reported? = some (defined, used)) :
    ∃ id, s.mades[k]? = some (.node id) ∧ ∀ i, r.graph.node? i = some id →
      r.definedAt? i = defined ∧ r.usedAt i = used := by
  obtain ⟨_, hdefines, huses⟩ := ReachingDefs.eq_of_ofMethod hr
  obtain ⟨hk, rfl⟩ := List.getElem?_eq_some_iff.mp hc
  have hk' : k < s.mades.length := hl.length_mades ▸ hk
  have hstands : Stands s.builder.graph past[k] s.mades[k] := by
    exact hl.stands.get hk hk'
  obtain ⟨id, hid⟩ : ∃ id, s.mades[k] = .node id := by
    generalize s.mades[k] = made at hstands
    generalize past[k] = c at hstands hreported
    cases hstands with
    | parameter _ => exact ⟨_, rfl⟩
    | statement _ _ _ => exact ⟨_, rfl⟩
    | moveTo place => cases hreported
    | link src dst => cases hreported
  rw [hid] at hstands
  obtain ⟨hdefinition, huse⟩ := hstands.reports hroom hreported
  refine ⟨id, by rw [List.getElem?_eq_getElem hk', hid], fun i hi => ?_⟩
  rw [ReachingDefs.definedAt?_eq hdefines hi, ReachingDefs.usedAt_eq huses hi]
  exact ⟨hdefinition, huse⟩

end Laid

/-- The graph with the nodes and edges of the calls so far. -/
def Grown (g : Graph) (past : List Step) (s : Script) : Prop :=
  ∃ nodes links, g.Grows s.builder.graph nodes links ∧
    nodes.length = 3 + (past.map Step.nodeCount).sum ∧
    links.length = 2 + (past.map Step.edgeCount).sum

theorem Grown.does (hs : s.builder.Ready) (hdoes : s.Does c t) (hgrown : Grown g past s) :
    Grown g (past ++ [c]) t := by
  obtain ⟨nodes, links, hgrows, hnodes, hlinks⟩ := hgrown
  obtain ⟨more, added, hmore, hmoreNodes, hadded, _⟩ := hdoes.grows hs
  refine ⟨nodes ++ more, links ++ added, hgrows.trans hmore, ?_, ?_⟩
  · rw [List.length_append, hnodes, hmoreNodes, List.map_append, List.sum_append,
      List.map_singleton, List.sum_singleton, Nat.add_assoc]
  · rw [List.length_append, hlinks, hadded, List.map_append, List.sum_append, List.map_singleton,
      List.sum_singleton, Nat.add_assoc]

/-- A method without parameters and statements, in a graph that was `g` before. -/
structure Begun (g : Graph) (name : String) (b : MethodBuilder) : Prop where
  new_eq : new g name = (.ok b, b.graph)
  ready : b.Ready
  grown : Grown g [] { builder := b }
  laid : Laid name [] { builder := b }

theorem exists_begun (hg : g.WellFormed) (hroom : 3 ≤ g.supply.length) (name : String) :
    ∃ b, Begun g name b := by
  obtain ⟨method, block, exit, h, hnew, hgrows⟩ := exists_new hg hroom name
  have hkind := fun n hn => hgrows.kind?_of_mem hg (n := n) hn
  have hsome := fun n hn => hgrows.isSome_of_mem hg (n := n) hn
  simp only [List.forall_mem_cons] at hkind hsome
  obtain ⟨hmethod, hblock, hexit, _⟩ := hkind
  have hchildren := hgrows.outNeighbors_of_mem hg List.mem_cons_self .ast
  refine ⟨_, hnew, ⟨hgrows.wellFormed, hsome.1, hsome.2.1, hsome.2.2.1, hsome.1⟩,
    ⟨_, _, hgrows, rfl, rfl⟩, ⟨hmethod, hblock, hexit, ?_, rfl, .nil, rfl⟩⟩
  exact hchildren.trans (by simp [Link.plain])

/-- Calls whose targets exist lay out a method, and none of them is stopped. -/
theorem Begun.exists_laid {b : MethodBuilder} {calls : List Step} (hb : Begun g name b)
    (hroom : 3 + (calls.map Step.nodeCount).sum ≤ g.supply.length)
    (hthere : Script.targetsExist { builder := b } calls = true) :
    ∃ s, (build g name calls).outcome = .ok s ∧ Script.DoesAll { builder := b } calls s ∧
      s.builder.Ready ∧ Grown g calls s ∧ Laid name calls s := by
  obtain ⟨nodes, links, hgrows, hnodes, _⟩ := hb.grown
  have hleft : (calls.map Step.nodeCount).sum ≤ b.graph.supply.length := by
    have hused := hgrows.length_supply_eq
    rw [hnodes] at hused
    exact Nat.le_of_add_le_add_left (hroom.trans_eq hused)
  obtain ⟨s, hrun, hall⟩ := Script.exists_doesAll (s := { builder := b }) hb.ready hleft hthere
  have hkeeps := hall.induction (P := fun past s => Grown g past s ∧ Laid name past s)
    (fun hs hdoes h => ⟨h.1.does hs hdoes, h.2.does hs hdoes⟩) hb.ready ⟨hb.grown, hb.laid⟩
  refine ⟨s, ?_, hall, hkeeps⟩
  simp only [build, hb.new_eq, hrun]

/-- Whether every place that calls to a new method name is there when its call is made. -/
def targetsExist (g : Graph) (name : String) (calls : List Step) : Bool :=
  match (new g name).1 with
  | .ok b => Script.targetsExist { builder := b } calls
  | .error _ => true

theorem Begun.targetsExist_eq {b : MethodBuilder} (hb : Begun g name b) (calls : List Step) :
    targetsExist g name calls = Script.targetsExist { builder := b } calls := by
  rw [targetsExist, hb.new_eq]

theorem nodeCount_le_sum {calls : List Step} {k : Nat} (hc : calls[k]? = some c) :
    c.nodeCount ≤ (calls.map Step.nodeCount).sum :=
  List.le_sum_of_mem (List.mem_map_of_mem (List.mem_of_getElem? hc))

theorem length_parameters_le (calls : List Step) :
    (calls.filterMap Step.parameter?).length ≤ (calls.map Step.nodeCount).sum := by
  induction calls with
  | nil => exact Nat.le_refl 0
  | cons c calls ih =>
    rw [List.map_cons, List.sum_cons]
    cases c with
    | parameter name =>
      change (calls.filterMap Step.parameter?).length + 1 ≤ 1 + _
      omega
    | _ => exact ih.trans (Nat.le_add_left _ _)

theorem Laid.length_params_le (hl : Laid name past s) :
    s.builder.params.length ≤ (past.map Step.nodeCount).sum :=
  hl.length_params.trans_le (length_parameters_le past)

/-- What the calls to a builder came to, in a graph `h` that was `g` before, and what the analysis
finds there. -/
structure Agrees (g : Graph) (calls : List Step) (s : Script) (handle : MethodHandle) (h : Graph)
    (r : ReachingDefs) : Prop where
  wellFormed : h.WellFormed
  /-- No node is missing. -/
  nodeCount_eq : h.nodeCount = g.nodeCount + 3 + (calls.map Step.nodeCount).sum
  /-- No edge is missing. -/
  edgeCount_eq : h.edgeCount = g.edgeCount + 2 + (calls.map Step.edgeCount).sum +
    s.builder.fallsThrough.toNat
  /-- The nodes that were there are as they were. -/
  nodes : ∀ id n, g.node? id = some n → h.node? id = some n
  /-- So are the edges, and the new ones come after them. -/
  links : g.links <:+ h.links
  parametersOf_eq : h.parametersOf handle.method = handle.params
  declared_eq : declared calls s.mades = handle.params
  methodReturn?_eq : h.methodReturn? handle.method = some handle.methodReturn
  ofMethod_eq : ReachingDefs.ofMethod h handle.method = .ok r
  params_eq : r.graph.params = handle.params
  reports : ∀ (k : Nat) (c : Step) (defined : Option String) (used : List String),
    calls[k]? = some c → c.reported? = some (defined, used) →
    ∃ id, s.mades[k]? = some (.node id) ∧ ∀ i, r.graph.node? i = some id →
      r.definedAt? i = defined ∧ r.usedAt i = used

/-- A loop that reads a variable twice.  An edge leaves the method. -/
def countdown : List Step :=
  [.parameter "n", .parameter "m", .assignment "x" ["n", "m", "n"], .control "while (x)",
    .call "f" ["x", "y"], .link (.made 4) (.made 3), .moveTo (.made 3), .assignment "y" [],
    .ret (some "y"), .link (.made 3) (.known ⟨3⟩)]

end MethodBuilder

end CodeGraph
