import CodeGraph.Proofs.Pass.DefUse
import CodeGraph.Proofs.Pass.Stored
import Mathlib

/-!
# Recorded edges taken back in any order

A run that stores overlays that undo keeps, for every method with something to record, the overlay
that takes the recorded edges back (`withdrawal`).  Such an overlay only removes edges, and what it
makes of a graph is a matter of the multiset of edges.  So the overlays of a run can be replayed in
any order, also where the graph had equal edges before (`applyTo_withdrawal`).
-/

namespace CodeGraph

open CodeGraph.Graph (Annotated)
open DataFlow (FlowGraph ReachingDefs)
open View (Effects)

/-! ## Overlays that take edges back -/

/-- The entry that removes the edge of a definition and its use. -/
def DefUse.removal (f : DefUse) : OverlayEntry := .removeEdge f.link.src f.link.dst f.link.edge

/-- The overlay that takes back recorded edges, newest first. -/
def withdrawal (flows : List DefUse) : Overlay := ⟨flows.reverse.map DefUse.removal⟩

section Withdrawal

variable (flows : List DefUse)

theorem size_withdrawal : (withdrawal flows).size = flows.length := by
  rw [withdrawal, Overlay.size, List.length_map, List.length_reverse]

theorem isEmpty_withdrawal : (withdrawal flows).isEmpty = flows.isEmpty := by
  simp [withdrawal, Overlay.isEmpty]

theorem changes_withdrawal : (withdrawal flows).toDiff.changes =
    flows.reverse.map fun f => .removeEdge f.link.src f.link.dst f.link.edge := by
  rw [withdrawal, Overlay.toDiff, List.map_map]
  rfl

theorem annotates_withdrawal : (withdrawal flows).toDiff.Annotates := by
  intro c hc
  rw [changes_withdrawal] at hc
  obtain ⟨f, _, rfl⟩ := List.mem_map.mp hc
  rfl

/-- The values of the edges are texts. -/
theorem depth_of_mem_withdrawal {x : PropertyValue} (hx : x ∈ (withdrawal flows).toDiff.values) :
    x.depth ≤ 122 := by
  rw [Diff.values, changes_withdrawal] at hx
  obtain ⟨c, hc, hx⟩ := List.mem_flatMap.mp hx
  obtain ⟨f, _, rfl⟩ := List.mem_map.mp hc
  have hx : x ∈ [PropertyValue.str f.var] := hx
  rw [List.mem_singleton.mp hx]
  exact Nat.zero_le 122

theorem ofBytes_withdrawal :
    Overlay.ofBytes (withdrawal flows).toBytes = .ok (withdrawal flows) :=
  Overlay.ofBytes_toBytes fun _ => depth_of_mem_withdrawal flows

end Withdrawal

/-- The view with recorded edges. -/
def View.withFlows (v : View) (flows : List DefUse) : View :=
  { v with edges := v.edges + (flows.map fun f => f.link.view : List EdgeView) }

/-- Recorded edges, with those of one method apart. -/
theorem View.withFlows_perm (v : View) {kept rest : List (String × List DefUse)}
    {e : String × List DefUse} (h : kept.Perm (e :: rest)) :
    v.withFlows (kept.flatMap Prod.snd) = (v.withFlows (rest.flatMap Prod.snd)).withFlows e.2 := by
  have hperm : (kept.flatMap Prod.snd).Perm (rest.flatMap Prod.snd ++ e.2) :=
    (h.flatMap_right _).trans (by rw [List.flatMap_cons]; exact List.perm_append_comm)
  have hviews := Multiset.coe_eq_coe.mpr (hperm.map fun f => f.link.view)
  rw [List.map_append, ← Multiset.coe_add] at hviews
  simp only [withFlows, hviews, add_assoc]

/-- Edges that are there can be taken back one after the other. -/
theorem View.effects_removeEdges (v : View) (ls : List Link) :
    Effects (ls.map fun l => .removeEdge l.src l.dst l.edge)
      { v with edges := v.edges + (ls.map Link.view : List EdgeView) } v := by
  induction ls with
  | nil =>
    have hsame :
        { v with edges := v.edges + (([] : List Link).map Link.view : List EdgeView) } = v := by
      simp
    rw [hsame]
    exact .nil
  | cons l ls ih =>
    refine .cons (.removeEdge ?_) ih
    rw [List.map_cons, ← Multiset.cons_coe, Multiset.add_cons]

theorem View.effects_withdrawal (v : View) (flows : List DefUse) :
    Effects (withdrawal flows).toDiff.changes (v.withFlows flows) v := by
  have heffects := v.effects_removeEdges (flows.reverse.map DefUse.link)
  rw [List.map_map, List.map_map] at heffects
  rw [changes_withdrawal]
  have hperm : (flows.reverse.map fun f => f.link.view).Perm (flows.map fun f => f.link.view) :=
    flows.reverse_perm.map _
  rw [withFlows, ← Multiset.coe_eq_coe.mpr hperm]
  exact heffects

/-- Recorded edges are taken back from every graph that has them, whatever else it has. -/
theorem applyTo_withdrawal {g : Graph} {v : View} {flows : List DefUse} (hg : g.WellFormed)
    (hview : g.view = v.withFlows flows) : ∃ h, (withdrawal flows).applyTo g = (h, none) ∧
      h.WellFormed ∧ h.view = v ∧ h.nodes = g.nodes := by
  have heffects := v.effects_withdrawal flows
  rw [← hview] at heffects
  obtain ⟨h, happly, hh, hv⟩ := Overlay.applyTo_of_effects hg heffects
  refine ⟨h, happly, hh, hv, ?_⟩
  have hgraph : (g.apply (withdrawal flows).toDiff none false).graph = h := by
    have hfst : ((withdrawal flows).applyTo g).1 = h := congrArg Prod.fst happly
    rw [← hfst, Overlay.applyTo]
    split <;> rfl
  have hannotated := hg.consistent.annotated_apply (annotates_withdrawal flows) none false
  rw [hgraph] at hannotated
  exact hannotated.nodes.symm

theorem resolve_removals (flows : List DefUse) (a : Applied) :
    Overlay.resolve ⟨flows.map fun f => .removeEdge f.link.src f.link.dst f.link.edge⟩ a =
      .ok ⟨flows.map DefUse.removal⟩ := by
  induction flows with
  | nil => rfl
  | cons f flows ih => exact Overlay.resolve_cons rfl ih

/-! ## What is stored -/

/-- The row of a stored withdrawal. -/
def withdrawalRow (name : String) (flows : List DefUse) : OverlayRow where
  name := name
  data := (withdrawal flows).toBytes
  entryCount := flows.length
  contentHash := Digest.contentHash (withdrawal flows).toBytes

/-- The database of a base graph and of withdrawals with their names. -/
def withdrawals (base : String) (kept : List (String × List DefUse)) : Database where
  tables := some { base := some base, rows := kept.map fun e => withdrawalRow e.1 e.2 }

section Stored

variable {base name : String} {kept : List (String × List DefUse)} {flows : List DefUse}

theorem add_withdrawal (hname : name ∉ kept.map Prod.fst) :
    (withdrawals base kept).add name (withdrawal flows).toBytes =
      .ok (withdrawals base (kept ++ [(name, flows)])) := by
  have hnew : ((kept.map fun e => withdrawalRow e.1 e.2).any fun r => r.name = name) = false := by
    rw [List.any_eq_false]
    intro r hr
    obtain ⟨e, he, rfl⟩ := List.mem_map.mp hr
    simp only [decide_eq_true_eq]
    rintro rfl
    exact hname (List.mem_map_of_mem he)
  simp only [Database.add, ofBytes_withdrawal, Database.read, withdrawals, bind, Except.bind, hnew,
    Bool.false_eq_true, if_false, List.map_append, size_withdrawal]
  rfl

/-- Where names are distinct, a row is found by its name. -/
theorem find?_withdrawalRow (hnodup : (kept.map Prod.fst).Nodup) (h : (name, flows) ∈ kept) :
    (kept.map fun e => withdrawalRow e.1 e.2).find? (fun r => r.name = name) =
      some (withdrawalRow name flows) := by
  induction kept with
  | nil => cases h
  | cons e kept ih =>
    obtain ⟨hfirst, hnodup⟩ := List.nodup_cons.mp hnodup
    rw [List.map_cons, List.find?_cons]
    rcases List.mem_cons.mp h with rfl | h
    · rw [decide_eq_true (show (withdrawalRow name flows).name = name from rfl)]
    · have hne : (withdrawalRow e.1 e.2).name ≠ name := by
        rintro rfl
        exact hfirst (List.mem_map.mpr ⟨_, h, rfl⟩)
      rw [decide_eq_false hne]
      exact ih hnodup h

theorem get_withdrawal (hnodup : (kept.map Prod.fst).Nodup) (h : (name, flows) ∈ kept) :
    (withdrawals base kept).get name = .ok (withdrawal flows).toBytes := by
  simp only [Database.get, Database.read, withdrawals, bind, Except.bind,
    find?_withdrawalRow hnodup h]
  exact if_pos rfl

theorem names_withdrawals : (withdrawals base kept).names = .ok (kept.map Prod.fst) := by
  simp only [Database.names, Database.read, withdrawals, bind, Except.bind, List.map_map]
  rfl

end Stored

/-! ## How many edges a method can have -/

/-- A definition has one variable, so a definition and a use are recorded once. -/
theorem nodup_pairs {g : Graph} {method : NodeId} {r : ReachingDefs}
    (hr : ReachingDefs.ofMethod g method = .ok r) :
    (r.defUses.toList.map fun f => (f.definition, f.use)).Nodup := by
  obtain ⟨hfg, _, _⟩ := ReachingDefs.eq_of_ofMethod hr
  obtain ⟨_, hbuilt⟩ := FlowGraph.built_of_ofMethod hfg
  refine List.Nodup.map_on ?_ (DataFlow.FactSet.nodup_toList _)
  intro f hf k hk heq
  obtain ⟨d, u, hflow, hd, _⟩ := (ReachingDefs.mem_defUses hbuilt.nodup_nodes).mp hf
  obtain ⟨d', u', hflow', hd', _⟩ := (ReachingDefs.mem_defUses hbuilt.nodup_nodes).mp hk
  obtain ⟨hdefinition, huse⟩ := Prod.mk.inj heq
  have hsame : d = d' := by
    have hnode : r.graph.nodes.toList[d]? = some f.definition := by
      rw [Array.getElem?_toList]
      exact hd
    have hnode' : r.graph.nodes.toList[d']? = some k.definition := by
      rw [Array.getElem?_toList]
      exact hd'
    have hlt := (List.getElem?_eq_some_iff.mp hnode).1
    exact (List.getElem?_inj hlt hbuilt.nodup_nodes).mp (by rw [hnode, hnode', hdefinition])
  subst hsame
  have hvar := hflow.defined.symm.trans hflow'.defined
  cases f
  cases k
  simp only at hdefinition huse hvar
  rw [hdefinition, huse, Option.some.inj hvar]

theorem Graph.length_allNodes_le (g : Graph) : g.allNodes.length ≤ g.nodes.cells.size := by
  rw [allNodes, Slots.elements_eq]
  exact (List.length_filterMap_le _ _).trans_eq List.length_range

/-- Fewer edges than 64 bits can count, where slots are numbered by 32 bits. -/
theorem length_lt_of_nodup_pairs {g : Graph} {flows : List DefUse} (hg : g.WellFormed)
    (hsize : g.nodes.cells.size < UInt32.size)
    (hlinks : ∀ f ∈ flows, f.link ∈ g.links)
    (hnodup : (flows.map fun f => (f.definition, f.use)).Nodup) :
    flows.length < UInt64.size := by
  have hmem : ∀ id, (g.view.node id).isSome = true → id ∈ g.allNodes.map Node.id := by
    intro id hid
    obtain ⟨n, hn⟩ := Graph.exists_node?_of_view hid
    have hn' := hg.id_of_node? hn
    rw [← hn'] at hn ⊢
    exact List.mem_map_of_mem (hg.mem_allNodes.mpr hn)
  have hsub : (flows.map fun f => (f.definition, f.use)) ⊆
      g.allNodes.map Node.id ×ˢ g.allNodes.map Node.id := by
    intro pair hpair
    obtain ⟨f, hf, rfl⟩ := List.mem_map.mp hpair
    obtain ⟨hsrc, hdst⟩ := hg.ends_of_mem_edges (e := f.link.view)
      (Multiset.mem_coe.mpr (List.mem_map_of_mem (hlinks f hf)))
    exact List.pair_mem_product.mpr ⟨hmem _ hsrc, hmem _ hdst⟩
  have hle := (hnodup.subperm hsub).length_le
  have hcount : (g.allNodes.map Node.id).length < UInt32.size := by
    rw [List.length_map]
    exact Nat.lt_of_le_of_lt g.length_allNodes_le hsize
  rw [List.length_map, List.length_product] at hle
  calc flows.length
      ≤ (g.allNodes.map Node.id).length * (g.allNodes.map Node.id).length := hle
    _ < UInt32.size * UInt32.size := Nat.mul_lt_mul'' hcount hcount
    _ = UInt64.size := rfl

/-! ## The run -/

/-- For every edge that was created its removal is noted. -/
theorem Progress.undo_applyAll_create {p q : Progress} {ls : List Link}
    (h : p.applyAll (ls.map Link.create) = (q, none)) :
    q.undo = (ls.reverse.map fun l => [.removeEdge l.src l.dst l.edge]) ++ p.undo := by
  induction ls generalizing p with
  | nil =>
    cases h
    rfl
  | cons l ls ih =>
    obtain ⟨p₁, hstep, hrest⟩ := applyAll_cons_eq_none h
    obtain ⟨g, _, rfl⟩ := apply_create_eq_none hstep
    rw [ih hrest, List.reverse_cons, List.map_append, List.append_assoc]
    rfl

namespace Run

variable {r r' : Run} {i : Nat} {d : Diff} {base : String} {kept : List (String × List DefUse)}
  {flows : List DefUse}

/-- The overlay of recorded edges takes them back. -/
theorem overlayOf_eq_withdrawal {g : Graph} {pool : Option KeyPool} {a : Applied}
    (hd : d.changes = (flows.map DefUse.link).map Link.create)
    (h : (g.apply d pool true).result = .ok a) : overlayOf a = .ok (withdrawal flows) := by
  obtain ⟨p, hall, _, rfl⟩ := Graph.apply_eq_ok h
  rw [hd] at hall
  have hundo := Progress.undo_applyAll_create hall
  have hinverse : p.inverse =
      flows.reverse.map fun f => .removeEdge f.link.src f.link.dst f.link.edge := by
    rw [Progress.inverse, hundo, ← List.map_reverse, List.map_map, List.append_nil,
      ← List.flatMap_def]
    exact List.flatMap_pure_eq_map _ _
  change Overlay.resolve ⟨p.inverse⟩ _ = _
  rw [hinverse]
  exact resolve_removals flows.reverse _

/-- The name of an overlay, by the number of its script. -/
def overlayNameOf (series pass : String) (k : Nat) : String :=
  series ++ "_" ++ pass ++ "_" ++ Text.natText k

theorem overlayNameOf_injective (series pass : String) :
    Function.Injective (overlayNameOf series pass) := by
  intro k l h
  have htext : Text.natText k = Text.natText l := String.append_right_inj _ |>.mp h
  have hdigits : Text.decimal k = Text.decimal l := String.ofList_inj.mp htext
  rw [← Text.ofDigits_decimal k, hdigits, Text.ofDigits_decimal]

/-- A run whose overlays so far take back what it recorded. -/
structure Withdraws (g : Graph) (base series : String) (kept : List (String × List DefUse))
    (r : Run) : Prop where
  annotated : Annotated g r.graph
  extended : g.Extends r.graph ((kept.flatMap Prod.snd).map DefUse.link)
  stored : r.sink = some ⟨.database (withdrawals base kept), true, series⟩
  pools : r.pools = none
  pass : r.summary.pass = reachingDefsPass.name
  names : kept.map Prod.fst =
    (List.range r.summary.chunks).map (overlayNameOf series reachingDefsPass.name)
  count : ∀ e ∈ kept, e.2.length < UInt64.size

variable {g : Graph} {series : String}

/-- What a script of recorded edges does to the graph. -/
theorem Withdraws.extends_applyAll {p : Progress} (h : r.Withdraws g base series kept)
    (hd : d.changes = (flows.map DefUse.link).map Link.create)
    (hall : Progress.applyAll { graph := r.graph, pool := none } d.changes = (p, none)) :
    Annotated g p.graph ∧
      g.Extends p.graph (((kept.flatMap Prod.snd) ++ flows).map DefUse.link) := by
  refine ⟨?_, ?_⟩
  · have hdiff : d.Annotates := by
      intro c hc
      rw [hd, List.map_map] at hc
      obtain ⟨f, _, rfl⟩ := List.mem_map.mp hc
      rfl
    have hstep := h.annotated.consistent.annotated_apply hdiff none false
    rw [Graph.apply_of_applyAll_none hall] at hstep
    exact h.annotated.trans hstep
  · rw [hd] at hall
    rw [List.map_append]
    exact h.extended.trans (Progress.extends_applyAll h.extended.wellFormed hall)

/-- A new overlay has the number of its script, which no overlay so far has. -/
theorem Withdraws.not_mem (h : r.Withdraws g base series kept) :
    overlayNameOf series reachingDefsPass.name r.summary.chunks ∉ kept.map Prod.fst := by
  rw [h.names, List.mem_map_of_injective (overlayNameOf_injective _ _)]
  exact List.not_mem_range_self

/-- A script that records something is kept as one more overlay. -/
theorem Withdraws.chunk {p : Progress} (h : r.Withdraws g base series kept)
    (hsize : g.nodes.cells.size < UInt32.size)
    (hd : d.changes = (flows.map DefUse.link).map Link.create) (hne : flows ≠ [])
    (hpairs : (flows.map fun f => (f.definition, f.use)).Nodup)
    (hall : Progress.applyAll { graph := r.graph, pool := none } d.changes = (p, none)) :
    ∃ r' kept', r.chunk i d = (r', none) ∧ r'.Withdraws g base series kept' ∧
      r'.graph = p.graph ∧ r'.summary.chunks = r.summary.chunks + 1 := by
  obtain ⟨name, hname⟩ : ∃ name,
      name = overlayNameOf series reachingDefsPass.name r.summary.chunks := ⟨_, rfl⟩
  have happlication : r.application i d =
      ⟨p.graph, p.pool, .ok ⟨d, some ⟨p.inverse⟩, p.created⟩⟩ := by
    rw [application, h.stored, poolOf, h.pools]
    exact Graph.apply_of_applyAll_none hall true
  have hoverlay : overlayOf ⟨d, some ⟨p.inverse⟩, p.created⟩ = .ok (withdrawal flows) :=
    overlayOf_eq_withdrawal hd
      (congrArg Application.result (Graph.apply_of_applyAll_none hall true))
  have hempty : (withdrawal flows).isEmpty = false := by
    rw [isEmpty_withdrawal]
    exact List.isEmpty_eq_false_iff.mpr hne
  have hadd : (Store.database (withdrawals base kept)).add name (withdrawal flows).toBytes =
      .ok (.database (withdrawals base (kept ++ [(name, flows)]))) := by
    rw [Store.add, add_withdrawal (hname ▸ h.not_mem)]
    rfl
  have hoverlayName : overlayName ⟨.database (withdrawals base kept), true, series⟩
      (r.applied i d ⟨d, some ⟨p.inverse⟩, p.created⟩).summary = name := by
    change overlayNameOf series r.summary.pass r.summary.chunks = name
    rw [h.pass, hname]
  have hstored : (r.applied i d ⟨d, some ⟨p.inverse⟩, p.created⟩).sink = _ := h.stored
  have hkeep := keep_of_add hstored hoverlay hempty (by rw [hoverlayName]; exact hadd)
  have hgraph : (r.application i d).graph = p.graph := congrArg Application.graph happlication
  obtain ⟨hannotated, hextended⟩ := h.extends_applyAll hd hall
  refine ⟨_, kept ++ [(name, flows)], chunk_of_ok (congrArg Application.result happlication) hkeep,
    ⟨?_, ?_, rfl, ?_, h.pass, ?_, ?_⟩, hgraph, rfl⟩
  · change Annotated g (r.application i d).graph
    rw [hgraph]
    exact hannotated
  · change g.Extends (r.application i d).graph _
    rw [hgraph, List.flatMap_append, List.flatMap_singleton]
    exact hextended
  · exact withPool_of_pools h.pools _
  · change _ = (List.range (r.summary.chunks + 1)).map _
    rw [List.range_succ, List.map_append, List.map_append, h.names, hname]
    rfl
  · refine List.forall_mem_append.mpr ⟨h.count, List.forall_mem_singleton.mpr ?_⟩
    refine length_lt_of_nodup_pairs hextended.wellFormed (hextended.nodes ▸ hsize) ?_ hpairs
    intro f hf
    rw [hextended.links, List.map_append, List.reverse_append]
    exact List.mem_append_left _
      (List.mem_append_left _ (List.mem_reverse.mpr (List.mem_map_of_mem hf)))

/-- What keeping an overlay leaves as it is. -/
theorem eq_of_keep {a : Applied} {s : Run} (h : r.keep a = .ok s) :
    s.graph = r.graph ∧ s.pools = r.pools ∧ s.summary.chunks = r.summary.chunks := by
  cases hsink : r.sink with
  | none =>
    rw [keep, hsink] at h
    cases h
    exact ⟨rfl, rfl, rfl⟩
  | some sink =>
    obtain ⟨_, _, ⟨_, rfl⟩ | ⟨_, _, _, rfl⟩⟩ := keep_eq_ok hsink h <;> exact ⟨rfl, rfl, rfl⟩

/-- A run that stands where another does, and may store overlays or not. -/
structure Abreast (r₀ r : Run) : Prop where
  graph : r₀.graph = r.graph
  pools : r₀.pools = none
  chunks : r₀.summary.chunks = r.summary.chunks

theorem applyAll_of_chunk {s : Run} (hpools : r.pools = none) (h : r.chunk i d = (s, none)) :
    ∃ p, Progress.applyAll { graph := r.graph, pool := none } d.changes = (p, none) ∧
      s.graph = p.graph ∧ s.pools = none ∧ s.summary.chunks = r.summary.chunks + 1 := by
  obtain ⟨a, t, hresult, hkeep, rfl⟩ := chunk_eq_none h
  obtain ⟨hgraph, hpools', hchunks⟩ := eq_of_keep hkeep
  rw [application, poolOf, hpools] at hresult
  obtain ⟨p, hall, hp, _⟩ := Graph.apply_eq_ok hresult
  refine ⟨p, hall, ?_, ?_, ?_⟩
  · change t.graph = p.graph
    rw [hgraph, ← hp]
    change (r.application i d).graph = _
    rw [application, poolOf, hpools]
  · exact hpools'.trans (withPool_of_pools hpools _)
  · exact congrArg (· + 1) hchunks

/-- A run without a store shows that one with a store can go on. -/
theorem Withdraws.chunks {rd : ReachingDefs} {method : NodeId} {r₀ s₀ : Run}
    (h : r.Withdraws g base series kept) (hsize : g.nodes.cells.size < UInt32.size)
    (hrd : ReachingDefs.ofMethod g method = .ok rd) (habreast : Abreast r₀ r)
    (hchunks : r₀.chunks i (defUseDiffs rd) = (s₀, none)) :
    ∃ r' kept', r.chunks i (defUseDiffs rd) = (r', none) ∧ r'.Withdraws g base series kept' ∧
      Abreast s₀ r' := by
  unfold defUseDiffs at hchunks ⊢
  split at hchunks
  · cases hchunks
    exact ⟨r, kept, rfl, h, habreast⟩
  · next hne =>
    have hd := changes_defUseDiff rd.defUses.toList
    rw [Run.chunks] at hchunks
    cases hc : r₀.chunk i (defUseDiff rd.defUses.toList) with
    | mk t error =>
      rw [hc] at hchunks
      cases error with
      | some e => cases hchunks
      | none =>
        cases hchunks
        obtain ⟨p, hall, hgraph, hpools, hcount⟩ := applyAll_of_chunk habreast.pools hc
        rw [habreast.graph] at hall
        obtain ⟨r', kept', hchunk, hr', hgraph', hcount'⟩ :=
          h.chunk hsize (by rw [hd, List.map_map]; rfl) hne (nodup_pairs hrd) hall
        refine ⟨r', kept', ?_, hr', hgraph.trans hgraph'.symm, hpools, ?_⟩
        · rw [Run.chunks, hchunk]
          rfl
        · rw [hcount, hcount', habreast.chunks]

theorem Withdraws.sequential {methods : List NodeId} {r₀ s₀ : Run}
    (h : r.Withdraws g base series kept) (hsize : g.nodes.cells.size < UInt32.size)
    (habreast : Abreast r₀ r)
    (hrun : r₀.sequential i (methods.map reachingDefsPart) = (s₀, none)) :
    ∃ r' kept', r.sequential i (methods.map reachingDefsPart) = (r', none) ∧
      r'.Withdraws g base series kept' ∧ Abreast s₀ r' := by
  induction methods generalizing r r₀ i kept with
  | nil =>
    cases hrun
    exact ⟨r, kept, rfl, h, habreast⟩
  | cons method methods ih =>
    obtain ⟨ds, t₀, _, hpart, hchunks, hrest⟩ := sequential_cons_eq_none hrun
    rw [habreast.graph] at hpart
    have hfirst := hpart
    rw [← h.annotated.reachingDefsPart_eq] at hfirst
    obtain ⟨rd, hrd, rfl⟩ := emitted_of_reachingDefsPart hfirst
    have hnext : r.nextPart.Withdraws g base series kept := { h with }
    have hnextAbreast : Abreast r₀.nextPart r.nextPart := { habreast with }
    obtain ⟨t, kept', hchunks', ht, habreast'⟩ := hnext.chunks hsize hrd hnextAbreast hchunks
    obtain ⟨r', kept'', hrun', hr'⟩ := ih ht habreast' hrest
    have hpool : r.poolMissing? i = none := by
      rw [poolMissing?, h.pools]
    refine ⟨r', kept'', ?_, hr'⟩
    rw [List.map_cons, sequential_cons_of_emitted hpool hpart hchunks']
    exact hrun'

end Run

theorem Graph.Extends.view_eq {g h : Graph} {flows : List DefUse}
    (hext : g.Extends h (flows.map DefUse.link)) : h.view = g.view.withFlows flows := by
  have hnode : h.node? = g.node? := by
    funext id
    simp only [node?, slot?, hext.nodes, hext.index]
  have hperm : (h.links.map Link.view).Perm
      (g.links.map Link.view ++ flows.map fun f => f.link.view) := by
    rw [hext.links, List.map_append, List.map_reverse, List.map_map]
    exact ((List.reverse_perm _).append_right _).trans List.perm_append_comm
  rw [view, hnode, Multiset.coe_eq_coe.mpr hperm]
  rfl

section Pass

variable {g : Graph} {base series : String} {summary : Summary}

theorem withdraws_startInto (hg : g.WellFormed) (base series : String) :
    (reachingDefsPass.startInto g (.database (withdrawals base [])) true series).Withdraws g base
      series [] where
  annotated := hg.consistent.annotated
  extended := hg.extends_nil
  stored := rfl
  pools := rfl
  pass := rfl
  names := rfl
  count := fun _ he => absurd he List.not_mem_nil

/-- The overlays of a run of the pass take back all that it has recorded. -/
theorem runInto_withdraws (hg : g.WellFormed) (hsize : g.nodes.cells.size < UInt32.size)
    (hfinished : (reachingDefsPass.runInto g (.database (withdrawals base [])) true series).ending =
      .finished summary) :
    ∃ kept, (reachingDefsPass.runInto g (.database (withdrawals base [])) true series).store =
        some (.database (withdrawals base kept)) ∧
      g.Extends (reachingDefsPass.runInto g (.database (withdrawals base [])) true series).graph
        ((kept.flatMap Prod.snd).map DefUse.link) ∧
      kept.map Prod.fst =
        (List.range summary.chunks).map (Run.overlayNameOf series reachingDefsPass.name) ∧
      ∀ e ∈ kept, e.2.length < UInt64.size := by
  obtain ⟨empty, r, hempty, hrun, rfl, hresult⟩ := Pass.runInto_eq_finished hfinished
  cases hempty
  obtain ⟨r', kept, hrun', hr, _⟩ :=
    (withdraws_startInto hg base series).sequential hsize ⟨rfl, rfl, rfl⟩ hrun
  cases hrun.symm.trans hrun'
  refine ⟨kept, ?_, ?_, hr.names, hr.count⟩
  · rw [hresult, RunResult.of, hr.stored]
    rfl
  · rw [hresult]
    exact hr.extended

/-- With a new database the pass comes to its end if it does so without one. -/
theorem runInto_of_runOn (hg : g.WellFormed) (hsize : g.nodes.cells.size < UInt32.size)
    (hfinished : (reachingDefsPass.runOn g).ending = .finished summary) (base series : String) :
    ∃ summary', (reachingDefsPass.runInto g (.database (withdrawals base [])) true series).ending =
        .finished summary' ∧ summary'.chunks = summary.chunks ∧
      (reachingDefsPass.runInto g (.database (withdrawals base [])) true series).graph =
        (reachingDefsPass.runOn g).graph := by
  obtain ⟨r₀, hrun, rfl, hrunOn⟩ := Pass.runOn_eq_finished hfinished
  have hstart : Run.Abreast (reachingDefsPass.start g)
      (reachingDefsPass.startInto g (.database (withdrawals base [])) true series) :=
    ⟨rfl, rfl, rfl⟩
  obtain ⟨r', kept, hrun', hr, habreast⟩ :=
    (withdraws_startInto hg base series).sequential hsize hstart hrun
  have hresult : reachingDefsPass.runInto g (.database (withdrawals base [])) true series =
      RunResult.of
        ((reachingDefsPass.startInto g (.database (withdrawals base [])) true series).sequential 0
          (reachingDefsPass.parts g)).1
        ((reachingDefsPass.startInto g (.database (withdrawals base [])) true series).sequential 0
          (reachingDefsPass.parts g)).2 := rfl
  have hparts : reachingDefsPass.parts g = g.methods.map reachingDefsPart := rfl
  rw [hparts, hrun'] at hresult
  refine ⟨r'.summary, ?_, habreast.chunks.symm, ?_⟩
  · rw [hresult]
    rfl
  · rw [hresult, hrunOn]
    exact habreast.graph.symm

/-- An analysis that records something changes the content. -/
theorem content_runOn_ne (hg : g.WellFormed)
    (hfinished : (reachingDefsPass.runOn g).ending = .finished summary)
    (hedits : summary.committedEdits ≠ 0) :
    (reachingDefsPass.runOn g).graph.content ≠ g.content := by
  obtain ⟨r, hseq, rfl, hrun⟩ := Pass.runOn_eq_finished hfinished
  obtain ⟨_, hextends, hcount⟩ :=
    Run.extends_sequential (r := reachingDefsPass.start g) hg.consistent.annotated hg rfl hseq
  have hlength : ∀ {h : Graph}, h.WellFormed → h.content.edges.length = h.links.length :=
    fun {h} hh => (h.perm_content_edges.length_eq.trans (List.length_map _)).trans
      hh.perm_allLinks.length_eq
  rw [hrun]
  intro heq
  have hlinks : r.graph.links.length = g.links.length := by
    rw [← hlength hextends.wellFormed, ← hlength hg]
    exact congrArg (fun c => c.edges.length) heq
  rw [hextends.links, List.length_append, List.length_reverse] at hlinks
  have hstart : (reachingDefsPass.start g).graph = g := rfl
  have hzero : (reachingDefsPass.start g).summary.committedEdits = 0 := rfl
  rw [hstart] at hlinks
  omega

end Pass

end CodeGraph
