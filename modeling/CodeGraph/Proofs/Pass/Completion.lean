import CodeGraph.Proofs.DataFlow.Converse
import CodeGraph.Proofs.Pass.DefUse
import Mathlib

/-!
# When the reaching-definitions pass comes to its end

A part of the pass fails if its method has no flow graph.  Otherwise it adds edges between nodes of
the flow graph.  These are nodes of the graph, and they stay there while other parts add edges.  So
a run of the pass comes to its end where every method has a flow graph.
-/

namespace CodeGraph

open DataFlow (FlowGraph ReachingDefs)

/-! ## Nodes of a flow graph -/

theorem Graph.isSome_node?_of_kind? {g : Graph} {id : NodeId} {p : NodeKind → Bool}
    (h : (g.kind? id).any p = true) : (g.node? id).isSome := by
  cases hn : g.node? id with
  | none => simp [kind?, hn] at h
  | some n => rfl

namespace DataFlow

theorem FlowGraph.Built.isSome_node? {g : Graph} {method x : NodeId} {fg : FlowGraph} {l : Layout}
    (h : Built g method fg l) (hg : g.WellFormed) (hx : x ∈ l.nodes) : (g.node? x).isSome := by
  obtain ⟨slot, hslot⟩ := Graph.exists_slot_of_kind? h.isMethod
  have hmethod := Graph.isSome_node?_of_kind? h.isMethod
  obtain ⟨exit, hexit, rfl⟩ := h.layout
  have hmem := List.mem_eraseDups.mp hx
  simp only [List.mem_append, List.mem_cons, List.mem_filter, List.not_mem_nil, or_false] at hmem
  rcases hmem with ((rfl | hparam) | ⟨hbody, _⟩) | rfl
  · exact hmethod
  · obtain ⟨parameter, hparameter⟩ :=
      Option.isSome_iff_exists.mp (Graph.mem_parametersOf.mp hparam).2
    obtain ⟨_, name, hkind⟩ := Graph.kind_of_parameter? hparameter
    exact Graph.isSome_node?_of_kind? (p := fun _ => true) (by rw [hkind]; rfl)
  · have hreach := (hg.mem_reversePostOrder_iff hslot).mp hbody
    rcases Relation.ReflTransGen.cases_tail hreach with rfl | ⟨_, _, hstep⟩
    · exact hmethod
    · rw [← hg.contains_eq]
      exact (hg.slot?_isSome_of_flowsTo hstep).2
  · exact Graph.isSome_node?_of_kind? (Graph.isMethodReturn_of_methodReturn? hexit)

/-- The edges that record definitions run between nodes of the graph. -/
theorem ReachingDefs.ends_of_mem_defUses {g : Graph} {method : NodeId} {r : ReachingDefs}
    (hg : g.WellFormed) (hr : ofMethod g method = .ok r) {f : DefUse} (hf : f ∈ r.defUses) :
    (g.node? f.definition).isSome ∧ (g.node? f.use).isSome := by
  obtain ⟨hfg, _, _⟩ := eq_of_ofMethod hr
  obtain ⟨l, h⟩ := FlowGraph.built_of_ofMethod hfg
  obtain ⟨d, u, _, hd, hu⟩ := (mem_defUses h.nodup_nodes).mp hf
  rw [h.node?_eq] at hd hu
  exact ⟨h.isSome_node? hg (List.mem_of_getElem? hd), h.isSome_node? hg (List.mem_of_getElem? hu)⟩

end DataFlow

/-! ## The run -/

/-- Edges between nodes of a graph can be added. -/
theorem Progress.exists_applyAll_create {p : Progress} {ls : List Link}
    (hp : p.graph.WellFormed)
    (hends : ∀ l ∈ ls, (p.graph.node? l.src).isSome ∧ (p.graph.node? l.dst).isSome) :
    ∃ q, p.applyAll (ls.map Link.create) = (q, none) := by
  have heffects := View.effects_createEdges (v := p.graph.view) ls
    (by simpa [Graph.view] using hends)
  obtain ⟨q, hall, _⟩ := applyAll_of_effects hp heffects
  exact ⟨q, hall⟩

namespace Run

variable {g : Graph} {r : Run} {i : Nat}

/-- The part of a method that has a flow graph is run to its end. -/
theorem exists_chunks_defUseDiffs {rd : ReachingDefs} (hr : r.graph.WellFormed)
    (hsink : r.sink = none) (hpools : r.pools = none)
    (hends : ∀ f ∈ rd.defUses, (r.graph.node? f.definition).isSome ∧
      (r.graph.node? f.use).isSome) :
    ∃ s, r.chunks i (defUseDiffs rd) = (s, none) ∧ s.pools = none := by
  unfold defUseDiffs
  split
  · exact ⟨r, rfl, hpools⟩
  · have hd := changes_defUseDiff rd.defUses.toList
    have hlinks : ∀ l ∈ rd.defUses.toList.map DefUse.link,
        (r.graph.node? l.src).isSome ∧ (r.graph.node? l.dst).isSome := by
      intro l hl
      obtain ⟨f, hf, rfl⟩ := List.mem_map.mp hl
      exact hends f hf
    obtain ⟨q, hall⟩ := Progress.exists_applyAll_create
      (p := { graph := r.graph, pool := none }) hr hlinks
    rw [List.map_map] at hall
    generalize hdiff : defUseDiff rd.defUses.toList = d at hd ⊢
    have happlication : r.application i d = ⟨q.graph, q.pool, .ok ⟨d, none, q.created⟩⟩ := by
      rw [application, hsink, poolOf, hpools]
      exact Graph.apply_of_applyAll_none (by rw [hd]; exact hall) false
    have hkeep : (r.applied i d ⟨d, none, q.created⟩).keep ⟨d, none, q.created⟩ =
        .ok (r.applied i d ⟨d, none, q.created⟩) := by
      have hnone : (r.applied i d ⟨d, none, q.created⟩).sink = none := hsink
      rw [keep, hnone]
    refine ⟨(r.applied i d ⟨d, none, q.created⟩).nextChunk, ?_, withPool_of_pools hpools _⟩
    rw [chunks, chunk_of_ok (congrArg Application.result happlication) hkeep]
    rfl

theorem exists_sequential {methods : List NodeId} (hg : g.WellFormed)
    (hannotated : Graph.Annotated g r.graph) (hr : r.graph.WellFormed) (hsink : r.sink = none)
    (hpools : r.pools = none)
    (hok : ∀ method ∈ methods, ∃ rd, ReachingDefs.ofMethod g method = .ok rd) :
    ∃ s, r.sequential i (methods.map reachingDefsPart) = (s, none) := by
  induction methods generalizing r i with
  | nil => exact ⟨r, rfl⟩
  | cons method methods ih =>
    obtain ⟨⟨rd, hrd⟩, hrest⟩ := List.forall_mem_cons.mp hok
    have hpart : reachingDefsPart method r.graph = .emitted (defUseDiffs rd) := by
      rw [← hannotated.reachingDefsPart_eq, reachingDefsPart, hrd]
    have hends : ∀ f ∈ rd.defUses, (r.graph.node? f.definition).isSome ∧
        (r.graph.node? f.use).isSome := by
      intro f hf
      rw [← hannotated.node?_eq]
      exact ReachingDefs.ends_of_mem_defUses hg hrd hf
    obtain ⟨t, hchunks, htpools⟩ :=
      exists_chunks_defUseDiffs (r := r.nextPart) (i := i) hr hsink hpools hends
    obtain ⟨hextends, htsink, _⟩ := extends_chunks_defUseDiffs (r := r.nextPart) hr hsink hchunks
    have hstep : Graph.Annotated r.graph t.graph := by
      have hchanged := annotated_chunks (r := r.nextPart) (i := i) hr.consistent
        (annotates_reachingDefsPart method r.graph (defUseDiffs rd) hpart)
      rw [hchunks] at hchanged
      exact hchanged
    have hpool : r.poolMissing? i = none := by rw [poolMissing?, hpools]
    obtain ⟨s, hs⟩ := ih (hannotated.trans hstep) hextends.wellFormed htsink htpools hrest
    exact ⟨s, (sequential_cons_of_emitted hpool hpart hchunks).trans hs⟩

end Run

/-- Where every method has a flow graph, the pass adds what there is to record, and finishes. -/
theorem runOn_reachingDefsPass {g : Graph} (hg : g.WellFormed)
    (hok : ∀ method ∈ g.methods, ∃ r, ReachingDefs.ofMethod g method = .ok r) :
    ∃ summary, (reachingDefsPass.runOn g).ending = .finished summary ∧
      g.Extends (reachingDefsPass.runOn g).graph (g.methods.flatMap (recordedLinks g)) := by
  obtain ⟨s, hseq⟩ := Run.exists_sequential (r := reachingDefsPass.start g) (i := 0) hg
    hg.consistent.annotated hg rfl rfl hok
  have hrun : reachingDefsPass.runOn g =
      RunResult.of ((reachingDefsPass.start g).sequential 0 (reachingDefsPass.parts g)).1
        ((reachingDefsPass.start g).sequential 0 (reachingDefsPass.parts g)).2 := rfl
  obtain ⟨_, hextends, _⟩ := Run.extends_sequential (r := reachingDefsPass.start g)
    hg.consistent.annotated hg rfl hseq
  have hparts : (reachingDefsPass.start g).sequential 0 (reachingDefsPass.parts g) = (s, none) :=
    hseq
  rw [hrun, hparts]
  exact ⟨s.summary, rfl, hextends⟩

end CodeGraph
