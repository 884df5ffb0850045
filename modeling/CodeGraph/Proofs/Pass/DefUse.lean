import CodeGraph.Proofs.DataFlow.Equations
import CodeGraph.Proofs.Pass.Annotation
import Mathlib

/-!
# The edges that record reaching definitions

A run of the pass adds, for every method, one edge for each definition, use and variable such that
the definition reaches the use (`ReachingDefs.Records`).  Each part looks at the graph with the
edges of the parts before it, and comes to what it would on the first graph.  So the edges that are
added are known from the first graph (`recordedLinks`).  Nothing else is changed (`Graph.Extends`).
-/

namespace CodeGraph

open DataFlow (FactSet FlowGraph Problem ReachingDefs)

/-! ## Definitions that reach uses -/

namespace DefUse

theorem compare_eq (a b : DefUse) : compare a b =
    (compare a.definition b.definition).then
      ((compare a.use b.use).then (compare a.var b.var)) := rfl

instance : Std.LawfulEqOrd DefUse where
  eq_of_compare := by
    intro a b h
    rw [compare_eq, Ordering.then_eq_eq, Ordering.then_eq_eq] at h
    obtain ⟨hdefinition, huse, hvar⟩ := h
    cases a
    cases b
    obtain rfl := Std.LawfulEqOrd.eq_of_compare hdefinition
    obtain rfl := Std.LawfulEqOrd.eq_of_compare huse
    obtain rfl := Std.LawfulEqOrd.eq_of_compare hvar
    rfl

theorem link_injective : Function.Injective link := by
  intro a b h
  cases a
  cases b
  simp only [link, Link.mk.injEq, Edge.mk.injEq, true_and] at h
  obtain ⟨rfl, rfl, hvar⟩ := h
  have hget := congrArg (Properties.get? · "variable") hvar
  simp only [Properties.get?_insert] at hget
  simpa using hget

end DefUse

namespace DataFlow.ReachingDefs

variable {r : ReachingDefs}

/-- A definition of a variable reaches a use of it. -/
structure Flow (r : ReachingDefs) (d u : Nat) (v : String) : Prop where
  used : v ∈ r.usedAt u
  reaches : d ∈ r.factsBefore u
  defined : r.definedAt? d = some v

/-- An edge that goes from a definition to a use that it reaches, with the variable as its only
property. -/
def Records (r : ReachingDefs) (l : Link) : Prop :=
  ∃ d u v, r.Flow d u v ∧ r.graph.node? d = some l.src ∧ r.graph.node? u = some l.dst ∧
    l.edge = ⟨.reachingDef, Properties.empty.insert "variable" (.str v)⟩

/-- The facts before a node are those before its position. -/
theorem before?_solve (hnodup : r.graph.nodes.toList.Nodup) {u : Nat} {x : NodeId}
    (hx : r.graph.node? u = some x) : r.solve.before? x = some (r.factsBefore u) := by
  have hsize : (r.problem.run r.bound).input.size = r.graph.size :=
    (State.run_induction (P := Growing r) (fun _ _ _ _ h => h.visit) r.bound _
      (growing_initial r)).size_input
  have hu : u < r.graph.size := (Array.getElem?_eq_some_iff.mp hx).1
  have hfacts : r.factsBefore u = (r.problem.run r.bound).input.getD u ∅ :=
    congrFun (Problem.inputOf_solution_of_size hsize) u
  rw [hfacts]
  refine Problem.lookup_zip hnodup (i := u) (by rw [Array.getElem?_toList]; exact hx) ?_
  simp [hsize, hu]

theorem mem_defUsesAt {facts : FactSet Nat} {u : Nat} {use : NodeId} {f : DefUse} :
    f ∈ r.defUsesAt facts u use ↔ f.use = use ∧ f.var ∈ r.usedAt u ∧
      ∃ d ∈ facts, r.definedAt? d = some f.var ∧ r.graph.node? d = some f.definition := by
  simp only [defUsesAt, definitionsOf, List.mem_flatMap, List.mem_filterMap, List.mem_filter,
    decide_eq_true_eq, Option.map_eq_some_iff]
  constructor
  · rintro ⟨v, hv, d, ⟨hd, hdefined⟩, n, hn, rfl⟩
    exact ⟨rfl, hv, d, hd, hdefined, hn⟩
  · rintro ⟨rfl, hv, d, hd, hdefined, hn⟩
    exact ⟨f.var, hv, d, ⟨hd, hdefined⟩, f.definition, hn, rfl⟩

theorem mem_defUses (hnodup : r.graph.nodes.toList.Nodup) {f : DefUse} :
    f ∈ r.defUses ↔ ∃ d u, r.Flow d u f.var ∧ r.graph.node? d = some f.definition ∧
      r.graph.node? u = some f.use := by
  have hnode : ∀ x u, (x, u) ∈ r.graph.nodes.toList.zipIdx ↔ r.graph.node? u = some x := by
    intro x u
    rw [List.mk_mem_zipIdx_iff_getElem?, Array.getElem?_toList]
    rfl
  dsimp only [defUses]
  rw [FactSet.mem_ofList, List.mem_flatMap]
  constructor
  · rintro ⟨⟨x, u⟩, hmem, hf⟩
    have hx := (hnode x u).mp hmem
    simp only [before?_solve hnodup hx] at hf
    obtain ⟨rfl, hv, d, hd, hdefined, hn⟩ := mem_defUsesAt.mp hf
    exact ⟨d, u, ⟨hv, hd, hdefined⟩, hn, hx⟩
  · rintro ⟨d, u, ⟨hv, hd, hdefined⟩, hn, hx⟩
    refine ⟨(f.use, u), (hnode f.use u).mpr hx, ?_⟩
    simp only [before?_solve hnodup hx]
    exact mem_defUsesAt.mpr ⟨rfl, hv, d, hd, hdefined, hn⟩

end DataFlow.ReachingDefs

/-- The edges that the part of a method adds. -/
def recordedLinks (g : Graph) (method : NodeId) : List Link :=
  match ReachingDefs.ofMethod g method with
  | .ok r => r.defUses.toList.map DefUse.link
  | .error _ => []

theorem nodup_recordedLinks (g : Graph) (method : NodeId) : (recordedLinks g method).Nodup := by
  unfold recordedLinks
  split
  · exact (FactSet.nodup_toList _).map DefUse.link_injective
  · exact List.nodup_nil

theorem mem_recordedLinks {g : Graph} {method : NodeId} {r : ReachingDefs}
    (hr : ReachingDefs.ofMethod g method = .ok r) {l : Link} :
    l ∈ recordedLinks g method ↔ r.Records l := by
  obtain ⟨hfg, _, _⟩ := ReachingDefs.eq_of_ofMethod hr
  obtain ⟨_, hbuilt⟩ := FlowGraph.built_of_ofMethod hfg
  simp only [recordedLinks, hr, List.mem_map]
  constructor
  · rintro ⟨f, hf, rfl⟩
    obtain ⟨d, u, hflow, hd, hu⟩ := (ReachingDefs.mem_defUses hbuilt.nodup_nodes).mp hf
    exact ⟨d, u, f.var, hflow, hd, hu, rfl⟩
  · rintro ⟨d, u, v, hflow, hd, hu, hedge⟩
    refine ⟨⟨l.src, l.dst, v⟩, (ReachingDefs.mem_defUses hbuilt.nodup_nodes).mpr ?_, ?_⟩
    · exact ⟨d, u, hflow, hd, hu⟩
    · cases l
      cases hedge
      rfl

/-! ## Graphs with more edges -/

/-- A graph with more edges, added one after the other, and otherwise unchanged. -/
structure Graph.Extends (g h : Graph) (added : List Link) : Prop where
  wellFormed : h.WellFormed
  nodes : h.nodes = g.nodes
  index : h.index = g.index
  /-- The edges that were there are in their slots. -/
  arcs : ∀ k a, g.arcs.get? k = some a → h.arcs.get? k = some a
  links : h.links = added.reverse ++ g.links

namespace Graph

variable {g h f : Graph} {added more : List Link}

theorem WellFormed.extends_nil (hg : g.WellFormed) : g.Extends g [] :=
  ⟨hg, rfl, rfl, fun _ _ ha => ha, rfl⟩

theorem Extends.trans (hgh : g.Extends h added) (hhf : h.Extends f more) :
    g.Extends f (added ++ more) where
  wellFormed := hhf.wellFormed
  nodes := hhf.nodes.trans hgh.nodes
  index := hhf.index.trans hgh.index
  arcs := fun k a ha => hhf.arcs k a (hgh.arcs k a ha)
  links := by rw [hhf.links, hgh.links, List.reverse_append, List.append_assoc]

theorem WellFormed.extends_addEdge (hg : g.WellFormed) {src dst : NodeId} {edge : Edge}
    (hok : g.addEdge src dst edge = .ok h) : g.Extends h [⟨src, dst, edge⟩] := by
  obtain ⟨_, _, hshows⟩ := hg.shows_of_addEdge hok
  obtain ⟨i, j, _, _, rfl⟩ := addEdge_eq_ok hok
  refine ⟨hshows.wellFormed, rfl, rfl, fun k a ha => ?_, hshows.links_eq⟩
  have hne : k ≠ (g.arcs.insert ⟨i, j, edge⟩).1 := by
    rintro rfl
    rw [hg.arcs.get?_insert_fst] at ha
    cases ha
  rw [arcs_join, hg.arcs.get?_insert, if_neg hne, ha]

/-- As many edges are there as are listed. -/
theorem WellFormed.edgeCount_eq (hg : g.WellFormed) : g.edgeCount = g.links.length := by
  have hall : ∀ a ∈ g.arcs.elements, (g.link? a).isSome := by
    intro a ha
    obtain ⟨k, hk⟩ := Slots.mem_elements.mp ha
    obtain ⟨s, d, _, _, hlink⟩ := hg.link?_eq hk
    simp [hlink]
  have hlength : g.allLinks.length = g.arcs.elements.length := by
    rw [allLinks, List.length_filterMap_eq_countP, List.countP_eq_length.mpr hall]
  rw [← hg.perm_allLinks.length_eq, hlength]
  rfl

end Graph

/-- What creating an edge did that succeeded. -/
theorem Progress.apply_create_eq_none {p q : Progress} {l : Link}
    (h : p.apply l.create = (q, none)) : ∃ g, p.graph.addEdge l.src l.dst l.edge = .ok g ∧
      q = { p with graph := g, undo := [.removeEdge l.src l.dst l.edge] :: p.undo } := by
  simp only [Link.create, apply, resolve, bind, Except.bind] at h
  cases hadd : p.graph.addEdge l.src l.dst l.edge with
  | error e =>
    rw [hadd] at h
    cases h
  | ok g =>
    rw [hadd] at h
    cases h
    exact ⟨g, rfl, rfl⟩

theorem Progress.extends_applyAll {p q : Progress} {ls : List Link} (hp : p.graph.WellFormed)
    (h : p.applyAll (ls.map Link.create) = (q, none)) : p.graph.Extends q.graph ls := by
  induction ls generalizing p with
  | nil =>
    cases h
    exact hp.extends_nil
  | cons l ls ih =>
    obtain ⟨p₁, hstep, hrest⟩ := applyAll_cons_eq_none h
    obtain ⟨g, hadd, rfl⟩ := apply_create_eq_none hstep
    have hextends := hp.extends_addEdge hadd
    exact hextends.trans (ih hextends.wellFormed hrest)

/-! ## The run -/

namespace Run

variable {r s : Run} {i : Nat}

theorem extends_chunk {d : Diff} {ls : List Link} (hr : r.graph.WellFormed)
    (hsink : r.sink = none) (hd : d.changes = ls.map Link.create)
    (h : r.chunk i d = (s, none)) :
    r.graph.Extends s.graph ls ∧ s.sink = none ∧
      s.summary.committedEdits = r.summary.committedEdits + ls.length := by
  obtain ⟨a, t, hresult, hkeep, rfl⟩ := chunk_eq_none h
  have hsame : t = r.applied i d a := by
    have hnone : (r.applied i d a).sink = none := hsink
    simp only [keep, hnone] at hkeep
    exact (Except.ok.inj hkeep).symm
  subst hsame
  obtain ⟨p, hall, hgraph, _⟩ := Graph.apply_eq_ok hresult
  rw [hd] at hall
  refine ⟨?_, hsink, ?_⟩
  · have hextends := Progress.extends_applyAll hr hall
    rw [← hgraph] at hextends
    exact hextends
  · have hsize : d.size = ls.length := by rw [Diff.size, hd, List.length_map]
    change r.summary.committedEdits + d.size = _
    rw [hsize]

/-- The script of a method adds its edges.  Where there are none, there is no script. -/
theorem extends_chunks_defUseDiffs {rd : ReachingDefs} (hr : r.graph.WellFormed)
    (hsink : r.sink = none) (h : r.chunks i (defUseDiffs rd) = (s, none)) :
    r.graph.Extends s.graph (rd.defUses.toList.map DefUse.link) ∧ s.sink = none ∧
      s.summary.committedEdits =
        r.summary.committedEdits + (rd.defUses.toList.map DefUse.link).length := by
  unfold defUseDiffs at h
  split at h
  · next hnone =>
    cases h
    rw [hnone]
    exact ⟨hr.extends_nil, hsink, rfl⟩
  · have hd := changes_defUseDiff rd.defUses.toList
    rw [chunks] at h
    cases hc : r.chunk i (defUseDiff rd.defUses.toList) with
    | mk t error =>
      rw [hc] at h
      cases error with
      | some e => cases h
      | none =>
        cases h
        exact extends_chunk hr hsink (by rw [hd, List.map_map]; rfl) hc

theorem emitted_of_reachingDefsPart {g : Graph} {method : NodeId} {ds : List Diff}
    (h : reachingDefsPart method g = .emitted ds) :
    ∃ rd, ReachingDefs.ofMethod g method = .ok rd ∧ ds = defUseDiffs rd := by
  unfold reachingDefsPart at h
  split at h
  · next rd hrd =>
    cases h
    exact ⟨rd, hrd, rfl⟩
  · cases h
  · cases h

/-- Every part adds the edges that it would add to the first graph. -/
theorem extends_sequential {g : Graph} {methods : List NodeId} (hg : Graph.Annotated g r.graph)
    (hr : r.graph.WellFormed) (hsink : r.sink = none)
    (h : r.sequential i (methods.map reachingDefsPart) = (s, none)) :
    (∀ method ∈ methods, ∃ rd, ReachingDefs.ofMethod g method = .ok rd) ∧
      r.graph.Extends s.graph (methods.flatMap (recordedLinks g)) ∧
      s.summary.committedEdits =
        r.summary.committedEdits + (methods.flatMap (recordedLinks g)).length := by
  induction methods generalizing r i with
  | nil =>
    cases h
    exact ⟨fun _ hm => absurd hm List.not_mem_nil, hr.extends_nil, rfl⟩
  | cons method methods ih =>
    obtain ⟨ds, t, _, hpart, hchunks, hrest⟩ := sequential_cons_eq_none h
    have hdiffs := annotates_reachingDefsPart method r.graph ds hpart
    have hannotated : Graph.Annotated r.graph t.graph := by
      have hstep := annotated_chunks (r := r.nextPart) (i := i) hr.consistent hdiffs
      rw [hchunks] at hstep
      exact hstep
    rw [← hg.reachingDefsPart_eq] at hpart
    obtain ⟨rd, hrd, rfl⟩ := emitted_of_reachingDefsPart hpart
    have hlinks : recordedLinks g method = rd.defUses.toList.map DefUse.link := by
      simp only [recordedLinks, hrd]
    obtain ⟨hextends, hsink', hcount⟩ :=
      extends_chunks_defUseDiffs (r := r.nextPart) hr hsink hchunks
    obtain ⟨hmethods, hextends', hcount'⟩ :=
      ih (hg.trans hannotated) hextends.wellFormed hsink' hrest
    rw [← hlinks] at hextends hcount
    refine ⟨List.forall_mem_cons.mpr ⟨⟨rd, hrd⟩, hmethods⟩, ?_, ?_⟩
    · rw [List.flatMap_cons]
      exact hextends.trans hextends'
    · rw [hcount', hcount, List.flatMap_cons, List.length_append, Nat.add_assoc]
      rfl

end Run

theorem Pass.runOn_eq_finished {p : Pass} {g : Graph} {summary : Summary}
    (h : (p.runOn g).ending = .finished summary) :
    ∃ r, (p.start g).sequential 0 (p.parts g) = (r, none) ∧ r.summary = summary ∧
      p.runOn g = RunResult.of r none := by
  have hrun : p.runOn g = RunResult.of ((p.start g).sequential 0 (p.parts g)).1
      ((p.start g).sequential 0 (p.parts g)).2 := rfl
  cases hseq : (p.start g).sequential 0 (p.parts g) with
  | mk r stop =>
    rw [hseq] at hrun
    rw [hrun] at h
    obtain ⟨rfl, hsummary⟩ := RunResult.eq_finished h
    exact ⟨r, rfl, hsummary, hrun⟩

/-! ## Methods -/

namespace Graph

variable {g : Graph}

theorem perm_methods (g : Graph) :
    g.methods.Perm ((g.allNodes.filter fun n => n.kind.isMethod).map Node.id) :=
  List.mergeSort_perm _ _

theorem WellFormed.nodup_methods (hg : g.WellFormed) : g.methods.Nodup := by
  rw [(perm_methods g).nodup_iff]
  exact hg.nodup_ids.sublist (List.filter_sublist.map _)

theorem WellFormed.mem_methods (hg : g.WellFormed) {id : NodeId} :
    id ∈ g.methods ↔ (g.kind? id).any NodeKind.isMethod = true := by
  rw [(perm_methods g).mem_iff, List.mem_map]
  simp only [List.mem_filter]
  constructor
  · rintro ⟨n, ⟨hn, hmethod⟩, rfl⟩
    rw [kind?, hg.mem_allNodes.mp hn]
    exact hmethod
  · intro hmethod
    cases hn : g.node? id with
    | none => simp [kind?, hn] at hmethod
    | some n =>
      have hid := hg.id_of_node? hn
      refine ⟨n, ⟨hg.mem_allNodes.mpr (by rw [hid, hn]), ?_⟩, hid⟩
      simpa [kind?, hn] using hmethod

end Graph

/-- A run of the pass adds the edges from definitions to the uses that they reach, each once for
every method, and nothing else is changed.  The summary counts the edges. -/
theorem runOn_records_defUses {g : Graph} (hg : g.WellFormed) {summary : Summary}
    (hfinished : (reachingDefsPass.runOn g).ending = .finished summary) :
    (g.methods.Nodup ∧ ∀ id, id ∈ g.methods ↔ (g.kind? id).any NodeKind.isMethod = true) ∧
      ∃ added : NodeId → List Link,
        (∀ method ∈ g.methods, ∃ r, ReachingDefs.ofMethod g method = .ok r ∧
          (added method).Nodup ∧ ∀ l, l ∈ added method ↔ r.Records l) ∧
        g.Extends (reachingDefsPass.runOn g).graph (g.methods.flatMap added) ∧
        summary.committedEdits = (g.methods.flatMap added).length ∧
        (reachingDefsPass.runOn g).graph.edgeCount = g.edgeCount + summary.committedEdits := by
  obtain ⟨r, hseq, rfl, hrun⟩ := Pass.runOn_eq_finished hfinished
  obtain ⟨hmethods, hextends, hcount⟩ :=
    Run.extends_sequential (r := reachingDefsPass.start g) hg.consistent.annotated hg rfl hseq
  have hedits : r.summary.committedEdits = (g.methods.flatMap (recordedLinks g)).length :=
    hcount.trans (Nat.zero_add _)
  rw [hrun]
  refine ⟨⟨hg.nodup_methods, fun id => hg.mem_methods⟩, recordedLinks g, ?_, hextends, hedits, ?_⟩
  · intro method hmethod
    obtain ⟨rd, hrd⟩ := hmethods method hmethod
    exact ⟨rd, hrd, nodup_recordedLinks g method, fun l => mem_recordedLinks hrd⟩
  · have hlinks : r.graph.links = (g.methods.flatMap (recordedLinks g)).reverse ++ g.links :=
      hextends.links
    change r.graph.edgeCount = _
    rw [hextends.wellFormed.edgeCount_eq, hg.edgeCount_eq, hlinks, hedits, List.length_append,
      List.length_reverse, Nat.add_comm]

/-- The parameter reaches the call, and is recorded once although the call reads it twice. -/
theorem passThrough_records_defUse : ∃ r l,
    passThrough.WellFormed ∧
      (reachingDefsPass.runOn passThrough).ending = .finished
        { pass := "ReachingDefPass", parts := 1, chunks := 1, committedEdits := 1
          expandedEdits := 2 } ∧
      ReachingDefs.ofMethod passThrough ⟨1⟩ = .ok r ∧ r.Records l ∧
      passThrough.Extends (reachingDefsPass.runOn passThrough).graph [l] := by
  have hg : passThrough.WellFormed := Graph.wellFormed_built _
  have hending : (reachingDefsPass.runOn passThrough).ending = .finished
      { pass := "ReachingDefPass", parts := 1, chunks := 1, committedEdits := 1
        expandedEdits := 2 } := by cbv
  have hmethods : passThrough.methods = [⟨1⟩] := by decide +kernel
  obtain ⟨_, added, hadded, hextends, hcount, _⟩ := runOn_records_defUses hg hending
  rw [hmethods] at hadded hextends hcount
  obtain ⟨r, hr, _, hrecords⟩ := hadded ⟨1⟩ (List.mem_singleton.mpr rfl)
  rw [List.flatMap_singleton] at hextends hcount
  obtain ⟨l, hl⟩ := List.length_eq_one_iff.mp hcount.symm
  rw [hl] at hextends
  exact ⟨r, l, hg, hending, hr, (hrecords l).mp (by rw [hl]; simp), hextends⟩

end CodeGraph
