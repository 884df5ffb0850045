import CodeGraph.Proofs.Graph.Flow
import CodeGraph.Proofs.Pass.Outcome
import Mathlib

/-!
# Reaching definitions do not depend on what was recorded

The pass that records reaching definitions adds edges of one kind, and its analysis never reads
edges of this kind.  So the analysis of a method comes to the same before and after any of these
edges were added or removed, and every part of the pass emits the same scripts whichever
parts were run before it.

`Change.Annotates` says that a change only adds or removes such an edge.  What undoes it does so
too.  Hence a script of such changes leaves all that the analysis reads as it was, also when it
fails and is taken back (`Graph.Consistent.annotated_apply`), and so does a run of parts that emit
such scripts (`Run.annotated_sequential`, `Run.annotated_merge`), wherever it stops.
-/

namespace CodeGraph

open CodeGraph.Graph (Annotated)
open DataFlow (FlowGraph ReachingDefs)

/-! ## Operations -/

/-- An operation that adds or removes an edge that records a reaching definition. -/
def Operation.Annotates : Operation → Prop
  | .addEdge _ _ edge | .removeEdge _ _ edge => edge.kind = .reachingDef
  | _ => False

namespace Graph

variable {g g' : Graph}

theorem Consistent.annotated_perform (hg : g.Consistent) {op : Operation} (hop : op.Annotates)
    {answer : Answer} (hok : g.perform op = .ok (answer, g')) : Annotated g g' := by
  cases op with
  | addEdge src dst edge =>
    obtain ⟨h, hadd, hh⟩ := map_eq_ok hok
    cases hh
    exact hg.annotated_addEdge hop hadd
  | removeEdge src dst edge =>
    obtain ⟨⟨removed, h⟩, hremove, hh⟩ := map_eq_ok hok
    cases hh
    exact (hg.annotated_removeEdge hop hremove).1
  | _ => exact hop.elim

theorem Consistent.annotated_run (hg : g.Consistent) {ops : List Operation}
    (hops : ∀ op ∈ ops, op.Annotates) : Annotated g (Operation.run perform g ops).2 :=
  run_induction (Annotated g) Operation.Annotates
    (fun _ _ _ _ hh hop hok => hh.trans (hh.consistent.annotated_perform hop hok)) hg.annotated
    hops

end Graph

/-! ## Changes -/

/-- A change that adds or removes an edge that records a reaching definition. -/
def Change.Annotates : Change → Prop
  | .createEdge _ _ edge | .removeEdge _ _ edge => edge.kind = .reachingDef
  | _ => False

namespace Progress

variable {g : Graph} {p : Progress} {c : Change} {cs : List Change}

/-- What was done so far, and what undoes it, concerns reaching definitions only. -/
structure Annotating (g : Graph) (p : Progress) : Prop where
  annotated : Annotated g p.graph
  undo : ∀ c ∈ p.inverse, c.Annotates

theorem Annotating.commit (hp : Annotating g p) {r : Except GraphError (Graph × List Change)}
    (hr : ∀ h us, r = .ok (h, us) → Annotated p.graph h ∧ ∀ c ∈ us, c.Annotates) :
    Annotating g (p.commit r).1 := by
  cases r with
  | error e => exact hp
  | ok r =>
    obtain ⟨h, us⟩ := r
    obtain ⟨hh, hus⟩ := hr h us rfl
    refine ⟨hp.annotated.trans hh, ?_⟩
    intro c hc
    simp only [Progress.commit, inverse, List.flatten_cons, List.mem_append] at hc
    exact hc.elim (hus c) (hp.undo c)

theorem Annotating.apply (hp : Annotating g p) (hc : c.Annotates) :
    Annotating g (p.apply c).1 := by
  have hconsistent := hp.annotated.consistent
  cases c with
  | createEdge src dst edge =>
    refine hp.commit fun h us hok => ?_
    obtain ⟨s, _, hok⟩ := bind_eq_ok hok
    obtain ⟨d, _, hok⟩ := bind_eq_ok hok
    obtain ⟨g', hadd, hok⟩ := bind_eq_ok hok
    cases hok
    exact ⟨hconsistent.annotated_addEdge hc hadd, List.forall_mem_singleton.mpr hc⟩
  | removeEdge src dst edge =>
    refine hp.commit fun h us hok => ?_
    obtain ⟨⟨removed, g'⟩, hremove, hok⟩ := bind_eq_ok hok
    cases hok
    obtain ⟨hannotated, hkind⟩ := hconsistent.annotated_removeEdge hc hremove
    exact ⟨hannotated, List.forall_mem_singleton.mpr hkind⟩
  | _ => exact hc.elim

theorem Annotating.applyAll (hp : Annotating g p) (hcs : ∀ c ∈ cs, c.Annotates) :
    Annotating g (p.applyAll cs).1 :=
  applyAll_induction (Annotating g) Change.Annotates (fun _ _ hp hc => hp.apply hc) hp hcs

/-- The clean-up makes changes of the same sort. -/
theorem Annotating.rollback (hp : Annotating g p) : Annotating g p.rollback :=
  List.foldlRecOn p.inverse _ hp fun _ hq c hc => hq.apply (hp.undo c hc)

end Progress

/-- A script that only adds or removes edges that record reaching definitions. -/
def Diff.Annotates (d : Diff) : Prop := ∀ c ∈ d.changes, c.Annotates

/-- Whether the script succeeds or fails, what the analysis reads is as it was. -/
theorem Graph.Consistent.annotated_apply {g : Graph} (hg : g.Consistent) {d : Diff}
    (hd : d.Annotates) (pool : Option KeyPool) (withInverse : Bool) :
    Annotated g (g.apply d pool withInverse).graph := by
  have hstart : Progress.Annotating g { graph := g, pool } :=
    ⟨hg.annotated, fun c hc => by cases hc⟩
  have hend := hstart.applyAll hd
  cases hall : Progress.applyAll { graph := g, pool } d.changes with
  | mk p error =>
    rw [hall] at hend
    cases error with
    | none =>
      rw [Graph.apply_of_applyAll_none hall]
      exact hend.annotated
    | some e =>
      by_cases he : e = .overflow
      · subst he
        rw [Graph.apply_of_crash hall]
        exact hend.annotated
      · rw [Graph.apply_of_applyAll_some hall he]
        exact hend.rollback.annotated

/-! ## Runs -/

/-- A part that emits such scripts only. -/
def PartResult.Annotates (result : PartResult) : Prop :=
  ∀ ds, result = .emitted ds → ∀ d ∈ ds, d.Annotates

namespace Run

variable {r : Run} {i : Nat} {d : Diff}

theorem graph_chunk (r : Run) (i : Nat) (d : Diff) :
    (r.chunk i d).1.graph = (r.application i d).graph := by
  cases hresult : (r.application i d).result with
  | error e => rw [chunk_of_error hresult]; rfl
  | ok a =>
    cases hkeep : (r.applied i d a).keep a with
    | error e => rw [chunk_of_keep_error hresult hkeep]; rfl
    | ok s =>
      rw [chunk_of_ok hresult hkeep]
      exact (keep_graph hkeep).1

theorem annotated_chunks (hr : r.graph.Consistent) {ds : List Diff}
    (hds : ∀ d ∈ ds, d.Annotates) : Annotated r.graph (r.chunks i ds).1.graph := by
  induction ds generalizing r with
  | nil => exact hr.annotated
  | cons d ds ih =>
    obtain ⟨hd, hds⟩ := List.forall_mem_cons.mp hds
    have hstep : Annotated r.graph (r.chunk i d).1.graph := by
      rw [graph_chunk]
      exact hr.annotated_apply hd _ _
    rw [chunks]
    cases hc : r.chunk i d with
    | mk s error =>
      rw [hc] at hstep
      cases error with
      | none => exact hstep.trans (ih hstep.consistent hds)
      | some e => exact hstep

/-- Parts that are run in order leave what the analysis reads as it was, wherever the run stops. -/
theorem annotated_sequential (hr : r.graph.Consistent) {parts : List Part}
    (hparts : ∀ part ∈ parts, ∀ g, (part g).Annotates) :
    Annotated r.graph (r.sequential i parts).1.graph := by
  induction parts generalizing r i with
  | nil => exact hr.annotated
  | cons part parts ih =>
    obtain ⟨hpart, hparts⟩ := List.forall_mem_cons.mp hparts
    cases hpool : r.poolMissing? i with
    | some e =>
      simp only [sequential, hpool]
      exact hr.annotated
    | none =>
      cases hresult : part r.graph with
      | crashed =>
        simp only [sequential, hpool, hresult]
        exact hr.annotated
      | failed message =>
        simp only [sequential, hpool, hresult]
        exact hr.annotated
      | emitted ds =>
        have hchunks : Annotated r.graph (r.nextPart.chunks i ds).1.graph :=
          annotated_chunks (r := r.nextPart) hr (hpart r.graph ds hresult)
        cases hc : r.nextPart.chunks i ds with
        | mk s error =>
          rw [hc] at hchunks
          cases error with
          | none =>
            rw [sequential_cons_of_emitted hpool hresult hc]
            exact hchunks.trans (ih hchunks.consistent hparts)
          | some e =>
            rw [sequential_cons_of_chunks_error hpool hresult hc]
            exact hchunks

theorem annotated_merge (hr : r.graph.Consistent) {results : List PartResult}
    (hresults : ∀ result ∈ results, result.Annotates) :
    Annotated r.graph (r.merge i results).1.graph := by
  induction results generalizing r i with
  | nil => exact hr.annotated
  | cons result results ih =>
    obtain ⟨hresult, hrest⟩ := List.forall_mem_cons.mp hresults
    unfold merge
    cases r.poolMissing? i with
    | some e => exact hr.annotated
    | none =>
      simp only
      cases result with
      | crashed => exact hr.annotated
      | failed message => exact hr.annotated
      | emitted ds =>
        have hchunks : Annotated r.graph (r.chunks i ds).1.graph :=
          annotated_chunks hr (hresult ds rfl)
        simp only
        cases hc : r.chunks i ds with
        | mk s error =>
          rw [hc] at hchunks
          cases error with
          | none => exact hchunks.trans (ih hchunks.consistent hrest)
          | some e => exact hchunks

end Run

/-- A run of a pass whose parts only record reaching definitions, in any of the three ways. -/
theorem Mode.annotated_run (mode : Mode) {p : Pass} {g : Graph} (hg : g.Consistent)
    (hparts : ∀ part ∈ p.parts g, ∀ h, (part h).Annotates) :
    Annotated g (mode.run p g).graph := by
  cases mode with
  | inOrder => exact Run.annotated_sequential (r := p.start g) hg hparts
  | atOnce =>
    refine Run.annotated_merge (r := (p.start g).withParts _) hg ?_
    rintro result hresult
    obtain ⟨part, hpart, rfl⟩ := List.mem_map.mp hresult
    exact hparts part hpart g
  | storing store invert series =>
    simp only [Mode.run, Pass.runInto]
    cases store.isEmpty with
    | error e => exact hg.annotated
    | ok empty =>
      exact Run.annotated_sequential (r := { p.start g with sink := _ }) hg hparts

/-! ## The pass -/

/-- The edge that records a definition and its use. -/
def DefUse.link (d : DefUse) : Link :=
  ⟨d.definition, d.use, ⟨.reachingDef, Properties.empty.insert "variable" (.str d.var)⟩⟩

/-- The change that creates an edge between nodes of the graph. -/
def Link.create (l : Link) : Change := .createEdge (.existing l.src) (.existing l.dst) l.edge

theorem changes_defUseDiff (flows : List DefUse) :
    (defUseDiff flows).changes = flows.map fun d => d.link.create := by
  have hpush : ∀ (cs : List Change) (b : DiffBuilder),
      (cs.foldl DiffBuilder.push b).changes.toList = b.changes.toList ++ cs := by
    intro cs
    induction cs with
    | nil => exact fun b => (List.append_nil _).symm
    | cons c cs ih =>
      intro b
      rw [List.foldl_cons, ih, DiffBuilder.push, Array.toList_push, List.append_assoc,
        List.singleton_append]
  exact hpush (flows.map DefUse.change) {}

theorem annotates_reachingDefsPart (method : NodeId) (g : Graph) :
    (reachingDefsPart method g).Annotates := by
  intro ds hds d hd
  unfold reachingDefsPart at hds
  split at hds
  · next r hr =>
    cases hds
    unfold defUseDiffs at hd
    split at hd
    · cases hd
    · obtain rfl := List.mem_singleton.mp hd
      intro c hc
      rw [changes_defUseDiff] at hc
      obtain ⟨flow, _, rfl⟩ := List.mem_map.mp hc
      rfl
  · cases hds
  · cases hds

theorem annotates_of_mem_map {methods : List NodeId} :
    ∀ part ∈ methods.map reachingDefsPart, ∀ g, (part g).Annotates := by
  intro part hpart g
  obtain ⟨method, _, rfl⟩ := List.mem_map.mp hpart
  exact annotates_reachingDefsPart method g

/-- The analysis of every method comes to the same on two graphs. -/
structure AnalysedAlike (g h : Graph) : Prop where
  methods : h.methods = g.methods
  flowGraph : ∀ method, FlowGraph.ofMethod h method = FlowGraph.ofMethod g method
  reachingDefs : ∀ method, ReachingDefs.ofMethod h method = ReachingDefs.ofMethod g method
  part : ∀ method, reachingDefsPart method h = reachingDefsPart method g

theorem Graph.Annotated.analysedAlike {g h : Graph} (hgh : Annotated g h) : AnalysedAlike g h where
  methods := hgh.methods_eq.symm
  flowGraph := fun method => (hgh.flowGraph_eq method).symm
  reachingDefs := fun method => (hgh.reachingDefs_eq method).symm
  part := fun method => (hgh.reachingDefsPart_eq method).symm

/-- Edges that record reaching definitions never influence the analysis: not when they are added and
removed one by one, not when they come from parts of the pass that were run before in any order and
up to any point, and not when they come from a whole run of the pass. -/
theorem analysedAlike_of_annotations (g : Graph) (hg : g.Consistent) :
    (∀ ops, (∀ op ∈ ops, op.Annotates) →
      AnalysedAlike g (Operation.run Graph.perform g ops).2) ∧
    (∀ (r : Run) (i : Nat) (methods : List NodeId), r.graph = g →
      AnalysedAlike g (r.sequential i (methods.map reachingDefsPart)).1.graph) ∧
    reachingDefsPass.Independent g ∧
    ∀ mode : Mode, AnalysedAlike g (mode.run reachingDefsPass g).graph ∧
      reachingDefsPass.parts (mode.run reachingDefsPass g).graph = reachingDefsPass.parts g := by
  have hrun : ∀ (r : Run) (i : Nat) (methods : List NodeId), r.graph = g →
      AnalysedAlike g (r.sequential i (methods.map reachingDefsPart)).1.graph := by
    rintro r i methods rfl
    exact (Run.annotated_sequential hg annotates_of_mem_map).analysedAlike
  refine ⟨fun ops hops => (hg.annotated_run hops).analysedAlike, hrun, ?_, fun mode => ?_⟩
  · intro before part after s hsplit hseq
    obtain ⟨methods, rest, _, rfl, hrest⟩ := List.map_eq_append_iff.mp hsplit
    obtain ⟨method, _, _, rfl, _⟩ := List.map_eq_cons_iff.mp hrest
    have halike := hrun (reachingDefsPass.start g) 0 methods rfl
    rw [hseq] at halike
    exact halike.part method
  · have halike := (mode.annotated_run (p := reachingDefsPass) hg
      annotates_of_mem_map).analysedAlike
    exact ⟨halike, congrArg (List.map reachingDefsPart) halike.methods⟩

/-- A method whose only call reads its parameter twice. -/
def passThrough : Graph :=
  Graph.built
    [.addNode (.method "f" "f") {}, .addNode .methodReturn {}, .addNode (.parameter "x" 0) {},
      .addNode (.call "print" "print(x, x)") {}, .addNode (.identifier "x" 1) {},
      .addNode (.identifier "x" 2) {}, .addEdge ⟨1⟩ ⟨2⟩ ⟨.ast, {}⟩, .addEdge ⟨1⟩ ⟨3⟩ ⟨.ast, {}⟩,
      .addEdge ⟨1⟩ ⟨4⟩ ⟨.cfg, {}⟩, .addEdge ⟨4⟩ ⟨2⟩ ⟨.cfg, {}⟩, .addEdge ⟨4⟩ ⟨5⟩ ⟨.argument, {}⟩,
      .addEdge ⟨4⟩ ⟨6⟩ ⟨.argument, {}⟩]

theorem passThrough_analysedAlike :
    passThrough.Consistent ∧
      (∃ d, reachingDefsPart ⟨1⟩ passThrough = .emitted [d]) ∧
      AnalysedAlike passThrough (Operation.run Graph.perform passThrough
        [.addEdge ⟨4⟩ ⟨2⟩ ⟨.reachingDef, {}⟩, .addEdge ⟨1⟩ ⟨5⟩ ⟨.reachingDef, {}⟩,
          .removeEdge ⟨4⟩ ⟨2⟩ ⟨.reachingDef, {}⟩]).2 ∧
      reachingDefsPass.Independent passThrough := by
  have hconsistent : passThrough.Consistent := Graph.consistent_empty.run _
  have hemitted : reachingDefsPart ⟨1⟩ passThrough =
      .emitted [⟨[(⟨⟨3⟩, ⟨4⟩, "x"⟩ : DefUse).link.create]⟩] := by cbv
  obtain ⟨hops, _, hindependent, _⟩ := analysedAlike_of_annotations passThrough hconsistent
  refine ⟨hconsistent, ⟨_, hemitted⟩, hops _ ?_, hindependent⟩
  simp [Operation.Annotates]

end CodeGraph
