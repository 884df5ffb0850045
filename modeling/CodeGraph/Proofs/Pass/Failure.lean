import CodeGraph.Proofs.Diff.Restore
import CodeGraph.Proofs.Pass.Outcome
import Mathlib

/-!
# Runs that fail

A run can fail before a part, in a part, or at a script of a part.

* If a script cannot be applied, it is taken back, so the content is that of the
  scripts before it.  Where a file brought one id twice, a removal cannot always be
  taken back (`raze_loses_edge`).
* If its overlay cannot be stored, it is not taken back.  The store has the overlays
  of the scripts before it, and the graph has the script as well.
-/

namespace CodeGraph

namespace Pass

/-! ## Scripts that are taken back -/

variable {p : Pass} {mode : Mode} {g h h' : Graph} {i : Nat} {as bs : List Applied} {d : Diff}
  {ds : List Diff} {pool pool' : Option KeyPool} {inverse : Bool}

/-- The parts emit only scripts of the kinds that analyses record. -/
def Records (p : Pass) (g : Graph) : Prop :=
  ∀ part ∈ p.parts g, ∀ h ds, part h = .emitted ds → ∀ d ∈ ds, d.Recorded

/-- What is kept by every script that can be applied. -/
theorem applyEach_induction (Keeps : Graph → Prop) (Good : Diff → Prop)
    (hkeeps : ∀ h d pool a, Keeps h → Good d → (h.apply d pool inverse).result = .ok a →
      Keeps (h.apply d pool inverse).graph)
    (hh : Keeps h) (hds : ∀ d ∈ ds, Good d)
    (heach : h.applyEach pool inverse ds = some (h', pool', bs)) : Keeps h' := by
  induction ds generalizing h pool bs with
  | nil =>
    cases heach
    exact hh
  | cons d ds ih =>
    obtain ⟨hd, hds⟩ := List.forall_mem_cons.mp hds
    cases hresult : (h.apply d pool inverse).result with
    | error e =>
      simp only [Graph.applyEach, hresult] at heach
      cases heach
    | ok a =>
      simp only [Graph.applyEach, hresult] at heach
      obtain ⟨⟨h₁, pool₁, bs₁⟩, hrest, heq⟩ := Option.map_eq_some_iff.mp heach
      cases heq
      exact ih (hkeeps h d pool a hh hd hresult) hds hrest

/-- What every script keeps holds of the graph before each part. -/
theorem Completed.induction (Keeps : Graph → Prop) (Good : Diff → Prop)
    (hkeeps : ∀ h d pool a, Keeps h → Good d → (h.apply d pool mode.inverse).result = .ok a →
      Keeps (h.apply d pool mode.inverse).graph)
    (hg : Keeps g)
    (hgood : ∀ part ∈ p.parts g, ∀ h ds, part h = .emitted ds → ∀ d ∈ ds, Good d)
    (hcompleted : p.Completed mode g i as h) : Keeps h := by
  induction hcompleted with
  | start => exact hg
  | part before hpool hpart hemitted heach ih =>
    exact applyEach_induction Keeps Good hkeeps ih
      (hgood _ (List.mem_of_getElem? hpart) _ _ hemitted) heach

theorem Reaches.induction (Keeps : Graph → Prop) (Good : Diff → Prop)
    (hkeeps : ∀ h d pool a, Keeps h → Good d → (h.apply d pool mode.inverse).result = .ok a →
      Keeps (h.apply d pool mode.inverse).graph)
    (hg : Keeps g)
    (hgood : ∀ part ∈ p.parts g, ∀ h ds, part h = .emitted ds → ∀ d ∈ ds, Good d)
    (hreaches : p.Reaches mode g d as h pool) : Keeps h ∧ Good d := by
  cases hreaches with
  | script before hpool hpart hemitted heach =>
    have hall := hgood _ (List.mem_of_getElem? hpart) _ _ hemitted
    rw [List.forall_mem_append, List.forall_mem_cons] at hall
    have hbefore := before.induction Keeps Good hkeeps hg hgood
    exact ⟨applyEach_induction Keeps Good hkeeps hbefore hall.1 heach, hall.2.1⟩

/-- A script that fails in a run is taken back. -/
theorem Reaches.content_of_error {e : GraphError}
    (hg : g.WellFormed ∨ g.Consistent ∧ p.Records g) (hreaches : p.Reaches mode g d as h pool)
    (he : e ≠ .overflow) (herror : (h.apply d pool mode.inverse).result = .error e) :
    (h.apply d pool mode.inverse).graph.content = h.content := by
  rcases hg with hg | ⟨hg, hrecords⟩
  · obtain ⟨hh, _⟩ := hreaches.induction Graph.WellFormed (fun _ => True)
      (fun _ _ _ _ hh _ hresult => hh.apply hresult) hg (fun _ _ _ _ _ _ _ => trivial)
    exact hh.content_of_error he herror
  · obtain ⟨hh, hd⟩ := hreaches.induction Graph.Consistent Diff.Recorded
      (fun _ _ _ _ hh hd hresult => hh.apply hd hresult) hg hrecords
    exact (hh.alike_of_error hd he herror).content_eq

/-- A run that fails leaves the content of the scripts before the failure, and their overlays.
Everything else in the store is as before.  Where it fails at a script, no id may be taken twice, or
the parts record no removals, which is so for all that a `DiffBuilder` made. -/
theorem content_of_failed_run (p : Pass) (g : Graph) (mode : Mode) (cause : PassError)
    (hg : ∀ e, cause = .apply e → g.WellFormed ∨ g.Consistent ∧ p.Records g)
    (hcause : ∀ e, cause ≠ .storage e) (hending : (mode.run p g).ending = .failed cause) :
    ∃ as h, p.FailsAfter mode g cause as h ∧ (mode.run p g).graph.content = h.content ∧
      mode.Stores p.name as (mode.run p g).store := by
  obtain ⟨s, hended, hrun⟩ := Mode.ended_run hending hcause
  rw [hrun]
  cases hended with
  | before hfails htracks => exact ⟨_, _, hfails, rfl, htracks.keeps.stores⟩
  | @script as d h pool hreaches hgraph hrefused htracks =>
    cases cause with
    | missingKeyPool | partFailed | workerCrashed => exact hrefused.elim
    | storage e => exact absurd rfl (hcause e)
    | apply e =>
      rw [hrun] at hending
      have he : e ≠ .overflow := by
        rintro rfl
        exact (RunResult.eq_failed hending).2 rfl
      refine ⟨as, h, .apply hreaches hrefused, ?_, htracks.keeps.stores⟩
      change s.graph.content = h.content
      rw [hgraph]
      exact hreaches.content_of_error (hg e rfl) he hrefused

/-- A graph as a file may bring it, with two nodes of one id.  The index knows the second. -/
def twins : Graph :=
  Graph.ofRows (.ofCells [some ⟨⟨1⟩, .block, {}⟩, some ⟨⟨1⟩, .block, {}⟩])
    (.ofCells [some ⟨0, 1, ⟨.ast, {}⟩⟩]) 2

theorem consistent_twins : twins.Consistent := by
  have hcells : Graph.ofCells? [some ⟨⟨1⟩, .block, {}⟩, some ⟨⟨1⟩, .block, {}⟩]
      [some ⟨0, 1, ⟨.ast, {}⟩⟩] 2 = some twins := rfl
  exact Graph.consistent_of_ofCells? hcells

/-- A pass of two parts.  One of its scripts is empty, and the last one puts a node in before it
names a node that is not there. -/
def annotate : Pass where
  name := "annotate"
  parts := fun _ =>
    [fun _ => .emitted [⟨[.setProperty (.existing ⟨1⟩) "seen" (.bool true)]⟩, ⟨[]⟩,
        ⟨[.createNode ⟨0⟩ .block {}, .createEdge (.existing ⟨1⟩) (.new ⟨0⟩) ⟨.ast, {}⟩]⟩],
      fun _ => .emitted [⟨[.addProperty (.existing ⟨1⟩) "tags" (.str "late")]⟩,
        ⟨[.createNode ⟨0⟩ .block {}, .setProperty (.existing ⟨1⟩) "seen" (.bool false),
          .createEdge (.new ⟨0⟩) (.existing ⟨9⟩) ⟨.ast, {}⟩]⟩]]

theorem records_annotate (g : Graph) : annotate.Records g := by
  simp [Records, annotate, Diff.Recorded, Change.isRecorded]

theorem annotate_keeps_four_scripts : ∃ as h,
    (twins.Consistent ∧ annotate.Records twins) ∧
    ((Mode.storing oneOverlay true "log").run annotate twins).ending =
      .failed (.apply (.nodeNotFound ⟨9⟩)) ∧
    annotate.FailsAfter (.storing oneOverlay true "log") twins (.apply (.nodeNotFound ⟨9⟩)) as h ∧
    ((Mode.storing oneOverlay true "log").run annotate twins).graph.content = h.content ∧
    (Mode.storing oneOverlay true "log").Stores "annotate" as
      ((Mode.storing oneOverlay true "log").run annotate twins).store ∧
    ((Mode.storing oneOverlay true "log").run annotate twins).store.map Store.names =
      some (.ok ["first", "log_annotate_0", "log_annotate_2", "log_annotate_3"]) := by
  have hg : twins.Consistent ∧ annotate.Records twins := ⟨consistent_twins, records_annotate twins⟩
  have hending : ((Mode.storing oneOverlay true "log").run annotate twins).ending =
      .failed (.apply (.nodeNotFound ⟨9⟩)) := by decide +kernel
  obtain ⟨as, h, hfails, hcontent, hstores⟩ := content_of_failed_run annotate twins
    (.storing oneOverlay true "log") _ (fun _ _ => .inr hg) (fun _ => PassError.noConfusion) hending
  exact ⟨as, h, hg, hending, hfails, hcontent, hstores, by decide +kernel⟩

/-- A graph as a file may bring it, with two nodes of one id.  The first of them, which the index
does not know, has an edge to a third node. -/
def hiddenTwin : Graph :=
  Graph.ofRows
    (.ofCells [some ⟨⟨1⟩, .block, {}⟩, some ⟨⟨1⟩, .methodReturn, {}⟩, some ⟨⟨2⟩, .block, {}⟩])
    (.ofCells [some ⟨0, 2, ⟨.ast, {}⟩⟩]) 3

/-- A pass of one script that removes nodes, the last of which is not there. -/
def raze : Pass where
  name := "raze"
  parts := fun _ => [fun _ => .emitted [⟨[.removeNode ⟨1⟩, .removeNode ⟨2⟩, .removeNode ⟨9⟩]⟩]]

/-- The run fails at its first script, and yet the graph is not as it was: with the third node the
edge goes, and it cannot be put back because its other end is no longer found under its id. -/
theorem raze_loses_edge : hiddenTwin.Consistent ∧
    (Mode.inOrder.run raze hiddenTwin).ending = .failed (.apply (.nodeNotFound ⟨9⟩)) ∧
    raze.FailsAfter .inOrder hiddenTwin (.apply (.nodeNotFound ⟨9⟩)) [] hiddenTwin ∧
    hiddenTwin.edgeCount = 1 ∧ (Mode.inOrder.run raze hiddenTwin).graph.edgeCount = 0 ∧
    (Mode.inOrder.run raze hiddenTwin).graph.content ≠ hiddenTwin.content := by
  have hcells : Graph.ofCells?
      [some ⟨⟨1⟩, .block, {}⟩, some ⟨⟨1⟩, .methodReturn, {}⟩, some ⟨⟨2⟩, .block, {}⟩]
      [some ⟨0, 2, ⟨.ast, {}⟩⟩] 3 = some hiddenTwin := rfl
  have hfails : (hiddenTwin.apply ⟨[.removeNode ⟨1⟩, .removeNode ⟨2⟩, .removeNode ⟨9⟩]⟩ none
      false).result = .error (.nodeNotFound ⟨9⟩) := by
    rfl
  have hreaches : raze.Reaches .inOrder hiddenTwin
      ⟨[.removeNode ⟨1⟩, .removeNode ⟨2⟩, .removeNode ⟨9⟩]⟩ [] hiddenTwin none := by
    have hnone : hiddenTwin.applyEach (raze.poolOf 0) false [] = some (hiddenTwin, none, []) := rfl
    exact .script .start nofun rfl rfl hnone
  refine ⟨Graph.consistent_of_ofCells? hcells, by decide +kernel, .apply hreaches hfails,
    by decide +kernel, by decide +kernel, fun hsame => ?_⟩
  have hedges := congrArg (fun c => c.edges.length) hsame
  simp only [Graph.content, List.length_mergeSort, List.length_map] at hedges
  revert hedges
  decide +kernel

/-! ## Overlays that are refused -/

/-- A script whose overlay is refused stays applied.  The store has the overlays of the scripts
before it, so the graph is ahead of the store by this script. -/
theorem graph_of_refused_overlay (p : Pass) (g : Graph) (store : Store) (invert empty : Bool)
    (series : String) (e : StoreError) (hempty : store.isEmpty = .ok empty)
    (hending : (p.runInto g store invert series).ending = .failed (.storage e)) :
    ∃ d as h pool a s, p.Reaches (.storing store invert series) g d as h pool ∧
      (h.apply d pool (invert && !empty)).result = .ok a ∧
      (p.runInto g store invert series).graph = (h.apply d pool (invert && !empty)).graph ∧
      (p.runInto g store invert series).store = some s ∧
      (Mode.storing store invert series).Stores p.name as (some s) ∧
      (Run.overlayOf a = .error e ∨ ∃ o, Run.overlayOf a = .ok o ∧ o.isEmpty = false ∧
        s.add (series ++ "_" ++ p.name ++ "_" ++ Text.natText as.length) o.toBytes = .error e) := by
  have hinverse := Mode.inverse_storing hempty invert series
  obtain ⟨r, hended, hrun⟩ := ended_runInto hempty hending
  cases hended with
  | before hfails htracks => cases hfails
  | @script as d h pool hreaches hgraph hrefused htracks =>
    obtain ⟨a, hresult, hkeep⟩ := hrefused
    obtain ⟨added, s, hsink, hadded, hgrown⟩ := htracks.keeps
    have hrefused := Run.keep_eq_error hsink hkeep
    rw [Run.overlayName, htracks.pass_eq, htracks.chunks_eq] at hrefused
    rw [hinverse] at hresult hgraph
    refine ⟨d, as, h, pool, a, s, hreaches, hresult, ?_, ?_, ⟨added, s, rfl, hadded, hgrown⟩,
      hrefused⟩
    · rw [hrun]
      exact hgraph
    · rw [hrun]
      exact congrArg (Option.map Sink.store) hsink

/-- A store in which the name of the third script of `annotate` is taken. -/
def takenThird : Store := .memory { overlays := [("log_annotate_2", ByteArray.empty)] }

theorem annotate_ahead_of_store : ∃ d as h pool a s,
    (annotate.runInto twins takenThird false "log").ending =
      .failed (.storage (.duplicateOverlay "log_annotate_2")) ∧
    annotate.Reaches (.storing takenThird false "log") twins d as h pool ∧
    (h.apply d pool false).result = .ok a ∧
    (annotate.runInto twins takenThird false "log").graph = (h.apply d pool false).graph ∧
    (annotate.runInto twins takenThird false "log").store = some s ∧
    (Mode.storing takenThird false "log").Stores "annotate" as (some s) ∧
    (annotate.runInto twins takenThird false "log").graph.allNodes.length = 3 := by
  have hending : (annotate.runInto twins takenThird false "log").ending =
      .failed (.storage (.duplicateOverlay "log_annotate_2")) := by decide +kernel
  obtain ⟨d, as, h, pool, a, s, hreaches, hresult, hgraph, hstore, hstores, _⟩ :=
    graph_of_refused_overlay annotate twins takenThird false false "log" _ rfl hending
  exact ⟨d, as, h, pool, a, s, hending, hreaches, hresult, hgraph, hstore, hstores,
    by decide +kernel⟩

/-- A pass of one script that puts in a node. -/
def addBlock : Pass where
  name := "block"
  parts := fun _ => [fun _ => .emitted [⟨[.createNode ⟨0⟩ .block {}]⟩]]

/-- Run a second time into one series, the pass stores no overlay, and yet the graph changes. -/
theorem addBlock_leaves_trace : ∃ g store,
    (addBlock.runInto .empty (.memory {}) false "log").graph = g ∧
    (addBlock.runInto .empty (.memory {}) false "log").store = some store ∧
    store.names = .ok ["log_block_0"] ∧
    (addBlock.runInto g store false "log").ending =
      .failed (.storage (.duplicateOverlay "log_block_0")) ∧
    (addBlock.runInto g store false "log").graph.content ≠ g.content := by
  refine ⟨_, _, rfl, rfl, ?_⟩
  decide +kernel

end Pass

end CodeGraph
