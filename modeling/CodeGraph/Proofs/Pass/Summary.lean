import CodeGraph.Proofs.Diff.Growth
import CodeGraph.Proofs.Pass.Outcome
import CodeGraph.Proofs.Pass.Withdrawal
import Mathlib

/-!
# What a summary says

A run counts as it goes.  A part is counted when it is run, or all parts are at the start.  A script
is counted when it was applied, and numbered when its overlay was kept.  The numbers name the
overlays, so a script without an overlay takes a number too.

`Run.Tallies` relates a run to the scripts that were applied so far, and `Mode.tallies_run` says
what a run in any of the three ways has counted when it comes to its end.  Scripts that builders
have recorded only add to a graph, so the numbers say how the graph has grown as well
(`Pass.Completed.gainsBy`).
-/

namespace CodeGraph

/-- The names of the overlays of scripts.  An empty script has none, but it is counted. -/
def Mode.overlayNames (mode : Mode) (pass : String) (ds : List Diff) : List String :=
  match mode with
  | .storing _ _ series => (ds.zipIdx.filter fun e => !e.1.isEmpty).map fun e =>
      series ++ "_" ++ pass ++ "_" ++ Text.natText e.2
  | _ => []

/-! ## Names -/

section Names

variable {store : Store} {invert : Bool} {series pass : String} {ds : List Diff} {d : Diff}

theorem overlayNames_append (h : d.isEmpty = false) :
    (Mode.storing store invert series).overlayNames pass (ds ++ [d]) =
      (Mode.storing store invert series).overlayNames pass ds ++
        [series ++ "_" ++ pass ++ "_" ++ Text.natText ds.length] := by
  simp [Mode.overlayNames, List.zipIdx_append, h]

theorem overlayNames_append_of_isEmpty (h : d.isEmpty = true) :
    (Mode.storing store invert series).overlayNames pass (ds ++ [d]) =
      (Mode.storing store invert series).overlayNames pass ds := by
  simp [Mode.overlayNames, List.zipIdx_append, h]

theorem nodup_overlayNames (mode : Mode) (pass : String) (ds : List Diff) :
    (mode.overlayNames pass ds).Nodup := by
  cases mode with
  | inOrder | atOnce => exact List.nodup_nil
  | storing store invert series =>
    have hnumbers : ((ds.zipIdx.filter fun e => !e.1.isEmpty).map Prod.snd).Nodup := by
      refine List.Nodup.sublist (List.filter_sublist.map Prod.snd) ?_
      rw [List.zipIdx_map_snd]
      exact List.nodup_range'
    have hnames := hnumbers.map (Run.overlayNameOf_injective series pass)
    rwa [List.map_map] at hnames

/-- The overlays of what was applied have the names of its scripts. -/
theorem map_fst_of_overlaysOf {as : List Applied} {added : List (String × ByteArray)}
    (h : overlaysOf series pass as = .ok added) : added.map Prod.fst =
      (Mode.storing store invert series).overlayNames pass (as.map Applied.diff) := by
  have hnames : (as.zipIdx.filter fun e => !e.1.diff.isEmpty).map
      (fun e => series ++ "_" ++ pass ++ "_" ++ Text.natText e.2) = added.map Prod.fst := by
    rw [← List.forall₂_eq_eq_eq, List.forall₂_map_left_iff, List.forall₂_map_right_iff]
    refine (DataFlow.forall₂_of_mapM_eq_ok h).imp fun e entry hentry => ?_
    obtain ⟨a, i⟩ := e
    dsimp only at hentry ⊢
    cases ho : Run.overlayOf a with
    | error e =>
      rw [ho] at hentry
      cases hentry
    | ok o =>
      rw [ho] at hentry
      cases hentry
      rfl
  rw [← hnames, Mode.overlayNames, List.zipIdx_map, List.filter_map, List.map_map]
  rfl

end Names

/-! ## Counting -/

/-- What the first of some scripts did that were all applied. -/
theorem Graph.applyEach_cons_eq_some {g h : Graph} {pool pool' : Option KeyPool} {inverse : Bool}
    {d : Diff} {ds : List Diff} {as : List Applied}
    (heach : g.applyEach pool inverse (d :: ds) = some (h, pool', as)) : ∃ a bs,
    (g.apply d pool inverse).result = .ok a ∧ as = a :: bs ∧
      (g.apply d pool inverse).graph.applyEach (g.apply d pool inverse).pool inverse ds =
        some (h, pool', bs) := by
  cases hresult : (g.apply d pool inverse).result with
  | error e =>
    simp only [applyEach, hresult] at heach
    cases heach
  | ok a =>
    simp only [applyEach, hresult] at heach
    obtain ⟨⟨h₁, pool₁, bs⟩, hrest, heq⟩ := Option.map_eq_some_iff.mp heach
    cases heq
    exact ⟨a, bs, rfl, rfl, hrest⟩

/-- What a summary has counted of the scripts that were applied. -/
structure Summary.Counts (mode : Mode) (pass : String) (as : List Applied) (s : Summary) :
    Prop where
  committedEdits_eq : s.committedEdits = (as.map fun a => a.diff.size).sum
  expandedEdits_eq : s.expandedEdits = (as.map fun a => a.diff.expandedSize).sum
  newNodes_eq : s.newNodes = (as.map fun a => a.newNodeIds.length).sum
  overlays_eq : s.overlays = mode.overlayNames pass (as.map Applied.diff)

namespace Run

variable {p : Pass} {mode : Mode} {g : Graph} {as : List Applied} {r s : Run} {i : Nat} {d : Diff}
  {ds : List Diff} {a : Applied} {part : Part}

/-- A script that is kept is named by its number, and nothing else is counted. -/
theorem Tracks.keep_summary {pool : Option KeyPool} (h : r.Tracks p mode as)
    (hresult : (g.apply d pool mode.inverse).result = .ok a)
    (hoverlays : r.summary.overlays = mode.overlayNames p.name (as.map Applied.diff))
    (hkeep : r.keep a = .ok s) : s.summary = { r.summary with
      overlays := mode.overlayNames p.name ((as ++ [a]).map Applied.diff) } := by
  have hkeeps := h.keeps
  rw [List.map_append, List.map_singleton]
  cases mode with
  | inOrder | atOnce =>
    have hnone : r.sink = none := hkeeps
    simp only [Run.keep, hnone] at hkeep
    cases hkeep
    have hnil : r.summary.overlays = [] := hoverlays
    change r.summary = { r.summary with overlays := [] }
    rw [← hnil]
  | storing store invert series =>
    obtain ⟨added, store', hsink, hadded, hgrown⟩ := hkeeps
    obtain ⟨o, ho, hkept⟩ := keep_eq_ok hsink hkeep
    have hempty := isEmpty_of_overlayOf hresult ho
    rcases hkept with ⟨hnil, rfl⟩ | ⟨hnil, store'', hadd, rfl⟩
    · rw [overlayNames_append_of_isEmpty (hempty ▸ hnil), ← hoverlays]
    · rw [overlayNames_append (hempty ▸ hnil), ← hoverlays, List.length_map]
      rw [withOverlay, overlayName, h.pass_eq, h.chunks_eq]

theorem Tracks.counts_chunk (h : r.Tracks p mode as) (hcounts : r.summary.Counts mode p.name as)
    (hresult : (r.graph.apply d (r.poolOf i) mode.inverse).result = .ok a)
    (hchunk : r.chunk i d = (s, none)) : s.summary.Counts mode p.name (as ++ [a]) := by
  obtain ⟨a', t, hresult', hkeep, rfl⟩ := Run.chunk_eq_none hchunk
  rw [h.application_eq, hresult] at hresult'
  cases hresult'
  have hdiff := Graph.diff_of_apply hresult
  have hsummary := (h.applied i d a).keep_summary hresult hcounts.overlays_eq hkeep
  refine ⟨?_, ?_, ?_, congrArg Summary.overlays hsummary⟩
  · refine (congrArg Summary.committedEdits hsummary).trans ?_
    change r.summary.committedEdits + d.size = _
    rw [hcounts.committedEdits_eq, List.map_append, List.sum_append, List.map_singleton,
      List.sum_singleton, hdiff]
  · refine (congrArg Summary.expandedEdits hsummary).trans ?_
    change r.summary.expandedEdits + d.expandedSize = _
    rw [hcounts.expandedEdits_eq, List.map_append, List.sum_append, List.map_singleton,
      List.sum_singleton, hdiff]
  · refine (congrArg Summary.newNodes hsummary).trans ?_
    change r.summary.newNodes + a.newNodeIds.length = _
    rw [hcounts.newNodes_eq, List.map_append, List.sum_append, List.map_singleton,
      List.sum_singleton]

theorem Tracks.counts_chunks {g' : Graph} {pool : Option KeyPool} {bs : List Applied}
    (h : r.Tracks p mode as) (hcounts : r.summary.Counts mode p.name as)
    (heach : r.graph.applyEach (r.poolOf i) mode.inverse ds = some (g', pool, bs))
    (hchunks : r.chunks i ds = (s, none)) : s.summary.Counts mode p.name (as ++ bs) := by
  induction ds generalizing r as bs with
  | nil =>
    cases heach
    cases hchunks
    exact (List.append_nil as).symm ▸ hcounts
  | cons d ds ih =>
    rw [chunks] at hchunks
    cases hchunk : r.chunk i d with
    | mk r₁ error =>
      rw [hchunk] at hchunks
      cases error with
      | some e => cases hchunks
      | none =>
        -- the run and the list of what was applied have taken up the same script
        obtain ⟨a, hresult, hgraph, hpools, htracks⟩ := h.chunk_eq_none hchunk
        obtain ⟨a', bs, hresult', rfl, hrest⟩ := Graph.applyEach_cons_eq_some heach
        cases hresult.symm.trans hresult'
        rw [List.append_cons]
        refine ih htracks (h.counts_chunk hcounts hresult hchunk) ?_ hchunks
        rw [hgraph, hpools i, if_pos rfl]
        exact hrest

/-- A run stands before a part and has counted the scripts so far. -/
structure Tallies (p : Pass) (mode : Mode) (g : Graph) (i : Nat) (as : List Applied) (r : Run) :
    Prop extends At p mode g i as r where
  counts : r.summary.Counts mode p.name as

theorem Tallies.nextPart (h : r.Tallies p mode g i as) : r.nextPart.Tallies p mode g i as :=
  ⟨h.toAt.nextPart, h.counts.1, h.counts.2, h.counts.3, h.counts.4⟩

theorem Tallies.emitted (h : r.Tallies p mode g i as) (hpool : r.poolMissing? i = none)
    (hpart : (p.parts g)[i]? = some part) (hemitted : part (mode.seen g r.graph) = .emitted ds)
    (hchunks : r.chunks i ds = (s, none)) : ∃ bs, s.Tallies p mode g (i + 1) (as ++ bs) := by
  obtain ⟨bs, heach, hothers, htracks⟩ := h.tracks.chunks_eq_none hchunks
  have hcounts := h.tracks.counts_chunks h.counts heach hchunks
  rw [h.pools i (Nat.le_refl i)] at heach
  refine ⟨bs, ⟨.part h.completed (h.hasPool hpool) hpart hemitted heach, htracks, fun j hj => ?_⟩,
    hcounts⟩
  rw [hothers j (by omega), h.pools j (by omega)]

/-- Parts that are run one after the other are counted one by one. -/
theorem Tallies.sequential {parts : List Part} (hseen : ∀ h, mode.seen g h = h)
    (h : r.Tallies p mode g i as) (hcount : r.summary.parts = i) (hi : i ≤ (p.parts g).length)
    (hparts : (p.parts g).drop i = parts) (hseq : r.sequential i parts = (s, none)) :
    ∃ bs, s.Tallies p mode g (p.parts g).length bs ∧ s.summary.parts = (p.parts g).length := by
  -- the parts that are left are those from number `i` on, and those before it are counted
  induction parts generalizing r i as with
  | nil =>
    cases hseq
    obtain rfl : i = (p.parts g).length := Nat.le_antisymm hi (List.drop_eq_nil_iff.mp hparts)
    exact ⟨as, h, hcount⟩
  | cons part parts ih =>
    obtain ⟨hpart, hlt, hrest⟩ := getElem?_of_drop hparts
    obtain ⟨ds, r₁, hpool, hresult, hchunks, hseq⟩ := sequential_cons_eq_none hseq
    have hemitted : part (mode.seen g r.nextPart.graph) = .emitted ds := by
      rw [hseen]
      exact hresult
    obtain ⟨bs, hnext⟩ := h.nextPart.emitted hpool hpart hemitted hchunks
    have hcount₁ := parts_chunks (r := r.nextPart) (i := i) ds
    rw [hchunks] at hcount₁
    exact ih hnext (hcount₁.trans (congrArg (· + 1) hcount)) hlt hrest hseq

/-- What a part did whose scripts were taken up before those of the parts after it. -/
theorem merge_cons_eq_none {result : PartResult} {results : List PartResult}
    (h : r.merge i (result :: results) = (s, none)) : ∃ ds r₁,
    r.poolMissing? i = none ∧ result = .emitted ds ∧ r.chunks i ds = (r₁, none) ∧
      r₁.merge (i + 1) results = (s, none) := by
  cases hpool : r.poolMissing? i with
  | some e => simp only [merge, hpool] at h; cases h
  | none =>
    cases result with
    | crashed => simp only [merge, hpool] at h; cases h
    | failed message => simp only [merge, hpool] at h; cases h
    | emitted ds =>
      cases hchunks : r.chunks i ds with
      | mk r₁ error =>
        simp only [merge, hpool, hchunks] at h
        cases error with
        | some e => cases h
        | none => exact ⟨ds, r₁, rfl, rfl, hchunks, h⟩

/-- Parts that are run at once were counted at the start. -/
theorem Tallies.merge {parts : List Part} (h : r.Tallies p .atOnce g i as)
    (hi : i ≤ (p.parts g).length) (hparts : (p.parts g).drop i = parts)
    (hmerge : r.merge i (parts.map fun part => part g) = (s, none)) :
    ∃ bs, s.Tallies p .atOnce g (p.parts g).length bs ∧ s.summary.parts = r.summary.parts := by
  induction parts generalizing r i as with
  | nil =>
    cases hmerge
    obtain rfl : i = (p.parts g).length := Nat.le_antisymm hi (List.drop_eq_nil_iff.mp hparts)
    exact ⟨as, h, rfl⟩
  | cons part parts ih =>
    obtain ⟨hpart, hlt, hrest⟩ := getElem?_of_drop hparts
    obtain ⟨ds, r₁, hpool, hemitted, hchunks, hmerge⟩ := merge_cons_eq_none hmerge
    obtain ⟨bs, hnext⟩ := h.emitted hpool hpart hemitted hchunks
    have hcount₁ := parts_chunks (r := r) (i := i) ds
    rw [hchunks] at hcount₁
    exact hcount₁ ▸ ih hnext hlt hrest hmerge

end Run

/-! ## Whole runs -/

section Finished

variable {p : Pass} {mode : Mode} {g : Graph} {summary : Summary}

theorem Summary.counts_start (mode : Mode) (pass : String) (s : Summary)
    (hs : s = { pass, parts := s.parts }) : s.Counts mode pass [] := by
  rw [hs]
  refine ⟨rfl, rfl, rfl, ?_⟩
  cases mode <;> rfl

/-- What a run has counted that came to its end. -/
theorem Mode.tallies_run (h : (mode.run p g).ending = .finished summary) : ∃ s as,
    s.Tallies p mode g (p.parts g).length as ∧ s.summary.parts = (p.parts g).length ∧
      s.summary = summary ∧ mode.run p g = RunResult.of s none := by
  cases mode with
  | inOrder =>
    have hstart : (p.start g).Tallies p .inOrder g 0 [] :=
      ⟨⟨.start, ⟨rfl, rfl, rfl, rfl⟩, fun _ _ => rfl⟩, Summary.counts_start _ _ _ rfl⟩
    have hrun : p.runOn g = RunResult.of ((p.start g).sequential 0 (p.parts g)).1
      ((p.start g).sequential 0 (p.parts g)).2 := rfl
    cases hseq : (p.start g).sequential 0 (p.parts g) with
    | mk s stop =>
      rw [hseq] at hrun
      rw [Mode.run, hrun] at h ⊢
      obtain ⟨rfl, hsummary⟩ := RunResult.eq_finished h
      obtain ⟨as, htallies, hparts⟩ :=
        hstart.sequential (fun _ => rfl) rfl (Nat.zero_le _) rfl hseq
      exact ⟨s, as, htallies, hparts, hsummary, rfl⟩
  | atOnce =>
    have hstart : ((p.start g).withParts (p.parts g).length).Tallies p .atOnce g 0 [] :=
      ⟨⟨.start, ⟨rfl, rfl, rfl, rfl⟩, fun _ _ => rfl⟩, Summary.counts_start _ _ _ rfl⟩
    cases hmerge : ((p.start g).withParts (p.parts g).length).merge 0
        ((p.parts g).map fun part => part g) with
    | mk s error =>
      rw [Mode.run, p.runParallel_eq g hmerge] at h ⊢
      obtain ⟨hnone, hsummary⟩ := RunResult.eq_finished h
      obtain rfl := Option.map_eq_none_iff.mp hnone
      obtain ⟨as, htallies, hparts⟩ := hstart.merge (Nat.zero_le _) rfl hmerge
      exact ⟨s, as, htallies, hparts, hsummary, rfl⟩
  | storing store invert series =>
    obtain ⟨empty, s, hempty, hseq, hsummary, hrun⟩ := Pass.runInto_eq_finished h
    have hinverse := Mode.inverse_storing hempty invert series
    have hstart : (p.startInto g store (invert && !empty) series).Tallies p
        (.storing store invert series) g 0 [] :=
      ⟨⟨.start, ⟨rfl, rfl, rfl, [], store, by rw [hinverse]; rfl, rfl, .refl store⟩,
        fun _ _ => rfl⟩, Summary.counts_start _ _ _ rfl⟩
    obtain ⟨as, htallies, hparts⟩ := hstart.sequential (fun _ => rfl) rfl (Nat.zero_le _) rfl hseq
    exact ⟨s, as, htallies, hparts, hsummary, hrun⟩

end Finished

/-! ## Growth -/

/-- What was applied leads from one graph to another that has the nodes and edges more that its
scripts create. -/
structure Graph.GainsBy (g : Graph) (as : List Applied) (h : Graph) : Prop where
  gains : g.Gains h (as.map fun a => a.diff.newNodeCount).sum
    (as.map fun a => a.diff.newEdgeCount).sum
  length_newNodeIds : ∀ a ∈ as, a.newNodeIds.length = a.diff.newNodeCount

namespace Graph

variable {g h f : Graph} {as bs : List Applied} {d : Diff} {ds : List Diff}
  {pool pool' : Option KeyPool} {inverse : Bool} {a : Applied}

theorem WellFormed.gainsBy_nil (hg : g.WellFormed) : g.GainsBy [] g :=
  ⟨hg.gains_zero, List.forall_mem_nil _⟩

theorem GainsBy.append (hgh : g.GainsBy as h) (hhf : h.GainsBy bs f) : g.GainsBy (as ++ bs) f where
  gains := by
    simp only [List.map_append, List.sum_append]
    exact hgh.gains.trans hhf.gains
  length_newNodeIds :=
    List.forall_mem_append.mpr ⟨hgh.length_newNodeIds, hhf.length_newNodeIds⟩

theorem WellFormed.gainsBy_apply (hg : g.WellFormed) (hd : d.Built)
    (hresult : (g.apply d pool inverse).result = .ok a) :
    g.GainsBy [a] (g.apply d pool inverse).graph := by
  have hdiff := diff_of_apply hresult
  refine ⟨?_, List.forall_mem_singleton.mpr ?_⟩
  · simp only [List.map_singleton, List.sum_singleton, hdiff]
    exact hg.gains_apply hd.recorded hresult
  · rw [hdiff]
    exact hg.length_newNodeIds hd hresult

theorem WellFormed.gainsBy_applyEach (hg : g.WellFormed) (hds : ∀ d ∈ ds, d.Built)
    (heach : g.applyEach pool inverse ds = some (h, pool', bs)) : g.GainsBy bs h := by
  induction ds generalizing g pool bs with
  | nil =>
    cases heach
    exact hg.gainsBy_nil
  | cons d ds ih =>
    obtain ⟨hd, hds⟩ := List.forall_mem_cons.mp hds
    obtain ⟨a, bs, hresult, rfl, hrest⟩ := applyEach_cons_eq_some heach
    have hfirst := hg.gainsBy_apply hd hresult
    exact hfirst.append (ih hfirst.gains.wellFormed hds hrest)

end Graph

/-- The parts emit only scripts that builders have recorded. -/
def Pass.Builds (p : Pass) (g : Graph) : Prop :=
  ∀ part ∈ p.parts g, ∀ h ds, part h = .emitted ds → ∀ d ∈ ds, d.Built

theorem Pass.Completed.gainsBy {p : Pass} {mode : Mode} {g h : Graph} {i : Nat} {as : List Applied}
    (hg : g.WellFormed) (hbuilds : p.Builds g) (hcompleted : p.Completed mode g i as h) :
    g.GainsBy as h := by
  induction hcompleted with
  | start => exact hg.gainsBy_nil
  | part before hpool hpart hemitted heach ih =>
    exact ih.append (ih.gains.wellFormed.gainsBy_applyEach
      (hbuilds _ (List.mem_of_getElem? hpart) _ _ hemitted) heach)

/-! ## Accounts -/

theorem Store.exists_names_of_isEmpty {s : Store} {empty : Bool} (h : s.isEmpty = .ok empty) :
    ∃ names, s.names = .ok names := by
  cases s with
  | memory m => exact ⟨_, rfl⟩
  | database d | locked d =>
    simp only [Store.isEmpty, Database.isEmpty] at h
    cases hread : d.read with
    | error e =>
      rw [hread] at h
      cases h
    | ok t =>
      simp only [Store.names, Database.names, hread]
      exact ⟨_, rfl⟩

theorem Diff.sum_expandedSize (ds : List Diff) : (ds.map expandedSize).sum =
    (ds.map size).sum + ((ds.flatMap changes).map Change.carried).sum := by
  induction ds with
  | nil => rfl
  | cons d ds ih =>
    rw [List.map_cons, List.sum_cons, expandedSize_eq, ih, List.map_cons, List.sum_cons,
      List.flatMap_cons, List.map_append, List.sum_append]
    omega

/-- A summary accounts for a run of a pass that has applied some scripts. -/
structure Summary.Accounts (p : Pass) (g : Graph) (mode : Mode) (ds : List Diff)
    (result : RunResult) (s : Summary) : Prop where
  pass_eq : s.pass = p.name
  parts_eq : s.parts = (p.parts g).length
  chunks_eq : s.chunks = ds.length
  committedEdits_eq : s.committedEdits = (ds.map Diff.size).sum
  expandedEdits_eq : s.expandedEdits =
    s.committedEdits + ((ds.flatMap Diff.changes).map Change.carried).sum
  newNodes_eq : s.newNodes = (ds.flatMap Diff.changes).countP Change.isCreateNode
  nodeCount_eq : result.graph.nodeCount = g.nodeCount + s.newNodes
  edgeCount_eq : result.graph.edgeCount =
    g.edgeCount + (ds.flatMap Diff.changes).countP Change.isCreateEdge
  overlays_eq : s.overlays = mode.overlayNames p.name ds
  nodup_overlays : s.overlays.Nodup
  /-- The overlays are what is new in the store. -/
  names_eq : ∀ store invert series, mode = .storing store invert series → ∃ store' names,
    result.store = some store' ∧ store.names = .ok names ∧
      store'.names = .ok (names ++ s.overlays)

/-- The summary of a run that came to its end accounts for all that the run has done. -/
theorem Pass.summary_accounts (p : Pass) (g : Graph) (mode : Mode) (summary : Summary)
    (hg : g.WellFormed) (hbuilds : p.Builds g)
    (hending : (mode.run p g).ending = .finished summary) :
    ∃ as, p.Completed mode g (p.parts g).length as (mode.run p g).graph ∧
      summary.Accounts p g mode (as.map Applied.diff) (mode.run p g) := by
  obtain ⟨s, as, htallies, hparts, rfl, hrun⟩ := Mode.tallies_run hending
  obtain ⟨hgains, hids⟩ := htallies.completed.gainsBy hg hbuilds
  have hcounts := htallies.counts
  rw [hrun]
  have hnodes : s.summary.newNodes = (as.map fun a => a.diff.newNodeCount).sum :=
    List.map_congr_left hids ▸ hcounts.newNodes_eq
  refine ⟨as, htallies.completed, ?_⟩
  refine ⟨htallies.tracks.pass_eq, hparts, ?_, ?_, ?_, ?_, ?_, ?_, hcounts.overlays_eq, ?_, ?_⟩
  · rw [List.length_map, htallies.tracks.chunks_eq]
  · rw [hcounts.committedEdits_eq, List.map_map]
    rfl
  · rw [hcounts.expandedEdits_eq, hcounts.committedEdits_eq]
    have hexpanded := Diff.sum_expandedSize (as.map Applied.diff)
    rwa [List.map_map, List.map_map] at hexpanded
  · rw [hnodes, List.countP_flatMap, List.map_map]
    rfl
  · rw [hnodes]
    exact hgains.nodeCount_eq
  · rw [List.countP_flatMap, List.map_map]
    exact hgains.edgeCount_eq
  · rw [hcounts.overlays_eq]
    exact nodup_overlayNames _ _ _
  · rintro store invert series rfl
    obtain ⟨added, store', hsink, hadded, hgrown⟩ := htallies.tracks.keeps
    obtain ⟨empty, _, hempty, _⟩ := Pass.runInto_eq_finished hending
    obtain ⟨names, hnames⟩ := Store.exists_names_of_isEmpty hempty
    refine ⟨store', names, congrArg (Option.map Sink.store) hsink, hnames, ?_⟩
    rw [hgrown.names_eq, hnames, map_fst_of_overlaysOf hadded, ← hcounts.overlays_eq]
    rfl

namespace Pass

theorem built_of_recorded {edits : List (List Edit)} {ds : List Diff}
    (h : PartResult.recorded edits = .emitted ds) : ∀ d ∈ ds, d.Built := by
  have hall : ∀ (edits : List (List Edit)) (ds : List Diff), edits.mapM Diff.ofEdits = .ok ds →
      ∀ d ∈ ds, d.Built := by
    intro edits
    induction edits with
    | nil =>
      intro ds h
      cases h
      exact List.forall_mem_nil _
    | cons es edits ih =>
      intro ds h
      rw [List.mapM_cons] at h
      obtain ⟨d, hd, h⟩ := Progress.bind_eq_ok h
      obtain ⟨rest, hrest, h⟩ := Progress.bind_eq_ok h
      cases h
      exact List.forall_mem_cons.mpr ⟨⟨es, hd⟩, ih rest hrest⟩
  rw [PartResult.recorded] at h
  cases hmap : edits.mapM Diff.ofEdits with
  | error e =>
    rw [hmap] at h
    cases h
  | ok diffs =>
    rw [hmap] at h
    cases h
    exact hall edits _ hmap

/-- A pass of two parts with a key pool each.  One of its scripts is empty, and the second part
looks at what the first has done. -/
def outline : Pass where
  name := "outline"
  parts := fun _ =>
    [fun _ => .recorded [[.node .block (.ofList [("line", .int 3), ("file", .str "f")]),
        .edge (.existing ⟨1⟩) (.new ⟨0⟩) ⟨.ast, .ofList [("order", .int 2)]⟩], []],
      fun g => .recorded [[.set (.existing ⟨2⟩) "nodes" (.int (Int64.ofNat g.nodeCount))],
        [.node (.ret "return") {}, .add (.new ⟨0⟩) "tags" (.str "late")]]]
  pools := some [⟨15, 17, 15, by decide, by decide⟩, ⟨17, 19, 17, by decide, by decide⟩]

theorem builds_outline (g : Graph) : outline.Builds g := by
  intro part hpart h ds hds
  rcases List.mem_cons.mp hpart with rfl | hpart
  · exact built_of_recorded hds
  · obtain rfl := List.mem_singleton.mp hpart
    exact built_of_recorded hds

theorem outline_accounted : ∃ summary as,
    Graph.tangled.WellFormed ∧ outline.Builds Graph.tangled ∧
    ((Mode.storing oneOverlay true "log").run outline Graph.tangled).ending = .finished summary ∧
    summary.committedEdits = 5 ∧ summary.expandedEdits = 8 ∧
    summary.overlays = ["log_outline_0", "log_outline_2", "log_outline_3"] ∧
    outline.Completed (.storing oneOverlay true "log") Graph.tangled 2 as
      ((Mode.storing oneOverlay true "log").run outline Graph.tangled).graph ∧
    summary.Accounts outline Graph.tangled (.storing oneOverlay true "log") (as.map Applied.diff)
      ((Mode.storing oneOverlay true "log").run outline Graph.tangled) := by
  have hg := Graph.wellFormed_tangled
  have hbuilds := builds_outline Graph.tangled
  have hending : ((Mode.storing oneOverlay true "log").run outline Graph.tangled).ending =
      .finished
        ⟨"outline", 2, 4, 5, 8, 2, ["log_outline_0", "log_outline_2", "log_outline_3"]⟩ := by
    decide +kernel
  obtain ⟨as, hcompleted, haccounts⟩ := summary_accounts outline Graph.tangled
    (.storing oneOverlay true "log") _ hg hbuilds hending
  exact ⟨_, as, hg, hbuilds, hending, rfl, rfl, rfl, hcompleted, haccounts⟩

end Pass

end CodeGraph
