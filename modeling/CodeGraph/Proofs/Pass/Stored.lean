import CodeGraph.Proofs.Pass.Run
import CodeGraph.Proofs.Store
import Mathlib

/-!
# Runs with a store

A run with a store keeps one overlay for every script that has one.  The overlays
are of one of two kinds.

* Overlays that undo: replayed newest first, they lead from the graph so far back to
  the view at the start of the run (`Run.Reverts`).
* Overlays of what was applied: replayed oldest first onto the base graph, they lead
  to the view of the graph so far (`Run.Records`).

Each script keeps this, so it holds when a run has come to its end, and in the second
case when several runs have.
-/

namespace CodeGraph

/-! ## Runs from start to end -/

namespace Pass

variable {p : Pass} {g : Graph} {store : Store} {invert : Bool} {series : String}
  {summary : Summary}

/-- The start of a run that stores overlays. -/
def startInto (p : Pass) (g : Graph) (store : Store) (invert : Bool) (series : String) : Run where
  graph := g
  pools := p.pools
  sink := some { store, invert, series }
  summary := { pass := p.name }

/-- What a run that came to its end did. -/
theorem runInto_eq_finished (h : (p.runInto g store invert series).ending = .finished summary) :
    ∃ empty r, store.isEmpty = .ok empty ∧
      (p.startInto g store (invert && !empty) series).sequential 0 (p.parts g) = (r, none) ∧
      r.summary = summary ∧ p.runInto g store invert series = RunResult.of r none := by
  cases hempty : store.isEmpty with
  | error e =>
    rw [runInto, hempty] at h
    cases h
  | ok empty =>
    have hrun : p.runInto g store invert series =
        RunResult.of ((p.startInto g store (invert && !empty) series).sequential 0 (p.parts g)).1
          ((p.startInto g store (invert && !empty) series).sequential 0 (p.parts g)).2 := by
      rw [runInto, hempty]
      rfl
    cases hseq : (p.startInto g store (invert && !empty) series).sequential 0 (p.parts g) with
    | mk r stop =>
      rw [hseq] at hrun
      rw [hrun] at h
      obtain ⟨rfl, hsummary⟩ := RunResult.eq_finished h
      exact ⟨empty, r, rfl, hseq, hsummary, hrun⟩

end Pass

namespace Run

variable {r r' : Run} {i : Nat} {d : Diff} {v : View} {sink : Sink}

/-! ## Overlays that undo -/

/-- The overlays kept so far undo what was done. -/
structure Reverts (v : View) (r : Run) : Prop where
  wellFormed : r.graph.WellFormed
  depth_le : ∀ x, r.graph.view.Holds x → x.depth ≤ 101
  kept : ∃ sink, r.sink = some sink ∧ sink.invert = true ∧
    sink.store.Replays r.summary.overlays.reverse r.graph.view v

theorem Reverts.nextPart (h : r.Reverts v) : r.nextPart.Reverts v :=
  ⟨h.wellFormed, h.depth_le, h.kept⟩

theorem Reverts.chunk (h : r.Reverts v) (hd : ∀ x ∈ d.values, x.depth ≤ 100)
    (hchunk : r.chunk i d = (r', none)) : r'.Reverts v := by
  obtain ⟨sink, hsink, hinvert, hreplays⟩ := h.kept
  obtain ⟨a, overlay, hresult, hoverlay, hgraph, hkept⟩ := chunk_kept hsink hchunk
  rw [hinvert] at hresult hgraph
  obtain ⟨o, ho, heffects, hdepth⟩ := Graph.inverse_of_apply h.wellFormed hresult
  obtain ⟨hvalues, hholds⟩ := hdepth 100 h.depth_le hd
  have hwf := h.wellFormed.apply hresult
  rw [← hgraph] at heffects hholds hwf
  rw [overlayOf, ho] at hoverlay
  cases hoverlay
  refine ⟨hwf, hholds, ?_⟩
  rcases hkept with ⟨hempty, hsink', hnames⟩ | ⟨store, name, hadd, hsink', hnames⟩
  · refine ⟨sink, hsink', hinvert, ?_⟩
    rw [hnames, Overlay.view_eq_of_isEmpty hempty heffects]
    exact hreplays
  · refine ⟨_, hsink', hinvert, ?_⟩
    have hnew := Store.replays_of_add hadd (fun x hx => Nat.le_trans (hvalues x hx) (by decide))
      heffects
    rw [hnames, List.reverse_append, List.reverse_singleton]
    exact hnew.append (hreplays.of_add hadd)

end Run

namespace Pass

variable {p : Pass} {g : Graph} {store : Store} {series : String} {summary : Summary}

/-- The overlays of a run that undo it are replayed newest first, and restore the content. -/
theorem content_replay_reverse (hg : g.WellFormed) (hstore : store.isEmpty = .ok false)
    (hdepth : ∀ x ∈ g.values, x.depth ≤ 100)
    (hscripts : ∀ d ∈ (p.startInto g store true series).emitted 0 (p.parts g),
      ∀ x ∈ d.values, x.depth ≤ 100)
    (h : (p.runInto g store true series).ending = .finished summary) :
    ∃ store' g', (p.runInto g store true series).store = some store' ∧
      store'.replay (p.runInto g store true series).graph summary.overlays.reverse = .ok g' ∧
      g'.content = g.content := by
  obtain ⟨empty, r, hempty, hseq, rfl, hrun⟩ := runInto_eq_finished h
  cases hstore.symm.trans hempty
  have hstart : (p.startInto g store true series).Reverts g.view :=
    ⟨hg, fun x hx => Nat.le_succ_of_le (hdepth x (hg.mem_values_of_holds hx)),
      _, rfl, rfl, Store.replays_nil _ _⟩
  have hend : r.Reverts g.view := Run.sequential_induction (fun _ => Run.Reverts.nextPart)
    (fun _ _ _ _ => Run.Reverts.chunk) hstart hscripts hseq
  obtain ⟨sink, hsink, _, hreplays⟩ := hend.kept
  obtain ⟨g', hreplay, hg', hview⟩ := hreplays r.graph hend.wellFormed rfl
  rw [hrun]
  exact ⟨sink.store, g', congrArg (Option.map Sink.store) hsink, hreplay,
    Graph.content_eq_of_view_eq hg' hg hview⟩

/-- A pass of two parts.  The first replaces the method, the second counts the nodes. -/
def rework : Pass where
  name := "rework"
  parts := fun _ =>
    [fun _ => .emitted [⟨Graph.replaceMethod⟩],
      fun g => .emitted [⟨[.setProperty (.existing ⟨2⟩) "nodes" (.int (Int64.ofNat g.nodeCount))]⟩]]

/-- A store with one overlay. -/
def oneOverlay : Store := .memory { overlays := [("first", ByteArray.empty)] }

theorem rework_undone : ∃ summary store' g',
    (rework.runInto Graph.tangled oneOverlay true "undo").ending = .finished summary ∧
    summary.overlays = ["undo_rework_0", "undo_rework_1"] ∧
    (rework.runInto Graph.tangled oneOverlay true "undo").store = some store' ∧
    store'.replay (rework.runInto Graph.tangled oneOverlay true "undo").graph
      summary.overlays.reverse = .ok g' ∧
    g'.content = Graph.tangled.content := by
  have hending : (rework.runInto Graph.tangled oneOverlay true "undo").ending =
      .finished ⟨"rework", 2, 2, 7, 7, 1, ["undo_rework_0", "undo_rework_1"]⟩ := by decide +kernel
  obtain ⟨store', g', hstore, hreplay, hcontent⟩ := content_replay_reverse Graph.wellFormed_tangled
    rfl (by decide +kernel) (by decide +kernel) hending
  exact ⟨_, store', g', hending, rfl, hstore, hreplay, hcontent⟩

end Pass

/-! ## Overlays of what was applied -/

namespace Run

variable {r r' : Run} {i : Nat} {d : Diff} {base : Graph}

/-- The base graph and the overlays of the store lead to the graph so far. -/
structure Records (base : Graph) (r : Run) : Prop where
  wellFormed : r.graph.WellFormed
  kept : ∃ sink, r.sink = some sink ∧ sink.invert = false ∧ sink.store.Records base r.graph.view

theorem Records.nextPart (h : r.Records base) : r.nextPart.Records base :=
  ⟨h.wellFormed, h.kept⟩

theorem Records.chunk (h : r.Records base)
    (hd : d.newKeys.Nodup ∧ ∀ x ∈ d.values, x.depth ≤ 100) (hchunk : r.chunk i d = (r', none)) :
    r'.Records base := by
  obtain ⟨sink, hsink, hinvert, hrecords⟩ := h.kept
  obtain ⟨a, overlay, hresult, hoverlay, hgraph, hkept⟩ := chunk_kept hsink hchunk
  rw [hinvert] at hresult hgraph
  obtain ⟨o, ho, hvalues, heffects⟩ := Graph.forward_of_apply h.wellFormed hd.1 hresult
  have hwf := h.wellFormed.apply hresult
  have hforward : overlayOf a = Overlay.forward a := by
    obtain ⟨_, _, _, rfl⟩ := Graph.apply_eq_ok hresult
    rfl
  rw [← hgraph] at heffects hwf
  rw [hforward, ho] at hoverlay
  cases hoverlay
  refine ⟨hwf, ?_⟩
  rcases hkept with ⟨hempty, hsink', _⟩ | ⟨store, name, hadd, hsink', _⟩
  · refine ⟨sink, hsink', hinvert, ?_⟩
    rw [← Overlay.view_eq_of_isEmpty hempty heffects]
    exact hrecords
  · refine ⟨_, hsink', hinvert, hrecords.add hadd ?_ heffects⟩
    rw [hvalues]
    exact fun x hx => Nat.le_trans (hd.2 x hx) (by decide)

end Run

namespace Pass

/-- Passes run to their ends one after the other on a graph and a store, with overlays of what was
applied.  No script creates a key twice, and values nest at most a hundred lists. -/
inductive History (g₀ : Graph) (store₀ : Store) : Graph → Store → Prop where
  | start : History g₀ store₀ g₀ store₀
  | run {g : Graph} {store store' : Store} {p : Pass} {series : String} {summary : Summary}
      (h : History g₀ store₀ g store)
      (hscripts : ∀ d ∈ (p.startInto g store false series).emitted 0 (p.parts g),
        d.newKeys.Nodup ∧ ∀ x ∈ d.values, x.depth ≤ 100)
      (hending : (p.runInto g store false series).ending = .finished summary)
      (hstore : (p.runInto g store false series).store = some store') :
      History g₀ store₀ (p.runInto g store false series).graph store'

variable {g₀ g₁ base : Graph} {store₀ store₁ : Store}

theorem History.records (h : History g₀ store₀ g₁ store₁) (hg : g₀.WellFormed)
    (hrecords : store₀.Records base g₀.view) :
    g₁.WellFormed ∧ store₁.Records base g₁.view := by
  induction h with
  | start => exact ⟨hg, hrecords⟩
  | @run g store store' p series summary _ hscripts hending hstore ih =>
    obtain ⟨empty, r, hempty, hseq, _, hrun⟩ := runInto_eq_finished hending
    have hstart : (p.startInto g store false series).Records base := ⟨ih.1, _, rfl, rfl, ih.2⟩
    have hend : r.Records base := Run.sequential_induction (fun _ => Run.Records.nextPart)
      (fun _ _ _ _ => Run.Records.chunk) hstart hscripts hseq
    obtain ⟨sink, hsink, _, hstored⟩ := hend.kept
    rw [hrun] at hstore ⊢
    have hsome : (RunResult.of r none).store = some sink.store :=
      congrArg (Option.map Sink.store) hsink
    cases hstore.symm.trans hsome
    exact ⟨hend.wellFormed, hstored⟩

/-- The base graph and the overlays that were stored since reproduce the content of the graph.
Slots are numbered by 32 bits, which is all that the text of the base graph has for them. -/
theorem content_replay_history {store : Store} (hempty : store.isEmpty = .ok true)
    (hg : g₀.WellFormed) (hsize : g₀.nodes.cells.size ≤ UInt32.size)
    (hdepth : ∀ x ∈ g₀.values, x.depth ≤ 100) (hsave : store.saveBase g₀ = .ok store₀)
    (h : History g₀ store₀ g₁ store₁) : ∃ base names g,
    store₁.loadBase = .ok (some base) ∧ store₁.names = .ok names ∧
      store₁.replay base names = .ok g ∧ g.content = g₁.content := by
  obtain ⟨base, hbase, hrecords⟩ := Store.records_of_saveBase hempty hg hsize
    (fun x hx => Nat.le_trans (hdepth x hx) (by decide)) hsave
  obtain ⟨hg₁, hload, names, hnames, hreplays⟩ := h.records hg hrecords
  obtain ⟨g, hreplay, hwf, hview⟩ := hreplays base hbase rfl
  exact ⟨base, names, g, hload, hnames, hreplay, Graph.content_eq_of_view_eq hwf hg₁ hview⟩

/-- A pass that puts a new block under the second node. -/
def extend : Pass where
  name := "extend"
  parts := fun _ => [fun _ => .emitted
    [⟨[.createNode ⟨0⟩ .block {}, .createEdge (.existing ⟨2⟩) (.new ⟨0⟩) ⟨.ast, {}⟩,
      .addProperty (.new ⟨0⟩) "tags" (.str "late")]⟩]]

/-- A store with a base graph and no overlay. -/
def savedBase : Store := .memory { base := some Graph.tangled.toCompactText }

def reworked : RunResult := rework.runInto Graph.tangled savedBase false "a"

def reworkedStore : Store := reworked.store.get (by decide +kernel)

def extended : RunResult := extend.runInto reworked.graph reworkedStore false "b"

def extendedStore : Store := extended.store.get (by decide +kernel)

theorem rework_extend_replayed : ∃ base names g,
    History Graph.tangled savedBase extended.graph extendedStore ∧
    extendedStore.loadBase = .ok (some base) ∧ extendedStore.names = .ok names ∧
    names = ["a_rework_0", "a_rework_1", "b_extend_0"] ∧
    extendedStore.replay base names = .ok g ∧ g.content = extended.graph.content := by
  have hempty : Store.isEmpty (.memory {}) = .ok true := rfl
  have hreworked : reworked.ending =
      .finished ⟨"rework", 2, 2, 7, 7, 1, ["a_rework_0", "a_rework_1"]⟩ := by decide +kernel
  have hextended : extended.ending = .finished ⟨"extend", 1, 1, 3, 3, 1, ["b_extend_0"]⟩ := by
    decide +kernel
  have hfirst : History Graph.tangled savedBase reworked.graph reworkedStore :=
    .run .start (by decide +kernel) hreworked (Option.some_get _).symm
  have hboth : History Graph.tangled savedBase extended.graph extendedStore :=
    .run hfirst (by decide +kernel) hextended (Option.some_get _).symm
  obtain ⟨base, names, g, hload, hnames, hreplay, hcontent⟩ := content_replay_history hempty
    Graph.wellFormed_tangled (by decide +kernel) (by decide +kernel) rfl hboth
  have hall : extendedStore.names = .ok ["a_rework_0", "a_rework_1", "b_extend_0"] := by
    decide +kernel
  cases hall.symm.trans hnames
  exact ⟨base, _, g, hboth, hload, hnames, rfl, hreplay, hcontent⟩

end Pass

end CodeGraph
