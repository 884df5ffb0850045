import CodeGraph.Proofs.Codec.Reread
import CodeGraph.Proofs.CommandLine.Command
import CodeGraph.Proofs.CommandLine.Engine
import CodeGraph.Proofs.Pass.Withdrawal
import Mathlib

/-!
# Overlays replayed onto a graph file

An analysis with a fresh database leaves an overlay there for each method, which takes back the
edges that were recorded for the method.  `Undoing` is the state between two replays.  The database
is closed, and the graph file has the edges of the overlays that were not replayed yet.

A replay leads from one such state to another (`Undoing.exec_runUndo`).  So the overlays can be
replayed in any order (`Undoing.undoAll`).  The graph is read from its file and written again every
time, and comes out with fewer slots perhaps, but with the same nodes and edges
(`Graph.Recorded.exists_read`).  An analysis that succeeds leads to the first of these states
(`exists_undoing`).

All this holds for every engine that is durable for the database.
-/

namespace CodeGraph

/-! ## Graphs with recorded edges -/

theorem View.Shallow.withFlows {v : View} (hv : v.Shallow) (flows : List DefUse) :
    (v.withFlows flows).Shallow := by
  refine ⟨hv.node, ?_⟩
  intro e he key x hx
  rcases Multiset.mem_add.mp he with he | he
  · exact hv.edge e he key x hx
  · obtain ⟨f, _, rfl⟩ := List.mem_map.mp (Multiset.mem_coe.mp he)
    have hmem : x ∈ [PropertyValue.str f.var] := Properties.mem_values_iff.mpr ⟨key, hx⟩
    rw [List.mem_singleton.mp hmem]
    exact Nat.zero_le 121

/-- A graph that is read back from its file, also when edges are recorded in it. -/
structure Graph.Writable (g : Graph) : Prop where
  wellFormed : g.WellFormed
  size_lt : g.nodes.cells.size < UInt32.size
  shallow : g.view.Shallow

/-- A graph with the nodes and edges of another, and with recorded edges. -/
structure Graph.Recorded (g : Graph) (flows : List DefUse) (h : Graph) : Prop where
  wellFormed : h.WellFormed
  size_le : h.nodes.cells.size ≤ g.nodes.cells.size
  view_eq : h.view = g.view.withFlows flows

namespace Graph.Recorded

variable {g h : Graph} {flows : List DefUse}

theorem of_extends (hext : g.Extends h (flows.map DefUse.link)) : Recorded g flows h :=
  ⟨hext.wellFormed, (congrArg (fun s => s.cells.size) hext.nodes).le, hext.view_eq⟩

/-- A graph that was written to a file is read from it, up to the number of its slots. -/
theorem exists_read (hh : Recorded g flows h) (hg : g.Writable) :
    ∃ h', read h.toText = .ok h' ∧ Recorded g flows h' ∧ h'.content = h.content := by
  have hshallow : h.view.Shallow := hh.view_eq ▸ hg.shallow.withFlows flows
  have hle := Nat.le_of_lt (Nat.lt_of_le_of_lt hh.size_le hg.size_lt)
  exact ⟨h.reloaded, hh.wellFormed.read_toText hle hshallow,
    ⟨hh.wellFormed.reloaded, h.size_reloaded_le.trans hh.size_le,
      hh.wellFormed.view_reloaded.trans hh.view_eq⟩, h.sameSlots_reloaded.content_eq⟩

/-- The edges of one method are taken back, whatever else was recorded. -/
theorem exists_applyTo {kept rest : List (String × List DefUse)} {e : String × List DefUse}
    (hh : Recorded g (kept.flatMap Prod.snd) h) (hperm : kept.Perm (e :: rest)) :
    ∃ h', (withdrawal e.2).applyTo h = (h', none) ∧ Recorded g (rest.flatMap Prod.snd) h' := by
  have hview := hh.view_eq
  rw [g.view.withFlows_perm hperm] at hview
  obtain ⟨h', happly, hwell, hview', hnodes⟩ := applyTo_withdrawal hh.wellFormed hview
  exact ⟨h', happly, hwell, hnodes ▸ hh.size_le, hview'⟩

theorem content_eq (hh : Recorded g [] h) (hg : g.Writable) : h.content = g.content := by
  refine content_eq_of_view_eq hh.wellFormed hg.wellFormed (hh.view_eq.trans ?_)
  simp [View.withFlows]

end Graph.Recorded

theorem storable_withdrawals {base : String} {kept : List (String × List DefUse)}
    (h : ∀ e ∈ kept, e.2.length < UInt64.size) : (withdrawals base kept).Storable := by
  refine ⟨Json.bounded_nat (k := 1) (by decide), ?_⟩
  rintro t ht r hr
  cases ht
  obtain ⟨e, he, rfl⟩ := List.mem_map.mp hr
  exact h e he

namespace CommandLine

open Command Connection

variable {E : Engine} {text time : String} {own : Set (List FileName)} {d d' d'' : Disk}
  {t : List FileName} {db : Database}

/-! ## The graph file -/

theorem graphAt_of_names {path : String} {q : List FileName} (hq : d.Names (.ofString path) q)
    (h : d.SameDirectories d') {g g' : Graph} (hfile : d'.file? q = some g.toText.toUTF8)
    (hread : Graph.read g.toText = .ok g') : graphAt d' path = some g' := by
  simp only [graphAt, hq.read_eq h hfile, fromUTF8?_toUTF8, Option.bind_some, hread]
  rfl

/-- A database that an engine is durable for, and a graph file that is none of its files. -/
structure Setting (E : Engine) (text : String) (own : Set (List FileName)) (out : String)
    (t : List FileName) (d : Disk) : Prop where
  proper : d.Proper
  durable : E.Durable text own d
  names : d.Names (.ofString out) t
  not_mem : t ∉ own

namespace Setting

variable {out : String} {s : Option E.Handle} (hs : Setting E text own out t d)

include hs

theorem sameDirectories (hlife : E.Life text own d s db d') : d.SameDirectories d' :=
  hs.durable.sameDirectories hs.proper hlife

theorem sameDirectories_print (hlife : E.Life text own d s db d') (report : String) :
    d.SameDirectories (d'.print .out report) :=
  have h := hs.sameDirectories hlife
  h.trans ((Disk.Grown.refl h.proper).print .out report).toSameDirectories

theorem write_eq (hlife : E.Life text own d s db d') (report : String) (b : ByteArray) :
    (d'.print .out report).write (.ofString out) b = .ok ((d'.print .out report).put t b) :=
  hs.names.write_eq (hs.sameDirectories_print hlife report) b

/-- The database is the same when the graph file has been written. -/
theorem life_print_put (hlife : E.Life text own d s db d') (report : String) (b : ByteArray) :
    E.Life text own d s db ((d'.print .out report).put t b) := by
  have hprint := (Disk.Grown.refl (hs.sameDirectories hlife).proper).print .out report
  refine hlife.elsewhere
    (hprint.trans (hs.names.grown_put (hs.sameDirectories_print hlife report) b)) fun q hq => ?_
  have hne : q ≠ t := fun heq => hs.not_mem (heq ▸ hq)
  rw [Disk.file?_put, if_neg hne, Disk.file?_print]

end Setting

/-! ## Replays -/

/-- The state between two replays: the database is closed, and the graph file has the edges of
those overlays that were not replayed yet. -/
structure Undoing (E : Engine) (text : String) (own : Set (List FileName)) (d : Disk)
    (db : Database) (t : List FileName) (g : Graph) (rest : List (String × List DefUse))
    (d' : Disk) : Prop where
  life : E.Life text own d none db d'
  file : ∃ h, d'.file? t = some h.toText.toUTF8 ∧ g.Recorded (rest.flatMap Prod.snd) h

/-- Overlays that can be told apart and be given as arguments. -/
structure Replayable (kept : List (String × List DefUse)) : Prop where
  nodup : (kept.map Prod.fst).Nodup
  isValue : ∀ e ∈ kept, IsValue e.1

section Replays

variable {g : Graph} {base out : String} {kept rest rest' : List (String × List DefUse)}
  {e : String × List DefUse} (hs : Setting E text own out t d)

include hs

theorem Undoing.exists_graphAt (hu : Undoing E text own d db t g rest d') (hg : g.Writable) :
    ∃ h, graphAt d' out = some h ∧ g.Recorded (rest.flatMap Prod.snd) h := by
  obtain ⟨h, hfile, hrecorded⟩ := hu.file
  obtain ⟨h', hread, hrecorded', _⟩ := hrecorded.exists_read hg
  exact ⟨h', graphAt_of_names hs.names (hs.sameDirectories hu.life) hfile hread, hrecorded'⟩

/-- An overlay of the database is replayed, and the others can be replayed after it. -/
theorem Undoing.exec_runUndo (hu : Undoing E text own d (withdrawals base kept) t g rest d')
    (hg : g.Writable) (hkept : Replayable kept) (he : e ∈ kept) (hperm : rest.Perm (e :: rest'))
    (time : String) :
    ∃ d'', d'.exec time (runUndo E out text e.1 none) = (.ok (), d'') ∧
      Undoing E text own d (withdrawals base kept) t g rest' d'' := by
  obtain ⟨h, hgraph, hrecorded⟩ := hu.exists_graphAt hs hg
  obtain ⟨h', happly, hrecorded'⟩ := hrecorded.exists_applyTo hperm
  obtain ⟨c, d₁, hconnect, hlife⟩ := hs.durable.exec_connect hu.life rfl time
  obtain ⟨report, hreport⟩ : ∃ report, report =
    "replayed " ++ Text.natText (withdrawal e.2).size ++ " entries from " ++ e.1 ++ "\n" := ⟨_, rfl⟩
  have hlife' := hs.life_print_put hlife report h'.toText.toUTF8
  have hspares := hs.durable.close hlife' time
  refine ⟨_, ?_, hlife'.close time, h', ?_, hrecorded'⟩
  · have hload : ((withdrawals base kept).get e.1).bind Overlay.ofBytes = .ok (withdrawal e.2) := by
      have hget : (withdrawals base kept).get e.1 = _ := get_withdrawal hkept.nodup he
      rw [hget]
      exact ofBytes_withdrawal e.2
    simp only [runUndo, Disk.exec_bind, exec_readGraph hgraph, exec_connected hconnect, hload,
      happly, exec_print, ← hreport, Option.getD_none,
      exec_writeGraph (hs.write_eq hlife report h'.toText.toUTF8)]
    rfl
  · rw [hspares.file?_eq t hs.not_mem, Disk.file?_put, if_pos rfl]

end Replays

/-- The exit codes of invocations that replay overlays onto a graph file, one after the other, and
the disk after them. -/
def undoAll (E : Engine) (time : String) (usual : Option String) (graph db : String) (d : Disk) :
    List String → List Nat × Disk
  | [] => ([], d)
  | overlay :: overlays =>
    let (code, d) := d.run time (program E usual (undoArguments graph db overlay))
    let (codes, d) := undoAll E time usual graph db d overlays
    (code :: codes, d)

/-- Overlays are replayed in any order. -/
theorem Undoing.undoAll {g : Graph} {base out : String} {usual : Option String}
    {kept rest : List (String × List DefUse)} {order : List String}
    (hs : Setting E text own out t d)
    (hu : Undoing E text own d (withdrawals base kept) t g rest d')
    (hg : g.Writable) (hkept : Replayable kept) (htext : IsValue text)
    (hout : IsValue out ∧ out ≠ "") (hsub : rest ⊆ kept) (horder : order.Perm (rest.map Prod.fst)) :
    (∀ code ∈ (undoAll E time usual out text d' order).1, code = 0) ∧
      Undoing E text own d (withdrawals base kept) t g []
        (undoAll E time usual out text d' order).2 := by
  induction order generalizing rest d' with
  | nil =>
    obtain rfl : rest = [] := List.map_eq_nil_iff.mp (List.nil_perm.mp horder)
    exact ⟨fun _ hcode => absurd hcode List.not_mem_nil, hu⟩
  | cons n order ih =>
    obtain ⟨e, he, rfl⟩ := List.mem_map.mp (horder.mem_iff.mp List.mem_cons_self)
    have hperm := List.perm_cons_erase he
    obtain ⟨d'', hexec, hu'⟩ := hu.exec_runUndo hs hg hkept (hsub he) hperm time
    have hrun : d'.run time (program E usual (undoArguments out text e.1)) = (0, d'') := by
      rw [program_undo hout htext (hkept.isValue e (hsub he)), run_exitCode, hexec]
    have horder' : order.Perm ((rest.erase e).map Prod.fst) :=
      (horder.trans (hperm.map Prod.fst)).cons_inv
    obtain ⟨hcodes, hend⟩ := ih hu' (fun x hx => hsub (List.mem_of_mem_erase hx)) horder'
    simp only [CommandLine.undoAll, hrun]
    exact ⟨List.forall_mem_cons.mpr ⟨rfl, hcodes⟩, hend⟩

/-! ## The analysis -/

/-- The names of the overlays in the database that a text names. -/
def storedNames (E : Engine) (time : String) (d : Disk) (text : String) : Option (List String) :=
  match d.exec time (Connection.connect E text) with
  | (.ok c, _) => c.database.names.toOption
  | (.error _, _) => none

theorem storedNames_withdrawals {base : String} {kept : List (String × List DefUse)}
    {h : E.Handle}
    (hconnect : d.exec time (Connection.connect E text) = (.ok ⟨h, withdrawals base kept⟩, d')) :
    storedNames E time d text = some (kept.map Prod.fst) := by
  rw [storedNames, hconnect]
  exact congrArg Except.toOption names_withdrawals

/-- The run that an analysis makes with a fresh database. -/
def freshRun (g : Graph) (series : String) : RunResult :=
  reachingDefsPass.runInto g (.database (withdrawals g.toCompactText [])) true series

section Analysis

variable {g : Graph} {series : String} {h : E.Handle}

/-- A database that may be changed is analyzed into, as long as it can be written. -/
theorem exec_analyzeInto {d₁ d₂ d₃ : Disk} (hlocked : E.isLocked h = false)
    (hconnect : d.exec time (Connection.connect E text) = (.ok ⟨h, {}⟩, d₁))
    (hbase : d₁.exec time (Connection.keep ⟨h, {}⟩ (withdrawals g.toCompactText [])) =
      (.ok ⟨h, withdrawals g.toCompactText []⟩, d₂))
    (hstore : (freshRun g series).store = some (.database db))
    (hkeep : d₂.exec time (Connection.keep ⟨h, withdrawals g.toCompactText []⟩ db) =
      (.ok ⟨h, db⟩, d₃)) :
    d.exec time (analyzeInto E g text series true) =
      (.ok (freshRun g series), (d₃.run time (E.close h)).2) := by
  have hwithBase : d₁.exec time (withBase text ⟨h, {}⟩ g) =
      (.ok ⟨h, withdrawals g.toCompactText []⟩, d₂) := by
    rw [withBase, store_eq_database hlocked]
    exact exec_reaching hbase
  have hrun : reachingDefsPass.runInto g (.database (withdrawals g.toCompactText [])) true series =
    freshRun g series := rfl
  have hkeepStore : d₂.exec time (keepStore text ⟨h, withdrawals g.toCompactText []⟩
      (.database db)) = (.ok ⟨h, db⟩, d₃) := exec_reaching hkeep
  simp only [analyzeInto, exec_connected hconnect, Disk.exec_bind, hwithBase,
    store_eq_database hlocked, hrun, hstore, Option.getD_some, hkeepStore, Disk.exec_pure]
  rfl

/-- A fresh database gets the graph as its base, or may not be changed at all. -/
theorem of_withBase {c : Connection E} (hlife : E.Life text own d (some h) {} d')
    (hok : d'.exec time (withBase text ⟨h, {}⟩ g) = (.ok c, d'')) :
    E.isLocked h = false ∧ c = ⟨h, withdrawals g.toCompactText []⟩ ∧
      E.Life text own d (some h) (withdrawals g.toCompactText []) d'' := by
  cases hlocked : E.isLocked h with
  | true =>
    rw [withBase, store_eq_locked hlocked] at hok
    cases hok
  | false =>
    have hdb : (withdrawals g.toCompactText []).Storable := storable_withdrawals (by simp)
    have hkeep : d'.exec time (reaching text (Connection.keep ⟨h, {}⟩
        (withdrawals g.toCompactText []))) = (.ok c, d'') := by
      rw [withBase, store_eq_database hlocked] at hok
      exact hok
    exact ⟨rfl, hlife.of_keep hdb (exec_reaching_eq_ok hkeep)⟩

/-- What is known of an analysis with a fresh database. -/
theorem of_analyzeInto {r : RunResult} (hfresh : E.Fresh text d) (own : Set (List FileName))
    (hok : d.exec time (analyzeInto E g text series true) = (.ok r, d')) :
    r = freshRun g series ∧ ∀ db, r.store = some (.database db) → db.Storable →
      E.Life text own d none db d' := by
  obtain ⟨⟨h, db₀⟩, d₁, d₂, hconnect, hbody, rfl⟩ := exec_connected_eq_ok hok
  obtain ⟨rfl, hlife₁⟩ := hfresh.of_connect own hconnect
  obtain ⟨c, d₃, hbase, hbody⟩ := Disk.exec_bind_eq_ok hbody
  obtain ⟨hlocked, rfl, hlife₃⟩ := of_withBase hlife₁ hbase
  obtain ⟨_, d₄, hkeep, hr⟩ := Disk.exec_bind_eq_ok hbody
  cases hr
  refine ⟨by rw [store_eq_database hlocked]; rfl, fun db hstore hdb => ?_⟩
  rw [hstore] at hkeep
  obtain ⟨_, hlife₄⟩ := hlife₃.of_keep hdb (exec_reaching_eq_ok hkeep)
  exact hlife₄.close time

end Analysis

theorem writable_of_graphAt {graph : String} {g : Graph} (h : graphAt d graph = some g)
    (hids : (g.allNodes.map Node.id).Nodup) (hsize : g.nodes.cells.size < UInt32.size) :
    g.Writable := by
  unfold graphAt at h
  split at h
  · obtain ⟨text, _, hg⟩ := Option.bind_eq_some_iff.mp h
    have hread : Graph.read text = .ok g := by
      cases hread : Graph.read text with
      | error e =>
        rw [hread] at hg
        cases hg
      | ok g' =>
        rw [hread] at hg
        cases hg
        rfl
    exact ⟨Graph.wellFormed_of_read hread hids, hsize, Graph.shallow_of_read hread⟩
  · cases h

/-- Overlays that are named by numbers can be replayed. -/
theorem replayable_of_names {kept : List (String × List DefUse)} {count : Nat} {pass : String}
    (hnames : kept.map Prod.fst = (List.range count).map (Run.overlayNameOf "cpg" pass)) :
    Replayable kept where
  nodup := hnames ▸ List.nodup_range.map (Run.overlayNameOf_injective _ _)
  isValue := by
    intro e he c letters hlist
    have hmem : e.1 ∈ kept.map Prod.fst := List.mem_map_of_mem he
    rw [hnames] at hmem
    obtain ⟨k, _, hk⟩ := List.mem_map.mp hmem
    rw [← hk, Run.overlayNameOf, String.append_assoc, String.append_assoc, String.append_assoc,
      String.toList_append] at hlist
    cases hlist

/-- An analysis ends with a report and with the outcome in a file. -/
theorem exec_runAnalyze {graph out : String} {g : Graph} {r : RunResult} {summary : Summary}
    (hgraph : graphAt d graph = some g)
    (hanalyze : d.exec time (analyzeInto E g text "cpg" true) = (.ok r, d'))
    (hending : r.ending = .finished summary)
    (hwrite : (d'.print .out (summaryText summary)).write (.ofString out) r.graph.toText.toUTF8 =
      .ok d'') :
    d.exec time (runAnalyze E graph (some text) "cpg" true false (some out)) = (.ok (), d'') := by
  have hinto : analyze E g (some text) "cpg" true false = analyzeInto E g text "cpg" true := rfl
  simp only [runAnalyze, Disk.exec_bind, exec_readGraph hgraph, hinto, hanalyze, hending,
    exec_print, Option.getD_some, exec_writeGraph hwrite]

/-- What is known of an analysis that has succeeded. -/
theorem exec_runAnalyze_eq_ok {graph out : String} {g : Graph}
    (hgraph : graphAt d graph = some g)
    (h : d.exec time (runAnalyze E graph (some text) "cpg" true false (some out)) = (.ok (), d')) :
    ∃ r d₁ summary, d.exec time (analyzeInto E g text "cpg" true) = (.ok r, d₁) ∧
      r.ending = .finished summary := by
  obtain ⟨g', d₁, hread, h⟩ := Disk.exec_bind_eq_ok h
  obtain ⟨hg', rfl⟩ := exec_readGraph_eq_ok hread
  cases hgraph.symm.trans hg'
  obtain ⟨r, d₂, hanalyze, h⟩ := Disk.exec_bind_eq_ok h
  cases hending : r.ending with
  | finished summary => exact ⟨r, d₂, summary, hanalyze, hending⟩
  | failed e =>
    simp only [hending] at h
    cases h
  | crashed =>
    simp only [hending] at h
    cases h

/-- An analysis that succeeds leaves overlays that can be replayed. -/
theorem exists_undoing {graph out : String} {g : Graph} (hg : g.Writable)
    (hgraph : graphAt d graph = some g) (hs : Setting E text own out t d)
    (hfresh : E.Fresh text d)
    (hexec : d.exec time (runAnalyze E graph (some text) "cpg" true false (some out)) =
      (.ok (), d')) :
    ∃ kept, Replayable kept ∧
      Undoing E text own d (withdrawals g.toCompactText kept) t g kept d' := by
  obtain ⟨r, d₁, summary, hanalyze, hending⟩ := exec_runAnalyze_eq_ok hgraph hexec
  obtain ⟨rfl, hstored⟩ := of_analyzeInto hfresh own hanalyze
  obtain ⟨kept, hstore, hextends, hnames, hcount⟩ :=
    runInto_withdraws hg.wellFormed hg.size_lt hending
  have hlife := hstored _ hstore (storable_withdrawals hcount)
  have hwrite := hs.write_eq hlife (summaryText summary) (freshRun g "cpg").graph.toText.toUTF8
  cases hexec.symm.trans (exec_runAnalyze hgraph hanalyze hending hwrite)
  refine ⟨kept, replayable_of_names hnames, hs.life_print_put hlife _ _,
    (freshRun g "cpg").graph, ?_, .of_extends hextends⟩
  rw [Disk.file?_put, if_pos rfl]

end CommandLine

end CodeGraph
