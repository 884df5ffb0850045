import CodeGraph.Proofs.CommandLine.FileEngine
import CodeGraph.Proofs.CommandLine.Undo
import Mathlib

/-!
# Analyses that are undone

The overlays of an analysis undo it, in whatever order they are replayed.  At last the graph file
has the content that it had before the analysis.

For this the engine must be durable for the database, and the outcome must have a file of its own.
Otherwise the analysis may succeed and be `Stranded`: the outcome was written over the database, or
the database was in no file, or the outcome went to a device that keeps nothing.
-/

namespace CodeGraph.CommandLine

open Command Opening Connection FileEngine

variable {E : Engine} {own : Set (List FileName)} {time : String} {d d' d'' : Disk}
  {dir t : List FileName} {name : FileName} {a : Address} {db : Database}

/-! ## Two methods in a working directory -/

/-- Two methods that print what they are given.  For one of them the use is recorded already. -/
def twoMethods : Graph :=
  .built
    [.addNode (.method "f" "f") {}, .addNode .methodReturn {}, .addNode (.parameter "x" 0) {},
      .addNode (.call "print" "print(x)") {}, .addNode (.identifier "x" 1) {},
      .addNode (.method "g" "g") {}, .addNode .methodReturn {}, .addNode (.parameter "y" 0) {},
      .addNode (.call "print" "print(y)") {}, .addNode (.identifier "y" 1) {},
      .addEdge ⟨1⟩ ⟨2⟩ ⟨.ast, {}⟩, .addEdge ⟨1⟩ ⟨3⟩ ⟨.ast, {}⟩, .addEdge ⟨1⟩ ⟨4⟩ ⟨.cfg, {}⟩,
      .addEdge ⟨4⟩ ⟨2⟩ ⟨.cfg, {}⟩, .addEdge ⟨4⟩ ⟨5⟩ ⟨.argument, {}⟩,
      .addEdge ⟨6⟩ ⟨7⟩ ⟨.ast, {}⟩, .addEdge ⟨6⟩ ⟨8⟩ ⟨.ast, {}⟩, .addEdge ⟨6⟩ ⟨9⟩ ⟨.cfg, {}⟩,
      .addEdge ⟨9⟩ ⟨7⟩ ⟨.cfg, {}⟩, .addEdge ⟨9⟩ ⟨10⟩ ⟨.argument, {}⟩,
      .addEdge ⟨3⟩ ⟨4⟩ ⟨.reachingDef, .ofList [("variable", .str "x")]⟩]

theorem nodup_twoMethods : (twoMethods.reloaded.allNodes.map Node.id).Nodup := by
  rw [twoMethods.sameSlots_reloaded.allNodes_eq]
  decide +kernel

theorem size_twoMethods : twoMethods.reloaded.nodes.cells.size < UInt32.size :=
  Nat.lt_of_le_of_lt twoMethods.size_reloaded_le (by decide +kernel)

theorem read_twoMethods : Graph.read twoMethods.toText = .ok twoMethods.reloaded :=
  Graph.read_toText_built (by decide +kernel) (by decide +kernel)

theorem writable_twoMethods : twoMethods.reloaded.Writable where
  wellFormed := Graph.wellFormed_of_read read_twoMethods nodup_twoMethods
  size_lt := size_twoMethods
  shallow := Graph.shallow_of_read read_twoMethods

/-- A standard disk with a graph file in its working directory. -/
def workspace (b : ByteArray) : Disk := .ofList [("g.json", b)]

def workDir : List FileName := [FileName.ofString "tmp", .ofString "work"]

section Workspace

variable (b : ByteArray)

theorem proper_workspace : (workspace b).Proper :=
  Disk.proper_of_all (by cbv) (by cbv)

/-- Where some paths lead. -/
theorem paths_workspace :
    (workspace b).read (.ofString "g.json") = .ok b ∧
    (workspace b).target (.ofString "o.json") =
      .ok (.missing (workDir ++ [FileName.ofString "o.json"]) false) ∧
    (workspace b).target (.ofString "/dev/null") = .ok (.device .null false) ∧
    (workspace b).target (.ofString "x.db") =
      .ok (.missing (workDir ++ [FileName.ofString "x.db"]) false) ∧
    ((workspace b).exec "" (absolute (.ofString "x.db"))).1 =
      .ok (.ofNames (workDir ++ [FileName.ofString "x.db"])) ∧
    ("" :: endings).all (fun e => decide ((workspace b).find
      ((Path.ofNames (workDir ++ [FileName.ofString "x.db"])).withEnding e) =
        .error .notFound)) = true := by
  cbv

theorem graphAt_workspace {g g' : Graph} (hread : Graph.read g.toText = .ok g') :
    graphAt (workspace g.toText.toUTF8) "g.json" = some g' := by
  simp only [graphAt, (paths_workspace _).1, fromUTF8?_toUTF8, Option.bind_some, hread]
  rfl

theorem names_workspace :
    (workspace b).Names (.ofString "o.json") (workDir ++ [FileName.ofString "o.json"]) :=
  .inl (paths_workspace b).2.1

theorem target_null : (workspace b).target (.ofString "/dev/null") = .ok (.device .null false) :=
  (paths_workspace b).2.2.1

theorem target_workspace : (workspace b).target (.ofString "x.db") =
    .ok (.missing (workDir ++ [FileName.ofString "x.db"]) false) :=
  (paths_workspace b).2.2.2.1

theorem not_mem_workspace :
    workDir ++ [FileName.ofString "o.json"] ∉ filesOf workDir (.ofString "x.db") := by
  have hself : decide (workDir ++ [FileName.ofString "o.json"] ≠
    workDir ++ [FileName.ofString "x.db"]) = true := by cbv
  have hbeside : endings.all (fun e => decide (workDir ++ [FileName.ofString "o.json"] ≠
    beside workDir (.ofString "x.db") e)) = true := by cbv
  exact not_mem_filesOf_iff.mpr ⟨of_decide_eq_true hself,
    fun e he => of_decide_eq_true (List.all_eq_true.mp hbeside e he)⟩

theorem address_workspace : Address.ofText? "x.db" = some { path := .ofString "x.db" } := by cbv

theorem site_workspace : Site (workspace b) workDir (.ofString "x.db") :=
  site_of_find (proper_workspace b) (target_workspace b) fun e he =>
    of_decide_eq_true (List.all_eq_true.mp (paths_workspace b).2.2.2.2.2 e he)

theorem usable_workspace :
    Usable (workspace b) workDir (.ofString "x.db") { path := .ofString "x.db" } where
  isPrivate := by cbv
  layer := by decide
  access := rfl
  frozen := rfl
  index := nofun
  model := nofun
  absolute := by
    obtain ⟨r, _, hexec⟩ := exec_absolute (proper_workspace b) (target_workspace b)
    have hok := (paths_workspace b).2.2.2.2.1
    rw [hexec "" (workspace b) (.refl (proper_workspace b))] at hok
    exact fun time d' h => hok ▸ hexec time d' h

theorem atRest_workspace :
    AtRest (workspace b) workDir (.ofString "x.db") { path := .ofString "x.db" } .blank
      (workspace b) := by
  refine atRest_blank (site_workspace b) _ ?_
  have hfile : (workspace b).file? (workDir ++ [FileName.ofString "x.db"]) = none := by cbv
  rw [contentAt, hfile]
  rfl

theorem durable_workspace :
    fileEngine.Durable "x.db" (filesOf workDir (.ofString "x.db")) (workspace b) :=
  (atRest_workspace b).durable (site_workspace b) (usable_workspace b) address_workspace

theorem fresh_workspace : fileEngine.Fresh "x.db" (workspace b) :=
  (atRest_workspace b).fresh (site_workspace b) (usable_workspace b) address_workspace (.inl rfl)

end Workspace

/-- Both methods have a new edge recorded. -/
theorem freshRun_twoMethods : ∃ kept summary,
    (freshRun twoMethods.reloaded "cpg").ending = .finished summary ∧
    (freshRun twoMethods.reloaded "cpg").store =
      some (.database (withdrawals twoMethods.reloaded.toCompactText kept)) ∧
    twoMethods.reloaded.Recorded (kept.flatMap Prod.snd)
      (freshRun twoMethods.reloaded "cpg").graph ∧
    kept.map Prod.fst = ["cpg_ReachingDefPass_0", "cpg_ReachingDefPass_1"] ∧
    (∀ e ∈ kept, e.2.length < UInt64.size) ∧
    (freshRun twoMethods.reloaded "cpg").graph.content ≠ twoMethods.reloaded.content := by
  have hg := writable_twoMethods
  have hrunOn : (reachingDefsPass.runOn twoMethods.reloaded).ending = .finished
      { pass := "ReachingDefPass", parts := 2, chunks := 2, committedEdits := 2,
        expandedEdits := 4 } := by cbv
  obtain ⟨summary, hending, hchunks, hgraph⟩ := runInto_of_runOn hg.wellFormed hg.size_lt hrunOn
    twoMethods.reloaded.toCompactText "cpg"
  obtain ⟨kept, hstore, hextends, hnames, hcount⟩ :=
    runInto_withdraws hg.wellFormed hg.size_lt hending
  refine ⟨kept, summary, hending, hstore, .of_extends hextends, ?_, hcount, ?_⟩
  · have htwo : (List.range 2).map (Run.overlayNameOf "cpg" reachingDefsPass.name) =
        ["cpg_ReachingDefPass_0", "cpg_ReachingDefPass_1"] := by cbv
    rw [hnames, hchunks, htwo]
  · rw [freshRun, hgraph]
    exact content_runOn_ne hg.wellFormed hrunOn (by decide)

/-- Overlays are left in a database of the engine of files that held nothing. -/
theorem exec_analyzeInto_file {g : Graph} {text series : String} (hsite : Site d dir name)
    (hrest : AtRest d dir name a .blank d) (hu : Usable d dir name a)
    (ha : Address.ofText? text = some a)
    (hstore : (freshRun g series).store = some (.database db)) (hdb : db.Storable)
    (time : String) :
    ∃ d', d.exec time (analyzeInto fileEngine g text series true) = (.ok (freshRun g series), d') ∧
      AtRest d dir name a db d' := by
  have hbase : (withdrawals g.toCompactText []).Storable := storable_withdrawals (by simp)
  obtain ⟨d₁, hconnect, hinUse₁⟩ := hrest.exec_connection hsite hu ha time
  obtain ⟨d₂, hkeep₂, hinUse₂⟩ := hinUse₁.exec_keep_connection hsite time hbase
  obtain ⟨d₃, hkeep₃, hinUse₃⟩ := hinUse₂.exec_keep_connection hsite time hdb
  obtain ⟨d₄, hclose, hrest', _⟩ := hinUse₃.run_close hsite time
  refine ⟨d₄, ?_, hrest'⟩
  rw [exec_analyzeInto (E := fileEngine) rfl hconnect hkeep₂ hstore hkeep₃]
  exact congrArg (Prod.mk _ ∘ Prod.snd) hclose

/-! ## The way back -/

/-- A graph file is analyzed with a fresh database, and the overlays that undo the analysis are
replayed onto the outcome in any order.  Every replay succeeds, and at last the file has the
content of the graph that was analyzed.  For this the engine has to be durable for the database, and
the outcome has to be written to a file that is none of its files. -/
theorem undoAll_restores_content {usual : Option String} {graph text out : String} {g : Graph}
    (hd : d.Proper) (hgraph : graphAt d graph = some g) (hids : (g.allNodes.map Node.id).Nodup)
    (hsize : g.nodes.cells.size < UInt32.size) (hE : E.Durable text own d)
    (hfresh : E.Fresh text d) (hout : d.Names (.ofString out) t) (hown : t ∉ own)
    (hrun : d.run time (program E usual (analyzeArguments graph text out)) = (0, d')) :
    ∃ names, (∀ time, storedNames E time d' text = some names) ∧
      ∀ order, order.Perm names → ∀ time,
        (∀ code ∈ (undoAll E time usual out text d' order).1, code = 0) ∧
        ∃ g', graphAt (undoAll E time usual out text d' order).2 out = some g' ∧
          g'.content = g.content := by
  have hg := writable_of_graphAt hgraph hids hsize
  have hs : Setting E text own out t d := ⟨hd, hE, hout, hown⟩
  obtain ⟨htext, hvalue, hexec⟩ := exec_of_analyze_eq_zero (congrArg Prod.fst hrun)
  rw [hrun] at hexec
  obtain ⟨kept, hkept, hu⟩ := exists_undoing hg hgraph hs hfresh hexec
  refine ⟨kept.map Prod.fst, fun time => ?_, ?_⟩
  · obtain ⟨_, _, hconnect, _⟩ := hE.exec_connect hu.life rfl time
    exact storedNames_withdrawals hconnect
  · intro order horder time
    obtain ⟨hcodes, hend⟩ := hu.undoAll hs hg hkept htext hvalue (List.Subset.refl kept) horder
    obtain ⟨g', hgraph', hrecorded⟩ := hend.exists_graphAt hs hg
    exact ⟨hcodes, g', hgraph', hrecorded.content_eq hg⟩

/-- An edge that was there before the analysis stays, although the analysis records an equal one. -/
theorem twoMethods_restored : ∃ d',
    (workspace twoMethods.toText.toUTF8).Proper ∧
    graphAt (workspace twoMethods.toText.toUTF8) "g.json" = some twoMethods.reloaded ∧
    (twoMethods.reloaded.allNodes.map Node.id).Nodup ∧
    twoMethods.reloaded.nodes.cells.size < UInt32.size ∧
    fileEngine.Durable "x.db" (filesOf workDir (.ofString "x.db"))
      (workspace twoMethods.toText.toUTF8) ∧
    fileEngine.Fresh "x.db" (workspace twoMethods.toText.toUTF8) ∧
    (workspace twoMethods.toText.toUTF8).Names (.ofString "o.json")
      (workDir ++ [FileName.ofString "o.json"]) ∧
    workDir ++ [FileName.ofString "o.json"] ∉ filesOf workDir (.ofString "x.db") ∧
    (workspace twoMethods.toText.toUTF8).run ""
      (program fileEngine none (analyzeArguments "g.json" "x.db" "o.json")) = (0, d') ∧
    (∀ time, storedNames fileEngine time d' "x.db" =
      some ["cpg_ReachingDefPass_0", "cpg_ReachingDefPass_1"]) ∧
    ∀ order, order.Perm ["cpg_ReachingDefPass_0", "cpg_ReachingDefPass_1"] → ∀ time,
      (∀ code ∈ (undoAll fileEngine time none "o.json" "x.db" d' order).1, code = 0) ∧
      ∃ g', graphAt (undoAll fileEngine time none "o.json" "x.db" d' order).2 "o.json" = some g' ∧
        g'.content = twoMethods.reloaded.content := by
  have hgraph := graphAt_workspace read_twoMethods
  generalize twoMethods.toText.toUTF8 = b at *
  have hs : Setting fileEngine "x.db" _ "o.json" _ (workspace b) :=
    ⟨proper_workspace b, durable_workspace b, names_workspace b, not_mem_workspace⟩
  obtain ⟨kept, summary, hending, hstore, _, hkept, hcount, _⟩ := freshRun_twoMethods
  obtain ⟨d₁, hanalyze, _⟩ := exec_analyzeInto_file (site_workspace b) (atRest_workspace b)
    (usable_workspace b) address_workspace hstore (storable_withdrawals hcount) ""
  obtain ⟨_, hstored⟩ := of_analyzeInto (fresh_workspace b)
    (filesOf workDir (.ofString "x.db")) hanalyze
  have hlife := hstored _ hstore (storable_withdrawals hcount)
  have hwrite := hs.write_eq hlife (summaryText summary)
    (freshRun twoMethods.reloaded "cpg").graph.toText.toUTF8
  have hexec := exec_runAnalyze hgraph hanalyze hending hwrite
  have hrun : (workspace b).run ""
      (program fileEngine none (analyzeArguments "g.json" "x.db" "o.json")) =
      (0, (d₁.print .out (summaryText summary)).put (workDir ++ [FileName.ofString "o.json"])
        (freshRun twoMethods.reloaded "cpg").graph.toText.toUTF8) := by
    rw [program_analyze (isValue_of_head? rfl (by decide)) (isValue_of_head? rfl (by decide)).1
      (isValue_of_head? rfl (by decide)), run_exitCode, hexec]
  obtain ⟨names, hnames, hundo⟩ := undoAll_restores_content (proper_workspace b) hgraph
    nodup_twoMethods size_twoMethods (durable_workspace b) (fresh_workspace b) (names_workspace b)
    not_mem_workspace hrun
  obtain ⟨h, d₂, hconnect, _⟩ := hs.durable.exec_connect (hs.life_print_put hlife
    (summaryText summary) (freshRun twoMethods.reloaded "cpg").graph.toText.toUTF8) rfl ""
  cases (hkept ▸ storedNames_withdrawals hconnect).symm.trans (hnames "")
  exact ⟨_, proper_workspace b, hgraph, nodup_twoMethods, size_twoMethods, durable_workspace b,
    fresh_workspace b, names_workspace b, not_mem_workspace, hrun, hnames, hundo⟩

/-! ## Analyses that cannot be undone -/

/-- The analysis succeeds, but no overlay can be replayed onto its outcome, and that is not the
graph that was analyzed. -/
def Stranded (d : Disk) (g : Graph) (graph db out : String) : Prop :=
  ∃ d', d.run "" (program fileEngine none (analyzeArguments graph db out)) = (0, d') ∧
    (∀ overlay, IsValue overlay →
      (d'.run "" (program fileEngine none (undoArguments out db overlay))).1 = 3) ∧
    ∀ g', graphAt d' out = some g' → g'.content ≠ g.content

theorem stranded_of_exec {graph text out : String} {g : Graph} {r : RunResult} {summary : Summary}
    (hvalues : (IsValue graph ∧ graph ≠ "") ∧ IsValue text ∧ IsValue out ∧ out ≠ "")
    (hgraph : graphAt d graph = some g)
    (hanalyze : d.exec "" (analyzeInto fileEngine g text "cpg" true) = (.ok r, d'))
    (hending : r.ending = .finished summary)
    (hwrite : (d'.print .out (summaryText summary)).write (.ofString out) r.graph.toText.toUTF8 =
      .ok d'')
    (hundo : ∀ overlay, (d''.exec "" (runUndo fileEngine out text overlay none)).1 = .error 3)
    (hcontent : ∀ g', graphAt d'' out = some g' → g'.content ≠ g.content) :
    Stranded d g graph text out := by
  obtain ⟨hvalue, htext, hout⟩ := hvalues
  have hexec := exec_runAnalyze hgraph hanalyze hending hwrite
  refine ⟨d'', ?_, ?_, hcontent⟩
  · rw [program_analyze hvalue htext hout, run_exitCode, hexec]
  · intro overlay hoverlay
    rw [program_undo hout htext hoverlay]
    exact run_exitCode_of_error (hundo overlay)

theorem exists_toList_toText (g : Graph) :
    ∃ bytes, g.toText.toUTF8.toList = 123 :: 10 :: bytes := by
  obtain ⟨letters, hletters⟩ :
      ∃ letters, Json.renderOnto .pretty 0 g.toJson [] = '\x7b' :: '\n' :: letters := ⟨_, rfl⟩
  have htext : g.toText = String.ofList ['\x7b', '\n'] ++ String.ofList letters := by
    rw [Graph.toText, Json.pretty, Json.render, hletters, ← String.ofList_append]
    rfl
  have hbytes : g.toText.toUTF8 =
      (String.ofList ['\x7b', '\n']).toUTF8 ++ (String.ofList letters).toUTF8 :=
    htext ▸ String.toByteArray_append
  have hstart : (String.ofList ['\x7b', '\n']).toUTF8.toList = [123, 10] := by cbv
  refine ⟨(String.ofList letters).toUTF8.toList, ?_⟩
  rw [hbytes, toList_append, hstart]
  rfl

/-- The file of a graph starts like that of no database. -/
theorem ofBytes_toText (g : Graph) : DatabaseFile.ofBytes g.toText.toUTF8 = .error .database := by
  obtain ⟨bytes, hbytes⟩ := exists_toList_toText g
  have hvacant : ¬DatabaseFile.isVacant g.toText.toUTF8 = true := by
    have hsize : g.toText.toUTF8.size = bytes.length + 2 := by
      rw [size_eq_length_toList, hbytes]
      rfl
    rw [DatabaseFile.isVacant, hsize, decide_eq_true_eq]
    omega
  have hblank : g.toText.toUTF8.toList ≠ DatabaseFile.blankPage := by
    intro h
    have hhead := congrArg List.head? h
    rw [hbytes, DatabaseFile.head?_blankPage] at hhead
    cases hhead
  have hmark : g.toText.toUTF8.toList.take DatabaseFile.mark.length ≠ DatabaseFile.mark := by
    rw [hbytes]
    intro h
    cases h
  rw [DatabaseFile.ofBytes, if_neg hvacant, if_neg hblank, if_neg hmark]

/-- A database is lost when the outcome is written over it. -/
theorem exec_runUndo_overwritten {g h : Graph} {text out overlay : String}
    (hsite : Site d dir name) (hu : Usable d dir name a) (ha : Address.ofText? text = some a)
    (hgrown : d.Grown d') (hfile : d'.file? (dir ++ [name]) = some h.toText.toUTF8)
    (hclear : ∀ e ∈ endings, d'.file? (beside dir name e) = none)
    (hgraph : graphAt d' out = some g) :
    (d'.exec time (runUndo fileEngine out text overlay none)).1 = .error 3 := by
  have hcontent : contentAt d' dir name = .error .database := by
    rw [contentAt, hfile]
    exact ofBytes_toText h
  obtain ⟨d'', hconnect⟩ := exec_connect_eq_error hsite hu ha hgrown hcontent hclear time
  have hconnect : d'.exec time (fileEngine.connect text) = (.error (.store .database), d'') :=
    hconnect
  have herror : d'.exec time (Connection.connect fileEngine text) =
      (.error (.store .database), d'') := by
    simp only [Connection.connect, Disk.exec_bind, hconnect]
  exact exec_runUndo_eq_error hgraph herror

/-- A database that is in no file is a new one every time. -/
theorem exec_connect_memory :
    d.exec time (fileEngine.connect ":memory:") = (.ok (none, .blank), d) := by
  have haddress : Address.ofText? ":memory:" = some { path := .ofString ":memory:" } := by cbv
  have hprivate : Address.isPrivate { path := .ofString ":memory:" } = true := by cbv
  change d.exec time (FileEngine.connect ":memory:") = _
  simp only [FileEngine.connect, haddress, hprivate]
  rfl

theorem fresh_memory : fileEngine.Fresh ":memory:" d := by
  intro time h db d' hconnect
  cases exec_connect_memory.symm.trans hconnect
  exact .inl rfl

theorem exec_keep_memory (db db' : Database) :
    d.exec time (Connection.keep (E := fileEngine) ⟨none, db⟩ db') = (.ok ⟨none, db'⟩, d) := by
  unfold Connection.keep
  split
  · rename_i heq
    cases heq
    rfl
  · rfl

theorem exec_connection_memory :
    d.exec time (Connection.connect fileEngine ":memory:") = (.ok ⟨none, {}⟩, d) := by
  simp only [Connection.connect, Disk.exec_bind, exec_connect_memory]
  exact exec_keep_memory .blank {}

theorem exec_analyzeInto_memory {g : Graph}
    (hstore : (freshRun g "cpg").store = some (.database db)) :
    d.exec time (analyzeInto fileEngine g ":memory:" "cpg" true) = (.ok (freshRun g "cpg"), d) :=
  exec_analyzeInto (E := fileEngine) rfl exec_connection_memory (exec_keep_memory _ _) hstore
    (exec_keep_memory _ _)

theorem exec_runUndo_memory {g : Graph} {out overlay : String} (hgraph : graphAt d out = some g) :
    (d.exec time (runUndo fileEngine out ":memory:" overlay none)).1 = .error 3 := by
  simp only [runUndo, Disk.exec_bind, exec_readGraph hgraph, exec_connected exec_connection_memory]
  rfl

theorem read_empty : Graph.read "" = .error .malformed := by cbv

/-- What is written to the null device is gone. -/
theorem graphAt_null (hread : d.read (.ofString "/dev/null") = .ok .empty) :
    graphAt d "/dev/null" = none := by
  simp only [graphAt, hread]
  exact congrArg Except.toOption read_empty

theorem exec_runUndo_null {text overlay : String}
    (hread : d.read (.ofString "/dev/null") = .ok .empty) :
    (d.exec time (runUndo E "/dev/null" text overlay none)).1 = .error 3 := by
  have htext : String.fromUTF8? .empty = some "" := rfl
  simp only [runUndo, readGraph, Disk.exec_bind, Disk.exec_lift, Disk.run_readFile, hread, htext,
    read_empty]
  rfl

section Workspace

variable {b : ByteArray}

/-- The outcome that is in a file is not the graph that was analyzed. -/
theorem exists_graphAt_outcome {path : String} {q : List FileName}
    (hq : (workspace b).Names (.ofString path) q) (h : (workspace b).SameDirectories d') :
    ∃ g', graphAt (d'.put q (freshRun twoMethods.reloaded "cpg").graph.toText.toUTF8) path =
      some g' ∧ g'.content ≠ twoMethods.reloaded.content := by
  obtain ⟨_, _, _, _, hrecorded, _, _, hcontent⟩ := freshRun_twoMethods
  obtain ⟨g', hread, _, heq⟩ := hrecorded.exists_read writable_twoMethods
  refine ⟨g', graphAt_of_names hq (h.trans (hq.grown_put h _).toSameDirectories) ?_ hread,
    heq ▸ hcontent⟩
  rw [Disk.file?_put, if_pos rfl]

variable (hgraph : graphAt (workspace b) "g.json" = some twoMethods.reloaded)

include hgraph

theorem stranded_overwritten :
    Stranded (workspace b) twoMethods.reloaded "g.json" "x.db" "x.db" := by
  obtain ⟨kept, summary, hending, hstore, _, _, hcount, _⟩ := freshRun_twoMethods
  obtain ⟨d₁, hanalyze, hrest⟩ := exec_analyzeInto_file (site_workspace b) (atRest_workspace b)
    (usable_workspace b) address_workspace hstore (storable_withdrawals hcount) ""
  have hnames : (workspace b).Names (.ofString "x.db") (workDir ++ [FileName.ofString "x.db"]) :=
    .inl (target_workspace b)
  have hgrown := hrest.grown.print .out (summaryText summary)
  have hput := hgrown.trans (hnames.grown_put hgrown.toSameDirectories
    (freshRun twoMethods.reloaded "cpg").graph.toText.toUTF8)
  obtain ⟨g', hgraph', hcontent⟩ := exists_graphAt_outcome hnames hgrown.toSameDirectories
  refine stranded_of_exec ⟨isValue_of_head? rfl (by decide), (isValue_of_head? rfl (by decide)).1,
    isValue_of_head? rfl (by decide)⟩ hgraph hanalyze hending
    (hnames.write_eq hgrown.toSameDirectories _) ?_ ?_
  · intro overlay
    refine exec_runUndo_overwritten (site_workspace b) (usable_workspace b) address_workspace
      hput (by rw [Disk.file?_put, if_pos rfl]) (fun e he => ?_) hgraph'
    rw [Disk.file?_put, if_neg (beside_ne he), Disk.file?_print]
    exact hrest.clear e he
  · rintro g₁ hg₁
    cases hgraph'.symm.trans hg₁
    exact hcontent

theorem stranded_memory :
    Stranded (workspace b) twoMethods.reloaded "g.json" ":memory:" "o.json" := by
  obtain ⟨kept, summary, hending, hstore, _⟩ := freshRun_twoMethods
  have hsame := ((Disk.Grown.refl (proper_workspace b)).print .out
    (summaryText summary)).toSameDirectories
  obtain ⟨g', hgraph', hcontent⟩ := exists_graphAt_outcome (names_workspace b) hsame
  refine stranded_of_exec ⟨isValue_of_head? rfl (by decide), (isValue_of_head? rfl (by decide)).1,
    isValue_of_head? rfl (by decide)⟩ hgraph (exec_analyzeInto_memory hstore) hending
    ((names_workspace b).write_eq hsame _) ?_ ?_
  · intro overlay
    exact exec_runUndo_memory hgraph'
  · rintro g₁ hg₁
    cases hgraph'.symm.trans hg₁
    exact hcontent

theorem stranded_null :
    Stranded (workspace b) twoMethods.reloaded "g.json" "x.db" "/dev/null" := by
  obtain ⟨kept, summary, hending, hstore, _, _, hcount, _⟩ := freshRun_twoMethods
  obtain ⟨d₁, hanalyze, hrest⟩ := exec_analyzeInto_file (site_workspace b) (atRest_workspace b)
    (usable_workspace b) address_workspace hstore (storable_withdrawals hcount) ""
  have htarget := (hrest.grown.print .out (summaryText summary)).target_eq (target_null b)
  have hwrite : (d₁.print .out (summaryText summary)).write (.ofString "/dev/null")
      (freshRun twoMethods.reloaded "cpg").graph.toText.toUTF8 =
        .ok (d₁.print .out (summaryText summary)) := by
    rw [Disk.write, htarget]
    rfl
  have hread : (d₁.print .out (summaryText summary)).read (.ofString "/dev/null") = .ok .empty := by
    rw [Disk.read, htarget]
    rfl
  refine stranded_of_exec ⟨isValue_of_head? rfl (by decide), (isValue_of_head? rfl (by decide)).1,
    isValue_of_head? rfl (by decide)⟩ hgraph hanalyze hending hwrite ?_ ?_
  · intro overlay
    exact exec_runUndo_null hread
  · intro g' hg'
    cases (graphAt_null hread).symm.trans hg'

end Workspace

/-- A graph that can be brought back is not, if the outcome is written over the database, if the
database is in no file or if the outcome is not kept.  The databases are fresh. -/
theorem twoMethods_stranded :
    graphAt (workspace twoMethods.toText.toUTF8) "g.json" = some twoMethods.reloaded ∧
    (twoMethods.reloaded.allNodes.map Node.id).Nodup ∧
    fileEngine.Fresh "x.db" (workspace twoMethods.toText.toUTF8) ∧
    fileEngine.Fresh ":memory:" (workspace twoMethods.toText.toUTF8) ∧
    Stranded (workspace twoMethods.toText.toUTF8) twoMethods.reloaded "g.json" "x.db" "x.db" ∧
    Stranded (workspace twoMethods.toText.toUTF8) twoMethods.reloaded "g.json" ":memory:" "o.json" ∧
    Stranded (workspace twoMethods.toText.toUTF8) twoMethods.reloaded "g.json" "x.db"
      "/dev/null" := by
  have hgraph := graphAt_workspace read_twoMethods
  exact ⟨hgraph, nodup_twoMethods, fresh_workspace _, fresh_memory, stranded_overwritten hgraph,
    stranded_memory hgraph, stranded_null hgraph⟩

end CodeGraph.CommandLine
