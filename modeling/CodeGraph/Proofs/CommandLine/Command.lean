import CodeGraph.CommandLine.Run
import CodeGraph.Proofs.CommandLine.Disk
import Mathlib

/-!
# Commands run on a disk

What the parts of a command do on a disk.  For a part that succeeds one lemma says what it does, and
another what is known when it has succeeded (`exec_readGraph` and `exec_readGraph_eq_ok`).

A command that ends early does not report success (`Command.Honest`).  So an exit code of 0 says
that the command came to its end (`exec_of_run_exitCode`), and that its arguments were understood.
They are if every text in them can be the value of an option (`isValue_of_request`).
-/

namespace CodeGraph.CommandLine

variable {time : String} {d d' : Disk}

/-! ## Ends -/

namespace Command

theorem exec_print (text : String) : d.exec time (print text) = (.ok (), d.print .out text) := rfl

theorem exec_fail {α : Type} (code : Nat) (report : String) :
    d.exec time (fail code report : Command α) =
      (.error code, d.print .err (report ++ "\n")) := rfl

/-- A command that does not report success when it ends early. -/
def Honest {α : Type} (x : Command α) : Prop :=
  ∀ (time : String) (d d' : Disk), d.exec time x ≠ (.error 0, d')

variable {α β : Type}

theorem honest_pure (a : α) : Honest (pure a : Command α) := by
  intro time d d' h
  cases h

theorem honest_fail {code : Nat} (hcode : code ≠ 0) (report : String) :
    Honest (fail code report : Command α) := by
  intro time d d' h
  rw [exec_fail] at h
  cases h
  exact hcode rfl

theorem honest_lift (x : FileProgram α) : Honest (liftM x : Command α) := by
  intro time d d' h
  rw [Disk.exec_lift] at h
  cases h

theorem Honest.bind {x : Command α} {f : α → Command β} (hx : Honest x) (hf : ∀ a, Honest (f a)) :
    Honest (x >>= f) := by
  intro time d d' h
  rw [Disk.exec_bind] at h
  cases hexec : d.exec time x with
  | mk r d₁ =>
    rw [hexec] at h
    cases r with
    | error code =>
      cases h
      exact hx time d d' hexec
    | ok a => exact hf a time d₁ d' h

end Command

open Command

/-! ## Graph files -/

/-- The graph in a file. -/
def graphAt (d : Disk) (path : String) : Option Graph :=
  match d.read (.ofString path) with
  | .ok bytes => (String.fromUTF8? bytes).bind fun text => (Graph.read text).toOption
  | .error _ => none

theorem honest_readGraph (path : String) : Honest (readGraph path) := by
  unfold readGraph
  refine (honest_lift _).bind ?_
  rintro (e | bytes)
  · exact honest_fail (by decide) _
  · dsimp only
    split
    · exact honest_fail (by decide) _
    · split
      · exact honest_pure _
      · exact honest_fail (by decide) _
      · exact honest_fail (by decide) _

theorem exec_readGraph {path : String} {g : Graph} (h : graphAt d path = some g) :
    d.exec time (readGraph path) = (.ok g, d) := by
  unfold graphAt at h
  simp only [readGraph, Disk.exec_bind, Disk.exec_lift, Disk.run_readFile]
  split at h
  · rename_i bytes hread
    obtain ⟨text, htext, hg⟩ := Option.bind_eq_some_iff.mp h
    simp only [hread, htext]
    cases hparse : Graph.read text with
    | error e =>
      rw [hparse] at hg
      cases hg
    | ok g' =>
      rw [hparse] at hg
      cases hg
      exact Disk.exec_pure g
  · cases h

theorem exec_readGraph_eq_ok {path : String} {g : Graph}
    (h : d.exec time (readGraph path) = (.ok g, d')) : graphAt d path = some g ∧ d' = d := by
  unfold graphAt
  simp only [readGraph, Disk.exec_bind, Disk.exec_lift, Disk.run_readFile] at h
  split
  · rename_i bytes hread
    rw [hread] at h
    cases htext : String.fromUTF8? bytes with
    | none =>
      simp only [htext] at h
      cases h
    | some text =>
      simp only [htext] at h
      cases hparse : Graph.read text with
      | ok g' =>
        simp only [hparse] at h
        cases h
        rw [Option.bind_some, hparse]
        exact ⟨rfl, rfl⟩
      | error e => cases e <;> simp only [hparse] at h <;> cases h
  · rename_i e hread
    rw [hread] at h
    cases h

theorem honest_writeGraph (g : Graph) (path : String) : Honest (writeGraph g path) := by
  unfold writeGraph
  refine (honest_lift _).bind ?_
  rintro (e | _)
  · exact honest_fail (by decide) _
  · exact honest_pure _

theorem exec_writeGraph {g : Graph} {path : String} {d' : Disk}
    (h : d.write (.ofString path) g.toText.toUTF8 = .ok d') :
    d.exec time (writeGraph g path) = (.ok (), d') := by
  simp only [writeGraph, Disk.exec_bind, Disk.exec_lift, Disk.run_writeFile, h]
  rfl

/-! ## Databases -/

variable {α : Type} {E : Engine} {db : String}

theorem honest_reaching (o : Opening α) : Honest (reaching db o) := by
  unfold reaching
  refine (honest_lift _).bind ?_
  rintro (e | a)
  · exact honest_fail (by decide) _
  · exact honest_pure _

theorem exec_reaching {o : Opening α} {a : α} (h : d.exec time o = (.ok a, d')) :
    d.exec time (reaching db o) = (.ok a, d') := by
  have hrun : d.run time (o.run : FileProgram _) = (.ok a, d') := h
  simp only [reaching, Disk.exec_bind, Disk.exec_lift, hrun]
  rfl

theorem exec_reaching_eq_ok {o : Opening α} {a : α}
    (h : d.exec time (reaching db o) = (.ok a, d')) : d.exec time o = (.ok a, d') := by
  have hrun : d.exec time o = d.run time (o.run : FileProgram _) := rfl
  rw [hrun]
  simp only [reaching, Disk.exec_bind, Disk.exec_lift] at h
  rcases hresult : d.run time (o.run : FileProgram _) with ⟨e | a', d₁⟩
  · rw [hresult] at h
    cases h
  · rw [hresult] at h
    cases h
    rfl

theorem exec_closing (x : Command α) (c : Connection E) :
    d.exec time (ExceptT.mk do
        let result ← x.run
        c.close
        return result) =
      ((d.exec time x).1, ((d.exec time x).2.run time c.close).2) := by
  change d.run time (x.run >>= fun result => c.close >>= fun _ => pure result) = _
  rw [Disk.run_bind, Disk.run_bind]
  rfl

/-- The database is closed whatever the body comes to. -/
theorem exec_connected {body : Connection E → Command α} {c : Connection E}
    (h : d.exec time (Connection.connect E db) = (.ok c, d')) :
    d.exec time (connected E db body) =
      ((d'.exec time (body c)).1, ((d'.exec time (body c)).2.run time c.close).2) := by
  simp only [connected, Disk.exec_bind, exec_reaching h, exec_closing]

theorem exec_connected_eq_ok {body : Connection E → Command α} {a : α}
    (h : d.exec time (connected E db body) = (.ok a, d')) :
    ∃ c d₁ d₂, d.exec time (Connection.connect E db) = (.ok c, d₁) ∧
      d₁.exec time (body c) = (.ok a, d₂) ∧ d' = (d₂.run time c.close).2 := by
  obtain ⟨c, d₁, hconnect, _⟩ := Disk.exec_bind_eq_ok h
  have hconnect := exec_reaching_eq_ok hconnect
  rw [exec_connected hconnect] at h
  obtain ⟨hbody, rfl⟩ := Prod.mk.inj h
  exact ⟨c, d₁, _, hconnect, Prod.ext hbody rfl, rfl⟩

theorem honest_connected {body : Connection E → Command α} (hbody : ∀ c, Honest (body c)) :
    Honest (connected E db body) := by
  refine (honest_reaching _).bind ?_
  intro c time d d' h
  rw [exec_closing] at h
  exact hbody c time d _ (Prod.ext (Prod.mk.inj h).1 rfl)

theorem honest_keepStore (c : Connection E) (store : Store) : Honest (keepStore db c store) := by
  cases store with
  | database d => exact honest_reaching _
  | memory s => exact honest_pure c
  | locked d => exact honest_pure c

theorem honest_withBase (c : Connection E) (g : Graph) : Honest (withBase db c g) := by
  unfold withBase
  split
  · exact honest_fail (by decide) _
  · exact honest_pure c
  · split
    · exact honest_fail (by decide) _
    · exact honest_keepStore c _

/-! ## The analysis -/

theorem honest_analyzeInto (g : Graph) (series : String) (invert : Bool) :
    Honest (analyzeInto E g db series invert) :=
  honest_connected fun c => (honest_withBase c g).bind fun c =>
    (honest_keepStore c _).bind fun _ => honest_pure _

theorem honest_analyze (g : Graph) (db : Option String) (series : String) (invert parallel : Bool) :
    Honest (analyze E g db series invert parallel) := by
  unfold analyze
  split
  · exact honest_fail (by decide) _
  · exact honest_pure _
  · exact honest_pure _
  · exact honest_analyzeInto g series invert

theorem honest_runAnalyze (path : String) (db : Option String) (series : String)
    (invert parallel : Bool) (out : Option String) :
    Honest (runAnalyze E path db series invert parallel out) := by
  unfold runAnalyze
  refine (honest_readGraph path).bind fun g => (honest_analyze g db series invert parallel).bind ?_
  intro r
  split
  · exact (honest_lift _).bind fun _ => honest_fail (by decide) _
  · exact honest_fail (by decide) _
  · exact (honest_lift _).bind fun _ => honest_writeGraph _ _

theorem run_exitCode (c : Command Unit) : d.run time (exitCode c) =
    match d.exec time c with
    | (.ok (), d') => (0, d')
    | (.error code, d') => (code, d') := by
  have hrun : d.run time (c.run : FileProgram _) = d.exec time c := rfl
  rw [exitCode, Disk.run_bind, hrun]
  rcases d.exec time c with ⟨code | _, d'⟩ <;> rfl

theorem run_exitCode_of_error {c : Command Unit} {code : Nat}
    (h : (d.exec time c).1 = .error code) : (d.run time (exitCode c)).1 = code := by
  rw [run_exitCode]
  split
  · next heq =>
    rw [heq] at h
    cases h
  · next heq =>
    rw [heq] at h
    cases h
    rfl

/-- An exit code of 0 means that nothing has ended the command early. -/
theorem exec_of_run_exitCode {c : Command Unit} (hc : Honest c)
    (h : (d.run time (exitCode c)).1 = 0) :
    d.exec time c = (.ok (), (d.run time (exitCode c)).2) := by
  rw [run_exitCode] at h ⊢
  rcases hexec : d.exec time c with ⟨code | _, d'⟩
  · rw [hexec] at h
    cases h
    exact absurd hexec (hc time d d')
  · rfl

/-! ## Arguments -/

/-- A text that is taken for the value of the option before it. -/
def IsValue (s : String) : Prop := ∀ c rest, s.toList ≠ '-' :: c :: rest

theorem isValue_of_head? {s : String} {c : Char} (h : s.toList.head? = some c) (hc : c ≠ '-') :
    IsValue s ∧ s ≠ "" := by
  refine ⟨fun c' rest hlist => ?_, ?_⟩
  · rw [hlist] at h
    cases h
    exact hc rfl
  · rintro rfl
    cases h

namespace Reading

variable {c : CommandSpec} {given : List (String × String)} {o : Opt} {s : String}

/-- A value is put down for the option that waits for it. -/
theorem steps_value (hlookup : given.lookup o.long = none) (hvalue : IsValue s)
    (hpath : o.takes = .path → s ≠ "") (rest : List String) :
    steps c ⟨given, some o, false⟩ (s :: rest) =
      steps c ⟨(o.long, s) :: given, none, false⟩ rest := by
  have hset : set ⟨given, some o, false⟩ o s = .ok ⟨(o.long, s) :: given, none, false⟩ := by
    have hempty : ¬(o.takes = .path ∧ s.isEmpty = true) := by
      rintro ⟨htakes, hs⟩
      exact hpath htakes (String.isEmpty_iff.mp hs)
    rw [set, hlookup, Option.isSome_none, if_neg Bool.false_ne_true, if_neg hempty]
  have hstep : step c ⟨given, some o, false⟩ s = .ok ⟨(o.long, s) :: given, none, false⟩ := by
    simp only [step, Bool.false_eq_true, if_false]
    split
    · rename_i hlist
      exact absurd hlist (hvalue _ _)
    · rename_i hpending _
      cases hpending
      exact hset
    all_goals simp_all
  rw [steps, hstep]

/-- What stands after an option is its value, unless the arguments are misused. -/
theorem isValue_of_steps {rest : List String} (hlookup : given.lookup o.long = none)
    (h : ∀ m, steps c ⟨given, some o, false⟩ (s :: rest) ≠ .error (.misuse m)) :
    IsValue s ∧ (o.takes = .path → s ≠ "") ∧
      ∀ m, steps c ⟨(o.long, s) :: given, none, false⟩ rest ≠ .error (.misuse m) := by
  have hvalue : IsValue s := by
    intro l letters hlist
    apply h (.noValue o)
    simp only [steps, step, Bool.false_eq_true, if_false, hlist]
  have hpath : o.takes = .path → s ≠ "" := by
    rintro htakes rfl
    apply h (.noValue o)
    have hstep : step c ⟨given, some o, false⟩ "" = set ⟨given, some o, false⟩ o "" := rfl
    rw [steps, hstep, set, hlookup, Option.isSome_none, if_neg Bool.false_ne_true,
      if_pos ⟨htakes, rfl⟩]
  rw [steps_value hlookup hvalue hpath] at h
  exact ⟨hvalue, hpath, h⟩

end Reading

/-- The arguments that have a graph file analyzed, with overlays that undo stored. -/
def analyzeArguments (graph db out : String) : List String :=
  ["analyze", "--graph", graph, "--db", db, "--invert", "--out", out]

/-- The arguments that have an overlay replayed onto a graph file. -/
def undoArguments (graph db overlay : String) : List String :=
  ["undo", "--graph", graph, "--db", db, "--overlay", overlay]

theorem request_analyze {graph db out : String} (hgraph : IsValue graph ∧ graph ≠ "")
    (hdb : IsValue db) (hout : IsValue out ∧ out ≠ "") :
    Request.ofArguments (analyzeArguments graph db out) =
      .run (.analyze graph (some db) "cpg" true false (some out)) := by
  have hread : analyzeSpec.read ["--graph", graph, "--db", db, "--invert", "--out", out] =
      .ok [("out", out), ("invert", ""), ("db", db), ("graph", graph)] := by
    have hsteps : Reading.steps analyzeSpec {}
        ["--graph", graph, "--db", db, "--invert", "--out", out] =
        .ok ⟨[("out", out), ("invert", ""), ("db", db), ("graph", graph)], none, false⟩ := by
      refine (Reading.steps_value rfl hgraph.1 (fun _ => hgraph.2) _).trans ?_
      refine (Reading.steps_value rfl hdb (by rintro ⟨⟩) _).trans ?_
      exact Reading.steps_value rfl hout.1 (fun _ => hout.2) _
    rw [CommandSpec.read, hsteps]
    rfl
  change Request.ofCommand analyzeSpec _ = _
  rw [Request.ofCommand, hread]
  rfl

theorem request_undo {graph db overlay : String} (hgraph : IsValue graph ∧ graph ≠ "")
    (hdb : IsValue db) (hoverlay : IsValue overlay) :
    Request.ofArguments (undoArguments graph db overlay) =
      .run (.undo graph (some db) overlay none) := by
  have hread : undoSpec.read ["--graph", graph, "--db", db, "--overlay", overlay] =
      .ok [("overlay", overlay), ("db", db), ("graph", graph)] := by
    have hsteps : Reading.steps undoSpec {} ["--graph", graph, "--db", db, "--overlay", overlay] =
        .ok ⟨[("overlay", overlay), ("db", db), ("graph", graph)], none, false⟩ := by
      refine (Reading.steps_value rfl hgraph.1 (fun _ => hgraph.2) _).trans ?_
      refine (Reading.steps_value rfl hdb (by rintro ⟨⟩) _).trans ?_
      exact Reading.steps_value rfl hoverlay (by rintro ⟨⟩) _
    rw [CommandSpec.read, hsteps]
    rfl
  change Request.ofCommand undoSpec _ = _
  rw [Request.ofCommand, hread]
  rfl

/-- The texts that the arguments can have in them without being misused. -/
theorem isValue_of_request {graph db out : String}
    (h : ∀ m, Request.ofArguments (analyzeArguments graph db out) ≠ .misuse m) :
    (IsValue graph ∧ graph ≠ "") ∧ IsValue db ∧ IsValue out ∧ out ≠ "" := by
  have hsteps : ∀ m, Reading.steps analyzeSpec {}
      ["--graph", graph, "--db", db, "--invert", "--out", out] ≠ .error (.misuse m) := by
    intro m hm
    apply h m
    change Request.ofCommand analyzeSpec _ = _
    rw [Request.ofCommand, CommandSpec.read, hm]
  obtain ⟨hgraph, hgraph', hrest⟩ :=
    Reading.isValue_of_steps (o := ⟨"graph", some 'g', .path, true, _⟩) rfl hsteps
  obtain ⟨hdb, _, hrest⟩ := Reading.isValue_of_steps (o := dbOption _) rfl hrest
  obtain ⟨hout, hout', _⟩ :=
    Reading.isValue_of_steps (o := ⟨"out", some 'o', .path, false, _⟩) rfl hrest
  exact ⟨⟨hgraph, hgraph' rfl⟩, hdb, hout, hout' rfl⟩

/-! ## Invocations -/

variable {usual : Option String} {graph out overlay : String}

theorem program_analyze (hgraph : IsValue graph ∧ graph ≠ "") (hdb : IsValue db)
    (hout : IsValue out ∧ out ≠ "") : program E usual (analyzeArguments graph db out) =
      exitCode (runAnalyze E graph (some db) "cpg" true false (some out)) := by
  simp only [program, request_analyze hgraph hdb hout]
  rfl

theorem program_undo (hgraph : IsValue graph ∧ graph ≠ "") (hdb : IsValue db)
    (hoverlay : IsValue overlay) : program E usual (undoArguments graph db overlay) =
      exitCode (runUndo E graph db overlay none) := by
  simp only [program, request_undo hgraph hdb hoverlay]
  rfl

/-- What an analysis that exits with 0 did. -/
theorem exec_of_analyze_eq_zero
    (h : (d.run time (program E usual (analyzeArguments graph db out))).1 = 0) :
    IsValue db ∧ (IsValue out ∧ out ≠ "") ∧
      d.exec time (runAnalyze E graph (some db) "cpg" true false (some out)) =
        (.ok (), (d.run time (program E usual (analyzeArguments graph db out))).2) := by
  have hrequest : ∀ m, Request.ofArguments (analyzeArguments graph db out) ≠ .misuse m := by
    intro m hm
    simp only [program, hm, run_exitCode, exec_fail] at h
    cases h
  obtain ⟨hgraph, hdb, hout⟩ := isValue_of_request hrequest
  rw [program_analyze hgraph hdb hout] at h ⊢
  exact ⟨hdb, hout, exec_of_run_exitCode (honest_runAnalyze _ _ _ _ _ _) h⟩

/-- An overlay cannot be replayed from what is no database. -/
theorem exec_runUndo_eq_error {g : Graph} {e : ConnectionError} (hgraph : graphAt d graph = some g)
    (h : d.exec time (Connection.connect E db) = (.error e, d')) :
    (d.exec time (runUndo E graph db overlay none)).1 = .error 3 := by
  have hrun : d.run time ((Connection.connect E db).run : FileProgram _) = (.error e, d') := h
  simp only [runUndo, Disk.exec_bind, exec_readGraph hgraph, connected, reaching, Disk.exec_lift,
    hrun]
  rfl

end CodeGraph.CommandLine
