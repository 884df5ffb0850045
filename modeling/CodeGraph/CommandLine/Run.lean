import CodeGraph.CommandLine.Arguments
import CodeGraph.CommandLine.Engine
import CodeGraph.CommandLine.Sample
import CodeGraph.Pass.ReachingDefs

/-!
# The commands

A command is a program over files that prints and ends with an exit code.  The
codes are 0 for success, 1 when the analysis or a replay fails, 2 when the
arguments cannot be understood, and 3 when a file or a database cannot be read
or written.  A graph file or an analysis that breaks the program gives 101.

The commands that use a database take the engine for it as an argument.
-/

namespace CodeGraph.CommandLine

/-- A program that may end early with an exit code. -/
abbrev Command := ExceptT Nat FileProgram

namespace Command

/-- A text printed. -/
def print (text : String) : Command Unit := FileProgram.printText .out text

/-- The end of a command, with a line of report. -/
def fail {α : Type} (code : Nat) (report : String) : Command α := do
  FileProgram.printText .err (report ++ "\n")
  throw code

end Command

open Command

/-! ## Graph files -/

/-- The graph in a file. -/
def readGraph (path : String) : Command Graph := do
  match ← FileProgram.readFile (.ofString path) with
  | .error e => unreadable e
  | .ok bytes =>
    match String.fromUTF8? bytes with
    | none => unreadable .notText
    | some text =>
      match Graph.read text with
      | .ok g => return g
      | .error .malformed =>
        fail 3 ("Error: '" ++ path ++ "' is not a graph file: malformed text")
      | .error .gap => fail 101 ("Error: '" ++ path ++ "' has a gap between its nodes")
where
  /-- The end when the file cannot be read. -/
  unreadable {α : Type} (e : FileError) : Command α :=
    fail 3 ("Error: failed to read '" ++ path ++ "': " ++ e.message)

/-- A graph written to a file. -/
def writeGraph (g : Graph) (path : String) : Command Unit := do
  match ← FileProgram.writeFile (.ofString path) g.toText.toUTF8 with
  | .ok () => return ()
  | .error e => fail 3 ("Error: failed to write '" ++ path ++ "': " ++ e.message)

/-! ## Databases -/

/-- What is done to open a database or to write it, as a part of a command. -/
def reaching {α : Type} (db : String) (o : Opening α) : Command α := do
  match ← (o.run : FileProgram _) with
  | .ok a => return a
  | .error e => fail 3 ("Error: failed to open database '" ++ db ++ "': " ++ e.message)

section Databases

variable (E : Engine)

/-- A part of a command that works with a database, which is closed afterwards. -/
def connected {α : Type} (db : String) (body : Connection E → Command α) : Command α := do
  let c ← reaching db (Connection.connect E db)
  ExceptT.mk do
    let result ← (body c).run
    c.close
    return result

variable {E}

/-- A connection after a store was changed. -/
def keepStore (db : String) (c : Connection E) : Store → Command (Connection E)
  | .database d => reaching db (c.keep d)
  | _ => return c

/-- A connection to a database with a base graph, which is `g` when there was none. -/
def withBase (db : String) (c : Connection E) (g : Graph) : Command (Connection E) := do
  match c.store.loadBase with
  | .error e => fail 3 ("Error: failed to read base graph: " ++ e.message)
  | .ok (some _) => return c
  | .ok none =>
    match c.store.saveBase g with
    | .error e => fail 3 ("Error: failed to save base graph: " ++ e.message)
    | .ok store => keepStore db c store

end Databases

/-! ## Commands -/

/-- The sample graph written to a file. -/
def runSample (out : String) : Command Unit := do
  writeGraph sampleGraph out
  print ("wrote " ++ Text.natText sampleGraph.nodeCount ++ " nodes, " ++
    Text.natText sampleGraph.edgeCount ++ " edges to " ++ out ++ "\n")

/-- What is printed of a summary. -/
def summaryText (s : Summary) : String :=
  s.pass ++ ": " ++ Text.natText s.parts ++ " parts, " ++ Text.natText s.chunks ++ " chunks, " ++
    Text.natText s.committedEdits ++ " edits committed (" ++ Text.natText s.expandedEdits ++
    " expanded)\n" ++ String.join (s.overlays.map fun name => "  stored " ++ name ++ "\n")

/-- The analysis of a graph with its overlays stored in a database. -/
def analyzeInto (E : Engine) (g : Graph) (db series : String) (invert : Bool) : Command RunResult :=
  connected E db fun c => do
    let c ← withBase db c g
    let r := reachingDefsPass.runInto g c.store invert series
    let _ ← keepStore db c (r.store.getD c.store)
    return r

/-- The analysis of a graph. -/
def analyze (E : Engine) (g : Graph) (db : Option String) (series : String)
    (invert parallel : Bool) : Command RunResult :=
  match db, parallel with
  | some _, true => fail 1 "Error: --parallel cannot be combined with an overlay database"
  | none, true => return reachingDefsPass.runParallel g
  | none, false => return reachingDefsPass.runOn g
  | some db, false => analyzeInto E g db series invert

/-- A graph file analyzed. -/
def runAnalyze (E : Engine) (path : String) (db : Option String) (series : String)
    (invert parallel : Bool) (out : Option String) : Command Unit := do
  let g ← readGraph path
  let r ← analyze E g db series invert parallel
  match r.ending with
  | .failed e => fail 1 ("Analysis error: " ++ e.report reachingDefsPass.name (← FileProgram.time))
  | .crashed => fail 101 "Analysis error: the analysis crashed"
  | .finished summary =>
    print (summaryText summary)
    writeGraph r.graph (out.getD path)

/-- What is printed of a stored overlay. -/
def infoText (i : OverlayInfo) : String :=
  i.name ++ "\t" ++ Text.natText i.entryCount ++ " entries\t" ++ i.contentHash ++ "\n"

/-- The overlays of a database listed. -/
def runOverlays (E : Engine) (db : String) : Command Unit :=
  connected E db fun c => do
    match c.database.infos with
    | .error e => fail 3 ("Error: failed to list overlays: " ++ e.message)
    | .ok infos => print (String.join (infos.map infoText))

/-- An overlay replayed onto a graph file. -/
def runUndo (E : Engine) (path db name : String) (out : Option String) : Command Unit := do
  let g ← readGraph path
  connected E db fun c => do
    match (c.database.get name).bind Overlay.ofBytes with
    | .error e => fail 3 ("Error: failed to load overlay '" ++ name ++ "': " ++ e.message)
    | .ok overlay =>
      match overlay.applyTo g with
      | (_, some e) => fail 1 ("Error: failed to replay overlay '" ++ name ++ "': " ++ e.message)
      | (g, none) =>
        print ("replayed " ++ Text.natText overlay.size ++ " entries from " ++ name ++ "\n")
        writeGraph g (out.getD path)

/-- The database that is meant: the one that is given, or else the usual one. -/
def chosenDatabase (db usual : Option String) : Command String :=
  match db.or usual with
  | some db => return db
  | none => fail 1 "Error: no overlay database given (use --db or set CPG_DB_PATH)"

/-- What an invocation does, with an engine for databases and the path of the usual one. -/
def Invocation.command (E : Engine) (usual : Option String) : Invocation → Command Unit
  | .sample out => runSample out
  | .analyze graph db series invert parallel out =>
    runAnalyze E graph (db.or usual) series invert parallel out
  | .overlays db => do runOverlays E (← chosenDatabase db usual)
  | .undo graph db overlay out => do runUndo E graph (← chosenDatabase db usual) overlay out

/-- The exit code of a command. -/
def exitCode (c : Command Unit) : FileProgram Nat := do
  match ← c.run with
  | .ok () => return 0
  | .error code => return code

/-- The program for some arguments, with an engine for databases and the path of the usual one.  It
gives an exit code. -/
def program (E : Engine) (usual : Option String) (arguments : List String) : FileProgram Nat :=
  match Request.ofArguments arguments with
  | .help text => exitCode (print text)
  | .misuse m => exitCode (fail 2 ("error: " ++ m.message ++ "\n\n" ++ helpText))
  | .run i => exitCode (i.command E usual)

end CodeGraph.CommandLine
