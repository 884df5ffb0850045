/-!
# Command-line arguments

The program has four commands, each with options of its own.  Commands and
options are described by tables, and both the reading of arguments and the help
texts follow the tables.

An option is given as `--name value`, `--name=value`, `-n value`, `-nvalue` or
`-n=value`.  A value that starts with a hyphen can only be given in one of the
joined forms.  Every option is given at most once.  After `--` no option is
read.  Arguments are read from left to right, and the first fault or the first
request for help decides.
-/

namespace CodeGraph.CommandLine

/-! ## Tables -/

/-- What an option takes. -/
inductive Takes where
  /-- Nothing. -/
  | nothing
  /-- A text, which may be empty. -/
  | text
  /-- A path, which is not empty. -/
  | path
  deriving DecidableEq

/-- An option of a command. -/
structure Opt where
  /-- The long name. -/
  long : String
  /-- The letter. -/
  short : Option Char
  /-- What it takes. -/
  takes : Takes
  /-- Whether it has to be given. -/
  required : Bool
  /-- What it is for. -/
  help : String

/-- A command. -/
structure CommandSpec where
  /-- The name. -/
  name : String
  /-- What it does. -/
  about : String
  /-- Its options. -/
  options : List Opt

/-- The database option. -/
def dbOption (help : String) : Opt := ⟨"db", some 'd', .text, false, help⟩

/-- The command that writes an example. -/
def sampleSpec : CommandSpec where
  name := "sample"
  about := "Write a sample graph with two methods"
  options := [⟨"out", some 'o', .path, true, "Output graph file"⟩]

/-- The command that runs the analysis. -/
def analyzeSpec : CommandSpec where
  name := "analyze"
  about := "Run reaching definitions over a graph"
  options := [
    ⟨"graph", some 'g', .path, true, "Input graph file"⟩,
    dbOption "Overlay database (default: $CPG_DB_PATH). Without one nothing is stored",
    ⟨"prefix", some 'p', .text, false, "Overlay name prefix [default: cpg]"⟩,
    ⟨"invert", none, .nothing, false, "Store inverse overlays for undo"⟩,
    ⟨"parallel", none, .nothing, false, "Run methods on worker threads (no storage)"⟩,
    ⟨"out", some 'o', .path, false, "Where to write the analyzed graph (default: overwrite input)"⟩]

/-- The command that lists overlays. -/
def overlaysSpec : CommandSpec where
  name := "overlays"
  about := "List stored overlays"
  options := [dbOption "Overlay database (default: $CPG_DB_PATH)"]

/-- The command that replays an overlay. -/
def undoSpec : CommandSpec where
  name := "undo"
  about := "Replay a stored overlay onto a graph"
  options := [
    ⟨"graph", some 'g', .path, true, "Graph file to modify"⟩,
    dbOption "Overlay database (default: $CPG_DB_PATH)",
    ⟨"overlay", none, .text, true, "Name of the overlay to replay"⟩,
    ⟨"out", some 'o', .path, false, "Where to write the result (default: overwrite input)"⟩]

/-- All commands. -/
def commands : List CommandSpec := [sampleSpec, analyzeSpec, overlaysSpec, undoSpec]

/-! ## Help -/

/-- A text filled up with blanks. -/
def padded (width : Nat) (s : String) : String :=
  s ++ String.ofList (List.replicate (width - s.length) ' ')

/-- Rows of two columns. -/
def columns (rows : List (String × String)) : String :=
  let width := rows.foldl (fun w r => max w r.1.length) 0
  String.join (rows.map fun r => "  " ++ padded width r.1 ++ "  " ++ r.2 ++ "\n")

/-- The long name of an option with the place of its value. -/
def Opt.form (o : Opt) : String :=
  "--" ++ o.long ++ if o.takes = .nothing then "" else " <" ++ o.long.map Char.toUpper ++ ">"

/-- The row of an option. -/
def Opt.row (o : Opt) : String × String :=
  let short := match o.short with
    | some c => "-" ++ String.singleton c ++ ", "
    | none => "    "
  (short ++ o.form, o.help)

/-- The row of the help option. -/
def helpRow : String × String := ("-h, --help", "Print help")

/-- What the help command does. -/
def helpAbout : String := "Print this message or the help of the given subcommand(s)"

/-- The help text of a command. -/
def CommandSpec.helpText (c : CommandSpec) : String :=
  let optional := if c.options.all Opt.required then "" else " [OPTIONS]"
  let required := String.join ((c.options.filter Opt.required).map fun o => " " ++ o.form)
  c.about ++ "\n\nUsage: cpg " ++ c.name ++ optional ++ required ++ "\n\nOptions:\n" ++
    columns (c.options.map Opt.row ++ [helpRow])

/-- The help text of the program. -/
def helpText : String :=
  "Code property graph data-flow tools\n\nUsage: cpg <COMMAND>\n\nCommands:\n" ++
    columns (commands.map (fun c => (c.name, c.about)) ++ [("help", helpAbout)]) ++
    "\nOptions:\n" ++ columns [helpRow]

/-- The help text of the help command. -/
def helpHelpText : String :=
  helpAbout ++ "\n\nUsage: cpg help [COMMAND]...\n\nArguments:\n" ++
    columns [("[COMMAND]...", "Print help for the subcommand(s)")]

/-! ## Reading -/

/-- Why the arguments cannot be understood. -/
inductive Misuse where
  /-- There is no command. -/
  | noCommand
  /-- No command has the name. -/
  | unknownCommand (name : String)
  /-- An argument has no meaning. -/
  | unexpected (argument : String)
  /-- An option lacks its value. -/
  | noValue (o : Opt)
  /-- An option that takes nothing is given a value. -/
  | needlessValue (o : Opt)
  /-- An option is given twice. -/
  | repeated (o : Opt)
  /-- An option has to be given. -/
  | missing (o : Opt)

/-- The message of a misuse. -/
def Misuse.message : Misuse → String
  | .noCommand => "a command is required"
  | .unknownCommand name => "unrecognized subcommand '" ++ name ++ "'"
  | .unexpected argument => "unexpected argument '" ++ argument ++ "' found"
  | .noValue o => "a value is required for '" ++ o.form ++ "' but none was supplied"
  | .needlessValue o => "no value is expected for '" ++ o.form ++ "'"
  | .repeated o => "the argument '" ++ o.form ++ "' cannot be used multiple times"
  | .missing o => "the required argument '" ++ o.form ++ "' was not provided"

/-- What ends the reading of arguments before their end. -/
inductive Halt where
  /-- Help was asked for. -/
  | help
  /-- The arguments cannot be understood. -/
  | misuse (m : Misuse)

/-- The options given so far. -/
structure Reading where
  /-- The names and values, latest first. -/
  given : List (String × String) := []
  /-- An option that waits for its value. -/
  pending : Option Opt := none
  /-- Whether `--` was read. -/
  closed : Bool := false

namespace Reading

/-- An option with a value. -/
def set (r : Reading) (o : Opt) (value : String) : Except Halt Reading :=
  if (r.given.lookup o.long).isSome then .error (.misuse (.repeated o))
  else if o.takes = .path ∧ value.isEmpty then .error (.misuse (.noValue o))
  else .ok { r with given := (o.long, value) :: r.given, pending := none }

/-- A long option, with its value if that is joined to it. -/
def long (c : CommandSpec) (r : Reading) (argument name : String) (value : Option String) :
    Except Halt Reading :=
  match c.options.find? fun o => o.long = name with
  | none =>
    if name = "help" ∧ value.isNone then .error .help else .error (.misuse (.unexpected argument))
  | some o =>
    match o.takes, value with
    | .nothing, none => r.set o ""
    | .nothing, some _ => .error (.misuse (.needlessValue o))
    | _, none => .ok { r with pending := some o }
    | _, some value => r.set o value

/-- Letters after one hyphen. -/
def letters (c : CommandSpec) (r : Reading) (argument : String) : List Char → Except Halt Reading
  | [] => .ok r
  | letter :: rest =>
    match c.options.find? fun o => o.short = some letter with
    | none => if letter = 'h' then .error .help else .error (.misuse (.unexpected argument))
    | some o =>
      match o.takes, rest with
      | .nothing, rest =>
        match r.set o "" with
        | .ok r => letters c r argument rest
        | .error h => .error h
      | _, [] => .ok { r with pending := some o }
      | _, '=' :: value => r.set o (String.ofList value)
      | _, value => r.set o (String.ofList value)

/-- One argument. -/
def step (c : CommandSpec) (r : Reading) (argument : String) : Except Halt Reading :=
  if r.closed then .error (.misuse (.unexpected argument))
  else
    match r.pending, argument.toList with
    | some o, '-' :: _ :: _ => .error (.misuse (.noValue o))
    | some o, _ => r.set o argument
    | none, ['-', '-'] => .ok { r with closed := true }
    | none, '-' :: '-' :: rest =>
      let name := String.ofList (rest.takeWhile (· ≠ '='))
      match rest.dropWhile (· ≠ '=') with
      | [] => long c r argument name none
      | _ :: value => long c r argument name (some (String.ofList value))
    | none, '-' :: letter :: rest => letters c r argument (letter :: rest)
    | none, _ => .error (.misuse (.unexpected argument))

/-- All arguments of a command. -/
def steps (c : CommandSpec) (r : Reading) : List String → Except Halt Reading
  | [] => .ok r
  | argument :: arguments =>
    match step c r argument with
    | .ok r => steps c r arguments
    | .error h => .error h

/-- The options of a command when all arguments were read. -/
def finish (c : CommandSpec) (r : Reading) : Except Halt (List (String × String)) :=
  match r.pending with
  | some o => .error (.misuse (.noValue o))
  | none =>
    match c.options.find? fun o => o.required && (r.given.lookup o.long).isNone with
    | some o => .error (.misuse (.missing o))
    | none => .ok r.given

end Reading

/-- The options that the arguments of a command give. -/
def CommandSpec.read (c : CommandSpec) (arguments : List String) :
    Except Halt (List (String × String)) :=
  match Reading.steps c {} arguments with
  | .ok r => r.finish c
  | .error h => .error h

/-! ## Invocations -/

/-- What the program is asked to do. -/
inductive Invocation where
  /-- An example written to a file. -/
  | sample (out : String)
  /-- A graph analyzed. -/
  | analyze (graph : String) (db : Option String) (series : String) (invert parallel : Bool)
      (out : Option String)
  /-- The overlays of a database listed. -/
  | overlays (db : Option String)
  /-- An overlay replayed onto a graph. -/
  | undo (graph : String) (db : Option String) (overlay : String) (out : Option String)
  deriving DecidableEq

/-- What the arguments come to. -/
inductive Request where
  /-- Something to be done. -/
  | run (i : Invocation)
  /-- A help text. -/
  | help (text : String)
  /-- A misuse. -/
  | misuse (m : Misuse)

/-- The invocation of a command with options. -/
def Invocation.ofGiven (command : String) (given : List (String × String)) : Option Invocation :=
  match command, given.lookup "graph", given.lookup "out", given.lookup "overlay" with
  | "sample", _, some out, _ => some (.sample out)
  | "analyze", some graph, out, _ =>
    some (.analyze graph (given.lookup "db") ((given.lookup "prefix").getD "cpg")
      (given.lookup "invert").isSome (given.lookup "parallel").isSome out)
  | "overlays", _, _, _ => some (.overlays (given.lookup "db"))
  | "undo", some graph, out, some overlay => some (.undo graph (given.lookup "db") overlay out)
  | _, _, _, _ => none

/-- The request for help on the named commands. -/
def Request.helpOn : List String → Request
  | [] => .help helpText
  | ["help"] => .help helpHelpText
  | name :: rest =>
    match commands.find? fun c => c.name = name, rest with
    | none, _ => .misuse (.unknownCommand name)
    | some c, [] => .help c.helpText
    | some _, extra :: _ => .misuse (.unknownCommand extra)

/-- The request of a command with arguments. -/
def Request.ofCommand (c : CommandSpec) (arguments : List String) : Request :=
  match c.read arguments with
  | .error .help => .help c.helpText
  | .error (.misuse m) => .misuse m
  | .ok given =>
    match Invocation.ofGiven c.name given with
    | some i => .run i
    | none => .misuse (.unknownCommand c.name)

/-- The request that the arguments of the program make. -/
def Request.ofArguments : List String → Request
  | [] => .misuse .noCommand
  | "--help" :: _ => .help helpText
  | "help" :: names => .helpOn names
  | name :: arguments =>
    match name.toList with
    | '-' :: 'h' :: _ => .help helpText
    | '-' :: _ :: _ => .misuse (.unexpected name)
    | _ =>
      match commands.find? fun c => c.name = name with
      | some c => .ofCommand c arguments
      | none => .misuse (.unknownCommand name)

end CodeGraph.CommandLine
