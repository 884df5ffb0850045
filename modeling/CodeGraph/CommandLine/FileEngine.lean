import CodeGraph.Codec.Database
import CodeGraph.CommandLine.Address
import CodeGraph.CommandLine.Engine

/-!
# Databases in files

`fileEngine` is an engine that keeps a database in a file of its own.  It
understands the addresses that SQLite does, and treats the files beside that of
a database as SQLite does.  The file itself has another form.

The path of a database is made absolute before its file is touched.  This is
done by names alone: two dots take back the name before them, be it that of a
directory or not.  But each name is looked up when it is reached, so a name
below a file ends it, and a name that is not there yet does not.

Other files stand beside that of a database, and their names are its name with
an ending.

* A journal stands there while the file itself is changed.  One that is found
  there is left over from a change that was interrupted, and is taken away.
* Two companions stand there while a database is open whose changes are logged:
  the log, and the index of the log, which its users share.  Closing the
  database takes them away, unless it may only be read.

A database is logged from the time it is first opened by someone who can have
companions.  From then on it cannot be opened without them, except as a file
that does not change.  A log that is found beside a database is used whether the
database is logged or not.
-/

namespace CodeGraph.CommandLine

namespace Opening

/-- An access to a file that has to succeed. -/
def must {α : Type} (access : FileProgram (Except FileError α)) : Opening α := do
  match ← access with
  | .ok a => return a
  | .error e => throw (.file e)

/-! ## Paths -/

/-- The most bytes in the path of a database, with an ending. -/
def pathLimit : Nat := 512

/-- The most bytes in an ending. -/
def endingLimit : Nat := 8

/-- Names put after those of a path, each of which is looked up. -/
def locate (path : List FileName) : List FileName → Opening (List FileName)
  | [] => return path
  | name :: names =>
    if name = [] ∨ name = .ofString "." then locate path names
    else if name = .ofString ".." then locate path.dropLast names
    else if pathLimit ≤ (Path.ofNames (path ++ [name])).size then throw (.file .nameTooLong)
    else do
      match ← FileProgram.findFile (.ofNames (path ++ [name])) with
      | .ok () | .error .notFound => locate (path ++ [name]) names
      | .error e => throw (.file e)

/-- The absolute path for a path. -/
def absolute (path : Path) : Opening Path := do
  let home ← FileProgram.workingDirectory
  let names := if path.isAbsolute then path.names else home.names ++ path.names
  let path := Path.ofNames (← locate [] names)
  if pathLimit < path.size + endingLimit then throw (.file .nameTooLong)
  return path

/-- The path of the journal of a database. -/
def journal (path : Path) : Path := path.withEnding "-journal"

/-- The path of the log of a database. -/
def log (path : Path) : Path := path.withEnding "-wal"

/-- The path of the index of the log of a database. -/
def index (path : Path) : Path := path.withEnding "-shm"

/-- The path of the file that marks a database in use. -/
def marker (path : Path) : Path := path.withEnding ".lock"

/-! ## Single files -/

/-- Files taken away, as far as they are there. -/
def discardFiles (paths : List Path) : FileProgram Unit :=
  paths.forM fun path => do
    let _ ← FileProgram.removeFile path
    return ()

/-- The bytes of the file of a database.  The file is made when it is not there
and may be created. -/
def bytesAt (path : Path) (access : Access) : Opening ByteArray := do
  match ← FileProgram.readFile path with
  | .ok bytes => return bytes
  | .error .notFound =>
    if access ≠ .create then throw (.file .notFound)
    must (FileProgram.writeFile path .empty)
    return .empty
  | .error e => throw (.file e)

/-- The file of a database written, with a journal beside it meanwhile.  A device does not keep
it. -/
def writeJournaled (path : Path) (f : DatabaseFile) : Opening Unit := do
  must (FileProgram.writeFile (journal path) .empty)
  must (FileProgram.writeFile path f.toBytes)
  must (FileProgram.removeFile (journal path))
  if DatabaseFile.isVacant (← must (FileProgram.readFile path)) then throw (.file .noSpace)

/-- Checks that nobody has marked the database in use. -/
def checkMarker (a : Address) (path : Path) : Opening Unit := do
  if a.layer = .marked ∧ !a.alone then
    match ← FileProgram.findFile (marker path) with
    | .error .notFound => return ()
    | _ => throw .sharing

/-- Whether a journal is taken for that of another user.  Through a layer that
marks databases it is whenever a mark is there, be it one's own. -/
def isClaimed (a : Address) (path : Path) : FileProgram Bool := do
  if a.layer = .marked then
    match ← FileProgram.findFile (marker path) with
    | .ok () => return true
    | .error _ => return !a.alone
  else return false

/-- A journal that is left over taken away.  Beside a file that holds nothing
any journal is, beside another one that starts with a byte other than zero.  But
one that is taken for that of another user stays. -/
def settle (a : Address) (path : Path) (isVacant : Bool) : Opening Unit := do
  if ← isClaimed a path then return ()
  match ← FileProgram.readFile (journal path) with
  | .ok bytes =>
    if isVacant then
      if !bytes.isEmpty ∧ (a.access ≠ .readOnly ∨ a.isSolitary) then discardFiles [journal path]
    else if bytes.data.getD 0 0 ≠ 0 then
      if a.access = .readOnly then throw (.store .readOnly)
      must (FileProgram.removeFile (journal path))
  | .error .isADirectory => if !isVacant then throw (.file .isADirectory)
  | .error _ => return ()

/-! ## Companions -/

/-- How a database in a file is used. -/
structure Usage where
  /-- The companions that closing takes away. -/
  companions : List Path := []
  /-- Whether changes go to the log. -/
  logs : Bool := false
  /-- Whether the database may only be read. -/
  locked : Bool := false

/-- What the index of a log starts with. -/
def indexMark : ByteArray := ⟨#[0x18, 0xE2, 0x2D, 0x00]⟩

/-- Whether a log does not belong to an index that nobody has made yet: it has
room for the part that ties the two together, and something in it. -/
def isForeignLog (log : ByteArray) : Bool :=
  32 ≤ log.size && ((log.toList.drop 16).take 8).any (· ≠ 0)

/-- The log of a database, which is made when it is not there. -/
def logAt (path : Path) : Opening ByteArray := do
  match ← FileProgram.readFile (log path) with
  | .ok bytes => return bytes
  | .error .notFound =>
    must (FileProgram.writeFile (log path) .empty)
    return .empty
  | .error e => throw (.file e)

/-- The index of a database made, unless it may only be read.  A directory may only be read. -/
def makeIndex (a : Address) (path : Path) : Opening Bool := do
  if a.borrowed then
    must (FileProgram.findFile (index path))
    return false
  match ← FileProgram.writeFile (index path) indexMark with
  | .ok () => return true
  | .error .isADirectory => return false
  | .error e => throw (.file e)

/-- A database used with its companions.  An index that may only be read lets the
database only be read, if the log is not foreign to it. -/
def accompany (a : Address) (path : Path) : Opening Usage := do
  let bytes ← logAt path
  if a.layer = .exclusive ∧ a.access ≠ .readOnly then
    return { companions := [log path], logs := true }
  else if ← makeIndex a path then
    if a.access = .readOnly then return { logs := true, locked := true }
    else return { companions := [log path, index path], logs := true }
  else
    if isForeignLog bytes then throw .sharing
    return { logs := true, locked := true }

/-- A log that is found beside a database used.  Beside a file that holds nothing it is taken
away. -/
def useFoundLog (a : Address) (path : Path) (isVacant : Bool) : Opening (Option Usage) := do
  match ← FileProgram.readFile (log path) with
  | .ok bytes =>
    if bytes.isEmpty then return none
    else if isVacant then
      discardFiles [log path]
      return none
    else if a.isSolitary then throw .sharing
    else return some (← accompany a path)
  | .error .isADirectory => throw (.file .isADirectory)
  | .error _ => return none

/-- A database used when no log was found.  It becomes logged when it can be. -/
def useFile (a : Address) (path : Path) (f : DatabaseFile) : Opening (DatabaseFile × Usage) := do
  if a.isSolitary then
    if f.logged then throw .sharing
    return (f, { locked := a.access = .readOnly })
  else if f.logged then return (f, ← accompany a path)
  else
    if a.access = .readOnly then throw (.store .readOnly)
    let f := { f with logged := true }
    writeJournaled path f
    return (f, ← accompany a path)

end Opening

/-! ## The engine -/

open Opening

/-- The file of a database in use. -/
structure OpenFile where
  /-- The path of the file. -/
  path : Path
  /-- Whether the file says that changes are logged. -/
  logged : Bool
  /-- How it is used. -/
  usage : Usage

namespace FileEngine

/-- A database in use is known by its file, unless it is private. -/
abbrev Handle := Option OpenFile

/-- Whether a database may only be read. -/
def isLocked : Handle → Bool
  | some f => f.usage.locked
  | none => false

/-- A database written to its file. -/
def keep (h : Handle) (d : Database) : Opening Unit :=
  match h with
  | some f =>
    if f.usage.logs then must (FileProgram.writeFile f.path (DatabaseFile.toBytes ⟨d, f.logged⟩))
    else writeJournaled f.path ⟨d, f.logged⟩
  | none => return ()

/-- A database closed. -/
def close : Handle → FileProgram Unit
  | some f => discardFiles f.usage.companions
  | none => return ()

/-- The database in a file that may change. -/
def toFile (a : Address) (path : Path) (bytes : ByteArray) : Opening (Handle × Database) := do
  checkMarker a path
  let isVacant := DatabaseFile.isVacant bytes
  settle a path isVacant
  let found ← useFoundLog a path isVacant
  match DatabaseFile.ofBytes bytes with
  | .error e =>
    discardFiles ((found.map Usage.companions).getD [])
    throw (.store e)
  | .ok f =>
    let (f, usage) ← match found with
      | some usage => pure (f, usage)
      | none => useFile a path f
    return (some { path, logged := f.logged, usage }, f.database)

/-- The database in a file that does not change. -/
def toFrozen (path : Path) (bytes : ByteArray) : Opening (Handle × Database) := do
  match DatabaseFile.ofBytes bytes with
  | .error e => throw (.store e)
  | .ok f =>
    let usage : Usage := { locked := true }
    return (some { path, logged := f.logged, usage }, f.database)

/-- The database at an address. -/
def toAddress (a : Address) : Opening (Handle × Database) := do
  let path ← absolute a.path
  match a.model with
  | some model => must (FileProgram.findFile model)
  | none => pure ()
  let bytes ← bytesAt path a.access
  if a.frozen then toFrozen path bytes else toFile a path bytes

/-- The database that a text names.  One in memory is new, so it is of no use when it may only be
read. -/
def connect (name : String) : Opening (Handle × Database) :=
  match Address.ofText? name with
  | none => throw .address
  | some a =>
    let isFrozen := a.frozen && !a.isPrivate
    if !a.isPrivate && a.layer ≠ .memory then toAddress a
    else if isFrozen || a.access = .readOnly then throw (.store .readOnly)
    else return (none, .blank)

end FileEngine

/-- The engine that keeps databases in files. -/
def fileEngine : Engine where
  Handle := FileEngine.Handle
  connect := FileEngine.connect
  isLocked := FileEngine.isLocked
  keep := FileEngine.keep
  close := FileEngine.close

end CodeGraph.CommandLine
