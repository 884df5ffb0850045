import CodeGraph.CommandLine.Files
import CodeGraph.Store.Basic

/-!
# Database engines

A command does not reach into the file of a database.  It has an `Engine` do
that, which it takes as an argument.  An engine opens the database that a text
names and says what it holds, has it hold something else, and closes it.

What a database has to look like is not the engine's concern.  A `Connection` is
a database that a command has open, and `Connection.connect` sees to it that the
database has the schema of this library.
-/

namespace CodeGraph.CommandLine

/-- Why a database cannot be opened. -/
inductive ConnectionError where
  /-- Its address cannot be understood. -/
  | address
  /-- A file cannot be found, read, written or removed. -/
  | file (e : FileError)
  /-- Its file does not hold a database, or may not be changed. -/
  | store (e : StoreError)
  /-- It cannot be shared with others in the way that is asked for. -/
  | sharing
  deriving DecidableEq

/-- The message of an error. -/
def ConnectionError.message : ConnectionError → String
  | .address => "malformed address"
  | .file e => e.message
  | .store e => e.message
  | .sharing => "database cannot be shared"

/-- A program that ends early when a database cannot be opened. -/
abbrev Opening := ExceptT ConnectionError FileProgram

/-- A database engine. -/
structure Engine where
  /-- What stands for a database that is open. -/
  Handle : Type
  /-- Opens the database that a text names, and gives what it holds. -/
  connect : String → Opening (Handle × Database)
  /-- Whether a database may only be read. -/
  isLocked : Handle → Bool
  /-- Has a database hold something else. -/
  keep : Handle → Database → Opening Unit
  /-- Closes a database. -/
  close : Handle → FileProgram Unit

/-- A database in use. -/
structure Connection (E : Engine) where
  /-- What the engine knows it by. -/
  handle : E.Handle
  /-- What it holds. -/
  database : Database

namespace Connection

variable {E : Engine}

/-- The store that a connection gives access to. -/
def store (c : Connection E) : Store :=
  if E.isLocked c.handle then .locked c.database else .database c.database

/-- A connection with another database, which is kept if it is changed. -/
def keep (c : Connection E) (d : Database) : Opening (Connection E) := do
  if d = c.database then return c
  E.keep c.handle d
  return { c with database := d }

/-- A connection closed. -/
def close (c : Connection E) : FileProgram Unit := E.close c.handle

/-- A connection whose database has the schema of this library.  One that cannot be had is
closed. -/
def withSchema (c : Connection E) : Opening (Connection E) := do
  match c.database.reopen with
  | .error e =>
    c.close
    throw (.store e)
  | .ok d =>
    if c.database.version = d.version then return c
    match c.store with
    | .locked _ =>
      c.close
      throw (.store .readOnly)
    | _ => c.keep d

/-- A connection to the database that a text names. -/
def connect (E : Engine) (name : String) : Opening (Connection E) := do
  let (handle, database) ← E.connect name
  withSchema ⟨handle, database⟩

end Connection

end CodeGraph.CommandLine
