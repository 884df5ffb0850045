import CodeGraph.CommandLine.FileEngine
import CodeGraph.CommandLine.Run

/-!
# The command line

The program of the given arguments, run on the files of the machine.
-/

namespace CodeGraph.CommandLine

/-- The error of a failed access to a file. -/
def fileError : IO.Error → FileError
  | .noFileOrDirectory .. => .notFound
  | .inappropriateType _ 20 _ => .notADirectory
  | .inappropriateType _ 21 _ => .isADirectory
  | .invalidArgument _ 36 _ => .nameTooLong
  | .resourceExhausted _ 28 _ => .noSpace
  | e => .other (toString e)

/-- The result of an access to a file. -/
def attempt {α : Type} (access : IO α) : IO (Except FileError α) := do
  match ← access.toBaseIO with
  | .ok a => return .ok a
  | .error e => return .error (fileError e)

/-- The result of an access to the file at a path.  A path that is not a text
cannot be reached. -/
def attemptAt {α : Type} (path : Path) (access : String → IO α) : IO (Except FileError α) :=
  match path.toString? with
  | some text => attempt (access text)
  | none => return .error (.other "Invalid argument (os error 22)")

/-- A text printed at once. -/
def printNow (stream : Stream) (text : String) : IO Unit := do
  let handle ← match stream with
    | .out => IO.getStdout
    | .err => IO.getStderr
  handle.putStr text
  handle.flush

/-- A program run on the files of the machine, where `start` is the time at which it began. -/
def perform {α : Type} (start : Nat) : FileProgram α → IO α
  | .done a => return a
  | .home next => do perform start (next (.ofString (← IO.currentDir).toString))
  | .find path next => do
    let found ← attemptAt path fun path => discard (IO.FS.Handle.mk path .read)
    perform start (next found)
  | .read path next => do
    perform start (next (← attemptAt path fun path => IO.FS.readBinFile path))
  | .write path bytes next => do
    perform start (next (← attemptAt path fun path => IO.FS.writeBinFile path bytes))
  | .remove path next => do
    perform start (next (← attemptAt path fun path => IO.FS.removeFile path))
  | .print stream text next => do
    printNow stream text
    perform start next
  | .elapsed next => do
    let now ← IO.monoMsNow
    perform start (next (Text.natText (now - start) ++ "ms"))

end CodeGraph.CommandLine

open CodeGraph.CommandLine in
/-- The command line. -/
def main (arguments : List String) : IO UInt32 := do
  let usual ← IO.getEnv "CPG_DB_PATH"
  let code ← perform (← IO.monoMsNow) (program fileEngine usual arguments)
  return UInt32.ofNat code
