import CodeGraph.CommandLine.Path

/-!
# Programs over files

What a command does is written down as a `FileProgram`: it looks up, reads,
writes and removes files by path, one at a time, and prints texts.  It may also
ask for the working directory and for the time that has passed.  A program can
be run on the files of a real machine, or on a `Disk`, which is a value.

A `Disk` holds files below a root, has a working directory and collects what is
printed.  A directory exists when a file lies below it.  The working directory
and the directories above it always exist, and so do those that every machine
has, among them `/dev` with its devices.
-/

namespace CodeGraph

/-- Why a file could not be found, read, written or removed. -/
inductive FileError where
  /-- There is no such file, or no such directory to write to. -/
  | notFound
  /-- A file stands where a directory is needed. -/
  | notADirectory
  /-- The path names a directory. -/
  | isADirectory
  /-- The path, or a name in it, is too long. -/
  | nameTooLong
  /-- There is no room for what is written. -/
  | noSpace
  /-- The file is not a text in UTF-8. -/
  | notText
  /-- Anything else. -/
  | other (message : String)
  deriving DecidableEq

/-- The message of an error. -/
def FileError.message : FileError → String
  | .notFound => "No such file or directory (os error 2)"
  | .notADirectory => "Not a directory (os error 20)"
  | .isADirectory => "Is a directory (os error 21)"
  | .noSpace => "No space left on device (os error 28)"
  | .nameTooLong => "File name too long (os error 36)"
  | .notText => "stream did not contain valid UTF-8"
  | .other message => message

/-! ## Programs -/

/-- Where a text is printed. -/
inductive Stream where
  /-- Where results go. -/
  | out
  /-- Where reports of failures go. -/
  | err
  deriving DecidableEq

/-- A program that works on files and prints, and then gives a result. -/
inductive FileProgram (α : Type) where
  /-- The result. -/
  | done (a : α)
  /-- The path of the working directory. -/
  | home (next : Path → FileProgram α)
  /-- A file or a directory looked up. -/
  | find (path : Path) (next : Except FileError Unit → FileProgram α)
  /-- The bytes of a file. -/
  | read (path : Path) (next : Except FileError ByteArray → FileProgram α)
  /-- A file written. -/
  | write (path : Path) (bytes : ByteArray) (next : Except FileError Unit → FileProgram α)
  /-- A file removed. -/
  | remove (path : Path) (next : Except FileError Unit → FileProgram α)
  /-- A text printed. -/
  | print (stream : Stream) (text : String) (next : FileProgram α)
  /-- The time since the start, as a text. -/
  | elapsed (next : String → FileProgram α)

namespace FileProgram

/-- A program followed by another that depends on its result. -/
def bind {α β : Type} : FileProgram α → (α → FileProgram β) → FileProgram β
  | .done a, f => f a
  | .home next, f => .home fun path => (next path).bind f
  | .find path next, f => .find path fun r => (next r).bind f
  | .read path next, f => .read path fun r => (next r).bind f
  | .write path bytes next, f => .write path bytes fun r => (next r).bind f
  | .remove path next, f => .remove path fun r => (next r).bind f
  | .print stream text next, f => .print stream text (next.bind f)
  | .elapsed next, f => .elapsed fun t => (next t).bind f

instance : Monad FileProgram where
  pure := .done
  bind := bind

/-- The path of the working directory. -/
def workingDirectory : FileProgram Path := .home .done

/-- A file or a directory looked up. -/
def findFile (path : Path) : FileProgram (Except FileError Unit) := .find path .done

/-- The bytes of a file. -/
def readFile (path : Path) : FileProgram (Except FileError ByteArray) := .read path .done

/-- A file written. -/
def writeFile (path : Path) (bytes : ByteArray) : FileProgram (Except FileError Unit) :=
  .write path bytes .done

/-- A file removed. -/
def removeFile (path : Path) : FileProgram (Except FileError Unit) := .remove path .done

/-- A text printed. -/
def printText (stream : Stream) (text : String) : FileProgram Unit := .print stream text (.done ())

/-- The time since the start. -/
def time : FileProgram String := .elapsed .done

end FileProgram

/-! ## Devices -/

/-- A file that keeps nothing of what is written to it. -/
inductive Device where
  /-- Is empty and takes all that is written. -/
  | null
  /-- Never ends and takes all that is written. -/
  | endless
  /-- Takes nothing. -/
  | full
  /-- Prints what is written. -/
  | printer (stream : Stream)
  /-- Has nothing behind it. -/
  | unconnected
  deriving DecidableEq

namespace Device

/-- The devices and the names that lead to them.  The standard input is empty, and there is no
terminal. -/
def known : List (List String × Device) :=
  [(["dev", "null"], .null), (["dev", "full"], .full), (["dev", "zero"], .endless),
    (["dev", "random"], .endless), (["dev", "urandom"], .endless), (["dev", "tty"], .unconnected),
    (["dev", "stdin"], .null), (["dev", "stdout"], .printer .out),
    (["dev", "stderr"], .printer .err)] ++
  [["dev", "fd"], ["proc", "self", "fd"]].flatMap fun dir =>
    [(dir ++ ["0"], .null), (dir ++ ["1"], .printer .out), (dir ++ ["2"], .printer .err)]

/-- The devices and the paths of names that lead to them. -/
def all : List (List FileName × Device) :=
  known.map fun (names, device) => (names.map FileName.ofString, device)

end Device

/-! ## Disks -/

/-- The files below a root.  The path of a file is the list of names that lead
to it from the root. -/
structure Disk where
  /-- The files. -/
  files : List (List FileName × ByteArray) := []
  /-- The working directory. -/
  home : List FileName := [.ofString "tmp", .ofString "work"]
  /-- What was printed as results. -/
  out : String := ""
  /-- What was printed as reports. -/
  err : String := ""

namespace Disk

instance : Inhabited Disk := ⟨{}⟩

/-- The most bytes in a name. -/
def nameLimit : Nat := 255

/-- The most bytes in a path. -/
def pathLimit : Nat := 4095

/-- The directories that every machine has. -/
def standing : List (List FileName) :=
  ["bin", "boot", "dev/pts", "dev/shm", "etc", "home", "lib", "media", "mnt", "opt", "proc/self",
    "root", "run", "sbin", "srv", "sys", "tmp", "usr/bin", "usr/lib", "usr/local", "usr/share",
    "var/lib", "var/log", "var/tmp"].map fun path => (Path.ofString path).names

/-- The file at a path of names. -/
def file? (d : Disk) (path : List FileName) : Option ByteArray := d.files.lookup path

/-- Whether one path of names leads through another. -/
def isBelow (path dir : List FileName) : Bool := dir.isPrefixOf path && dir ≠ path

/-- Whether there is a directory at a path of names. -/
def isDirectory (d : Disk) (path : List FileName) : Bool :=
  (d.home :: standing).any path.isPrefixOf || Device.all.any (isBelow ·.1 path) ||
    d.files.any (isBelow ·.1 path)

/-- What a path leads to. -/
inductive Target where
  /-- A directory. -/
  | directory
  /-- A device, with a slash after its name or not. -/
  | device (device : Device) (slash : Bool)
  /-- A file, with a slash after its name or not. -/
  | file (path : List FileName) (bytes : ByteArray) (slash : Bool)
  /-- A name in a directory where no file is, with a slash after it or not. -/
  | missing (path : List FileName) (slash : Bool)
  /-- A name that is too long, with a slash after it or not. -/
  | overlong (slash : Bool)

/-- The target of the names of a path, from a directory on. -/
def follow (d : Disk) (dir : List FileName) : List FileName → Except FileError Target
  | [] => .ok .directory
  | name :: names =>
    if name = [] ∨ name = .ofString "." then d.follow dir names
    else if name = .ofString ".." then d.follow dir.dropLast names
    else
      let path := dir ++ [name]
      let isLast := names.all (· = [])
      let slash := !names.isEmpty
      if nameLimit < name.length then
        if isLast then .ok (.overlong slash) else .error .nameTooLong
      else
        match Device.all.lookup path, d.file? path with
        | some device, _ => if isLast then .ok (.device device slash) else .error .notADirectory
        | none, some bytes => if isLast then .ok (.file path bytes slash) else .error .notADirectory
        | none, none =>
          if d.isDirectory path then d.follow path names
          else if isLast then .ok (.missing path slash)
          else .error .notFound

/-- The target of a path.  One that starts with a slash is followed from the
root, any other from the working directory. -/
def target (d : Disk) (path : Path) : Except FileError Target :=
  if pathLimit < path.size then .error .nameTooLong
  else if path.bytes = [] then .error .notFound
  else d.follow (if path.isAbsolute then [] else d.home) path.names

/-- A file or a directory looked up. -/
def find (d : Disk) (path : Path) : Except FileError Unit := do
  match ← d.target path with
  | .directory | .device _ false | .file _ _ false => return ()
  | .device _ true | .file _ _ true => throw .notADirectory
  | .missing _ _ => throw .notFound
  | .overlong _ => throw .nameTooLong

/-- The bytes of a file. -/
def read (d : Disk) (path : Path) : Except FileError ByteArray := do
  match ← d.target path with
  | .directory => throw .isADirectory
  | .device .null false | .device .full false => return .empty
  | .device .endless false => throw (.other "Cannot allocate memory (os error 12)")
  | .device (.printer _) false => throw (.other "Bad file descriptor (os error 9)")
  | .device .unconnected false => throw (.other "No such device or address (os error 6)")
  | .file _ bytes false => return bytes
  | .device _ true | .file _ _ true => throw .notADirectory
  | .missing _ _ => throw .notFound
  | .overlong _ => throw .nameTooLong

/-- A file taken away from a path of names. -/
def erase (d : Disk) (path : List FileName) : Disk :=
  { d with files := d.files.filter fun f => f.1 ≠ path }

/-- A file put at a path of names. -/
def put (d : Disk) (path : List FileName) (bytes : ByteArray) : Disk :=
  { d with files := (path, bytes) :: (d.erase path).files }

/-- A text printed. -/
def print (d : Disk) (stream : Stream) (text : String) : Disk :=
  match stream with
  | .out => { d with out := d.out ++ text }
  | .err => { d with err := d.err ++ text }

/-- A file written.  A path that ends in a slash can only be that of a directory. -/
def write (d : Disk) (path : Path) (bytes : ByteArray) : Except FileError Disk := do
  match ← d.target path with
  | .directory => throw .isADirectory
  | .device .null false | .device .endless false => return d
  | .device .full false => throw .noSpace
  | .device (.printer stream) false => return d.print stream ((String.fromUTF8? bytes).getD "")
  | .device .unconnected false => throw (.other "No such device or address (os error 6)")
  | .file path _ false | .missing path false => return d.put path bytes
  | .overlong false => throw .nameTooLong
  | .device _ true | .file _ _ true | .missing _ true | .overlong true => throw .isADirectory

/-- A file removed.  Devices stay. -/
def remove (d : Disk) (path : Path) : Except FileError Disk := do
  match ← d.target path with
  | .directory => throw .isADirectory
  | .device _ false => return d
  | .file path _ false => return d.erase path
  | .device _ true | .file _ _ true => throw .notADirectory
  | .missing _ _ => throw .notFound
  | .overlong _ => throw .nameTooLong

/-- A disk with the texts that every machine has. -/
def standard : Disk where
  files := [("etc/passwd", "root:x:0:0:root:/root:/bin/sh\n"), ("etc/hostname", "localhost\n"),
    ("etc/hosts", "127.0.0.1 localhost\n")].map fun (path, text) =>
      ((Path.ofString path).names, text.toUTF8)

/-- A standard disk with the given files in its working directory. -/
def ofList (files : List (String × ByteArray)) : Disk :=
  let names (path : String) :=
    (Path.ofString path).names.filter fun n => n ≠ [] ∧ n ≠ FileName.ofString "."
  files.foldl (fun d f => d.put (d.home ++ names f.1) f.2) standard

/-- A disk after a change, and whether the change was made. -/
def changed (d : Disk) : Except FileError Disk → Except FileError Unit × Disk
  | .ok d => (.ok (), d)
  | .error e => (.error e, d)

/-- A program run on a disk, on which no time passes but `time`. -/
def run {α : Type} (time : String) : Disk → FileProgram α → α × Disk
  | d, .done a => (a, d)
  | d, .home next => d.run time (next (.ofNames d.home))
  | d, .find path next => d.run time (next (d.find path))
  | d, .read path next => d.run time (next (d.read path))
  | d, .write path bytes next =>
    let (r, d) := d.changed (d.write path bytes)
    d.run time (next r)
  | d, .remove path next =>
    let (r, d) := d.changed (d.remove path)
    d.run time (next r)
  | d, .print stream text next => (d.print stream text).run time next
  | d, .elapsed next => d.run time (next time)

end Disk

end CodeGraph
