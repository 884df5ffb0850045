import CodeGraph.CommandLine.Path
import CodeGraph.Json.Token

/-!
# Addresses of databases

The engine of files takes the path of a file for the name of a database, or an
address that starts with `file:`.  Such an address has up to four parts.

* An authority, after two slashes.  It must be empty or `localhost`.
* A path.
* Options, after a question mark, with an ampersand between one and the next.
  An option has a name and, after an equals sign, a value.
* A remark, after a number sign, which is ignored.

In a path, a name or a value, `%` and two hexadecimal digits stand for a byte,
and a zero byte hides what follows it.  These options have a meaning.

* `mode` sets what may be done with the database, and may be given again.
* `cache` is of no consequence, but must have a known value.
* `vfs` chooses the layer through which files are reached.  The last one counts.
* `immutable` says that the file does not change, so it may only be read.
* `nolock` says that nobody else uses the database.
* `readonly_shm` says that the second companion may only be read.
* `modeof` names a file that must be there, to take its permissions from.

Of the last four the first one counts.  An option without a name is ignored, and
so is one with another name.

The path that is empty, and the path `:memory:`, stand for a private database,
which is in no file and is gone when it is closed.
-/

namespace CodeGraph.CommandLine

/-- The bytes of a word. -/
def word (text : String) : List UInt8 := text.toUTF8.toList

/-- The byte of a mark. -/
def byteOf (mark : Char) : UInt8 := UInt8.ofNat mark.toNat

/-! ## Access -/

/-- What may be done with a database. -/
inductive Access where
  /-- A database that is there may be read. -/
  | readOnly
  /-- A database that is there may be read and written. -/
  | readWrite
  /-- A database may be read and written, and is created when it is not there. -/
  | create
  /-- A private database may be read and written. -/
  | memory
  deriving DecidableEq

namespace Access

/-- The names of the ways of access. -/
def known : List (List UInt8 × Access) :=
  [(word "ro", .readOnly), (word "rw", .readWrite), (word "rwc", .create), (word "memory", .memory)]

/-- How much an access allows. -/
def rank : Access → Nat
  | .readOnly => 0
  | .readWrite => 1
  | .create => 2
  | .memory => 3

/-- Whether an access may be replaced by another.  It may allow no more, unless
it is that of a private database. -/
def admits (current wanted : Access) : Bool := wanted = .memory || wanted.rank ≤ current.rank

/-- The access after a `mode`, unless it cannot be given. -/
def after? (current : Access) (mode : List UInt8) : Option Access :=
  (known.lookup mode).bind fun wanted => if current.admits wanted then some wanted else none

end Access

/-! ## Layers -/

/-- A layer through which files are reached. -/
inductive Layer where
  /-- The usual one. -/
  | plain
  /-- One that keeps the second companion in memory, unless the database may only be read. -/
  | exclusive
  /-- One that marks a database in use by a further file beside it. -/
  | marked
  /-- One that does not mark a database in use. -/
  | unmarked
  /-- One that keeps everything in memory. -/
  | memory
  deriving DecidableEq

/-- The names of the layers. -/
def Layer.known : List (List UInt8 × Layer) :=
  [(word "unix", .plain), (word "unix-excl", .exclusive), (word "unix-dotfile", .marked),
    (word "unix-none", .unmarked), (word "memdb", .memory)]

/-! ## Options -/

/-- The value of a hexadecimal digit. -/
def digitByte? (b : UInt8) : Option Nat := Json.Token.hexValue? (Char.ofNat b.toNat)

/-- The value of two hexadecimal digits. -/
def digitPair? (hi lo : UInt8) : Option Nat := do return (← digitByte? hi) * 16 + (← digitByte? lo)

/-- The bytes of a part of an address, up to a zero byte. -/
def decodePart : List UInt8 → List UInt8
  | [] => []
  | [b] => [b]
  | [b, c] => [b, c]
  | b :: hi :: lo :: rest =>
    match if b = byteOf '%' then digitPair? hi lo else none with
    | some 0 => []
    | some n => UInt8.ofNat n :: decodePart rest
    | none => b :: decodePart (hi :: lo :: rest)

/-- What stands before the first `mark`, and what stands after it. -/
def cutBytes (mark : Char) (bytes : List UInt8) : List UInt8 × List UInt8 :=
  (bytes.takeWhile (· ≠ byteOf mark), (bytes.dropWhile (· ≠ byteOf mark)).drop 1)

/-- The names and values of the options of an address, in the order in which
they are written. -/
def optionsOf (query : List UInt8) : List (List UInt8 × List UInt8) :=
  let option (bytes : List UInt8) : List UInt8 × List UInt8 :=
    let (name, value) := cutBytes '=' bytes
    (decodePart name, decodePart value)
  ((splitBytes (byteOf '&') query).map option).filter fun o => o.1 ≠ []

/-- The number at the start of some digits, leading zeros aside.  It is zero when there are more
than `most` digits or when it needs more than 31 bits. -/
def numberOf (base most : Nat) (digits : List Nat) : Nat :=
  let digits := digits.dropWhile (· = 0)
  let n := digits.foldl (fun n d => n * base + d) 0
  if digits.length ≤ most ∧ n ≤ 2147483647 then n else 0

/-- The values of the digits at the start of some bytes. -/
def digitsOf (base : Nat) : List UInt8 → List Nat
  | [] => []
  | b :: bs =>
    match digitByte? b with
    | some d => if d < base then d :: digitsOf base bs else []
    | none => []

/-- A letter in lower case. -/
def lowerByte (b : UInt8) : UInt8 := if byteOf 'A' ≤ b ∧ b ≤ byteOf 'Z' then b + 32 else b

/-- The number that some bytes start with, after `0x` in base sixteen. -/
def leadingNumber (bytes : List UInt8) : Nat :=
  let start := (bytes.take 2).map lowerByte
  let rest := bytes.drop 2
  if start = word "0x" ∧ digitsOf 16 rest ≠ [] then numberOf 16 8 (digitsOf 16 rest)
  else numberOf 10 10 (digitsOf 10 bytes)

/-- Whether a value means yes: a number other than zero, of which eight bits
count, or one of three words. -/
def isYes (value : List UInt8) : Bool :=
  if digitsOf 10 value ≠ [] then leadingNumber value % 256 ≠ 0
  else [word "on", word "yes", word "true"].contains (value.map lowerByte)

/-! ## Addresses -/

/-- Where a database is, and what may be done with it. -/
structure Address where
  /-- The path of its file. -/
  path : Path
  /-- What may be done with it. -/
  access : Access := .create
  /-- The layer through which files are reached. -/
  layer : Layer := .plain
  /-- Whether its file does not change. -/
  frozen : Bool := false
  /-- Whether nobody else uses it. -/
  alone : Bool := false
  /-- Whether its second companion may only be read. -/
  borrowed : Bool := false
  /-- The file that its permissions are taken from. -/
  model : Option Path := none
  deriving DecidableEq

namespace Address

/-- Whether an address is that of a private database. -/
def isPrivate (a : Address) : Bool :=
  a.path.bytes = [] || a.path = .ofString ":memory:" || a.access = .memory

/-- Whether a database cannot have companions, as nothing tells who else uses them. -/
def isSolitary (a : Address) : Bool := a.alone || a.layer = .marked || a.layer = .unmarked

/-- The access after an option, unless the option has a value that it cannot have. -/
def accessAfter? (current : Access) : List UInt8 × List UInt8 → Option Access
  | (name, value) =>
    if name = word "mode" then current.after? value
    else if name = word "cache" ∧ value ≠ word "shared" ∧ value ≠ word "private" then none
    else some current

/-- The address of a path with options, unless an option has a value that it
cannot have. -/
def ofOptions? (path : Path) (options : List (List UInt8 × List UInt8)) : Option Address := do
  let access ← options.foldlM accessAfter? .create
  let layer ← Layer.known.lookup ((options.reverse.lookup (word "vfs")).getD (word "unix"))
  let isSet (name : String) : Bool := ((options.lookup (word name)).map isYes).getD false
  return {
    path, access, layer
    frozen := isSet "immutable"
    alone := isSet "nolock"
    borrowed := isSet "readonly_shm"
    model := (options.lookup (word "modeof")).map Path.mk }

/-- An address without its authority, if that is the local machine. -/
def withoutAuthority? (bytes : List UInt8) : Option (List UInt8) :=
  if bytes.take 2 = word "//" then
    let rest := bytes.drop 2
    let authority := rest.takeWhile (· ≠ Path.slash)
    if authority = [] ∨ authority = word "localhost" then some (rest.drop authority.length)
    else none
  else some bytes

/-- The address that a text stands for. -/
def ofText? (text : String) : Option Address :=
  if text.startsWith "file:" then do
    let rest ← withoutAuthority? ((word text).drop 5)
    let (path, query) := cutBytes '?' (cutBytes '#' rest).1
    ofOptions? ⟨decodePart path⟩ (optionsOf query)
  else some { path := .ofString text }

end Address

end CodeGraph.CommandLine
