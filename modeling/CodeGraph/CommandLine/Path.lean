/-!
# Paths

The name of a file is a sequence of bytes, and need not be a text.  A path is a
sequence of names with slashes between them, and is a sequence of bytes too.
-/

namespace CodeGraph

/-- The bytes between the marks in a sequence of bytes.  There is always one piece more than
there are marks. -/
def splitBytes (mark : UInt8) : List UInt8 → List (List UInt8)
  | [] => [[]]
  | b :: bs =>
    if b = mark then [] :: splitBytes mark bs
    else
      match splitBytes mark bs with
      | [] => [[b]]
      | piece :: pieces => (b :: piece) :: pieces

/-- The name of a file. -/
abbrev FileName := List UInt8

/-- The name that is spelled by a text. -/
def FileName.ofString (text : String) : FileName := text.toUTF8.toList

/-- A path. -/
structure Path where
  /-- The bytes of the path. -/
  bytes : List UInt8
  deriving DecidableEq, Inhabited

namespace Path

/-- The byte between two names. -/
def slash : UInt8 := 47

/-- The path that is spelled by a text. -/
def ofString (text : String) : Path := ⟨text.toUTF8.toList⟩

/-- The text that spells a path, if it is one. -/
def toString? (p : Path) : Option String := String.fromUTF8? ⟨p.bytes.toArray⟩

/-- The number of bytes of a path. -/
def size (p : Path) : Nat := p.bytes.length

/-- Whether a path starts at the root. -/
def isAbsolute (p : Path) : Bool := p.bytes.head? = some slash

/-- The names of a path.  Two slashes in a row have an empty name between them. -/
def names (p : Path) : List FileName := splitBytes slash p.bytes

/-- The path that leads from the root along some names. -/
def ofNames : List FileName → Path
  | [] => ⟨[slash]⟩
  | names => ⟨names.flatMap (slash :: ·)⟩

/-- A path with an ending after its last name. -/
def withEnding (p : Path) (ending : String) : Path := ⟨p.bytes ++ ending.toUTF8.toList⟩

end Path

end CodeGraph
