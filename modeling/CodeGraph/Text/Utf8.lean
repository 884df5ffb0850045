/-!
# Characters of a byte sequence

Overlay bytes are UTF-8 text, but the bytes that a store hands out may be
anything.  This module reads a byte sequence as a list of *symbols*.  A symbol
is a character, or `none` for a byte that starts no well-formed character.  Such
a byte is skipped alone, so the reader is in step again at the next character.
ASCII bytes are therefore always seen as themselves.
-/

namespace CodeGraph.Text

/-- What a reader sees at one position: a character, or a byte that is part of none. -/
abbrev Symbol := Option Char

/-- The symbols of a byte sequence from position `i` on. -/
def symbolsFrom (bytes : ByteArray) (i : Nat) : List Symbol :=
  if _h : i < bytes.size then
    match bytes.utf8DecodeChar? i with
    | some c => some c :: symbolsFrom bytes (i + c.utf8Size)
    | none => none :: symbolsFrom bytes (i + 1)
  else []
termination_by bytes.size - i
decreasing_by
  · have := Char.utf8Size_pos c
    omega
  · omega

/-- The symbols of a byte sequence. -/
def symbolsOfBytes (bytes : ByteArray) : List Symbol := symbolsFrom bytes 0

/-- The symbols of a string.  All of them are characters. -/
def symbolsOfString (s : String) : List Symbol := s.toList.map some

end CodeGraph.Text
