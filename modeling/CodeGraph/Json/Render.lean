import CodeGraph.Json.Basic
import CodeGraph.Text.Decimal

/-!
# Writing JSON values

A value is written in one of two layouts.  The compact layout has no blanks.
The pretty layout puts every item and member on a line of its own, two spaces
deeper than what encloses it, and a space after each colon.  Empty arrays and
objects stay on one line in both.

Every writer puts its text before the characters that follow it, so writing
takes time linear in the length of the text.  A `real` and a `flawed` value are
written as a number that reads back as such.
-/

namespace CodeGraph.Json

/-- How the parts of a value are set apart. -/
inductive Layout where
  /-- No blanks. -/
  | compact
  /-- One line per item and member. -/
  | pretty
  deriving DecidableEq

/-- What stands before an item or a closing bracket that is `depth` levels deep. -/
def Layout.gap : Layout → Nat → List Char
  | .compact, _ => []
  | .pretty, depth => '\n' :: List.replicate (2 * depth) ' '

/-- What stands between a key and its value. -/
def Layout.colon : Layout → List Char
  | .compact => [':']
  | .pretty => [':', ' ']

/-- The hexadecimal digit of a value below sixteen, in lower case. -/
def hexChar (n : Nat) : Char :=
  if n < 10 then Text.digitChar n else Char.ofNat ('a'.toNat + (n - 10))

/-- A character of a string literal, escaped where it has to be. -/
def escapeOnto (c : Char) (rest : List Char) : List Char :=
  if c = '"' then '\\' :: '"' :: rest
  else if c = '\\' then '\\' :: '\\' :: rest
  else if c = '\x08' then '\\' :: 'b' :: rest
  else if c = '\x0c' then '\\' :: 'f' :: rest
  else if c = '\n' then '\\' :: 'n' :: rest
  else if c = '\r' then '\\' :: 'r' :: rest
  else if c = '\t' then '\\' :: 't' :: rest
  else if c < ' ' then
    '\\' :: 'u' :: '0' :: '0' :: hexChar (c.toNat / 16) :: hexChar (c.toNat % 16) :: rest
  else c :: rest

/-- A string literal. -/
def stringOnto (s : String) (rest : List Char) : List Char :=
  '"' :: s.toList.foldr escapeOnto ('"' :: rest)

mutual

/-- The text of a value that is `depth` levels deep, put before `rest`. -/
def renderOnto (l : Layout) (depth : Nat) : Json → List Char → List Char
  | .null, rest => 'n' :: 'u' :: 'l' :: 'l' :: rest
  | .bool true, rest => 't' :: 'r' :: 'u' :: 'e' :: rest
  | .bool false, rest => 'f' :: 'a' :: 'l' :: 's' :: 'e' :: rest
  | .int n, rest => Text.integerOnto n rest
  | .real, rest => '0' :: '.' :: '5' :: rest
  | .str s, rest => stringOnto s rest
  | .arr [], rest => '[' :: ']' :: rest
  | .arr (j :: js), rest =>
    '[' :: (l.gap (depth + 1) ++
      renderOnto l (depth + 1) j (itemsOnto l (depth + 1) js (l.gap depth ++ ']' :: rest)))
  | .obj [], rest => '\x7b' :: '\x7d' :: rest
  | .obj ((key, j) :: ms), rest =>
    '\x7b' :: (l.gap (depth + 1) ++ stringOnto key (l.colon ++
      renderOnto l (depth + 1) j (membersOnto l (depth + 1) ms (l.gap depth ++ '\x7d' :: rest))))
  | .flawed, rest => '1' :: 'e' :: '9' :: '9' :: '9' :: rest

/-- The items of an array after the first. -/
def itemsOnto (l : Layout) (depth : Nat) : List Json → List Char → List Char
  | [], rest => rest
  | j :: js, rest => ',' :: (l.gap depth ++ renderOnto l depth j (itemsOnto l depth js rest))

/-- The members of an object after the first. -/
def membersOnto (l : Layout) (depth : Nat) : List (String × Json) → List Char → List Char
  | [], rest => rest
  | (key, j) :: ms, rest =>
    ',' :: (l.gap depth ++ stringOnto key (l.colon ++
      renderOnto l depth j (membersOnto l depth ms rest)))

end

/-- The text of a value in a layout. -/
def render (l : Layout) (j : Json) : String := String.ofList (renderOnto l 0 j [])

/-- The text of a value without blanks. -/
def compact (j : Json) : String := render .compact j

/-- The text of a value with one line per item and member. -/
def pretty (j : Json) : String := render .pretty j

end CodeGraph.Json
