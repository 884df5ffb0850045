import CodeGraph.Json.Basic
import CodeGraph.Json.Token

/-!
# Reading JSON values

A value is read off a list of tokens by recursive descent.  `value?`, `items?`
and `members?` return the value read and the tokens after it.  Each call spends
one unit of fuel, and at most two calls are made for one token, so `ofTokens?`
gives twice the number of tokens and two.

Reading is lenient where the meaning of a text is not yet asked for: depth is
not bounded, and a string without a text or a number out of range gives a
`flawed` value.
-/

namespace CodeGraph.Json

/-- An object of the given members.  It is flawed when a key has no text. -/
def ofMembers (members : List (Option String × Json)) : Json :=
  match members.mapM (fun (key, j) => key.map (·, j)) with
  | some members => .obj members
  | none => .flawed

mutual

/-- The value at the start of the tokens. -/
def value? : Nat → List Token → Option (Json × List Token)
  | 0, _ => none
  | _ + 1, [] => none
  | fuel + 1, t :: rest =>
    match t with
    | .null => some (.null, rest)
    | .bool b => some (.bool b, rest)
    | .int n => some (.int n, rest)
    | .real true => some (.real, rest)
    | .real false => some (.flawed, rest)
    | .str (some s) => some (.str s, rest)
    | .str none => some (.flawed, rest)
    | .arrOpen =>
      match rest with
      | .arrClose :: rest => some (.arr [], rest)
      | _ => (items? fuel rest).map fun (js, rest) => (.arr js, rest)
    | .objOpen =>
      match rest with
      | .objClose :: rest => some (.obj [], rest)
      | _ => (members? fuel rest).map fun (ms, rest) => (ofMembers ms, rest)
    | _ => none

/-- The items of an array that has at least one, through its closing bracket. -/
def items? : Nat → List Token → Option (List Json × List Token)
  | 0, _ => none
  | fuel + 1, input =>
    match value? fuel input with
    | some (j, .arrClose :: rest) => some ([j], rest)
    | some (j, .comma :: rest) => (items? fuel rest).map fun (js, rest) => (j :: js, rest)
    | _ => none

/-- The members of an object that has at least one, through its closing brace. -/
def members? : Nat → List Token → Option (List (Option String × Json) × List Token)
  | 0, _ => none
  | fuel + 1, .str key :: .colon :: input =>
    match value? fuel input with
    | some (j, .objClose :: rest) => some ([(key, j)], rest)
    | some (j, .comma :: rest) => (members? fuel rest).map fun (ms, rest) => ((key, j) :: ms, rest)
    | _ => none
  | _ + 1, _ => none

end

/-- The value that a list of tokens spells, with nothing after it. -/
def ofTokens? (ts : List Token) : Option Json :=
  match value? (2 * ts.length + 2) ts with
  | some (j, []) => some j
  | _ => none

/-- The value that a list of symbols spells. -/
def ofSymbols? (input : List Text.Symbol) : Option Json := (Token.scan input).bind ofTokens?

/-- The value that a string spells. -/
def ofString? (s : String) : Option Json := ofSymbols? (Text.symbolsOfString s)

/-- The value that a byte sequence spells. -/
def ofBytes? (bytes : ByteArray) : Option Json := ofSymbols? (Text.symbolsOfBytes bytes)

end CodeGraph.Json
