import CodeGraph.Text.Utf8
import CodeGraph.Text.Scientific

/-!
# Tokens of a JSON text

A JSON text is a sequence of tokens with blanks between them.  `Token.scan` cuts
a list of symbols into tokens, or fails where no token starts.

A string is read in two steps.  The first takes it apart into pieces: a plain
character, the code unit of a `\u` escape, or an ill-formed byte.  The second
joins the pieces to a text.  Two code units that form a surrogate pair are one
character.  Any other surrogate, and any ill-formed byte, leaves the string
without a text, but its end is known, so scanning goes on.

A number is an integer when it has neither fraction nor exponent, is not `-0`
and fits in 64 bits.  Any other number is a real, of which only its being in the
range of double precision is kept.
-/

namespace CodeGraph.Json

open Text (Symbol isDigit digitValue ofDigits Scientific)

/-- A token of a JSON text. -/
inductive Token where
  /-- The literal `null`. -/
  | null
  /-- The literals `true` and `false`. -/
  | bool (b : Bool)
  /-- An integer of 64 bits, signed or unsigned. -/
  | int (n : Int)
  /-- Another number, and whether it is in the range of double precision. -/
  | real (finite : Bool)
  /-- A string, or `none` when it has no text. -/
  | str (s : Option String)
  /-- An opening bracket. -/
  | arrOpen
  /-- A closing bracket. -/
  | arrClose
  /-- An opening brace. -/
  | objOpen
  /-- A closing brace. -/
  | objClose
  /-- A comma. -/
  | comma
  /-- A colon. -/
  | colon
  deriving DecidableEq

namespace Token

/-! ## Strings -/

/-- What one position of a string literal contributes. -/
inductive Piece where
  /-- A plain character, or one with a short escape. -/
  | char (c : Char)
  /-- The code unit of a `\u` escape. -/
  | unit (n : Nat)
  /-- A byte that is part of no character. -/
  | bad

/-- The value of a hexadecimal digit. -/
def hexValue? (c : Char) : Option Nat :=
  if isDigit c then some (digitValue c)
  else if 'a' ≤ c && c ≤ 'f' then some (c.toNat - 'a'.toNat + 10)
  else if 'A' ≤ c && c ≤ 'F' then some (c.toNat - 'A'.toNat + 10)
  else none

/-- The code unit that four hexadecimal digits stand for. -/
def codeUnit? (a b c d : Char) : Option Nat :=
  match hexValue? a, hexValue? b, hexValue? c, hexValue? d with
  | some w, some x, some y, some z => some (((w * 16 + x) * 16 + y) * 16 + z)
  | _, _, _, _ => none

/-- The character that a short escape stands for. -/
def shortEscape? : Char → Option Char
  | '"' => some '"'
  | '\\' => some '\\'
  | '/' => some '/'
  | 'b' => some '\x08'
  | 'f' => some '\x0c'
  | 'n' => some '\n'
  | 'r' => some '\r'
  | 't' => some '\t'
  | _ => none

/-- The pieces of a string literal after its opening quote, and the symbols
after its closing quote.  `acc` holds the pieces read so far, last first.
Control characters must be escaped. -/
def pieces : List Piece → List Symbol → Option (List Piece × List Symbol)
  | _, [] => none
  | acc, none :: rest => pieces (.bad :: acc) rest
  | acc, some c :: rest =>
    if c = '"' then some (acc.reverse, rest)
    else if c = '\\' then
      match rest with
      | some 'u' :: some w :: some x :: some y :: some z :: rest =>
        match codeUnit? w x y z with
        | some n => pieces (.unit n :: acc) rest
        | none => none
      | some e :: rest =>
        match shortEscape? e with
        | some d => pieces (.char d :: acc) rest
        | none => none
      | _ => none
    else if c < ' ' then none
    else pieces (.char c :: acc) rest
termination_by structural _ input => input

/-- Whether a code unit is the first half of a surrogate pair. -/
def isLead (n : Nat) : Bool := 0xD800 ≤ n && n < 0xDC00

/-- Whether a code unit is the second half of a surrogate pair. -/
def isTrail (n : Nat) : Bool := 0xDC00 ≤ n && n < 0xE000

/-- The character of a surrogate pair. -/
def pairChar (lead trail : Nat) : Char :=
  Char.ofNat (0x10000 + (lead - 0xD800) * 0x400 + (trail - 0xDC00))

/-- The text of a list of pieces, if it has one.  `acc` holds the characters so far, last first. -/
def join : List Char → List Piece → Option (List Char)
  | acc, [] => some acc.reverse
  | acc, .char c :: rest => join (c :: acc) rest
  | _, .bad :: _ => none
  | acc, .unit n :: rest =>
    if isLead n then
      match rest with
      | .unit m :: rest => if isTrail m then join (pairChar n m :: acc) rest else none
      | _ => none
    else if isTrail n then none
    else join (Char.ofNat n :: acc) rest
termination_by structural _ ps => ps

/-- The string token after an opening quote. -/
def string? (input : List Symbol) : Option (Token × List Symbol) :=
  match pieces [] input with
  | some (ps, rest) => some (.str ((join [] ps).map String.ofList), rest)
  | none => none

/-! ## Numbers -/

/-- Whether a symbol is a digit. -/
def isDigitSymbol : Symbol → Bool
  | some c => isDigit c
  | none => false

/-- The digits at the start of the input, and what follows them. -/
def digits (input : List Symbol) : List Char × List Symbol :=
  ((input.takeWhile isDigitSymbol).reduceOption, input.dropWhile isDigitSymbol)

/-- The token of a number without fraction and exponent. -/
def integer (negative : Bool) (ds : List Char) : Token :=
  let n := ofDigits ds
  if negative then
    if 0 < n && n ≤ 9223372036854775808 then .int (-(n : Int))
    else .real (Scientific.ofWhole ds).isFinite
  else if n < UInt64.size then .int n
  else .real (Scientific.ofWhole ds).isFinite

/-- The fraction at the start of the input, without its point.  A point needs a digit after it. -/
def fraction? : List Symbol → Option (List Char × List Symbol)
  | some '.' :: rest =>
    let (ds, rest) := digits rest
    if ds.isEmpty then none else some (ds, rest)
  | input => some ([], input)

/-- The exponent at the start of the input, if there is one.  Its mark needs a digit after it. -/
def exponent? : List Symbol → Option (Option Int × List Symbol)
  | some c :: rest =>
    if c = 'e' || c = 'E' then
      let (negative, rest) := match rest with
        | some '+' :: rest => (false, rest)
        | some '-' :: rest => (true, rest)
        | _ => (false, rest)
      let (ds, rest) := digits rest
      if ds.isEmpty then none
      else some (some (if negative then -(ofDigits ds : Int) else ofDigits ds), rest)
    else some (none, some c :: rest)
  | input => some (none, input)

/-- The number token at the start of the input, after its sign.  A number of
more than one digit does not start with zero. -/
def number? (negative : Bool) (input : List Symbol) : Option (Token × List Symbol) :=
  let (whole, rest) := digits input
  if whole.isEmpty || (1 < whole.length && whole.head? = some '0') then none
  else
    match fraction? rest with
    | none => none
    | some (part, rest) =>
      match exponent? rest with
      | none => none
      | some (e, rest) =>
        if part.isEmpty && e.isNone then some (integer negative whole, rest)
        else
          let x := (Scientific.ofWhole whole).withFraction part
          some (.real (x.scale (e.getD 0)).isFinite, rest)

/-! ## The scanner -/

/-- Whether a character is blank between tokens. -/
def isBlank (c : Char) : Bool := c = ' ' || c = '\n' || c = '\t' || c = '\r'

/-- The rest of the input after the letters of a word. -/
def word? (letters : List Char) (input : List Symbol) : Option (List Symbol) :=
  if (letters.map some).isPrefixOf input then some (input.drop letters.length) else none

/-- The token that starts with `c`, and what follows it. -/
def next? (c : Char) (rest : List Symbol) : Option (Token × List Symbol) :=
  match c with
  | '[' => some (.arrOpen, rest)
  | ']' => some (.arrClose, rest)
  | '\x7b' => some (.objOpen, rest)
  | '\x7d' => some (.objClose, rest)
  | ',' => some (.comma, rest)
  | ':' => some (.colon, rest)
  | '"' => string? rest
  | 'n' => (word? ['u', 'l', 'l'] rest).map (.null, ·)
  | 't' => (word? ['r', 'u', 'e'] rest).map (.bool true, ·)
  | 'f' => (word? ['a', 'l', 's', 'e'] rest).map (.bool false, ·)
  | '-' => number? true rest
  | _ => if isDigit c then number? false (some c :: rest) else none

/-- The tokens of the input, put after those of `acc`, which are last first.
Every step takes at least one symbol, so `fuel` need not exceed the number of
symbols. -/
def scanLoop : Nat → List Token → List Symbol → Option (List Token)
  | _, acc, [] => some acc.reverse
  | 0, _, _ :: _ => none
  | _ + 1, _, none :: _ => none
  | fuel + 1, acc, some c :: rest =>
    if isBlank c then scanLoop fuel acc rest
    else
      match next? c rest with
      | some (t, rest) => scanLoop fuel (t :: acc) rest
      | none => none

/-- The tokens of a text. -/
def scan (input : List Symbol) : Option (List Token) := scanLoop input.length [] input

/-- The tokens of the input up to the first place where no token starts, put
after those of `acc`, which are last first. -/
def scanStartLoop : Nat → List Token → List Symbol → List Token
  | fuel + 1, acc, some c :: rest =>
    if isBlank c then scanStartLoop fuel acc rest
    else
      match next? c rest with
      | some (t, rest) => scanStartLoop fuel (t :: acc) rest
      | none => acc.reverse
  | _, acc, _ => acc.reverse

/-- The tokens at the start of a text, up to the first place where no token starts. -/
def scanStart (input : List Symbol) : List Token := scanStartLoop input.length [] input

end Token

end CodeGraph.Json
