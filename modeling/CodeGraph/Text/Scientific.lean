import CodeGraph.Text.Decimal

/-!
# Numbers in scientific notation

A decimal number is read as a significand times a power of ten.  The significand
has 64 bits.  A digit before the point that it cannot take counts as a zero, and
so do all digits after it up to the point.  From the first digit after the point
that it cannot take, no more digits are read.

The value of such a number in double precision is the rounded significand times
the rounded power of ten.  `Scientific.isFinite` says whether that product is in
range.  It is decided on natural numbers: a product of two numbers of 53 bits is
rounded to infinity exactly when it reaches `overflowBound`.
-/

namespace CodeGraph.Text

/-- The number `significand * 10 ^ exponent`. -/
structure Scientific where
  /-- The significand. -/
  significand : Nat := 0
  /-- The power of ten. -/
  exponent : Int := 0
  deriving DecidableEq

namespace Scientific

/-- A significand with one more digit, if 64 bits can hold it. -/
def push? (significand : Nat) (digit : Char) : Option Nat :=
  let n := significand * 10 + digitValue digit
  if n < UInt64.size then some n else none

/-- A significand with the digits before the point.  Those that it cannot take raise the power
of ten. -/
def wholeFrom (significand : Nat) : List Char → Scientific
  | [] => ⟨significand, 0⟩
  | d :: ds =>
    match push? significand d with
    | some n => wholeFrom n ds
    | none => ⟨significand, ds.length + 1⟩

/-- The number of the digits before the point. -/
def ofWhole (ds : List Char) : Scientific := wholeFrom 0 ds

/-- A number with the digits after the point. -/
def withFraction (x : Scientific) : List Char → Scientific
  | [] => x
  | d :: ds =>
    match push? x.significand d with
    | some n => withFraction ⟨n, x.exponent - 1⟩ ds
    | none => x

/-- A number times a power of ten. -/
def scale (x : Scientific) (exponent : Int) : Scientific :=
  { x with exponent := x.exponent + exponent }

/-! ## The range of double precision -/

/-- The nearest number with at most `bits` significant bits.  Of two that are
equally near it is the one whose last bit is zero. -/
def roundBits (bits n : Nat) : Nat :=
  let unit := Nat.pow 2 (n.log2 + 1 - bits)
  let q := n / unit
  let r := n % unit
  if unit < 2 * r || (unit = 2 * r && q % 2 = 1) then (q + 1) * unit else q * unit

/-- The least number that double precision rounds to infinity. -/
def overflowBound : Nat := Nat.pow 2 1024 - Nat.pow 2 970

/-- The greatest power of ten in double precision. -/
def greatestPower : Nat := 308

/-- Whether the value of a number in double precision is in range. -/
def isFinite (x : Scientific) : Bool :=
  match x.exponent with
  | .negSucc _ => true
  | .ofNat e =>
    if e ≤ greatestPower then
      roundBits 53 x.significand * roundBits 53 (Nat.pow 10 e) < overflowBound
    else x.significand = 0

end Scientific

end CodeGraph.Text
