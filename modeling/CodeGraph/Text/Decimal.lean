/-!
# Decimal digits

Numbers are written in base ten without leading zeros, and digit lists are read
back with Horner's rule.  `ofDigits_decimal` says that reading undoes writing.
-/

namespace CodeGraph.Text

/-- Whether a character is one of `0` to `9`. -/
def isDigit (c : Char) : Bool := '0' ≤ c && c ≤ '9'

/-- The value of a digit. -/
def digitValue (c : Char) : Nat := c.toNat - '0'.toNat

/-- The digit of a value below ten. -/
def digitChar (n : Nat) : Char := Char.ofNat ('0'.toNat + n)

/-- The digits of `n` put before `rest`, most significant first. -/
def decimalOnto (n : Nat) (rest : List Char) : List Char :=
  if n < 10 then digitChar n :: rest
  else decimalOnto (n / 10) (digitChar (n % 10) :: rest)
termination_by n
decreasing_by omega

/-- The digits of `n`, most significant first. -/
def decimal (n : Nat) : List Char := decimalOnto n []

/-- The digits of an integer put before `rest`, after a minus sign when it is negative. -/
def integerOnto : Int → List Char → List Char
  | .ofNat n, rest => decimalOnto n rest
  | .negSucc n, rest => '-' :: decimalOnto (n + 1) rest

/-- The text of a natural number. -/
def natText (n : Nat) : String := String.ofList (decimal n)

/-- The number a list of digits stands for, read after the number `acc`. -/
def ofDigitsFrom (acc : Nat) (ds : List Char) : Nat :=
  ds.foldl (fun n c => 10 * n + digitValue c) acc

/-- The number a list of digits stands for. -/
def ofDigits (ds : List Char) : Nat := ofDigitsFrom 0 ds

/-- The value of a digit below ten is the number it was made of. -/
theorem digitValue_digitChar {n : Nat} (h : n < 10) : digitValue (digitChar n) = n := by
  have : n = 0 ∨ n = 1 ∨ n = 2 ∨ n = 3 ∨ n = 4 ∨ n = 5 ∨ n = 6 ∨ n = 7 ∨ n = 8 ∨ n = 9 := by omega
  rcases this with h | h | h | h | h | h | h | h | h | h <;> subst h <;> rfl

/-- What is read after the digits of `n` starts from `n`. -/
theorem ofDigitsFrom_decimalOnto (n : Nat) (rest : List Char) :
    ofDigits (decimalOnto n rest) = ofDigitsFrom n rest := by
  fun_induction decimalOnto n rest with
  | case1 n rest h => simp [ofDigits, ofDigitsFrom, digitValue_digitChar h]
  | case2 n rest h ih =>
    rw [ih]
    have hm : n % 10 < 10 := Nat.mod_lt n (by decide)
    simp only [ofDigitsFrom, List.foldl_cons, digitValue_digitChar hm]
    congr 1
    omega

/-- Reading the digits of a number gives the number back. -/
theorem ofDigits_decimal (n : Nat) : ofDigits (decimal n) = n := by
  rw [decimal, ofDigitsFrom_decimalOnto]
  rfl

end CodeGraph.Text
