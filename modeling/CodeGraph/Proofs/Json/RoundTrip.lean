import CodeGraph.Json.Parse
import CodeGraph.Json.Render
import Mathlib.Data.List.ReduceOption
import Mathlib.Tactic.SplitIfs

/-!
# Reading what was written

A value whose integers fit in 64 bits is read back from its text in either
layout (`ofString?_render`), so no two such values have the same text
(`render_injective`).  It is read back from the bytes of its text as well
(`ofBytes?_render`).

The two halves of the reader are taken one after the other.  `tokens` lists the
tokens that a value is written with.  Reading them gives the value back, whatever
follows.  A written text is cut into just these tokens: blanks are passed over, a
string literal ends at its own closing quote, and a number ends where it should
because no value is followed by a character that could go on with it.
-/

namespace CodeGraph.Json

/-! ## From tokens to values -/

mutual

/-- The tokens that a value is written with. -/
def tokens : Json → List Token
  | .null => [.null]
  | .bool b => [.bool b]
  | .int n => [.int n]
  | .real => [.real true]
  | .str s => [.str (some s)]
  | .arr [] => [.arrOpen, .arrClose]
  | .arr (j :: js) => .arrOpen :: (tokens j ++ (itemTokens js ++ [.arrClose]))
  | .obj [] => [.objOpen, .objClose]
  | .obj ((key, j) :: ms) =>
    .objOpen :: .str (some key) :: .colon :: (tokens j ++ (memberTokens ms ++ [.objClose]))
  | .flawed => [.real false]

/-- The tokens of the items of an array after the first. -/
def itemTokens : List Json → List Token
  | [] => []
  | j :: js => .comma :: (tokens j ++ itemTokens js)

/-- The tokens of the members of an object after the first. -/
def memberTokens : List (String × Json) → List Token
  | [] => []
  | (key, j) :: ms => .comma :: .str (some key) :: .colon :: (tokens j ++ memberTokens ms)

end

/-- A value starts with a token that closes nothing. -/
theorem exists_tokens_eq_cons (j : Json) :
    ∃ t ts, j.tokens = t :: ts ∧ t ≠ .arrClose ∧ t ≠ .objClose := by
  cases j with
  | arr js => cases js <;> simp [tokens]
  | obj ms => cases ms <;> simp [tokens]
  | _ => simp [tokens]

theorem ofMembers_map_some (ms : List (String × Json)) :
    ofMembers (ms.map fun m => (some m.1, m.2)) = .obj ms := by
  have hall : (ms.map fun m => (some m.1, m.2)).mapM
      (fun (m : Option String × Json) => m.1.map (·, m.2)) = some ms := by
    induction ms with
    | nil => rfl
    | cons m ms ih => simp [ih]
  unfold ofMembers
  rw [hall]

/-- What holds of the values without parts, and of arrays and objects when it
holds of their parts, holds of all values. -/
@[elab_as_elim]
theorem induction {motive : Json → Prop}
    (leaf : ∀ j, (∀ js, j ≠ .arr js) → (∀ ms, j ≠ .obj ms) → motive j)
    (arr : ∀ js, (∀ j ∈ js, motive j) → motive (.arr js))
    (obj : ∀ ms, (∀ m ∈ ms, motive m.2) → motive (.obj ms)) (j : Json) : motive j :=
  match j with
  | .arr js => arr js fun j _ => induction leaf arr obj j
  | .obj ms => obj ms fun m _ => induction leaf arr obj m.2
  | .null | .bool _ | .int _ | .real | .str _ | .flawed => leaf _ (by simp) (by simp)
termination_by sizeOf j
decreasing_by
  · rename_i hj
    have := List.sizeOf_lt_of_mem hj
    simp only [Json.arr.sizeOf_spec]
    omega
  · rename_i hm
    have := List.sizeOf_lt_of_mem hm
    have : sizeOf m = 1 + sizeOf m.1 + sizeOf m.2 := by cases m; rfl
    simp only [Json.obj.sizeOf_spec]
    omega

/-- The tokens of a value are read back, with fuel for two calls a token. -/
def ReadsBack (j : Json) : Prop :=
  ∀ fuel ts, 2 * j.tokens.length ≤ fuel → value? fuel (j.tokens ++ ts) = some (j, ts)

theorem items?_tokens {j : Json} {js : List Json} (hj : ReadsBack j) (hjs : ∀ k ∈ js, ReadsBack k)
    (fuel : Nat) (ts : List Token)
    (hfuel : 2 * (j.tokens.length + (itemTokens js).length) + 1 ≤ fuel) :
    items? fuel (j.tokens ++ (itemTokens js ++ .arrClose :: ts)) = some (j :: js, ts) := by
  induction js generalizing j fuel with
  | nil =>
    obtain ⟨fuel, rfl⟩ : ∃ f, fuel = f + 1 := ⟨fuel - 1, by omega⟩
    rw [itemTokens, List.nil_append, items?, hj fuel _ (by omega)]
  | cons k ks ih =>
    obtain ⟨fuel, rfl⟩ : ∃ f, fuel = f + 1 := ⟨fuel - 1, by omega⟩
    rw [itemTokens, List.length_cons, List.length_append] at hfuel
    obtain ⟨hk, hks⟩ := List.forall_mem_cons.mp hjs
    have hrest := ih hk hks fuel (by omega)
    rw [itemTokens, List.cons_append, List.append_assoc, items?, hj fuel _ (by omega)]
    simp only [hrest, Option.map_some]

theorem members?_tokens (key : String) {j : Json} {ms : List (String × Json)} (hj : ReadsBack j)
    (hms : ∀ m ∈ ms, ReadsBack m.2) (fuel : Nat) (ts : List Token)
    (hfuel : 2 * (j.tokens.length + (memberTokens ms).length) + 1 ≤ fuel) :
    members? fuel (.str (some key) :: .colon ::
      (j.tokens ++ (memberTokens ms ++ .objClose :: ts))) =
        some (((key, j) :: ms).map fun m => (some m.1, m.2), ts) := by
  induction ms generalizing key j fuel with
  | nil =>
    obtain ⟨fuel, rfl⟩ : ∃ f, fuel = f + 1 := ⟨fuel - 1, by omega⟩
    rw [memberTokens, List.nil_append, members?, hj fuel _ (by omega)]
    rfl
  | cons m ms ih =>
    obtain ⟨key', k⟩ := m
    obtain ⟨fuel, rfl⟩ : ∃ f, fuel = f + 1 := ⟨fuel - 1, by omega⟩
    rw [memberTokens] at hfuel
    simp only [List.length_cons, List.length_append] at hfuel
    obtain ⟨hk, hms⟩ := List.forall_mem_cons.mp hms
    have hrest := ih key' hk hms fuel (by dsimp only; omega)
    rw [memberTokens, members?]
    simp only [List.cons_append, List.append_assoc]
    rw [hj fuel _ (by omega)]
    simp only [hrest, Option.map_some, List.map_cons]

theorem readsBack (j : Json) : ReadsBack j := by
  induction j using induction with
  | leaf j harr hobj =>
    intro fuel ts hfuel
    obtain ⟨t, ts', ht, _⟩ := exists_tokens_eq_cons j
    obtain ⟨fuel, rfl⟩ : ∃ f, fuel = f + 1 := ⟨fuel - 1, by simp [ht] at hfuel; omega⟩
    cases j with
    | arr js => exact absurd rfl (harr js)
    | obj ms => exact absurd rfl (hobj ms)
    | _ => simp [tokens, value?]
  | arr js ih =>
    intro fuel ts hfuel
    cases js with
    | nil =>
      obtain ⟨fuel, rfl⟩ : ∃ f, fuel = f + 1 := ⟨fuel - 1, by simp [tokens] at hfuel; omega⟩
      simp [tokens, value?]
    | cons j js =>
      simp only [tokens, List.length_cons, List.length_append, List.length_nil] at hfuel
      obtain ⟨fuel, rfl⟩ : ∃ f, fuel = f + 1 := ⟨fuel - 1, by omega⟩
      obtain ⟨hj, hjs⟩ := List.forall_mem_cons.mp ih
      have hitems := items?_tokens hj hjs fuel ts (by omega)
      obtain ⟨t, ts', ht, hclose, _⟩ := exists_tokens_eq_cons j
      rw [ht, List.cons_append] at hitems
      simp [tokens, value?, ht, hitems, hclose]
  | obj ms ih =>
    intro fuel ts hfuel
    cases ms with
    | nil =>
      obtain ⟨fuel, rfl⟩ : ∃ f, fuel = f + 1 := ⟨fuel - 1, by simp [tokens] at hfuel; omega⟩
      simp [tokens, value?]
    | cons m ms =>
      obtain ⟨key, j⟩ := m
      simp only [tokens, List.length_cons, List.length_append, List.length_nil] at hfuel
      obtain ⟨fuel, rfl⟩ : ∃ f, fuel = f + 1 := ⟨fuel - 1, by omega⟩
      obtain ⟨hj, hms⟩ := List.forall_mem_cons.mp ih
      have hmembers := members?_tokens key hj hms fuel ts (by dsimp only; omega)
      simp only [tokens, List.cons_append, List.append_assoc, value?, List.nil_append, hmembers,
        Option.map_some, ofMembers_map_some]

theorem ofTokens?_tokens (j : Json) : ofTokens? j.tokens = some j := by
  have h := readsBack j (2 * j.tokens.length + 2) [] (by omega)
  rw [List.append_nil] at h
  rw [ofTokens?, h]

/-! ## From texts to tokens -/

namespace Token

open Text (Symbol isDigit digitChar decimalOnto decimal ofDigits)

/-- How a text is cut into tokens. -/
inductive Scans : List Symbol → List Token → Prop where
  | nil : Scans [] []
  | blank {c : Char} {rest : List Symbol} {ts : List Token} (hc : isBlank c) (h : Scans rest ts) :
      Scans (some c :: rest) ts
  | token {c : Char} {t : Token} {rest rest' : List Symbol} {ts : List Token}
      (hc : isBlank c = false) (hnext : next? c rest = some (t, rest'))
      (hlength : rest'.length ≤ rest.length) (h : Scans rest' ts) :
      Scans (some c :: rest) (t :: ts)

theorem scanLoop_eq_some {input : List Symbol} {ts : List Token} (h : Scans input ts)
    {fuel : Nat} (hfuel : input.length ≤ fuel) (acc : List Token) :
    scanLoop fuel acc input = some (acc.reverse ++ ts) := by
  induction h generalizing fuel acc with
  | nil => cases fuel <;> simp [scanLoop]
  | blank hc _ ih =>
    rw [List.length_cons] at hfuel
    obtain ⟨fuel, rfl⟩ : ∃ f, fuel = f + 1 := ⟨fuel - 1, by omega⟩
    rw [scanLoop, if_pos hc]
    exact ih (by omega) acc
  | token hc hnext hlength _ ih =>
    rw [List.length_cons] at hfuel
    obtain ⟨fuel, rfl⟩ : ∃ f, fuel = f + 1 := ⟨fuel - 1, by omega⟩
    rw [scanLoop, if_neg (by simp [hc]), hnext]
    simp [ih (Nat.le_trans hlength (Nat.le_of_succ_le_succ hfuel))]

theorem scan_eq_some {input : List Symbol} {ts : List Token} (h : Scans input ts) :
    scan input = some ts := by
  rw [scan, scanLoop_eq_some h (Nat.le_refl _)]
  rfl

/-! ### Strings -/

/-- The characters that have a short escape. -/
def shortEscaped : List Char := ['"', '\\', '\x08', '\x0c', '\n', '\r', '\t']

/-- What a written character is read as. -/
def pieceOf (c : Char) : Piece := if c < ' ' ∧ c ∉ shortEscaped then .unit c.toNat else .char c

theorem hexValue?_hexChar : ∀ n < 16, hexValue? (hexChar n) = some n := by
  decide

theorem toNat_lt_of_lt_space {c : Char} (h : c < ' ') : c.toNat < 32 := h

theorem codeUnit?_hexChar {n : Nat} (h : n < 32) :
    codeUnit? '0' '0' (hexChar (n / 16)) (hexChar (n % 16)) = some n := by
  have hzero : hexValue? '0' = some 0 := by decide
  rw [codeUnit?, hzero, hexValue?_hexChar _ (by omega), hexValue?_hexChar _ (by omega)]
  simp only [Option.some.injEq]
  omega

theorem pieces_quote (rest : List Symbol) (acc : List Piece) :
    pieces acc (some '"' :: rest) = some (acc.reverse, rest) := by
  rw [pieces.eq_def]
  rfl

theorem pieces_plain {c : Char} (hquote : c ≠ '"') (hslash : c ≠ '\\') (hcontrol : ¬ c < ' ')
    (rest : List Symbol) (acc : List Piece) :
    pieces acc (some c :: rest) = pieces (.char c :: acc) rest := by
  rw [pieces.eq_def]
  simp [hquote, hslash, hcontrol]

theorem pieces_escapeOnto (c : Char) (rest : List Char) (acc : List Piece) :
    pieces acc ((escapeOnto c rest).map some) = pieces (pieceOf c :: acc) (rest.map some) := by
  by_cases hshort : c ∈ shortEscaped
  · simp only [shortEscaped, List.mem_cons, List.not_mem_nil, or_false] at hshort
    rcases hshort with rfl | rfl | rfl | rfl | rfl | rfl | rfl <;>
      simp [escapeOnto, pieces, shortEscape?, pieceOf, shortEscaped]
  · have hplain := hshort
    simp only [shortEscaped, List.mem_cons, List.not_mem_nil, or_false, not_or] at hplain
    obtain ⟨hquote, hslash, h8, h12, hn, hr, ht⟩ := hplain
    by_cases hcontrol : c < ' '
    · have hunit := codeUnit?_hexChar (toNat_lt_of_lt_space hcontrol)
      simp [escapeOnto, pieces, pieceOf, hquote, hslash, h8, h12, hn, hr, ht, hcontrol, hshort,
        hunit]
    · simp [escapeOnto, pieceOf, hquote, hslash, h8, h12, hn, hr, ht, hcontrol,
        pieces_plain hquote hslash hcontrol]

theorem pieces_foldr_escapeOnto (cs rest : List Char) (acc : List Piece) :
    pieces acc ((cs.foldr escapeOnto ('"' :: rest)).map some) =
      some (acc.reverse ++ cs.map pieceOf, rest.map some) := by
  induction cs generalizing acc with
  | nil => simp [pieces_quote]
  | cons c cs ih =>
    rw [List.foldr_cons, pieces_escapeOnto, ih]
    simp

theorem join_map_pieceOf (cs acc : List Char) :
    join acc (cs.map pieceOf) = some (acc.reverse ++ cs) := by
  induction cs generalizing acc with
  | nil => simp [join]
  | cons c cs ih =>
    rw [List.map_cons, pieceOf]
    split
    · rename_i hc
      have hlt := toNat_lt_of_lt_space hc.1
      have hlead : isLead c.toNat = false := by simp [isLead]; omega
      have htrail : isTrail c.toNat = false := by simp [isTrail]; omega
      rw [join.eq_def]
      simp [hlead, htrail, ih]
    · simp [join, ih]

theorem string?_foldr_escapeOnto (s : String) (rest : List Char) :
    string? ((s.toList.foldr escapeOnto ('"' :: rest)).map some) =
      some (.str (some s), rest.map some) := by
  rw [string?, pieces_foldr_escapeOnto]
  simp [join_map_pieceOf]

theorem length_le_length_escapeOnto (cs rest : List Char) :
    rest.length ≤ (cs.foldr escapeOnto rest).length := by
  induction cs with
  | nil => exact Nat.le_refl _
  | cons c cs ih =>
    refine Nat.le_trans ih ?_
    rw [List.foldr_cons, escapeOnto]
    split_ifs <;> simp <;> omega

/-- A string literal is one token. -/
theorem Scans.string (s : String) {rest : List Char} {ts : List Token}
    (h : Scans (rest.map some) ts) :
    Scans ((stringOnto s rest).map some) (.str (some s) :: ts) := by
  refine .token rfl (string?_foldr_escapeOnto s rest) ?_ h
  have hlength := length_le_length_escapeOnto s.toList ('"' :: rest)
  simp only [List.length_map, List.length_cons] at hlength ⊢
  omega

/-! ### Numbers -/

/-- No number goes on with the first character of the text. -/
def Ends : List Char → Prop
  | [] => True
  | c :: _ => isDigit c = false ∧ c ≠ '.' ∧ c ≠ 'e' ∧ c ≠ 'E'

theorem isDigit_digitChar : ∀ n < 10, isDigit (digitChar n) := by
  decide

theorem decimalOnto_eq_append (n : Nat) (rest : List Char) :
    decimalOnto n rest = decimal n ++ rest := by
  have happend : ∀ xs, decimalOnto n (xs ++ rest) = decimalOnto n xs ++ rest := by
    intro xs
    induction n using Nat.strongRecOn generalizing xs with
    | ind n ih =>
      rw [decimalOnto, decimalOnto.eq_def n xs]
      split
      · rfl
      · exact ih (n / 10) (by omega) (digitChar (n % 10) :: xs)
  exact happend []

theorem isDigit_of_mem_decimalOnto (n : Nat) (rest : List Char) (h : ∀ c ∈ rest, isDigit c) :
    ∀ c ∈ decimalOnto n rest, isDigit c := by
  fun_induction decimalOnto n rest with
  | case1 n rest hn => exact List.forall_mem_cons.mpr ⟨isDigit_digitChar n hn, h⟩
  | case2 n rest hn ih =>
    exact ih (List.forall_mem_cons.mpr ⟨isDigit_digitChar _ (Nat.mod_lt _ (by decide)), h⟩)

theorem isDigit_of_mem_decimal (n : Nat) : ∀ c ∈ decimal n, isDigit c :=
  isDigit_of_mem_decimalOnto n [] (by simp)

/-- A number of more than one digit does not start with zero. -/
theorem head?_decimalOnto_ne_zero (n : Nat) (rest : List Char) (h : 0 < n) :
    (decimalOnto n rest).head? ≠ some '0' := by
  have hdigit : ∀ n < 10, 0 < n → digitChar n ≠ '0' := by decide
  fun_induction decimalOnto n rest with
  | case1 n rest hn =>
    intro hhead
    exact hdigit n hn h (Option.some.inj hhead)
  | case2 n rest hn ih => exact ih (by omega)

theorem decimal_ne_nil (n : Nat) : decimal n ≠ [] := by
  have hne : ∀ rest, decimalOnto n rest ≠ [] := by
    intro rest
    fun_induction decimalOnto n rest with
    | case1 => simp
    | case2 _ _ _ ih => exact ih
  exact hne []

theorem Ends.isDigit_head? {rest : List Char} (h : Ends rest) :
    ∀ c ∈ rest.head?, isDigit c = false := by
  cases rest with
  | nil => simp
  | cons c rest => simpa using h.1

/-- The digits at the start of a text that goes on with no digit. -/
theorem digits_append (ds : List Char) {rest : List Char} (hds : ∀ c ∈ ds, isDigit c)
    (hrest : ∀ c ∈ rest.head?, isDigit c = false) :
    digits ((ds ++ rest).map some) = (ds, rest.map some) := by
  unfold digits
  induction ds with
  | nil =>
    cases rest with
    | nil => rfl
    | cons c rest =>
      have hc : isDigitSymbol (some c) = false := hrest c rfl
      simp [hc, List.reduceOption]
  | cons d ds ih =>
    obtain ⟨hd, hds⟩ := List.forall_mem_cons.mp hds
    have hd : isDigitSymbol (some d) = true := hd
    have ih := Prod.ext_iff.mp (ih hds)
    simp only [List.map_append] at ih
    simp only [List.cons_append, List.map_cons, List.map_append, List.takeWhile_cons, hd, if_true,
      List.dropWhile_cons, ih.2]
    exact congrArg (fun ds => (d :: ds, rest.map some)) ih.1

theorem fraction?_of_ends {rest : List Char} (h : Ends rest) :
    fraction? (rest.map some) = some ([], rest.map some) := by
  cases rest with
  | nil => rfl
  | cons c rest => simp [fraction?, h.2.1]

/-- The digits after a point are a fraction. -/
theorem fraction?_of_digits {input rest : List Symbol} {ds : List Char}
    (hdigits : digits input = (ds, rest)) (hds : ds ≠ []) :
    fraction? (some '.' :: input) = some (ds, rest) := by
  rw [fraction?, hdigits]
  exact if_neg (by simpa using hds)

theorem exponent?_of_ends {rest : List Char} (h : Ends rest) :
    exponent? (rest.map some) = some (none, rest.map some) := by
  cases rest with
  | nil => rfl
  | cons c rest => simp [exponent?, h.2.2.1, h.2.2.2]

/-- The digits after an exponent's mark are the exponent. -/
theorem exponent?_of_digits {c : Char} {input rest : List Symbol} {ds : List Char}
    (hdigits : digits (some c :: input) = (ds, rest)) (hds : ds ≠ []) (hplus : c ≠ '+')
    (hminus : c ≠ '-') :
    exponent? (some 'e' :: some c :: input) = some (some (ofDigits ds : Int), rest) := by
  simp [exponent?, hplus, hminus, hdigits, hds]

theorem number?_of_parts (negative : Bool) {input r₁ r₂ r₃ : List Symbol} {whole part : List Char}
    {e : Option Int} (hdigits : digits input = (whole, r₁))
    (hwhole : (whole.isEmpty || (1 < whole.length && whole.head? = some '0')) = false)
    (hfraction : fraction? r₁ = some (part, r₂)) (hexponent : exponent? r₂ = some (e, r₃)) :
    number? negative input = some (if part.isEmpty && e.isNone then integer negative whole
      else .real (((Text.Scientific.ofWhole whole).withFraction part).scale (e.getD 0)).isFinite,
      r₃) := by
  unfold number?
  simp only [hdigits, hwhole, hfraction, hexponent, Bool.false_eq_true, if_false]
  split <;> rfl

theorem number?_decimal (negative : Bool) (n : Nat) {rest : List Char} (h : Ends rest) :
    number? negative ((decimal n ++ rest).map some) =
      some (integer negative (decimal n), rest.map some) := by
  have hzero : ¬ (1 < (decimal n).length ∧ (decimal n).head? = some '0') := by
    rintro ⟨hlength, hhead⟩
    by_cases hn : 0 < n
    · exact head?_decimalOnto_ne_zero n [] hn hhead
    · obtain rfl : n = 0 := by omega
      exact absurd hlength (by simp [decimal, decimalOnto])
  have hdigits := digits_append _ (isDigit_of_mem_decimal n) h.isDigit_head?
  exact number?_of_parts negative hdigits (by simpa [decimal_ne_nil n] using hzero)
    (fraction?_of_ends h) (exponent?_of_ends h)

theorem exists_decimal_eq_cons (n : Nat) : ∃ d ds, decimal n = d :: ds ∧ isDigit d := by
  obtain ⟨d, ds, hds⟩ := List.exists_cons_of_ne_nil (decimal_ne_nil n)
  exact ⟨d, ds, hds, isDigit_of_mem_decimal n d (by simp [hds])⟩

theorem next?_of_isDigit {c : Char} (h : isDigit c) (rest : List Symbol) :
    next? c rest = number? false (some c :: rest) := by
  unfold next?
  split <;> first | rw [if_pos h] | exact absurd h (by decide)

theorem isBlank_of_isDigit {c : Char} (h : isDigit c) : isBlank c = false := by
  cases hc : isBlank c with
  | false => rfl
  | true =>
    simp only [isBlank, Bool.or_eq_true, decide_eq_true_eq] at hc
    rcases hc with ((rfl | rfl) | rfl) | rfl <;> exact absurd h (by decide)

/-- A number that starts with a digit is one token. -/
theorem Scans.number {c : Char} (hc : isDigit c) (ds : List Char) {rest : List Char} {t : Token}
    (hnumber : number? false ((c :: (ds ++ rest)).map some) = some (t, rest.map some))
    {ts : List Token} (h : Scans (rest.map some) ts) :
    Scans ((c :: (ds ++ rest)).map some) (t :: ts) := by
  refine .token (isBlank_of_isDigit hc) ?_ (by simp) h
  rw [next?_of_isDigit hc]
  exact hnumber

/-- An integer that fits in 64 bits is one token. -/
theorem Scans.integer {n : Int} (hmin : -9223372036854775808 ≤ n) (hmax : n < 18446744073709551616)
    {rest : List Char} (hrest : Ends rest) {ts : List Token} (h : Scans (rest.map some) ts) :
    Scans ((Text.integerOnto n rest).map some) (.int n :: ts) := by
  cases n with
  | ofNat n =>
    have hnumber := number?_decimal false n hrest
    have hint : Token.integer false (decimal n) = .int n := by
      have hn : n < UInt64.size := by simp [UInt64.size] at hmax ⊢; omega
      simp [Token.integer, Text.ofDigits_decimal, hn]
    obtain ⟨d, ds, hds, hd⟩ := exists_decimal_eq_cons n
    rw [Text.integerOnto, decimalOnto_eq_append]
    rw [hint, hds] at hnumber
    rw [hds]
    exact .number hd _ hnumber h
  | negSucc n =>
    have hnumber := number?_decimal true (n + 1) hrest
    have hint : Token.integer true (decimal (n + 1)) = .int (.negSucc n) := by
      have hn : (0 < n + 1 && n + 1 ≤ 9223372036854775808) = true := by
        rw [Bool.and_eq_true, decide_eq_true_eq, decide_eq_true_eq]
        omega
      rw [Token.integer, Text.ofDigits_decimal, if_pos rfl, if_pos hn]
      rfl
    rw [Text.integerOnto, decimalOnto_eq_append]
    rw [hint] at hnumber
    exact .token rfl hnumber (by simp) h

theorem number?_real {rest : List Char} (h : Ends rest) :
    number? false (('0' :: (['.', '5'] ++ rest)).map some) = some (.real true, rest.map some) := by
  have hwhole : digits (('0' :: (['.', '5'] ++ rest)).map some) =
      (['0'], (['.', '5'] ++ rest).map some) :=
    digits_append ['0'] (by simp; rfl) (by simp; rfl)
  have hpart : digits ((['5'] ++ rest).map some) = (['5'], rest.map some) :=
    digits_append _ (by simp; rfl) h.isDigit_head?
  exact number?_of_parts false hwhole (by decide) (fraction?_of_digits hpart (by simp))
    (exponent?_of_ends h)

theorem number?_flawed {rest : List Char} (h : Ends rest) :
    number? false (('1' :: (['e', '9', '9', '9'] ++ rest)).map some) =
      some (.real false, rest.map some) := by
  have hwhole : digits (('1' :: (['e', '9', '9', '9'] ++ rest)).map some) =
      (['1'], (['e', '9', '9', '9'] ++ rest).map some) :=
    digits_append ['1'] (by simp; rfl) (by simp; rfl)
  have hpower : digits ((['9', '9', '9'] ++ rest).map some) = (['9', '9', '9'], rest.map some) :=
    digits_append _ (by simp; rfl) h.isDigit_head?
  exact number?_of_parts false hwhole (by decide) rfl
    (exponent?_of_digits hpower (by simp) (by decide) (by decide))

end Token

/-! ## Texts of values -/

mutual

/-- Every integer fits in 64 bits, with or without sign. -/
def Bounded : Json → Prop
  | .int n => -9223372036854775808 ≤ n ∧ n < 18446744073709551616
  | .arr items => BoundedItems items
  | .obj members => BoundedMembers members
  | _ => True

/-- `Bounded` for every item of an array. -/
def BoundedItems : List Json → Prop
  | [] => True
  | j :: js => Bounded j ∧ BoundedItems js

/-- `Bounded` for every member of an object. -/
def BoundedMembers : List (String × Json) → Prop
  | [] => True
  | (_, j) :: ms => Bounded j ∧ BoundedMembers ms

end

theorem bounded_arr {js : List Json} : Bounded (.arr js) ↔ ∀ j ∈ js, Bounded j := by
  rw [Bounded]
  induction js with
  | nil => simp [BoundedItems]
  | cons j js ih => rw [BoundedItems, ih, List.forall_mem_cons]

theorem bounded_obj {ms : List (String × Json)} : Bounded (.obj ms) ↔ ∀ m ∈ ms, Bounded m.2 := by
  rw [Bounded]
  induction ms with
  | nil => simp [BoundedMembers]
  | cons m ms ih => rw [BoundedMembers, ih, List.forall_mem_cons]

open Token (Scans Ends)

theorem Layout.scans_gap (l : Layout) (depth : Nat) {rest : List Char} {ts : List Token}
    (h : Scans (rest.map some) ts) : Scans ((l.gap depth ++ rest).map some) ts := by
  cases l with
  | compact => exact h
  | pretty =>
    refine .blank rfl ?_
    induction 2 * depth with
    | zero => exact h
    | succ n ih => exact .blank rfl ih

theorem Layout.scans_colon (l : Layout) {rest : List Char} {ts : List Token}
    (h : Scans (rest.map some) ts) : Scans ((l.colon ++ rest).map some) (.colon :: ts) := by
  cases l with
  | compact => exact .token rfl rfl (Nat.le_refl _) h
  | pretty => exact .token rfl rfl (by simp) (.blank rfl h)

/-- What follows a value ends it, when the text after the gap does. -/
theorem Layout.ends_gap (l : Layout) (depth : Nat) {rest : List Char} (h : Ends rest) :
    Ends (l.gap depth ++ rest) := by
  cases l with
  | compact => exact h
  | pretty => exact ⟨rfl, by decide, by decide, by decide⟩

/-- The text of a value is cut into its tokens, at any depth and whatever follows. -/
def ScansBack (l : Layout) (j : Json) : Prop :=
  ∀ depth rest ts, Ends rest → Scans (rest.map some) ts →
    Scans ((renderOnto l depth j rest).map some) (j.tokens ++ ts)

theorem scans_itemsOnto {l : Layout} {js : List Json} (hjs : ∀ j ∈ js, ScansBack l j) (depth : Nat)
    {rest : List Char} {ts : List Token} (hrest : Ends rest) (h : Scans (rest.map some) ts) :
    Ends (itemsOnto l depth js rest) ∧
      Scans ((itemsOnto l depth js rest).map some) (itemTokens js ++ ts) := by
  induction js with
  | nil => exact ⟨hrest, h⟩
  | cons j js ih =>
    obtain ⟨hj, hjs⟩ := List.forall_mem_cons.mp hjs
    obtain ⟨hends, hscans⟩ := ih hjs
    rw [itemsOnto, itemTokens, List.cons_append, List.append_assoc]
    exact ⟨⟨rfl, by decide, by decide, by decide⟩,
      .token rfl rfl (Nat.le_refl _) (l.scans_gap depth (hj depth _ _ hends hscans))⟩

theorem scans_membersOnto {l : Layout} {ms : List (String × Json)}
    (hms : ∀ m ∈ ms, ScansBack l m.2) (depth : Nat) {rest : List Char} {ts : List Token}
    (hrest : Ends rest) (h : Scans (rest.map some) ts) :
    Ends (membersOnto l depth ms rest) ∧
      Scans ((membersOnto l depth ms rest).map some) (memberTokens ms ++ ts) := by
  induction ms with
  | nil => exact ⟨hrest, h⟩
  | cons m ms ih =>
    obtain ⟨hm, hms⟩ := List.forall_mem_cons.mp hms
    obtain ⟨hends, hscans⟩ := ih hms
    simp only [membersOnto, memberTokens, List.cons_append, List.append_assoc]
    exact ⟨⟨rfl, by decide, by decide, by decide⟩, .token rfl rfl (Nat.le_refl _)
      (l.scans_gap depth (.string m.1 (l.scans_colon (hm depth _ _ hends hscans))))⟩

theorem scansBack (l : Layout) (j : Json) (hj : Bounded j) : ScansBack l j := by
  induction j using induction with
  | leaf j harr hobj =>
    intro depth rest ts hrest h
    cases j with
    | arr js => exact absurd rfl (harr js)
    | obj ms => exact absurd rfl (hobj ms)
    | null => exact .token rfl rfl (by simp; omega) h
    | bool b => cases b <;> exact .token rfl rfl (by simp; omega) h
    | int n =>
      rw [Bounded] at hj
      exact .integer hj.1 hj.2 hrest h
    | real => exact .number (by decide) ['.', '5'] (Token.number?_real hrest) h
    | str s => exact .string s h
    | flawed =>
      exact .number (by decide) ['e', '9', '9', '9'] (Token.number?_flawed hrest) h
  | arr js ih =>
    intro depth rest ts hrest h
    have hjs : ∀ j ∈ js, ScansBack l j := fun j hmem => ih j hmem (bounded_arr.mp hj j hmem)
    cases js with
    | nil => exact .token rfl rfl (by simp) (.token rfl rfl (Nat.le_refl _) h)
    | cons j js =>
      obtain ⟨hj, hjs⟩ := List.forall_mem_cons.mp hjs
      have hclose : Scans ((l.gap depth ++ ']' :: rest).map some) (.arrClose :: ts) :=
        l.scans_gap depth (.token rfl rfl (Nat.le_refl _) h)
      have hend : Ends (l.gap depth ++ ']' :: rest) :=
        l.ends_gap depth ⟨rfl, by decide, by decide, by decide⟩
      obtain ⟨hends, hscans⟩ := scans_itemsOnto hjs (depth + 1) hend hclose
      simp only [renderOnto, tokens, List.cons_append, List.append_assoc, List.nil_append]
      exact .token rfl rfl (Nat.le_refl _)
        (l.scans_gap (depth + 1) (hj (depth + 1) _ _ hends hscans))
  | obj ms ih =>
    intro depth rest ts hrest h
    have hms : ∀ m ∈ ms, ScansBack l m.2 := fun m hmem => ih m hmem (bounded_obj.mp hj m hmem)
    cases ms with
    | nil => exact .token rfl rfl (by simp) (.token rfl rfl (Nat.le_refl _) h)
    | cons m ms =>
      obtain ⟨hm, hms⟩ := List.forall_mem_cons.mp hms
      have hclose : Scans ((l.gap depth ++ '\x7d' :: rest).map some) (.objClose :: ts) :=
        l.scans_gap depth (.token rfl rfl (Nat.le_refl _) h)
      have hend : Ends (l.gap depth ++ '\x7d' :: rest) :=
        l.ends_gap depth ⟨rfl, by decide, by decide, by decide⟩
      obtain ⟨hends, hscans⟩ := scans_membersOnto hms (depth + 1) hend hclose
      simp only [renderOnto, tokens, List.cons_append, List.append_assoc, List.nil_append]
      exact .token rfl rfl (Nat.le_refl _) (l.scans_gap (depth + 1)
        (.string m.1 (l.scans_colon (hm (depth + 1) _ _ hends hscans))))

/-- A written value is read back. -/
theorem ofString?_render (l : Layout) {j : Json} (hj : Bounded j) :
    ofString? (render l j) = some j := by
  have hscans := scansBack l j hj 0 [] [] trivial .nil
  rw [List.append_nil] at hscans
  rw [ofString?, Text.symbolsOfString, render, String.toList_ofList, ofSymbols?,
    Token.scan_eq_some hscans]
  exact ofTokens?_tokens j

/-- No two values have the same text. -/
theorem render_injective (l : Layout) {j k : Json} (hj : Bounded j) (hk : Bounded k)
    (h : render l j = render l k) : j = k := by
  have hread := ofString?_render l hj
  rw [h, ofString?_render l hk] at hread
  exact (Option.some.inj hread).symm

/-! ## From bytes to values -/

/-- In the bytes of a text its characters are seen, whatever stands before it. -/
theorem symbolsFrom_append_utf8Encode (before : ByteArray) (cs : List Char) :
    Text.symbolsFrom (before ++ cs.utf8Encode) before.size = cs.map some := by
  induction cs generalizing before with
  | nil =>
    rw [Text.symbolsFrom]
    simp
  | cons c cs ih =>
    have hcons : (c :: cs).utf8Encode =
        (String.utf8EncodeChar c).toByteArray ++ cs.utf8Encode := by
      simp [List.utf8Encode]
    have hsize : (String.utf8EncodeChar c).toByteArray.size = c.utf8Size := by simp
    have hdecode : (before ++ (c :: cs).utf8Encode).utf8DecodeChar? before.size = some c := by
      rw [ByteArray.utf8DecodeChar?_eq_utf8DecodeChar?_extract,
        ByteArray.extract_append_eq_right rfl ByteArray.size_append, hcons]
      exact ByteArray.utf8DecodeChar?_utf8EncodeChar_append
    have hlt : before.size < (before ++ (c :: cs).utf8Encode).size := by
      have hpos := c.utf8Size_pos
      rw [hcons, ByteArray.size_append, ByteArray.size_append, hsize]
      omega
    have hrest := ih (before ++ (String.utf8EncodeChar c).toByteArray)
    rw [ByteArray.append_assoc, ← hcons, ByteArray.size_append, hsize] at hrest
    rw [Text.symbolsFrom, dif_pos hlt, hdecode]
    simp only [hrest, List.map_cons]

theorem symbolsOfBytes_toUTF8 (s : String) :
    Text.symbolsOfBytes s.toUTF8 = Text.symbolsOfString s := by
  have h := symbolsFrom_append_utf8Encode ByteArray.empty s.toList
  rw [ByteArray.empty_append, String.utf8Encode_toList] at h
  exact h

/-- A value written as bytes is read back. -/
theorem ofBytes?_render (l : Layout) {j : Json} (hj : Bounded j) :
    ofBytes? (render l j).toUTF8 = some j := by
  rw [ofBytes?, symbolsOfBytes_toUTF8]
  exact ofString?_render l hj

end CodeGraph.Json
