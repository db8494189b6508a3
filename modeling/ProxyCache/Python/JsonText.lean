import ProxyCache.Python.Json
import Mathlib.Tactic.IntervalCases

/-!
# JSON texts

`json.loads` and `json.dumps` of the standard library: the scanner with its
whitespace, escapes, numbers and constants, and the writer that escapes
everything beyond ASCII. What a float is rounded to and how it is spelt is a
parameter. A string is a sequence of characters, so an escape that stands for
half of a surrogate pair is refused. What was written is read back.
-/

namespace ProxyCache.Python.JsonText

/-! ## Reading -/

def isJsonSpace (c : Char) : Bool := c = ' ' || c = '\t' || c = '\n' || c = '\r'

def skip (s : Str) : Str := s.dropWhile isJsonSpace

/-! ### Strings -/

def hexValue (c : Char) : Option ℕ :=
  if '0' ≤ c ∧ c ≤ '9' then some (c.toNat - 48)
  else if 'a' ≤ c ∧ c ≤ 'f' then some (c.toNat - 87)
  else if 'A' ≤ c ∧ c ≤ 'F' then some (c.toNat - 55)
  else none

def hexFour (a b c d : Char) : Option ℕ := do
  return 4096 * (← hexValue a) + 256 * (← hexValue b) + 16 * (← hexValue c) + (← hexValue d)

def isHighSurrogate (n : ℕ) : Bool := 0xd800 ≤ n && n ≤ 0xdbff

def isLowSurrogate (n : ℕ) : Bool := 0xdc00 ≤ n && n ≤ 0xdfff

def joinSurrogates (high low : ℕ) : ℕ := 0x10000 + (high - 0xd800) * 1024 + (low - 0xdc00)

/-- The escapes of one letter. -/
def unescape : Char → Option Char
  | '"' => some '"'
  | '\\' => some '\\'
  | '/' => some '/'
  | 'b' => some '\x08'
  | 'f' => some '\x0c'
  | 'n' => some '\n'
  | 'r' => some '\r'
  | 't' => some '\t'
  | _ => none

/-- A string behind its opening quote, and what follows the closing one. -/
def scanString : Str → Option (Str × Str)
  | [] => none
  | '"' :: rest => some ([], rest)
  | '\\' :: 'u' :: a :: b :: c :: d :: rest =>
    match hexFour a b c d with
    | none => none
    | some n =>
      if isHighSurrogate n then
        match rest with
        | '\\' :: 'u' :: a' :: b' :: c' :: d' :: rest' =>
          match hexFour a' b' c' d' with
          | none => none
          | some m =>
            if isLowSurrogate m then
              (scanString rest').map fun x => (Char.ofNat (joinSurrogates n m) :: x.1, x.2)
            else none
        | _ => none
      else if isLowSurrogate n then none
      else (scanString rest).map fun x => (Char.ofNat n :: x.1, x.2)
  | '\\' :: c :: rest =>
    match unescape c with
    | none => none
    | some c => (scanString rest).map fun x => (c :: x.1, x.2)
  | c :: rest => if c.toNat < 0x20 then none else (scanString rest).map fun x => (c :: x.1, x.2)

/-! ### Numbers -/

/-- `0|[1-9][0-9]*`. -/
def scanNatural : Str → Option (Str × Str)
  | '0' :: rest => some (['0'], rest)
  | c :: rest =>
    if c.isDigit then some (c :: rest.takeWhile Char.isDigit, rest.dropWhile Char.isDigit) else none
  | [] => none

/-- `(\.[0-9]+)?`. -/
def scanFraction : Str → Str × Str
  | '.' :: rest =>
    if rest.head?.any Char.isDigit then ('.' :: rest.takeWhile Char.isDigit,
      rest.dropWhile Char.isDigit)
    else ([], '.' :: rest)
  | s => ([], s)

/-- `[-+]?[0-9]+`. -/
def scanSigned (s : Str) : Option (Str × Str) :=
  let (sign, rest) : Str × Str := match s with
    | '-' :: rest => (['-'], rest)
    | '+' :: rest => (['+'], rest)
    | s => ([], s)
  if rest.head?.any Char.isDigit then
    some (sign ++ rest.takeWhile Char.isDigit, rest.dropWhile Char.isDigit)
  else none

/-- `([eE][-+]?[0-9]+)?`. -/
def scanExponent : Str → Str × Str
  | c :: rest =>
    if c = 'e' ∨ c = 'E' then
      match scanSigned rest with
      | some (exponent, rest) => (c :: exponent, rest)
      | none => ([], c :: rest)
    else ([], c :: rest)
  | [] => ([], [])

/-- The digits of the integer part, the fraction with the exponent, and what follows. -/
def scanUnsigned (s : Str) : Option (Str × Str × Str) :=
  match scanNatural s with
  | none => none
  | some (digits, s) =>
    let (fraction, s) := scanFraction s
    let (exponent, s) := scanExponent s
    some (digits, fraction ++ exponent, s)

/-- A number: its sign, and the rest as above. -/
def scanNumber : Str → Option (Str × Str × Str × Str)
  | '-' :: s => (scanUnsigned s).map fun x => (['-'], x)
  | s => (scanUnsigned s).map fun x => ([], x)

/-- What may follow a value that was written. -/
def Follow (rest : Str) : Prop := ∀ c ∈ rest.head?, c = ',' ∨ c = ']' ∨ c = '}'

/-- `repr(float(token))`. -/
structure FloatRepr where
  repr : Str → Str
  /-- A `repr` that is no infinity is a number with a fraction or an exponent. -/
  scan : ∀ token, repr token ≠ ("inf" : Str) → repr token ≠ ("-inf" : Str) → ∀ rest, Follow rest →
    ∃ sign digits fraction, fraction ≠ [] ∧ repr token = sign ++ digits ++ fraction ∧
      scanNumber (repr token ++ rest) = some (sign, digits, fraction, rest)
  /-- `float(repr(x)) == x`. -/
  repr_repr : ∀ token, repr (repr token) = repr token

/-- The value of a number; an integer of too many digits is refused. -/
def numberValue (F : FloatRepr) (sign digits fraction : Str) : Option Json :=
  if fraction ≠ [] then some (.float (F.repr (sign ++ digits ++ fraction)))
  else if digits.length ≤ intMaxStrDigits then
    let n : ℤ := Nat.ofDigitChars 10 digits 0
    some (.int (if sign = [] then n else -n))
  else none

/-! ### Values -/

/-- `{k: v for k, v in pairs}`. -/
def ofPairs (pairs : List (Str × Json)) : List (Str × Json) :=
  pairs.foldl (fun d kv => dictSet d kv.1 kv.2) []

mutual

/-- `scan_once`. The bound is on the number of characters read. -/
def scanOnce (F : FloatRepr) : ℕ → Str → Option (Json × Str)
  | 0, _ => none
  | fuel + 1, s =>
    match s with
    | '"' :: rest => (scanString rest).map fun x => (.str x.1, x.2)
    | '{' :: rest =>
      match skip rest with
      | '}' :: rest => some (.dict [], rest)
      | rest => (scanMembers F fuel rest).map fun x => (.dict (ofPairs x.1), x.2)
    | '[' :: rest =>
      match skip rest with
      | ']' :: rest => some (.list [], rest)
      | rest => (scanItems F fuel rest).map fun x => (.list x.1, x.2)
    | 'n' :: 'u' :: 'l' :: 'l' :: rest => some (.null, rest)
    | 't' :: 'r' :: 'u' :: 'e' :: rest => some (.bool true, rest)
    | 'f' :: 'a' :: 'l' :: 's' :: 'e' :: rest => some (.bool false, rest)
    | 'N' :: 'a' :: 'N' :: rest => some (.float ("nan" : Str), rest)
    | 'I' :: 'n' :: 'f' :: 'i' :: 'n' :: 'i' :: 't' :: 'y' :: rest =>
      some (.float ("inf" : Str), rest)
    | '-' :: 'I' :: 'n' :: 'f' :: 'i' :: 'n' :: 'i' :: 't' :: 'y' :: rest =>
      some (.float ("-inf" : Str), rest)
    | s =>
      match scanNumber s with
      | some (sign, digits, fraction, rest) =>
        (numberValue F sign digits fraction).map fun v => (v, rest)
      | none => none

/-- The members of an object, up to its closing brace. -/
def scanMembers (F : FloatRepr) : ℕ → Str → Option (List (Str × Json) × Str)
  | 0, _ => none
  | fuel + 1, s =>
    match s with
    | '"' :: rest =>
      match scanString rest with
      | none => none
      | some (k, rest) =>
        match skip rest with
        | ':' :: rest =>
          match scanOnce F fuel (skip rest) with
          | none => none
          | some (v, rest) =>
            match skip rest with
            | ',' :: rest => (scanMembers F fuel (skip rest)).map fun x => ((k, v) :: x.1, x.2)
            | '}' :: rest => some ([(k, v)], rest)
            | _ => none
        | _ => none
    | _ => none

/-- The elements of an array, up to its closing bracket. -/
def scanItems (F : FloatRepr) : ℕ → Str → Option (List Json × Str)
  | 0, _ => none
  | fuel + 1, s =>
    match scanOnce F fuel s with
    | none => none
    | some (v, rest) =>
      match skip rest with
      | ',' :: rest => (scanItems F fuel (skip rest)).map fun x => (v :: x.1, x.2)
      | ']' :: rest => some ([v], rest)
      | _ => none

end

/-- `json.loads`. -/
def loads (F : FloatRepr) (s : Str) : Except Raised Json :=
  if s.head? = some '\ufeff' then .error .valueError
  else
    match scanOnce F s.length (skip s) with
    | some (v, rest) => if skip rest = [] then .ok v else .error .valueError
    | none => .error .valueError

/-! ## Writing -/

def hexDigit (n : ℕ) : Char := if n < 10 then Char.ofNat (48 + n) else Char.ofNat (87 + n)

/-- `\u%04x`. -/
def unicodeEscape (n : ℕ) : Str :=
  ['\\', 'u', hexDigit (n / 4096), hexDigit (n / 256 % 16), hexDigit (n / 16 % 16),
    hexDigit (n % 16)]

/-- `ESCAPE_ASCII`: what stands for a character of a string. -/
def escapeChar (c : Char) : Str :=
  if c = '"' then ("\\\"" : Str)
  else if c = '\\' then ("\\\\" : Str)
  else if c = '\n' then ("\\n" : Str)
  else if c = '\r' then ("\\r" : Str)
  else if c = '\t' then ("\\t" : Str)
  else if c = '\x0c' then ("\\f" : Str)
  else if c = '\x08' then ("\\b" : Str)
  else if 0x20 ≤ c.toNat ∧ c.toNat ≤ 0x7e then [c]
  else if c.toNat < 0x10000 then unicodeEscape c.toNat
  else unicodeEscape (0xd800 + (c.toNat - 0x10000) / 1024) ++
    unicodeEscape (0xdc00 + (c.toNat - 0x10000) % 1024)

/-- A string with its quotes. -/
def quote (s : Str) : Str := '"' :: (s.flatMap escapeChar ++ ['"'])

/-- A float, by its `repr`. -/
def floatText (repr : Str) : Str :=
  if repr = ("nan" : Str) then ("NaN" : Str)
  else if repr = ("inf" : Str) then ("Infinity" : Str)
  else if repr = ("-inf" : Str) then ("-Infinity" : Str)
  else repr

section Writing

-- The separators of items and of a key from its value.
variable (comma colon : Str)

mutual

def dumpsWith : Json → Str
  | .null => ("null" : Str)
  | .bool true => ("true" : Str)
  | .bool false => ("false" : Str)
  | .int n => str n
  | .float repr => floatText repr
  | .str s => quote s
  | .list [] => ("[]" : Str)
  | .list (v :: items) => '[' :: (dumpsWith v ++ dumpsItems items)
  | .dict [] => ("{}" : Str)
  | .dict ((k, v) :: members) => '{' :: (quote k ++ colon ++ dumpsWith v ++ dumpsMembers members)

/-- The elements after the first, and the closing bracket. -/
def dumpsItems : List Json → Str
  | [] => [']']
  | v :: items => comma ++ dumpsWith v ++ dumpsItems items

def dumpsMembers : List (Str × Json) → Str
  | [] => ['}']
  | (k, v) :: members => comma ++ quote k ++ colon ++ dumpsWith v ++ dumpsMembers members

end

end Writing

/-- `json.dumps`. -/
def dumps (v : Json) : Str := dumpsWith (", " : Str) (": " : Str) v

/-! ## What is written is read back -/

/-! ### Strings -/

section Strings

variable {rest : Str}

theorem hexValue_hexDigit : ∀ n < 16, hexValue (hexDigit n) = some n := by decide

theorem hexFour_hexDigit {n : ℕ} (h : n < 0x10000) :
    hexFour (hexDigit (n / 4096)) (hexDigit (n / 256 % 16)) (hexDigit (n / 16 % 16))
      (hexDigit (n % 16)) = some n := by
  have hdigit := hexValue_hexDigit
  simp only [hexFour, hdigit (n / 4096) (by omega), hdigit (n / 256 % 16) (by omega),
    hdigit (n / 16 % 16) (by omega), hdigit (n % 16) (by omega), Option.pure_def,
    Option.bind_eq_bind, Option.bind_some, Option.some.injEq]
  omega

theorem scanString_unicodeEscape {n : ℕ} (h : n < 0x10000) (hhigh : isHighSurrogate n = false)
    (hlow : isLowSurrogate n = false) : scanString (unicodeEscape n ++ rest) =
      (scanString rest).map fun x => (Char.ofNat n :: x.1, x.2) := by
  show scanString ('\\' :: 'u' :: _ :: _ :: _ :: _ :: rest) = _
  rw [scanString]
  simp only [hexFour_hexDigit h, hhigh, hlow, Bool.false_eq_true, if_false]

theorem scanString_surrogates {n m : ℕ} (hhigh : isHighSurrogate n = true)
    (hlow : isLowSurrogate m = true) : scanString (unicodeEscape n ++ unicodeEscape m ++ rest) =
      (scanString rest).map fun x => (Char.ofNat (joinSurrogates n m) :: x.1, x.2) := by
  have hn : n < 0x10000 := by
    simp only [isHighSurrogate, Bool.and_eq_true, decide_eq_true_eq] at hhigh
    omega
  have hm : m < 0x10000 := by
    simp only [isLowSurrogate, Bool.and_eq_true, decide_eq_true_eq] at hlow
    omega
  show scanString ('\\' :: 'u' :: _ :: _ :: _ :: _ :: '\\' :: 'u' :: _ :: _ :: _ :: _ :: rest) = _
  rw [scanString]
  simp only [hexFour_hexDigit hn, hexFour_hexDigit hm, hhigh, hlow, if_true]

/-- A character that stands for itself. -/
theorem scanString_plain {c : Char} (hquote : c ≠ '"') (hback : c ≠ '\\')
    (hcontrol : 0x20 ≤ c.toNat) :
    scanString (c :: rest) = (scanString rest).map fun x => (c :: x.1, x.2) := by
  rw [scanString.eq_def]
  split
  · next h => cases h
  · next h => exact absurd (List.cons.inj h).1 hquote
  · next h => exact absurd (List.cons.inj h).1 hback
  · next h => exact absurd (List.cons.inj h).1 hback
  · next h =>
    obtain ⟨rfl, rfl⟩ := List.cons.inj h
    rw [if_neg (by omega)]

theorem scanString_escapeChar (c : Char) :
    scanString (escapeChar c ++ rest) = (scanString rest).map fun x => (c :: x.1, x.2) := by
  by_cases h₁ : c = '"'
  · subst h₁; rfl
  by_cases h₂ : c = '\\'
  · subst h₂; rfl
  by_cases h₃ : c = '\n'
  · subst h₃; rfl
  by_cases h₄ : c = '\r'
  · subst h₄; rfl
  by_cases h₅ : c = '\t'
  · subst h₅; rfl
  by_cases h₆ : c = '\x0c'
  · subst h₆; rfl
  by_cases h₇ : c = '\x08'
  · subst h₇; rfl
  simp only [escapeChar, h₁, h₂, h₃, h₄, h₅, h₆, h₇, if_false]
  by_cases hplain : 0x20 ≤ c.toNat ∧ c.toNat ≤ 0x7e
  · rw [if_pos hplain]
    exact scanString_plain h₁ h₂ hplain.1
  -- A character is no surrogate, and lies below 0x110000.
  have hvalid : c.toNat < 0xd800 ∨ 0xdfff < c.toNat ∧ c.toNat < 0x110000 := c.valid
  rw [if_neg hplain]
  by_cases hbasic : c.toNat < 0x10000
  · rw [if_pos hbasic, scanString_unicodeEscape hbasic, Char.ofNat_toNat]
    · simp only [isHighSurrogate, Bool.and_eq_false_iff, decide_eq_false_iff_not]
      omega
    · simp only [isLowSurrogate, Bool.and_eq_false_iff, decide_eq_false_iff_not]
      omega
  · have hjoin : joinSurrogates (0xd800 + (c.toNat - 0x10000) / 1024)
        (0xdc00 + (c.toNat - 0x10000) % 1024) = c.toNat := by
      unfold joinSurrogates
      omega
    rw [if_neg hbasic, scanString_surrogates, hjoin, Char.ofNat_toNat]
    · simp only [isHighSurrogate, Bool.and_eq_true, decide_eq_true_eq]
      omega
    · simp only [isLowSurrogate, Bool.and_eq_true, decide_eq_true_eq]
      omega

theorem scanString_quoted (s : Str) :
    scanString (s.flatMap escapeChar ++ '"' :: rest) = some (s, rest) := by
  induction s with
  | nil => rfl
  | cons c s ih => rw [List.flatMap_cons, List.append_assoc, scanString_escapeChar, ih]; rfl

end Strings

/-! ### Numbers -/

section Numbers

variable {F : FloatRepr} {rest : Str}

theorem not_isDigit_of_follow (h : Follow rest) : rest.head?.any Char.isDigit = false := by
  cases rest with
  | nil => rfl
  | cons c rest => rcases h c rfl with rfl | rfl | rfl <;> rfl

theorem scanFraction_of_follow (h : Follow rest) : scanFraction rest = ([], rest) := by
  cases rest with
  | nil => rfl
  | cons c rest => rcases h c rfl with rfl | rfl | rfl <;> rfl

theorem scanExponent_of_follow (h : Follow rest) : scanExponent rest = ([], rest) := by
  cases rest with
  | nil => rfl
  | cons c rest => rcases h c rfl with rfl | rfl | rfl <;> rfl

/-- Digits are taken up to the first character that is none. -/
theorem span_digits {ds : Str} (hds : ds.all Char.isDigit = true) (h : Follow rest) :
    (ds ++ rest).takeWhile Char.isDigit = ds ∧ (ds ++ rest).dropWhile Char.isDigit = rest := by
  have hds : ∀ c ∈ ds, c.isDigit = true := List.all_eq_true.mp hds
  have hstop := not_isDigit_of_follow h
  rw [List.takeWhile_append_of_pos hds, List.dropWhile_append_of_pos hds]
  cases rest with
  | nil => simp
  | cons c rest =>
    have hc : c.isDigit = false := hstop
    simp [hc]

/-- A positive number is spelt without a zero in front. -/
theorem head_toDigits_ne {n : ℕ} (hn : 0 < n) : (Nat.toDigits 10 n).head? ≠ some '0' := by
  induction n using Nat.strong_induction_on with
  | h n ih =>
    by_cases hlt : n < 10
    · rw [Nat.toDigits_of_lt_base hlt]
      interval_cases n <;> decide
    · rw [Nat.toDigits_of_base_le
        (by omega) (by omega), List.head?_append_of_ne_nil _ Nat.toDigits_ne_nil]
      exact ih (n / 10) (by omega) (by omega)

theorem scanNatural_toDigits (n : ℕ) (h : Follow rest) :
    scanNatural (Nat.toDigits 10 n ++ rest) = some (Nat.toDigits 10 n, rest) := by
  rcases Nat.eq_zero_or_pos n with rfl | hn
  · rfl
  · have hall := toDigits_all n
    have hhead := head_toDigits_ne hn
    cases hds : Nat.toDigits 10 n with
    | nil => exact absurd hds Nat.toDigits_ne_nil
    | cons c ds =>
      rw [hds, List.all_cons, Bool.and_eq_true] at hall
      have hc : c ≠ '0' := fun heq => hhead (by rw [hds, heq]; rfl)
      obtain ⟨htake, hdrop⟩ := span_digits hall.2 h
      rw [List.cons_append, scanNatural.eq_def]
      split
      · next heq => exact absurd (List.cons.inj heq).1 hc
      · next heq =>
        obtain ⟨rfl, rfl⟩ := List.cons.inj heq
        rw [if_pos hall.1, htake, hdrop]
      · next heq => cases heq

theorem str_negSucc (n : ℕ) : str (Int.negSucc n) = '-' :: Nat.toDigits 10 (n + 1) := by
  show ("-" ++ Nat.repr (n + 1)).toList = _
  rw [String.toList_append, Nat.toList_repr]
  rfl

theorem scanUnsigned_toDigits (n : ℕ) (h : Follow rest) :
    scanUnsigned (Nat.toDigits 10 n ++ rest) = some (Nat.toDigits 10 n, [], rest) := by
  simp only [scanUnsigned, scanNatural_toDigits n h, scanFraction_of_follow h,
    scanExponent_of_follow h, List.append_nil]

theorem scanNumber_of_digit {c : Char} {s : Str} (hc : c.isDigit = true) :
    scanNumber (c :: s) = (scanUnsigned (c :: s)).map fun x => ([], x) := by
  rw [scanNumber.eq_def]
  split
  · next heq =>
    rw [(List.cons.inj heq).1] at hc
    exact absurd hc (by decide)
  · rfl

/-- An integer is scanned as it is written. -/
theorem scanNumber_str (n : ℤ) (h : Follow rest) :
    scanNumber (str n ++ rest) =
      some (if n < 0 then ['-'] else [], Nat.toDigits 10 n.natAbs, [], rest) := by
  cases n with
  | ofNat n =>
    have hscan := scanUnsigned_toDigits n h
    have hall := toDigits_all n
    rw [if_neg (by simp), show str (Int.ofNat n) = _ from str_natCast n, Int.natAbs_ofNat']
    cases hds : Nat.toDigits 10 n with
    | nil => exact absurd hds Nat.toDigits_ne_nil
    | cons c ds =>
      rw [hds] at hscan hall
      rw [List.all_cons, Bool.and_eq_true] at hall
      rw [List.cons_append, scanNumber_of_digit hall.1, ← List.cons_append, hscan]
      rfl
  | negSucc n =>
    rw [if_pos (Int.negSucc_lt_zero n), str_negSucc, List.cons_append, scanNumber,
      scanUnsigned_toDigits (n + 1) h]
    rfl

theorem numberValue_str (n : ℤ) (hdigits : (Nat.toDigits 10 n.natAbs).length ≤ intMaxStrDigits) :
    numberValue F (if n < 0 then ['-'] else []) (Nat.toDigits 10 n.natAbs) [] = some (.int n) := by
  simp only [numberValue, ne_eq, not_true_eq_false, if_false, if_pos hdigits,
    Nat.ofDigitChars_ten_toDigits]
  by_cases hn : n < 0
  · rw [if_pos hn, if_neg (by simp), Int.natCast_natAbs, abs_of_neg hn, neg_neg]
  · rw [if_neg hn, if_pos rfl, Int.natCast_natAbs, abs_of_nonneg (by omega)]

/-- A number starts with a digit, or with a minus sign and a digit. -/
theorem head_of_scanNumber {s : Str} {x : Str × Str × Str × Str} (h : scanNumber s = some x) :
    ∃ c s', c.isDigit = true ∧ (s = c :: s' ∨ s = '-' :: c :: s') := by
  have hunsigned : ∀ {s : Str} {x}, scanUnsigned s = some x → ∃ c s', c.isDigit = true ∧
    s = c :: s' := by
    intro s x hs
    unfold scanUnsigned scanNatural at hs
    split at hs
    · cases hs
    · next hnatural =>
      split at hnatural
      · exact ⟨_, _, rfl, rfl⟩
      · split at hnatural
        · next hdigit => exact ⟨_, _, hdigit, rfl⟩
        · cases hnatural
      · cases hnatural
  unfold scanNumber at h
  split at h
  · obtain ⟨y, hy, -⟩ := Option.map_eq_some_iff.mp h
    obtain ⟨c, s', hc, rfl⟩ := hunsigned hy
    exact ⟨c, s', hc, .inr rfl⟩
  · obtain ⟨y, hy, -⟩ := Option.map_eq_some_iff.mp h
    obtain ⟨c, s', hc, rfl⟩ := hunsigned hy
    exact ⟨c, s', hc, .inl rfl⟩

/-- What starts like a number is read as one. -/
theorem scanOnce_number {s : Str} {sign digits fraction : Str} (fuel : ℕ)
    (h : scanNumber s = some (sign, digits, fraction, rest)) :
    scanOnce F (fuel + 1) s = (numberValue F sign digits fraction).map fun v => (v, rest) := by
  obtain ⟨c, s', hc, rfl | rfl⟩ := head_of_scanNumber h
  · rw [scanOnce.eq_def]
    dsimp only
    split
    all_goals first
      | (next heq => rw [(List.cons.inj heq).1] at hc; exact absurd hc (by decide))
      | rw [h]
  · rw [scanOnce.eq_def]
    dsimp only
    split
    all_goals first
      | (next heq => exact absurd (List.cons.inj heq).1 (by decide))
      | (next heq =>
        rw [(List.cons.inj (List.cons.inj heq).2).1] at hc; exact absurd hc (by decide))
      | rw [h]

end Numbers

/-! ### Values -/

/-- The values that a text can hold: integers of few enough digits, floats by
their `repr`, and one member for each key. -/
inductive Valid (F : FloatRepr) : Json → Prop
  | null : Valid F .null
  | bool (b : Bool) : Valid F (.bool b)
  | int (n : ℤ) (h : (Nat.toDigits 10 n.natAbs).length ≤ intMaxStrDigits) : Valid F (.int n)
  | float (repr : Str)
      (h : repr = ("nan" : Str) ∨ repr = ("inf" : Str) ∨ repr = ("-inf" : Str) ∨
        F.repr repr = repr) :
      Valid F (.float repr)
  | str (s : Str) : Valid F (.str s)
  | list (items : List Json) (h : ∀ v ∈ items, Valid F v) : Valid F (.list items)
  | dict (members : List (Str × Json)) (hkeys : (members.map Prod.fst).Nodup)
      (h : ∀ kv ∈ members, Valid F kv.2) : Valid F (.dict members)

section RoundTrip

variable {F : FloatRepr} {comma colon rest : Str}

/-- A separator is its mark, with spaces behind it. -/
def IsSeparator (mark : Char) (separator : Str) : Prop :=
  ∃ spaces : Str, separator = mark :: spaces ∧ spaces.all isJsonSpace = true

theorem skip_append {spaces : Str} (h : spaces.all isJsonSpace = true) (s : Str) :
    skip (spaces ++ s) = skip s := by
  have hspaces : ∀ c ∈ spaces, isJsonSpace c = true := List.all_eq_true.mp h
  exact List.dropWhile_append_of_pos hspaces

theorem skip_cons {c : Char} (hc : isJsonSpace c = false) (s : Str) : skip (c :: s) = c :: s := by
  simp [skip, hc]

/-- The head of what is written: no space, no closing bracket, no byte order mark. -/
def Opens (s : Str) : Prop := ∃ c s', s = c :: s' ∧ isJsonSpace c = false ∧ c ≠ ']' ∧ c ≠ '\ufeff'

theorem opens_of_digit {c : Char} {s : Str} (hc : c.isDigit = true) : Opens (c :: s) := by
  refine ⟨c, s, rfl, ?_, ?_, ?_⟩
  · simp only [isJsonSpace, Bool.or_eq_false_iff, decide_eq_false_iff_not]
    refine ⟨⟨⟨?_, ?_⟩, ?_⟩, ?_⟩ <;> rintro rfl <;> exact absurd hc (by decide)
  · rintro rfl
    exact absurd hc (by decide)
  · rintro rfl
    exact absurd hc (by decide)

theorem opens_of_scanNumber {s : Str} {x : Str × Str × Str × Str} (h : scanNumber s = some x) :
    Opens s := by
  obtain ⟨c, s', hc, rfl | rfl⟩ := head_of_scanNumber h
  · exact opens_of_digit hc
  · exact ⟨'-', _, rfl, rfl, by decide, by decide⟩

theorem Opens.skip {s : Str} (h : Opens s) : JsonText.skip (s ++ rest) = s ++ rest := by
  obtain ⟨c, s', rfl, hc, -⟩ := h
  exact skip_cons hc _

theorem follow_nil : Follow [] := nofun

theorem scan_floatText {repr : Str} (h : F.repr repr = repr) (hinf : repr ≠ ("inf" : Str))
    (hninf : repr ≠ ("-inf" : Str)) (hrest : Follow rest) :
    ∃ sign digits fraction, fraction ≠ [] ∧ repr = sign ++ digits ++ fraction ∧
      scanNumber (repr ++ rest) = some (sign, digits, fraction, rest) := by
  obtain ⟨sign, digits, fraction, hne, heq, hscan⟩ :=
    F.scan repr (by rwa [h]) (by rwa [h]) rest hrest
  rw [h] at heq hscan
  exact ⟨sign, digits, fraction, hne, heq, hscan⟩

theorem opens_dumpsWith {v : Json} (hv : Valid F v) : Opens (dumpsWith comma colon v) := by
  cases hv with
  | null => exact ⟨_, _, rfl, by decide, by decide, by decide⟩
  | bool b => cases b <;> exact ⟨_, _, rfl, by decide, by decide, by decide⟩
  | int n _ =>
    have hscan := scanNumber_str n follow_nil
    rw [List.append_nil] at hscan
    exact opens_of_scanNumber hscan
  | float repr h =>
    simp only [dumpsWith, floatText]
    split
    · exact ⟨_, _, rfl, by decide, by decide, by decide⟩
    · split
      · exact ⟨_, _, rfl, by decide, by decide, by decide⟩
      · split
        · exact ⟨_, _, rfl, by decide, by decide, by decide⟩
        · next hnan hinf hninf =>
          have hrepr : F.repr repr = repr := by
            rcases h with h | h | h | h
            · exact absurd h hnan
            · exact absurd h hinf
            · exact absurd h hninf
            · exact h
          obtain ⟨sign, digits, fraction, -, -, hscan⟩ :=
            scan_floatText hrepr hinf hninf follow_nil
          rw [List.append_nil] at hscan
          exact opens_of_scanNumber hscan
  | str s => exact ⟨_, _, rfl, by decide, by decide, by decide⟩
  | list items _ => cases items <;> exact ⟨_, _, rfl, by decide, by decide, by decide⟩
  | dict members _ _ => cases members <;> exact ⟨_, _, rfl, by decide, by decide, by decide⟩

/-- The value is read back from what is written, whatever may follow it. -/
def ReadsBack (F : FloatRepr) (comma colon : Str) (v : Json) : Prop :=
  ∀ fuel rest, (dumpsWith comma colon v).length ≤ fuel → Follow rest →
    scanOnce F fuel (dumpsWith comma colon v ++ rest) = some (v, rest)

theorem follow_dumpsItems (hcomma : IsSeparator ',' comma) (items : List Json) :
    Follow (dumpsItems comma colon items ++ rest) := by
  obtain ⟨spaces, rfl, -⟩ := hcomma
  cases items with
  | nil =>
    intro c hc
    obtain rfl : ']' = c := Option.some.inj hc
    simp
  | cons v items =>
    intro c hc
    obtain rfl : ',' = c := Option.some.inj hc
    simp

theorem follow_dumpsMembers (hcomma : IsSeparator ',' comma) (members : List (Str × Json)) :
    Follow (dumpsMembers comma colon members ++ rest) := by
  obtain ⟨spaces, rfl, -⟩ := hcomma
  cases members with
  | nil =>
    intro c hc
    obtain rfl : '}' = c := Option.some.inj hc
    simp
  | cons kv members =>
    intro c hc
    obtain rfl : ',' = c := Option.some.inj hc
    simp

theorem scanItems_dumps (rest : Str) (hcomma : IsSeparator ',' comma) {items : List Json} :
    ∀ {v : Json} {fuel : ℕ}, (∀ w ∈ v :: items, Valid F w ∧ ReadsBack F comma colon w) →
      (dumpsWith comma colon v ++ dumpsItems comma colon items).length ≤ fuel →
      scanItems F fuel (dumpsWith comma colon v ++ (dumpsItems comma colon items ++ rest)) =
        some (v :: items, rest) := by
  induction items with
  | nil =>
    intro v fuel hitems hfuel
    rw [List.length_append] at hfuel
    cases fuel with
    | zero => simp [dumpsItems] at hfuel
    | succ fuel =>
      have hread := (hitems v List.mem_cons_self).2 fuel (dumpsItems comma colon [] ++ rest)
        (by simp only [dumpsItems, List.length_singleton] at hfuel; omega)
        (follow_dumpsItems hcomma [])
      rw [scanItems, hread]
      rfl
  | cons w items ih =>
    intro v fuel hitems hfuel
    have hfollow : Follow (dumpsItems comma colon (w :: items) ++ rest) :=
      follow_dumpsItems hcomma (w :: items)
    obtain ⟨spaces, rfl, hspaces⟩ := hcomma
    rw [List.length_append] at hfuel
    cases fuel with
    | zero => simp [dumpsItems] at hfuel
    | succ fuel =>
      have htail : dumpsItems (',' :: spaces) colon (w :: items) ++ rest = ',' :: (spaces ++
          (dumpsWith (',' :: spaces) colon
            w ++ (dumpsItems (',' :: spaces) colon items ++ rest))) := by
        simp only [dumpsItems, List.cons_append, List.append_assoc]
      have hlength : (dumpsItems (',' :: spaces) colon (w :: items)).length =
          spaces.length + 1 + (dumpsWith (',' :: spaces) colon w).length +
            (dumpsItems (',' :: spaces) colon items).length := by
        simp only [dumpsItems, List.cons_append, List.length_cons, List.length_append]
        omega
      have hread := (hitems v List.mem_cons_self).2 fuel _ (by omega) hfollow
      have hopens : Opens (dumpsWith (',' :: spaces) colon w) :=
        opens_dumpsWith (hitems w (by simp)).1
      have hrest : scanItems F fuel (dumpsWith (',' :: spaces) colon w ++
          (dumpsItems (',' :: spaces) colon items ++ rest)) = some (w :: items, rest) :=
        ih (fun x hx => hitems x (List.mem_cons_of_mem _ hx)) (by rw [List.length_append]; omega)
      rw [scanItems, hread, htail]
      simp only [skip_cons (show isJsonSpace ',' = false from rfl), skip_append hspaces]
      rw [hopens.skip, hrest]
      rfl

theorem scanMembers_dumps (rest : Str) (hcomma : IsSeparator ',' comma)
    (hcolon : IsSeparator ':' colon) {members : List (Str × Json)} :
    ∀ {k : Str} {v : Json} {fuel : ℕ},
      (∀ kv ∈ (k, v) :: members, Valid F kv.2 ∧ ReadsBack F comma colon kv.2) →
      (quote k ++ colon ++ dumpsWith comma colon v ++ dumpsMembers comma colon
        members).length ≤ fuel →
      scanMembers F fuel (quote k ++ colon ++ dumpsWith comma colon v ++
        (dumpsMembers comma colon members ++ rest)) = some ((k, v) :: members, rest) := by
  obtain ⟨gap, rfl, hgap⟩ := hcolon
  induction members with
  | nil =>
    intro k v fuel hmembers hfuel
    simp only [List.length_append, List.length_cons, quote] at hfuel
    cases fuel with
    | zero => omega
    | succ fuel =>
      obtain ⟨hvalid, hback⟩ : Valid F v ∧ ReadsBack F comma (':' :: gap) v :=
        hmembers _ List.mem_cons_self
      have hread := hback fuel ('}' :: rest) (by omega) (by simp [Follow])
      have hopens : Opens (dumpsWith comma (':' :: gap) v) := opens_dumpsWith hvalid
      simp only [quote, dumpsMembers, List.cons_append, List.append_assoc,
        List.nil_append, scanMembers,
        scanString_quoted, skip_cons (show isJsonSpace ':' = false from rfl), skip_append hgap]
      rw [hopens.skip, hread]
      rfl
  | cons kv members ih =>
    intro k v fuel hmembers hfuel
    obtain ⟨k', w⟩ := kv
    have hfollow : Follow (dumpsMembers comma (':' :: gap) ((k', w) :: members) ++ rest) :=
      follow_dumpsMembers hcomma _
    obtain ⟨spaces, rfl, hspaces⟩ := hcomma
    simp only [List.length_append, List.length_cons, quote, dumpsMembers] at hfuel
    cases fuel with
    | zero => omega
    | succ fuel =>
      obtain ⟨hvalid, hback⟩ : Valid F v ∧ ReadsBack F (',' :: spaces) (':' :: gap) v :=
        hmembers _ List.mem_cons_self
      have hread := hback fuel _ (by omega) hfollow
      have hopens : Opens (dumpsWith (',' :: spaces) (':' :: gap) v) := opens_dumpsWith hvalid
      have hrest : scanMembers F fuel
        (quote k' ++ ':' :: gap ++ dumpsWith (',' :: spaces) (':' :: gap) w ++
          (dumpsMembers (',' :: spaces) (':' :: gap) members ++ rest)) =
          some ((k', w) :: members, rest) := by
        refine ih (fun x hx => hmembers x (List.mem_cons_of_mem _ hx)) ?_
        simp only [List.length_append, List.length_cons, quote]
        omega
      simp only [quote, dumpsMembers, List.cons_append, List.append_assoc, List.nil_append]
        at hread hrest ⊢
      simp only [scanMembers, scanString_quoted, skip_cons (show isJsonSpace ':' = false from rfl),
        skip_append hgap]
      rw [hopens.skip, hread]
      simp only [skip_cons (show isJsonSpace ',' = false from rfl), skip_append hspaces]
      rw [skip_cons (show isJsonSpace '"' = false from rfl), hrest]
      rfl

theorem ofPairs_of_nodup {pairs : List (Str × Json)} (h : (pairs.map Prod.fst).Nodup) :
    ofPairs pairs = pairs := by
  have hfold : ∀ (pairs d : List (Str × Json)), ((d ++ pairs).map Prod.fst).Nodup →
      pairs.foldl (fun d kv => dictSet d kv.1 kv.2) d = d ++ pairs := by
    intro pairs
    induction pairs with
    | nil => intro d _; simp
    | cons kv pairs ih =>
      intro d hnodup
      have hnot : ∀ x ∈ d, x.1 ≠ kv.1 := by
        intro x hx heq
        rw [List.map_append, List.nodup_append] at hnodup
        exact hnodup.2.2 x.1 (List.mem_map_of_mem hx) kv.1 (by simp) heq
      rw [List.foldl_cons, dictSet_of_not_mem hnot, ih _ (by simpa using hnodup)]
      simp
  exact hfold pairs [] (by simpa using h)

/-- What is written is not empty, so that there is fuel for a first step. -/
theorem readsBack_of_succ {v : Json} (hv : Valid F v)
    (h : ∀ fuel rest, (dumpsWith comma colon v).length ≤ fuel + 1 → Follow rest →
      scanOnce F (fuel + 1) (dumpsWith comma colon v ++ rest) = some (v, rest)) :
    ReadsBack F comma colon v := by
  intro fuel rest hfuel hrest
  obtain ⟨c, s, heq, -⟩ : Opens (dumpsWith comma colon v) := opens_dumpsWith hv
  cases fuel with
  | zero => simp [heq] at hfuel
  | succ fuel => exact h fuel rest hfuel hrest

/-- A float is read back: the three that JSON has no numbers for, and those that are numbers. -/
theorem readsBack_float {repr : Str} (hv : Valid F (.float repr))
    (h : repr = ("nan" : Str) ∨ repr = ("inf" : Str) ∨ repr = ("-inf" : Str) ∨ F.repr repr = repr) :
    ReadsBack F comma colon (.float repr) := by
  refine readsBack_of_succ hv fun fuel rest _ hrest => ?_
  by_cases hnan : repr = ("nan" : Str)
  · subst hnan; rfl
  by_cases hinf : repr = ("inf" : Str)
  · subst hinf; rfl
  by_cases hninf : repr = ("-inf" : Str)
  · subst hninf; rfl
  have hrepr : F.repr repr = repr := by
    rcases h with h | h | h | h
    · exact absurd h hnan
    · exact absurd h hinf
    · exact absurd h hninf
    · exact h
  obtain ⟨sign, digits, fraction, hne, heq, hscan⟩ := scan_floatText hrepr hinf hninf hrest
  rw [dumpsWith, floatText, if_neg hnan, if_neg hinf, if_neg hninf, scanOnce_number fuel hscan,
    numberValue, if_pos hne, ← heq, hrepr]
  rfl

/-- **One value.** -/
theorem readsBack_of_valid (hcomma : IsSeparator ',' comma)
    (hcolon : IsSeparator ':' colon) {v : Json}
    (h : Valid F v) : ReadsBack F comma colon v := by
  induction h with
  | null => exact readsBack_of_succ .null fun _ _ _ _ => rfl
  | bool b =>
    refine readsBack_of_succ (.bool b) fun _ _ _ _ => ?_
    cases b <;> rfl
  | int n h =>
    refine readsBack_of_succ (.int n h) fun fuel rest _ hrest => ?_
    rw [dumpsWith, scanOnce_number fuel (scanNumber_str n hrest), numberValue_str n h]
    rfl
  | float repr h => exact readsBack_float (.float repr h) h
  | str s =>
    refine readsBack_of_succ (.str s) fun fuel rest _ _ => ?_
    rw [dumpsWith, quote, List.cons_append, List.append_assoc, scanOnce]
    simp only [List.cons_append, List.nil_append, scanString_quoted]
    rfl
  | list items h ih =>
    refine readsBack_of_succ (.list items h) fun fuel rest hfuel _ => ?_
    cases items with
    | nil => rfl
    | cons v items =>
      simp only [dumpsWith, List.length_cons] at hfuel
      obtain ⟨c, s, heq, hspace, hclose, -⟩ : Opens (dumpsWith comma colon v) :=
        opens_dumpsWith (h v List.mem_cons_self)
      have hscan := scanItems_dumps rest hcomma (fun w hw => ⟨h w hw, ih w hw⟩)
        (show _ ≤ fuel by omega)
      rw [heq, List.cons_append] at hscan
      rw [dumpsWith, heq, List.cons_append, List.append_assoc, scanOnce, List.cons_append,
        skip_cons hspace]
      split
      · next hhead => exact absurd (List.cons.inj hhead).1 hclose
      · rw [hscan]
        rfl
  | dict members hkeys h ih =>
    refine readsBack_of_succ (.dict members hkeys h) fun fuel rest hfuel _ => ?_
    cases members with
    | nil => rfl
    | cons kv members =>
      obtain ⟨k, v⟩ := kv
      simp only [dumpsWith, List.length_cons] at hfuel
      have hscan := scanMembers_dumps rest hcomma hcolon
        (fun kv hkv => ⟨h kv hkv, ih kv hkv⟩) (show _ ≤ fuel by omega)
      simp only [quote, List.cons_append, List.append_assoc] at hscan
      simp only [dumpsWith, quote, List.cons_append, List.append_assoc]
      rw [scanOnce, skip_cons (show isJsonSpace '"' = false from rfl)]
      show (scanMembers F fuel _).map _ = _
      rw [hscan, Option.map_some, ofPairs_of_nodup hkeys]

/-- **Round trip.** What is written with either kind of separators is read back. -/
theorem loads_dumpsWith (hcomma : IsSeparator ',' comma) (hcolon : IsSeparator ':' colon) {v : Json}
    (h : Valid F v) : loads F (dumpsWith comma colon v) = .ok v := by
  have hread := readsBack_of_valid hcomma hcolon h _ [] (le_refl _) follow_nil
  have hopens : Opens (dumpsWith comma colon v) := opens_dumpsWith h
  have hskip : skip (dumpsWith comma colon v ++ []) = dumpsWith comma colon v ++ [] := hopens.skip
  rw [List.append_nil] at hread hskip
  unfold loads
  rw [hskip, hread]
  obtain ⟨c, s, heq, -, -, hmark⟩ := hopens
  have hhead : (dumpsWith comma colon v).head? ≠ some '\ufeff' := by
    rw [heq]
    exact fun h => hmark (Option.some.inj h)
  rw [if_neg hhead]
  rfl

/-- What `dumps` writes, `loads` reads back. -/
theorem loads_dumps {v : Json} (h : Valid F v) : loads F (dumps v) = .ok v :=
  loads_dumpsWith ⟨[' '], rfl, rfl⟩ ⟨[' '], rfl, rfl⟩ h

end RoundTrip

/-! ### What is read is valid -/

section Valid

variable {F : FloatRepr}

theorem ofDigitChars_lt {ds : Str} (h : ds.all Char.isDigit = true) :
    Nat.ofDigitChars 10 ds 0 < 10 ^ ds.length := by
  induction ds with
  | nil => decide
  | cons c ds ih =>
    rw [List.all_cons, Bool.and_eq_true] at h
    have hc : c.toNat - '0'.toNat ≤ 9 := by
      have hdigit := h.1
      simp only [Char.isDigit, Bool.and_eq_true, decide_eq_true_eq] at hdigit
      have htop : c.toNat ≤ 57 := hdigit.2
      show c.toNat - 48 ≤ 9
      omega
    have hmul : 10 ^ ds.length * (10 * 0 + (c.toNat - '0'.toNat)) ≤ 10 ^ ds.length * 9 :=
      Nat.mul_le_mul_left _ (by omega)
    rw [Nat.ofDigitChars_cons, Nat.ofDigitChars_eq_ofDigitChars_zero,
      List.length_cons, Nat.pow_succ]
    have hlt := ih h.2
    omega

theorem all_digits_of_scanNumber {s sign digits fraction rest : Str}
    (h : scanNumber s = some (sign, digits, fraction, rest)) : digits.all Char.isDigit = true := by
  have hnatural : ∀ {s digits rest : Str}, scanNatural s = some (digits, rest) →
      digits.all Char.isDigit = true := by
    intro s digits rest h
    unfold scanNatural at h
    split at h
    · obtain ⟨rfl, -⟩ := Prod.mk.inj (Option.some.inj h)
      rfl
    · next c s _ =>
      split at h
      · next hc =>
        obtain ⟨rfl, -⟩ := Prod.mk.inj (Option.some.inj h)
        rw [List.all_cons, hc, Bool.true_and]
        exact List.all_takeWhile
      · cases h
    · cases h
  have hunsigned : ∀ {s digits fraction rest : Str},
      scanUnsigned s = some (digits, fraction, rest) → digits.all Char.isDigit = true := by
    intro s digits fraction rest h
    unfold scanUnsigned at h
    split at h
    · cases h
    · next hs =>
      obtain ⟨rfl, -⟩ := Prod.mk.inj (Option.some.inj h)
      exact hnatural hs
  unfold scanNumber at h
  split at h
  · obtain ⟨x, hx, heq⟩ := Option.map_eq_some_iff.mp h
    obtain ⟨-, rfl⟩ := Prod.mk.inj heq
    exact hunsigned hx
  · obtain ⟨x, hx, heq⟩ := Option.map_eq_some_iff.mp h
    obtain ⟨-, rfl⟩ := Prod.mk.inj heq
    exact hunsigned hx

theorem valid_numberValue {sign digits fraction : Str} {v : Json}
    (hdigits : digits.all Char.isDigit = true) (h : numberValue F sign digits fraction = some v) :
    Valid F v := by
  unfold numberValue at h
  split at h
  · obtain rfl := Option.some.inj h
    exact .float _ (.inr (.inr (.inr (F.repr_repr _))))
  · split at h
    · next hlength =>
      have hvalid : ∀ n : ℤ, n.natAbs = Nat.ofDigitChars 10 digits 0 → Valid F (.int n) := by
        intro n hn
        refine .int n ((Nat.length_toDigits_le_iff (by omega) (by decide)).mpr ?_)
        rw [hn]
        exact lt_of_lt_of_le (ofDigitChars_lt hdigits) (Nat.pow_le_pow_right (by omega) hlength)
      obtain rfl := Option.some.inj h
      split
      · exact hvalid _ (Int.natAbs_natCast _)
      · exact hvalid _ (by rw [Int.natAbs_neg, Int.natAbs_natCast])
    · cases h

theorem keys_dictSet (d : List (Str × Json)) (k : Str) (v : Json) :
    (dictSet d k v).map Prod.fst = if k ∈ d.map Prod.fst then d.map Prod.fst
    else d.map Prod.fst ++ [k] := by
  unfold dictSet
  have hany : d.any (·.1 == k) = true ↔ k ∈ d.map Prod.fst := by
    simp only [List.any_eq_true, List.mem_map, beq_iff_eq]
  by_cases hk : k ∈ d.map Prod.fst
  · rw [if_pos (hany.mpr hk), if_pos hk, List.map_map]
    refine List.map_congr_left fun kv _ => ?_
    by_cases heq : kv.1 = k <;> simp [heq]
  · rw [if_neg (mt hany.mp hk), if_neg hk]
    simp

theorem mem_dictSet {d : List (Str × Json)} {k : Str} {v : Json} {kv : Str × Json}
    (h : kv ∈ dictSet d k v) : kv ∈ d ∨ kv = (k, v) := by
  unfold dictSet at h
  split at h
  · obtain ⟨x, hx, rfl⟩ := List.mem_map.mp h
    split
    · exact .inr rfl
    · exact .inl hx
  · simpa using h

/-- Setting a member keeps a dictionary valid. -/
theorem valid_dictSet {d : List (Str × Json)} {k : Str} {v : Json} (hd : Valid F (.dict d))
    (hv : Valid F v) : Valid F (.dict (dictSet d k v)) := by
  cases hd with
  | dict _ hkeys hvalues =>
    refine .dict _ ?_ fun kv hkv => ?_
    · rw [keys_dictSet]
      split
      · exact hkeys
      · next hk =>
        refine List.nodup_append.mpr ⟨hkeys, by simp, fun a ha b hb heq => ?_⟩
        rw [List.mem_singleton] at hb
        exact hk (hb ▸ heq ▸ ha)
    · rcases mem_dictSet hkv with hkv | rfl
      · exact hvalues kv hkv
      · exact hv

theorem valid_ofPairs {pairs : List (Str × Json)} (h : ∀ kv ∈ pairs, Valid F kv.2) :
    Valid F (.dict (ofPairs pairs)) := by
  have hfold : ∀ (pairs d : List (Str × Json)), Valid F (.dict d) → (∀ kv ∈ pairs, Valid F kv.2) →
      Valid F (.dict (pairs.foldl (fun d kv => dictSet d kv.1 kv.2) d)) := by
    intro pairs
    induction pairs with
    | nil => exact fun d hd _ => hd
    | cons kv pairs ih =>
      intro d hd hpairs
      exact ih _ (valid_dictSet hd (hpairs kv List.mem_cons_self))
        fun x hx => hpairs x (List.mem_cons_of_mem _ hx)
  exact hfold pairs [] (.dict [] List.nodup_nil nofun) h

theorem map_fst_eq_some {α β : Type} {f : α → β} {o : Option (α × Str)} {y : β} {rest : Str}
    (h : (o.map fun x => (f x.1, x.2)) = some (y, rest)) : ∃ x, o = some (x, rest) ∧ f x = y := by
  obtain ⟨x, hx, heq⟩ := Option.map_eq_some_iff.mp h
  obtain ⟨hy, hrest⟩ := Prod.mk.inj heq
  exact ⟨x.1, by rw [hx, ← hrest], hy⟩

/-- One scanner each, when the ones it calls read valid values. -/
theorem valid_scanOnce {fuel : ℕ} {s rest : Str} {v : Json}
    (hmembers : ∀ s members rest, scanMembers F fuel s = some (members, rest) →
      ∀ kv ∈ members, Valid F kv.2)
    (hitems : ∀ s items rest, scanItems F fuel s = some (items, rest) → ∀ v ∈ items, Valid F v)
    (h : scanOnce F (fuel + 1) s = some (v, rest)) : Valid F v := by
  unfold scanOnce at h
  split at h
  · obtain ⟨x, -, rfl⟩ := map_fst_eq_some h
    exact .str x
  · split at h
    · obtain ⟨rfl, -⟩ := Prod.mk.inj (Option.some.inj h)
      exact .dict [] List.nodup_nil nofun
    · obtain ⟨x, hx, rfl⟩ := map_fst_eq_some (f := fun x => Json.dict (ofPairs x)) h
      exact valid_ofPairs (hmembers _ x _ hx)
  · split at h
    · obtain ⟨rfl, -⟩ := Prod.mk.inj (Option.some.inj h)
      exact .list [] nofun
    · obtain ⟨x, hx, rfl⟩ := map_fst_eq_some h
      exact .list x (hitems _ x _ hx)
  · obtain ⟨rfl, -⟩ := Prod.mk.inj (Option.some.inj h)
    exact .null
  · obtain ⟨rfl, -⟩ := Prod.mk.inj (Option.some.inj h)
    exact .bool true
  · obtain ⟨rfl, -⟩ := Prod.mk.inj (Option.some.inj h)
    exact .bool false
  · obtain ⟨rfl, -⟩ := Prod.mk.inj (Option.some.inj h)
    exact .float _ (.inl rfl)
  · obtain ⟨rfl, -⟩ := Prod.mk.inj (Option.some.inj h)
    exact .float _ (.inr (.inl rfl))
  · obtain ⟨rfl, -⟩ := Prod.mk.inj (Option.some.inj h)
    exact .float _ (.inr (.inr (.inl rfl)))
  · split at h
    · next hscan =>
      obtain ⟨w, hw, heq⟩ := Option.map_eq_some_iff.mp h
      obtain ⟨rfl, -⟩ := Prod.mk.inj heq
      exact valid_numberValue (all_digits_of_scanNumber hscan) hw
    · cases h

theorem valid_scanMembers {fuel : ℕ} {s rest : Str} {members : List (Str × Json)}
    (hvalue : ∀ s v rest, scanOnce F fuel s = some (v, rest) → Valid F v)
    (hmembers : ∀ s members rest, scanMembers F fuel s = some (members, rest) →
      ∀ kv ∈ members, Valid F kv.2)
    (h : scanMembers F (fuel + 1) s = some (members, rest)) : ∀ kv ∈ members, Valid F kv.2 := by
  unfold scanMembers at h
  split at h
  · split at h
    · cases h
    · split at h
      · split at h
        · cases h
        · next hv =>
          split at h
          · obtain ⟨x, hx, rfl⟩ := map_fst_eq_some h
            rw [List.forall_mem_cons]
            exact ⟨hvalue _ _ _ hv, hmembers _ _ _ hx⟩
          · obtain ⟨rfl, -⟩ := Prod.mk.inj (Option.some.inj h)
            rw [List.forall_mem_singleton]
            exact hvalue _ _ _ hv
          · cases h
      · cases h
  · cases h

theorem valid_scanItems {fuel : ℕ} {s rest : Str} {items : List Json}
    (hvalue : ∀ s v rest, scanOnce F fuel s = some (v, rest) → Valid F v)
    (hitems : ∀ s items rest, scanItems F fuel s = some (items, rest) → ∀ v ∈ items, Valid F v)
    (h : scanItems F (fuel + 1) s = some (items, rest)) : ∀ v ∈ items, Valid F v := by
  unfold scanItems at h
  split at h
  · cases h
  · next hv =>
    split at h
    · obtain ⟨x, hx, rfl⟩ := map_fst_eq_some h
      rw [List.forall_mem_cons]
      exact ⟨hvalue _ _ _ hv, hitems _ _ _ hx⟩
    · obtain ⟨rfl, -⟩ := Prod.mk.inj (Option.some.inj h)
      rw [List.forall_mem_singleton]
      exact hvalue _ _ _ hv
    · cases h

/-- The three scanners, by induction on the bound. -/
theorem valid_scan (fuel : ℕ) :
    (∀ s v rest, scanOnce F fuel s = some (v, rest) → Valid F v) ∧
      (∀ s members rest, scanMembers F fuel s = some (members, rest) →
        ∀ kv ∈ members, Valid F kv.2) ∧
      ∀ s items rest, scanItems F fuel s = some (items, rest) → ∀ v ∈ items, Valid F v := by
  induction fuel with
  | zero => exact ⟨nofun, nofun, nofun⟩
  | succ fuel ih =>
    obtain ⟨hvalue, hmembers, hitems⟩ := ih
    exact ⟨fun s v rest h => valid_scanOnce hmembers hitems h,
      fun s members rest h => valid_scanMembers hvalue hmembers h,
      fun s items rest h => valid_scanItems hvalue hitems h⟩

/-- What `loads` reads is valid. -/
theorem valid_of_loads {s : Str} {v : Json} (h : loads F s = .ok v) : Valid F v := by
  unfold loads at h
  split at h
  · cases h
  · split at h
    · next hscan =>
      split at h
      · obtain rfl := Except.ok.inj h
        exact (valid_scan _).1 _ _ _ hscan
      · cases h
    · cases h

end Valid

end ProxyCache.Python.JsonText
