import ProxyCache.Lib.Raising
import ProxyCache.Lib.Text
import Mathlib.Data.Nat.Notation
import Mathlib.Data.Int.Notation

/-!
# Python's strings and integers

A `str` is the list of its code points. A `Char` is never a surrogate, so some
characters stand for lone ones (`Unicode.surrogate`), which UTF-8 cannot encode.
The classes of characters are Python's (`str.isspace`, the decimal digits of `int`
and of `\d`). What needs the full Unicode tables (`str.lower` and NFKC beyond ASCII)
is a parameter: on ASCII text CPython takes the short cut that is written out here.
-/

namespace ProxyCache.Python

open ProxyCache.Lib

/-- A Python `str`. -/
abbrev Str := List Char

instance : Coe String Str := ⟨String.toList⟩

instance : LawfulBEq Str := inferInstance

/-- What is said of the characters of a text is checked on these, not on all characters there
are. -/
instance (priority := 2000) (p : Char → Prop) [DecidablePred p] (text : Str) :
    Decidable (∀ c ∈ text, p c) :=
  List.decidableBAll p text

/-- A Python `bytes`. -/
abbrev Bytes := List UInt8

/-- The exceptions that the modelled code raises or catches by class; `other` are those that it
neither raises nor names, such as `ParserRejectedMarkup`. -/
inductive Raised where
  | valueError
  | typeError
  | keyError
  | attributeError
  | other
  deriving DecidableEq, Repr

/-! ## Characters -/

/-- `str.isspace` of one character; also what `\s` matches. -/
def isSpace (c : Char) : Bool :=
  [0x9, 0xa, 0xb, 0xc, 0xd, 0x1c, 0x1d, 0x1e, 0x1f, 0x20, 0x85, 0xa0, 0x1680, 0x2000, 0x2001,
    0x2002, 0x2003, 0x2004, 0x2005, 0x2006, 0x2007, 0x2008, 0x2009, 0x200a, 0x2028, 0x2029,
    0x202f, 0x205f, 0x3000].contains c.toNat

/-- The zeros of Unicode's decimal digit systems; each is followed by its one to
nine. -/
def decimalZeros : List ℕ :=
  [48, 1632, 1776, 1984, 2406, 2534, 2662, 2790, 2918, 3046, 3174, 3302, 3430, 3558, 3664, 3792,
    3872, 4160, 4240, 6112, 6160, 6470, 6608, 6784, 6800, 6992, 7088, 7232, 7248, 42528, 43216,
    43264, 43472, 43504, 43600, 44016, 65296, 66720, 68912, 69734, 69872, 69942, 70096, 70384,
    70736, 70864, 71248, 71360, 71472, 71904, 72016, 72784, 73040, 73120, 92768, 92864, 93008,
    120782, 120792, 120802, 120812, 120822, 123200, 123632, 125264, 130032]

/-- The value of a decimal digit; also what `\d` matches. -/
def decimal (c : Char) : Option ℕ :=
  (decimalZeros.find? fun z => z ≤ c.toNat && c.toNat < z + 10).map (c.toNat - ·)

def isDecimal (c : Char) : Bool := (decimal c).isSome

def isAscii (c : Char) : Bool := c.toNat < 128

/-! ## Strings -/

def lstrip (s : Str) : Str := s.dropWhile isSpace

def rstrip (s : Str) : Str := (s.reverse.dropWhile isSpace).reverse

/-- `s.strip()`. -/
def strip (s : Str) : Str := rstrip (lstrip s)

/-- `s.rstrip(c)`. -/
def rstripChar (c : Char) (s : Str) : Str := (s.reverse.dropWhile (· == c)).reverse

/-- `needle in s`. -/
def contains (needle s : Str) : Bool := s.tails.any fun t => needle.isPrefixOf t

/-- The parts of the Unicode database that are taken as given. -/
structure Unicode where
  /-- `str.lower` of a string that is not all ASCII. -/
  lower : Str → Str
  /-- `str.isalnum` of one character that is not ASCII. -/
  alnum : Char → Bool
  /-- `unicodedata.normalize('NFKC', s)`. -/
  nfkc : Str → Str
  /-- The characters that stand for lone surrogates. -/
  surrogate : Char → Bool

/-- Texts of ASCII characters need no tables. -/
def asciiOnly : Unicode := ⟨id, fun _ => false, id, fun _ => false⟩

/-- `s.encode()` does not raise a `UnicodeEncodeError`. -/
def encodable (U : Unicode) (s : Str) : Bool := s.all fun c => !U.surrogate c

@[simp] theorem encodable_asciiOnly (s : Str) : encodable asciiOnly s = true :=
  List.all_eq_true.mpr fun _ _ => rfl

/-- `str(n)`. -/
def str (n : ℤ) : Str := (toString n).toList

/-- `s.lower()`. -/
def lower (U : Unicode) (s : Str) : Str :=
  if s.all isAscii then s.map Char.toLower else U.lower s

/-- What `\w` matches. -/
def isWordChar (U : Unicode) (c : Char) : Bool :=
  if isAscii c then c.isAlphanum || c == '_' else U.alnum c

theorem lower_ascii (U : Unicode) {s : Str} (h : s.all isAscii) :
    lower U s = s.map Char.toLower := if_pos h

/-! ## Matching without regard to case -/

/-- `c` matches the lower-case ASCII character `p` under `re.IGNORECASE`. -/
def matchesChar (p c : Char) : Bool :=
  c.toLower == p || (p == 'i' && (c == 'İ' || c == 'ı')) || (p == 's' && c == 'ſ') ||
    (p == 'k' && c.toNat == 0x212a)

/-- The part of `s` that matches the lower-case ASCII `word`, and what follows. -/
def matchWord : Str → Str → Option (Str × Str)
  | [], s => some ([], s)
  | _ :: _, [] => none
  | p :: word, c :: s =>
    if matchesChar p c then (matchWord word s).map fun (m, rest) => (c :: m, rest) else none

/-! ## Integers -/

/-- `int` refuses more than 4300 digits. -/
def intMaxStrDigits : ℕ := 4300

def ofDigits (ds : List ℕ) : ℕ := ds.foldl (fun n d => 10 * n + d) 0

/-- `int(ds)` of a run of decimal digits. -/
def intOfDigits (ds : Str) : Option ℕ :=
  if ds.length ≤ intMaxStrDigits then (ds.mapM decimal).map ofDigits else none

/-- The digits of an integer literal; single underscores may stand between
two digits. -/
def literalDigits : Str → Option Str
  | [] => none
  | [c] => if isDecimal c then some [c] else none
  | c :: '_' :: rest => if isDecimal c then (literalDigits rest).map (c :: ·) else none
  | c :: rest => if isDecimal c then (literalDigits rest).map (c :: ·) else none

/-- `int(s)`; `none` stands for the `ValueError`. -/
def int (s : Str) : Option ℤ :=
  match strip s with
  | '+' :: ds => ((literalDigits ds).bind intOfDigits).map (Int.ofNat ·)
  | '-' :: ds => ((literalDigits ds).bind intOfDigits).map (- Int.ofNat ·)
  | ds => ((literalDigits ds).bind intOfDigits).map (Int.ofNat ·)

example : int (" 1_0 " : Str) = some 10 := by decide
example : int ("-7" : Str) = some (-7) := by decide
example : int ("1__0" : Str) = none := by decide

/-! ### Numbers that were written -/

theorem toDigits_all (n : ℕ) : (Nat.toDigits 10 n).all Char.isDigit = true := by
  rw [List.all_eq_true]
  intro c hc
  exact Nat.isDigit_of_mem_toDigits (by omega) (by omega) hc

theorem str_natCast (n : ℕ) : str n = Nat.toDigits 10 n := Nat.toList_repr

/-- The ASCII digits are decimal digits. -/
theorem decimal_of_isDigit {c : Char} (h : c.isDigit = true) :
    decimal c = some (c.toNat - '0'.toNat) := by
  obtain ⟨hlo, hhi⟩ : 48 ≤ c.toNat ∧ c.toNat ≤ 57 := by
    simpa [Char.isDigit, UInt32.le_iff_toNat_le] using h
  have hzero : (decide (48 ≤ c.toNat) && decide (c.toNat < 48 + 10)) = true := by
    simpa using ⟨hlo, by omega⟩
  rw [decimal, show decimalZeros = 48 :: decimalZeros.tail from rfl, List.find?_cons, hzero]
  rfl

/-- A run of ASCII digits that is not too long. -/
theorem intOfDigits_of_isDigit {ds : Str} (h : ds.all Char.isDigit = true)
    (hlength : ds.length ≤ intMaxStrDigits) : intOfDigits ds = some (Nat.ofDigitChars 10 ds 0) := by
  have hmap : ∀ {ds : Str}, (∀ c ∈ ds, c.isDigit = true) →
      ds.mapM decimal = some (ds.map fun c => c.toNat - '0'.toNat) := by
    intro ds
    induction ds with
    | nil => exact fun _ => rfl
    | cons c ds ih =>
      intro hall
      rw [List.mapM_cons, decimal_of_isDigit (hall c List.mem_cons_self),
        ih fun d hd => hall d (List.mem_cons_of_mem c hd)]
      rfl
  rw [intOfDigits, if_pos hlength, hmap (List.all_eq_true.mp h), Nat.ofDigitChars_eq_foldl]
  exact congrArg some List.foldl_map

theorem isAscii_of_isDigit {c : Char} (h : c.isDigit = true) : isAscii c = true := by
  obtain ⟨-, hhi⟩ : 48 ≤ c.toNat ∧ c.toNat ≤ 57 := by
    simpa [Char.isDigit, UInt32.le_iff_toNat_le] using h
  exact decide_eq_true (by omega)

/-- What `str` writes is ASCII. -/
theorem str_ascii (n : ℤ) : (str n).all isAscii = true := by
  have hdigits : ∀ n : ℕ, (Nat.toDigits 10 n).all isAscii = true := fun n =>
    List.all_eq_true.mpr fun c hc => isAscii_of_isDigit (List.all_eq_true.mp (toDigits_all n) c hc)
  cases n with
  | ofNat n =>
    rw [show Int.ofNat n = (n : ℤ) from rfl, str_natCast]
    exact hdigits n
  | negSucc n =>
    have hneg : str (Int.negSucc n) = '-' :: Nat.toDigits 10 (n + 1) := by
      show ("-" ++ (n + 1).repr).toList = _
      rw [String.toList_append, Nat.toList_repr]
      rfl
    rw [hneg, List.all_cons, hdigits]
    rfl

/-- What `str` writes is read back. -/
theorem intOfDigits_str {n : ℕ} (h : (Nat.toDigits 10 n).length ≤ intMaxStrDigits) :
    intOfDigits (str n) = some n := by
  rw [str_natCast, intOfDigits_of_isDigit (toDigits_all n) h, Nat.ofDigitChars_ten_toDigits]

end ProxyCache.Python
