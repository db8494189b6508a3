import ProxyCache.App.WheelMetadata
import ProxyCache.Lib.LittleEndian
import Mathlib.Tactic.IntervalCases

/-!
# Origins that answer range requests

What a correct answer to a range request is, and a server that gives it.
-/

namespace ProxyCache.Theorems.WheelExtraction

open ProxyCache.Lib ProxyCache.Python ProxyCache.App.WheelMetadata

/-! ## Correct answers -/

/-- A 206 with the bytes from `start` to `stop`, in any chunks. -/
structure AnswersPart (response : OriginResponse) (A : Bytes) (start stop : ℕ) : Prop where
  status : response.status = 206
  range : ∃ first last total, matchContentRange (strip (response.contentRange.getD [])) =
      some (first, last, total) ∧
    intOfDigits first = some start ∧ intOfDigits last = some stop ∧
    intOfDigits total = some A.length
  length : ∀ value ∈ response.contentLength, int value = some ((stop - start + 1 : ℕ) : ℤ)
  body : response.chunks.flatten = part A start (stop - start + 1)

/-- A 200 with everything. -/
structure AnswersWhole (response : OriginResponse) (A : Bytes) : Prop where
  status : response.status = 200
  length : ∀ value ∈ response.contentLength, int value = some (A.length : ℤ)
  body : response.chunks.flatten = A

/-- The origin serves `A` under the URL and answers range requests correctly: a
suffix that covers all of `A` may be answered with a 200, and of an empty `A` there
is no part to be sent. -/
structure Serves (U : Unicode) (origin : Origin) (url : Str) (A : Bytes) : Prop where
  identity : ∀ rangeValue, identityEncoded U (origin url rangeValue) = true
  suffix : ∀ n, 0 < n → A ≠ [] →
    AnswersPart (origin url (suffixRange n)) A (A.length - n) (A.length - 1) ∨
      A.length ≤ n ∧ AnswersWhole (origin url (suffixRange n)) A
  empty : ∀ n, A = [] → (origin url (suffixRange n)).status ≠ 206 ∧
    ((origin url (suffixRange n)).status = 200 → AnswersWhole (origin url (suffixRange n)) A)
  exact : ∀ start stop, start ≤ stop → stop < A.length →
    AnswersPart (origin url (exactRange start (stop - start + 1 : ℕ))) A start stop

/-! ## A server -/

/-- `bytes start-stop/total`. -/
def contentRangeOf (start stop total : ℕ) : Str :=
  ("bytes " : Str) ++ (str start ++ '-' :: (str stop ++ '/' :: str total))

def partOf (A : Bytes) (start stop : ℕ) : OriginResponse where
  status := 206
  contentEncoding := none
  contentLength := none
  contentRange := some (contentRangeOf start stop A.length)
  chunks := [part A start (stop - start + 1)]

def wholeOf (A : Bytes) : OriginResponse where
  status := 200
  contentEncoding := none
  contentLength := none
  contentRange := none
  chunks := [A]

/-- A server that holds `A` under every URL, and sends all of it for a suffix that
is as long. -/
def serving (A : Bytes) : Origin := fun _ rangeValue =>
  match cut '-' (rangeValue.drop 6) with
  | ([], some last) =>
    if A.length ≤ Nat.ofDigitChars 10 last 0 then wholeOf A
    else partOf A (A.length - Nat.ofDigitChars 10 last 0) (A.length - 1)
  | (first, some last) => partOf A (Nat.ofDigitChars 10 first 0) (Nat.ofDigitChars 10 last 0)
  | (_, none) => wholeOf A

section Serving

variable {n start stop total : ℕ}

/-- No separator is among the digits of a number. -/
theorem not_mem_str {c : Char} (h : c.isDigit = false) : c ∉ str n := by
  intro hmem
  rw [str_natCast] at hmem
  have hdigit := List.all_eq_true.mp (toDigits_all n) c hmem
  rw [h] at hdigit
  cases hdigit

theorem str_ne_nil : str n ≠ [] := by
  rw [str_natCast]
  exact Nat.toDigits_ne_nil

theorem all_isDecimal_str : (str n).all isDecimal = true := by
  rw [List.all_eq_true]
  intro c hc
  rw [str_natCast] at hc
  rw [isDecimal, decimal_of_isDigit (List.all_eq_true.mp (toDigits_all n) c hc)]
  rfl

theorem serving_suffix {A : Bytes} {url : Str} : serving A url (suffixRange n) =
    if A.length ≤ n then wholeOf A else partOf A (A.length - n) (A.length - 1) := by
  have hcut : cut '-' ((suffixRange n).drop 6) = ([], some (str n)) := rfl
  rw [serving, hcut]
  dsimp only
  rw [str_natCast, Nat.ofDigitChars_ten_toDigits]

theorem serving_exact {A : Bytes} {url : Str} (h : start ≤ stop) :
    serving A url (exactRange start (stop - start + 1 : ℕ)) = partOf A start stop := by
  have hlast : (start : ℤ) + ((stop - start + 1 : ℕ) : ℤ) - 1 = (stop : ℤ) := by omega
  have hcut : cut '-' ((exactRange start (stop - start + 1 : ℕ)).drop 6) =
      (str start, some (str stop)) := by
    show cut '-' (str start ++ '-' :: str (start + (stop - start + 1 : ℕ) - 1)) = _
    rw [hlast]
    exact cut_append (not_mem_str rfl) (str stop)
  rw [serving, hcut]
  split
  · next heq => exact absurd (Prod.mk.inj heq).1 str_ne_nil
  · next heq =>
    obtain ⟨rfl, hlast⟩ := Prod.mk.inj heq
    obtain rfl := Option.some.inj hlast
    rw [str_natCast, str_natCast, Nat.ofDigitChars_ten_toDigits, Nat.ofDigitChars_ten_toDigits]
  · next heq => cases (Prod.mk.inj heq).2

/-- A digit is no space. -/
theorem isSpace_of_isDigit {c : Char} (h : c.isDigit = true) : isSpace c = false := by
  obtain ⟨hlo, hhi⟩ : 48 ≤ c.toNat ∧ c.toNat ≤ 57 := by
    simpa [Char.isDigit, UInt32.le_iff_toNat_le] using h
  unfold isSpace
  generalize c.toNat = n at hlo hhi ⊢
  interval_cases n <;> decide

/-- Text that ends with a number ends with no space. -/
theorem rstrip_append_str (before : Str) : rstrip (before ++ str n) = before ++ str n := by
  have hreverse : (str n).reverse ≠ [] := by
    rw [ne_eq, List.reverse_eq_nil_iff]
    exact str_ne_nil
  obtain ⟨c, rest, hc⟩ := List.exists_cons_of_ne_nil hreverse
  have hdigit : c.isDigit = true := by
    have hmem : c ∈ str n := by
      rw [← List.mem_reverse, hc]
      exact List.mem_cons_self
    rw [str_natCast] at hmem
    exact List.all_eq_true.mp (toDigits_all n) c hmem
  rw [rstrip, List.reverse_append, hc, List.cons_append,
    List.dropWhile_cons_of_neg (by rw [isSpace_of_isDigit hdigit]; exact Bool.false_ne_true),
    ← List.cons_append, ← hc, ← List.reverse_append, List.reverse_reverse]

/-- The header is read as it was written. -/
theorem matchContentRange_of : matchContentRange (strip (contentRangeOf start stop total)) =
    some (str start, str stop, str total) := by
  have hstrip : strip (contentRangeOf start stop total) = contentRangeOf start stop total := by
    have hends : contentRangeOf start stop total =
        (("bytes " : Str) ++ str start ++ '-' :: str stop ++ ['/']) ++ str total := by
      show ("bytes " : Str) ++ (str start ++ '-' :: (str stop ++ '/' :: str total)) = _
      simp only [List.append_assoc, List.cons_append, List.nil_append]
    have hleft : lstrip (contentRangeOf start stop total) = contentRangeOf start stop total := rfl
    rw [strip, hleft, hends, rstrip_append_str]
  have hspace : contentRangeOf start stop total =
      ("bytes" : Str) ++ ' ' :: (str start ++ '-' :: (str stop ++ '/' :: str total)) := rfl
  rw [hstrip, matchContentRange, hspace, cut_append (by decide)]
  dsimp only
  rw [cut_append (not_mem_str rfl)]
  dsimp only
  rw [cut_append (not_mem_str rfl)]
  dsimp only
  have hunit : isBytesUnit ("bytes" : Str) = true := by decide
  have hgroup : ∀ n : ℕ, (str n != [] && (str n).all isDecimal) = true := by
    intro n
    rw [all_isDecimal_str, Bool.and_true, bne_iff_ne]
    exact str_ne_nil
  have hall : ([str start, str stop, str total].all fun ds => ds != [] && ds.all isDecimal) =
    true := by
    simp only [List.all_cons, List.all_nil, hgroup, Bool.and_self]
  rw [hunit, hall]
  rfl

/-- Numbers up to the size of an archive are read back. -/
theorem intOfDigits_of_le (h : n ≤ maxArchiveSize) : intOfDigits (str n) = some n := by
  have hlength : (Nat.toDigits 10 n).length ≤ 11 := by
    refine (Nat.length_toDigits_le_iff (by omega) (by decide)).mpr ?_
    unfold maxArchiveSize at h
    omega
  exact intOfDigits_str (Nat.le_trans hlength (by decide))

theorem answersPart_partOf {A : Bytes} (hsize : A.length ≤ maxArchiveSize) (hstart : start ≤ stop)
    (hstop : stop < A.length) : AnswersPart (partOf A start stop) A start stop where
  status := rfl
  range := ⟨_, _, _, matchContentRange_of, intOfDigits_of_le
    (by omega), intOfDigits_of_le (by omega),
    intOfDigits_of_le hsize⟩
  length := nofun
  body := List.flatten_singleton

theorem answersWhole_wholeOf (A : Bytes) : AnswersWhole (wholeOf A) A where
  status := rfl
  length := nofun
  body := List.flatten_singleton

/-- A response that names no encoding is not encoded. -/
theorem identityEncoded_of_none {U : Unicode} {response : OriginResponse}
    (h : response.contentEncoding = none) : identityEncoded U response = true := by
  rw [identityEncoded, h]
  rfl

/-- The server answers correctly. -/
theorem serves_serving (U : Unicode) (url : Str) {A : Bytes} (hsize : A.length ≤ maxArchiveSize) :
    Serves U (serving A) url A where
  identity rangeValue := by
    refine identityEncoded_of_none ?_
    unfold serving
    split
    · split <;> rfl
    · rfl
    · rfl
  suffix n hn hne := by
    have hpos : 0 < A.length := List.length_pos_iff.mpr hne
    rw [serving_suffix]
    by_cases hle : A.length ≤ n
    · rw [if_pos hle]
      exact .inr ⟨hle, answersWhole_wholeOf A⟩
    · rw [if_neg hle]
      exact .inl (answersPart_partOf hsize (by omega) (by omega))
  empty n hempty := by
    subst hempty
    rw [serving_suffix, if_pos (show ([] : Bytes).length ≤ n from Nat.zero_le n)]
    exact ⟨by decide, fun _ => answersWhole_wholeOf []⟩
  exact start stop hstart hstop := by
    rw [serving_exact hstart]
    exact answersPart_partOf hsize hstart hstop

end Serving

end ProxyCache.Theorems.WheelExtraction
