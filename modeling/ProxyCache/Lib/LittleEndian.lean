import Mathlib.Algebra.Ring.Nat
import Mathlib.Data.List.Basic

/-!
# Parts of a byte string and little-endian numbers

`part` is a window of a list, given by its start and its length. A number is read
from a window of bytes, least significant byte first, when the window lies inside.
-/

namespace ProxyCache.Lib

section Part

variable {α : Type} {xs ys : List α} {start length : ℕ}

/-- The `length` elements from `start` on, or as many of them as there are. -/
def part (xs : List α) (start length : ℕ) : List α := (xs.drop start).take length

theorem length_part (h : start + length ≤ xs.length) : (part xs start length).length = length := by
  rw [part, List.length_take, List.length_drop]
  omega

/-- A part of a part. -/
theorem part_part {start' length' : ℕ} (h : start' + length' ≤ length) :
    part (part xs start length) start' length' = part xs (start + start') length' := by
  unfold part
  rw [List.drop_take, List.drop_drop, List.take_take]
  congr 1
  omega

theorem part_append_left (h : start + length ≤ xs.length) :
    part (xs ++ ys) start length = part xs start length := by
  unfold part
  rw [List.drop_append_of_le_length (by omega), List.take_append_of_le_length]
  rw [List.length_drop]
  omega

/-- Everything from `start` on. -/
theorem part_eq_drop (h : xs.length ≤ start + length) : part xs start length = xs.drop start := by
  unfold part
  rw [List.take_of_length_le]
  rw [List.length_drop]
  omega

/-- Two parts that adjoin. -/
theorem part_add (n : ℕ) :
    part xs start (n + length) = part xs start n ++ part xs (start + n) length := by
  unfold part
  rw [List.take_add, List.drop_drop]

end Part

section Numbers

variable {data : List UInt8} {n offset : ℕ}

/-- The number that bytes stand for. -/
def littleEndian : List UInt8 → ℕ
  | [] => 0
  | b :: bytes => b.toNat + 256 * littleEndian bytes

theorem littleEndian_lt (bytes : List UInt8) : littleEndian bytes < 256 ^ bytes.length := by
  induction bytes with
  | nil => exact Nat.zero_lt_one
  | cons b bytes ih =>
    have hb : b.toNat < 256 := b.toNat_lt
    rw [littleEndian, List.length_cons, Nat.pow_succ]
    omega

/-- The number in the `n` bytes at `offset`, when there are as many. -/
def readNumber (n : ℕ) (data : List UInt8) (offset : ℕ) : Option ℕ :=
  if offset + n ≤ data.length then some (littleEndian (part data offset n)) else none

theorem readNumber_of_le (h : offset + n ≤ data.length) :
    readNumber n data offset = some (littleEndian (part data offset n)) := if_pos h

end Numbers

/-! ## Writing numbers -/

/-- A number in `n` bytes; what does not fit is lost. -/
def toLittleEndian : ℕ → ℕ → List UInt8
  | 0, _ => []
  | n + 1, value => UInt8.ofNat value :: toLittleEndian n (value / 256)

@[simp] theorem length_toLittleEndian (n value : ℕ) : (toLittleEndian n value).length = n := by
  induction n generalizing value with
  | zero => rfl
  | succ n ih => rw [toLittleEndian, List.length_cons, ih]

theorem littleEndian_toLittleEndian (n value : ℕ) :
    littleEndian (toLittleEndian n value) = value % 256 ^ n := by
  induction n generalizing value with
  | zero => rw [Nat.pow_zero, Nat.mod_one]; rfl
  | succ n ih =>
    have hbyte : (UInt8.ofNat value).toNat = value % 256 := UInt8.toNat_ofNat'
    rw [toLittleEndian, littleEndian, ih, hbyte, Nat.pow_succ', Nat.mod_mul]

/-- Numbers one behind the other, each with its width. -/
def encodeFields (fields : List (ℕ × ℕ)) : List UInt8 :=
  fields.flatMap fun x => toLittleEndian x.1 x.2

theorem encodeFields_cons (field : ℕ × ℕ) (fields : List (ℕ × ℕ)) :
    encodeFields (field :: fields) = toLittleEndian field.1 field.2 ++ encodeFields fields := rfl

theorem length_encodeFields {fields : List (ℕ × ℕ)} {widths : List ℕ}
    (hwidths : fields.map Prod.fst = widths) : (encodeFields fields).length = widths.sum := by
  subst hwidths
  induction fields with
  | nil => rfl
  | cons field fields ih =>
    rw [encodeFields_cons, List.length_append, length_toLittleEndian, ih, List.map_cons,
      List.sum_cons]

/-- The field behind the first ones, in whatever the fields stand in front of. -/
theorem part_encodeFields {fields : List (ℕ × ℕ)} {widths : List ℕ} {i offset width value : ℕ}
    (rest : List UInt8) (hwidths : fields.map Prod.fst = widths)
    (hfield : fields[i]? = some (width, value)) (hoffset : (widths.take i).sum = offset) :
    part (encodeFields fields ++ rest) offset width = toLittleEndian width value := by
  induction fields generalizing i offset widths with
  | nil => cases hfield
  | cons field fields ih =>
    subst hwidths
    cases i with
    | zero =>
      obtain rfl : 0 = offset := hoffset
      obtain rfl := Option.some.inj hfield
      rw [encodeFields_cons, List.append_assoc, part, List.drop_zero]
      exact List.take_left' (length_toLittleEndian _ _)
    | succ i =>
      rw [List.map_cons, List.take_succ_cons, List.sum_cons] at hoffset
      subst hoffset
      rw [encodeFields_cons, List.append_assoc, part, ← List.drop_drop,
        List.drop_left' (length_toLittleEndian _ _)]
      exact ih rfl hfield rfl

end ProxyCache.Lib
