import Mathlib.Data.Int.Notation
import Mathlib.Data.Nat.Notation
import Mathlib.Algebra.Order.Group.Int

/-!
# Lua chunks over a state

The part of Lua that short server-side scripts are written in: the values a call
returns and an array of strings holds, truth, 1-based indexing that yields `nil`
outside the array, `tonumber`, and the numeric `for` with `return` in its body.
A chunk may raise an error, which keeps what it has done to the state.
-/

namespace ProxyCache.Lib.Lua

inductive Value where
  | nil
  | bool (b : Bool)
  | num (n : ℤ)
  | str (s : List Char)
  deriving DecidableEq

/-- Only `nil` and `false` are false. -/
def Value.truthy : Value → Bool
  | .nil => false
  | .bool b => b
  | _ => true

/-- `t[i]` of an array of strings. -/
def index (t : List (List Char)) (i : ℤ) : Value :=
  if 1 ≤ i then
    match t[(i - 1).toNat]? with
    | some s => .str s
    | none => .nil
  else .nil

/-- A decimal integer, as strings spell it. -/
def decimalValue (s : List Char) : Option ℤ :=
  match s with
  | '-' :: ds =>
    if ds ≠ [] ∧ ds.all Char.isDigit then some (-(Nat.ofDigitChars 10 ds 0 : ℤ)) else none
  | ds => if ds ≠ [] ∧ ds.all Char.isDigit then some (Nat.ofDigitChars 10 ds 0 : ℤ) else none

/-! ## Chunks -/

/-- A chunk over the state `σ`; `none` is a raised error. -/
structure Chunk (σ α : Type) where
  run : σ → Option α × σ

namespace Chunk

variable {σ α β : Type}

instance : Monad (Chunk σ) where
  pure a := ⟨fun s => (some a, s)⟩
  bind x f := ⟨fun s =>
    match x.run s with
    | (some a, s') => (f a).run s'
    | (none, s') => (none, s')⟩

/-- `error()`. -/
def error : Chunk σ α := ⟨fun s => (none, s)⟩

@[simp] theorem run_pure (a : α) (s : σ) : (pure a : Chunk σ α).run s = (some a, s) := rfl

/-- The rule of sequencing. -/
theorem bind_of_some {x : Chunk σ α} {f : α → Chunk σ β} {a : α} {s s' : σ}
    (h : x.run s = (some a, s')) : (x >>= f).run s = (f a).run s' := by
  show (match x.run s with | (some a, s') => (f a).run s' | (none, s') => (none, s')) = _
  rw [h]

end Chunk

variable {σ α : Type}

/-- The rounds of a numeric `for`, from `i` on. -/
def rounds (body : ℤ → Chunk σ (Option α)) : ℕ → ℤ → Chunk σ (Option α)
  | 0, _ => pure none
  | n + 1, i => do
    match ← body i with
    | some a => return some a
    | none => rounds body n (i + 1)

/-- `for i = first, last do body end`; a body that returns ends the chunk with
its value. -/
def numericFor (first last : ℤ) (body : ℤ → Chunk σ (Option α)) : Chunk σ (Option α) :=
  rounds body (last + 1 - first).toNat first

/-- `tonumber`. -/
def tonumber : Value → Chunk σ ℤ
  | .num n => pure n
  | .str s =>
    match decimalValue s with
    | some n => pure n
    | none => Chunk.error
  | _ => Chunk.error

/-! ## Rules -/

section Rules

variable {body : ℤ → Chunk σ (Option α)} {s : σ} {n : ℕ} {i : ℤ}

/-- A round that returns ends the loop. -/
theorem rounds_return {s' : σ} {a : α} (h : (body i).run s = (some (some a), s')) :
    (rounds body (n + 1) i).run s = (some (some a), s') := by
  rw [rounds, Chunk.bind_of_some h]
  rfl

/-- A round that does not return leads to the next. -/
theorem rounds_next {s' : σ} (h : (body i).run s = (some none, s')) :
    (rounds body (n + 1) i).run s = (rounds body n (i + 1)).run s' := by
  rw [rounds, Chunk.bind_of_some h]

theorem numericFor_one (n : ℕ) : numericFor 1 (n : ℤ) body = rounds body n 1 := by
  have : ((n : ℤ) + 1 - 1).toNat = n := by omega
  rw [numericFor, this]

theorem index_append_right {t t' : List (List Char)} {i : ℤ} (h : (t.length : ℤ) < i) :
    index (t ++ t') i = index t' (i - t.length) := by
  have hpos : 1 ≤ i := by omega
  have hpos' : 1 ≤ i - t.length := by omega
  have hle : t.length ≤ (i - 1).toNat := by omega
  have hsub : (i - 1).toNat - t.length = (i - t.length - 1).toNat := by omega
  simp only [index, if_pos hpos, if_pos hpos', List.getElem?_append_right hle, hsub]

end Rules

/-- `tonumber` reads back what a number is spelt as. -/
theorem decimalValue_repr (n : ℕ) : decimalValue (Nat.repr n).toList = some (n : ℤ) := by
  have hall : (Nat.toDigits 10 n).all Char.isDigit = true := by
    rw [List.all_eq_true]
    intro c hc
    exact Nat.isDigit_of_mem_toDigits (by omega) (by omega) hc
  have hne : Nat.toDigits 10 n ≠ [] := Nat.toDigits_ne_nil
  have hvalue : Nat.ofDigitChars 10 (Nat.toDigits 10 n) 0 = n := Nat.ofDigitChars_ten_toDigits
  rw [Nat.toList_repr]
  unfold decimalValue
  split
  · next ds heq =>
    -- a minus sign is no digit
    rw [heq] at hall
    simp at hall
  · rw [if_pos ⟨hne, hall⟩, hvalue]

end ProxyCache.Lib.Lua
