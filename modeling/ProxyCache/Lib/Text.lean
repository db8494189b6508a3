import Mathlib.Data.List.Basic
import Mathlib.Data.Nat.Notation

/-!
# Cutting lists at a separator

`cut a` splits a list at the first `a`, `rcut a` at the last one. Both say
whether there was a separator at all. `pieces n` cuts after every `n` elements.
-/

namespace ProxyCache.Lib

variable {α : Type} [DecidableEq α]

/-- The part before the first `a`, and the part after it when there is one. -/
def cut (a : α) : List α → List α × Option (List α)
  | [] => ([], none)
  | x :: xs => if x = a then ([], some xs) else (x :: (cut a xs).1, (cut a xs).2)

/-- The part before the last `a` when there is one, and the part after it. -/
def rcut (a : α) (xs : List α) : Option (List α) × List α :=
  match cut a xs.reverse with
  | (after, none) => (none, after.reverse)
  | (after, some before) => (some before.reverse, after.reverse)

@[simp] theorem cut_nil (a : α) : cut a [] = ([], none) := rfl

theorem cut_of_not_mem {a : α} {xs : List α} (h : a ∉ xs) : cut a xs = (xs, none) := by
  induction xs with
  | nil => rfl
  | cons x xs ih =>
    obtain ⟨hx, hxs⟩ := not_or.mp (List.mem_cons.not.mp h)
    rw [cut, if_neg (Ne.symm hx), ih hxs]

/-- The cut is at the first separator. -/
theorem cut_append {a : α} {xs : List α} (h : a ∉ xs) (ys : List α) :
    cut a (xs ++ a :: ys) = (xs, some ys) := by
  induction xs with
  | nil => simp [cut]
  | cons x xs ih =>
    obtain ⟨hx, hxs⟩ := not_or.mp (List.mem_cons.not.mp h)
    rw [List.cons_append, cut, if_neg (Ne.symm hx), ih hxs]

theorem not_mem_cut_fst (a : α) (xs : List α) : a ∉ (cut a xs).1 := by
  induction xs with
  | nil => exact List.not_mem_nil
  | cons x xs ih =>
    by_cases h : x = a
    · simp [cut, h]
    · simp [cut, h, ih, Ne.symm h]

/-- What was cut apart goes back together. -/
theorem cut_eq_some {a : α} {xs before after : List α} (h : cut a xs = (before, some after)) :
    xs = before ++ a :: after := by
  induction xs generalizing before with
  | nil => simp at h
  | cons x xs ih =>
    by_cases hx : x = a
    · rw [cut, if_pos hx] at h
      obtain ⟨rfl, rfl⟩ : [] = before ∧ xs = after := by simpa using h
      rw [hx, List.nil_append]
    · rw [cut, if_neg hx] at h
      cases before with
      | nil => simp at h
      | cons b before =>
        obtain ⟨⟨rfl, h₁⟩, h₂⟩ : (x = b ∧ (cut a xs).1 = before) ∧ (cut a xs).2 = some after := by
          simpa using h
        rw [ih (Prod.ext h₁ h₂), List.cons_append]

theorem cut_eq_none {a : α} {xs before : List α} (h : cut a xs = (before, none)) :
    xs = before ∧ a ∉ xs := by
  by_cases hmem : a ∈ xs
  · obtain ⟨ys, zs, rfl, hys⟩ := List.eq_append_cons_of_mem hmem
    rw [cut_append hys] at h
    cases h
  · rw [cut_of_not_mem hmem] at h
    exact ⟨(Prod.mk.inj h).1, hmem⟩

/-- The part before the first separator is a prefix. -/
theorem prefix_of_cut_fst (a : α) (xs : List α) : (cut a xs).1 <+: xs := by
  induction xs with
  | nil => exact List.prefix_rfl
  | cons x xs ih =>
    by_cases h : x = a
    · simp [cut, h]
    · simpa [cut, h] using ih

/-- A cut behind a part without separators. -/
theorem cut_append_of_not_mem {a : α} {xs : List α} (h : a ∉ xs) (ys : List α) :
    (cut a (xs ++ ys)).1 = xs ++ (cut a ys).1 := by
  induction xs with
  | nil => rfl
  | cons x xs ih =>
    obtain ⟨hx, hxs⟩ := not_or.mp (List.mem_cons.not.mp h)
    rw [List.cons_append, cut, if_neg (Ne.symm hx)]
    exact congrArg (x :: ·) (ih hxs)

/-- What follows the first separator does not depend on a part without separators. -/
theorem cut_snd_append {a : α} {xs : List α} (h : a ∉ xs) (ys : List α) :
    (cut a (xs ++ ys)).2 = (cut a ys).2 := by
  induction xs with
  | nil => rfl
  | cons x xs ih =>
    obtain ⟨hx, hxs⟩ := not_or.mp (List.mem_cons.not.mp h)
    rw [List.cons_append, cut, if_neg (Ne.symm hx)]
    exact ih hxs

theorem mem_of_mem_cut_snd {a b : α} {xs : List α} (h : b ∈ (cut a xs).2.getD []) : b ∈ xs := by
  cases hcut : cut a xs with
  | mk before after =>
    rw [hcut] at h
    cases after with
    | none => cases h
    | some after =>
      rw [cut_eq_some hcut]
      exact List.mem_append_right before (List.mem_cons_of_mem a h)

theorem mem_of_mem_rcut_snd {a b : α} {xs : List α} (h : b ∈ (rcut a xs).2) : b ∈ xs := by
  have hreverse : b ∈ (cut a xs.reverse).1 := by
    unfold rcut at h
    split at h <;> next heq => simpa [heq] using h
  exact List.mem_reverse.mp ((prefix_of_cut_fst a xs.reverse).mem hreverse)

/-- A cut does not hide a beginning without separators. -/
theorem prefix_cut_iff {a : α} {word xs : List α} (h : a ∉ word) :
    word <+: (cut a xs).1 ↔ word <+: xs := by
  constructor
  · exact fun hword => hword.trans (prefix_of_cut_fst a xs)
  · rintro ⟨rest, rfl⟩
    exact ⟨(cut a rest).1, (cut_append_of_not_mem h rest).symm⟩

/-- A cut at the last separator. -/
theorem rcut_append {a : α} {ys : List α} (h : a ∉ ys) (xs : List α) :
    rcut a (xs ++ a :: ys) = (some xs, ys) := by
  have hreverse : (xs ++ a :: ys).reverse = ys.reverse ++ a :: xs.reverse := by simp
  rw [rcut, hreverse, cut_append (by simpa using h)]
  simp

theorem rcut_eq_some {a : α} {xs before after : List α} (h : rcut a xs = (some before, after)) :
    xs = before ++ a :: after ∧ a ∉ after := by
  unfold rcut at h
  split at h
  · cases h
  · next last first hcut =>
    obtain ⟨rfl, rfl⟩ : first.reverse = before ∧ last.reverse = after := by simpa using h
    have hrev := congrArg List.reverse (cut_eq_some hcut)
    have hmem := not_mem_cut_fst a xs.reverse
    rw [hcut] at hmem
    exact ⟨by simpa using hrev, by simpa using hmem⟩

section Pieces

variable {β : Type}

/-! ## Joined lists -/

/-- What is in a joined list comes from the separator or from one of its parts. -/
theorem mem_intercalate {c : β} {sep : List β} {segments : List (List β)}
    (h : c ∈ List.intercalate sep segments) : c ∈ sep ∨ ∃ segment ∈ segments, c ∈ segment := by
  induction segments with
  | nil => cases h
  | cons segment rest ih =>
    cases rest with
    | nil => exact .inr ⟨segment, List.mem_cons_self, by simpa using h⟩
    | cons next rest =>
      rw [List.intercalate_cons_cons, List.mem_append, List.mem_append] at h
      rcases h with (h | h) | h
      · exact .inr ⟨segment, List.mem_cons_self, h⟩
      · exact .inl h
      · rcases ih h with h | ⟨other, hother, h⟩
        · exact .inl h
        · exact .inr ⟨other, List.mem_cons_of_mem _ hother, h⟩

/-! ## Pieces of equal length -/

/-- `xs` in pieces of `n`, the last one shorter; `fuel` bounds their number. -/
def pieces (n : ℕ) : ℕ → List β → List (List β)
  | 0, _ => []
  | _ + 1, [] => []
  | fuel + 1, x :: xs => (x :: xs).take n :: pieces n fuel ((x :: xs).drop n)

theorem flatten_pieces {n fuel : ℕ} (hn : 0 < n) {xs : List β} (h : xs.length ≤ fuel) :
    (pieces n fuel xs).flatten = xs := by
  induction fuel generalizing xs with
  | zero => rw [List.eq_nil_of_length_eq_zero (Nat.le_zero.mp h)]; rfl
  | succ fuel ih =>
    cases xs with
    | nil => rfl
    | cons x xs =>
      rw [pieces, List.flatten_cons, ih, List.take_append_drop]
      rw [List.length_drop, List.length_cons] at *
      omega

end Pieces

end ProxyCache.Lib
