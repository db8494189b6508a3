import Mathlib.Data.List.Sort

/-!
# Stable sorting

Insertion sort leaves elements that compare equal in the order in which they were. With a
relation that holds between each element and the later ones, this is a statement about pairs.
-/

namespace ProxyCache.Lib

variable {α : Type*} {r p : α → α → Prop}

/-- In order by `r`, and by `p` among those that `r` does not tell apart. -/
def Stably (r p : α → α → Prop) (a b : α) : Prop := r a b ∧ (r b a → p a b)

section Insertion

variable [DecidableRel r] [IsTrans α r] [Std.Total r]

theorem pairwise_orderedInsert_stably {a : α} {l : List α} (hl : l.Pairwise (Stably r p))
    (ha : ∀ b ∈ l, p a b) : (l.orderedInsert r a).Pairwise (Stably r p) := by
  induction l with
  | nil => exact List.pairwise_singleton _ a
  | cons b l ih =>
    obtain ⟨hb, hl⟩ := List.pairwise_cons.mp hl
    by_cases hab : r a b
    · rw [List.orderedInsert_cons_of_le r l hab]
      refine List.pairwise_cons.mpr ⟨?_, List.pairwise_cons.mpr ⟨hb, hl⟩⟩
      intro x hx
      refine ⟨?_, fun _ => ha x hx⟩
      rcases List.mem_cons.mp hx with rfl | hx
      · exact hab
      · exact IsTrans.trans _ _ _ hab (hb x hx).1
    · rw [List.orderedInsert_of_not_le r l hab]
      refine List.pairwise_cons.mpr ⟨?_, ih hl fun x hx => ha x (List.mem_cons_of_mem b hx)⟩
      intro x hx
      rcases (List.mem_orderedInsert r).mp hx with rfl | hx
      · exact ⟨(Std.Total.total b x).resolve_right hab, fun h => absurd h hab⟩
      · exact hb x hx

/-- **Stability.** What was in order by `p` still is where `r` does not decide. -/
theorem pairwise_insertionSort_stably {l : List α} (hl : l.Pairwise p) :
    (l.insertionSort r).Pairwise (Stably r p) := by
  induction l with
  | nil => exact List.Pairwise.nil
  | cons a l ih =>
    obtain ⟨ha, hl⟩ := List.pairwise_cons.mp hl
    rw [List.insertionSort_cons]
    exact pairwise_orderedInsert_stably (ih hl) fun b hb => ha b ((List.mem_insertionSort r).mp hb)

end Insertion

/-- What is taken from a sorted list stands before what is left. -/
theorem rel_take_of_not_mem {l : List α} {n : ℕ} {a b : α} (hl : l.Pairwise r)
    (ha : a ∈ l.take n) (hb : b ∈ l) (hnot : b ∉ l.take n) : r a b := by
  have hsplit : (l.take n ++ l.drop n).Pairwise r := by rwa [List.take_append_drop]
  have hdrop : b ∈ l.drop n := by
    rw [← List.take_append_drop n l] at hb
    exact (List.mem_append.mp hb).resolve_left hnot
  exact (List.pairwise_append.mp hsplit).2.2 a ha b hdrop

end ProxyCache.Lib
