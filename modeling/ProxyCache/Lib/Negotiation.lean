import Mathlib.Order.Lattice
import Mathlib.Order.MinMax
import Mathlib.Algebra.Notation.Defs
import Mathlib.Data.List.Induction
import Mathlib.Data.Nat.Notation

/-!
# Choosing by specificity

The items of a list apply to a subject with some specificity, or not at all, and give it a
weight. The most specific items decide, and a positive weight of one of them is enough.

`best` finds the decision in one pass that keeps the highest specificity so far and the highest
weight there.
-/

namespace ProxyCache.Lib.Negotiation

variable {α β Q : Type} [LinearOrder Q]

section Definitions

variable (specificity : α → Option ℕ) (weight : α → Q)

/-- `a` is one of the items that apply most specifically. -/
def MostSpecific (items : List α) (a : α) : Prop :=
  a ∈ items ∧ ∃ n, specificity a = some n ∧
    ∀ b ∈ items, ∀ m, specificity b = some m → m ≤ n

/-- A most specific item has a positive weight. -/
def Acceptable [Zero Q] (items : List α) : Prop :=
  ∃ a, MostSpecific specificity items a ∧ 0 < weight a

/-- One more item. -/
def improve (found : Option (ℕ × Q)) (a : α) : Option (ℕ × Q) :=
  match specificity a, found with
  | none, found => found
  | some n, none => some (n, weight a)
  | some n, some (m, q) =>
    if n > m then some (n, weight a)
    else if n = m then some (m, max q (weight a))
    else some (m, q)

def best (items : List α) : Option (ℕ × Q) := items.foldl (improve specificity weight) none

end Definitions

variable {specificity : α → Option ℕ} {weight : α → Q} {items : List α} {a : α} {n : ℕ} {q : Q}

/-! ## One pass -/

/-- `n` is the highest specificity, and `q` the highest weight there. -/
structure IsBest (specificity : α → Option ℕ) (weight : α → Q) (items : List α) (n : ℕ) (q : Q) :
    Prop where
  specific : ∀ b ∈ items, ∀ m, specificity b = some m → m ≤ n
  heaviest : ∀ b ∈ items, specificity b = some n → weight b ≤ q
  attained : ∃ b ∈ items, specificity b = some n ∧ weight b = q

/-- What has been found among the items so far. -/
def Found (specificity : α → Option ℕ) (weight : α → Q) (items : List α) :
    Option (ℕ × Q) → Prop
  | none => ∀ b ∈ items, specificity b = none
  | some (n, q) => IsBest specificity weight items n q

/-- An item that does not apply changes nothing. -/
theorem IsBest.concat_none (h : IsBest specificity weight items n q) (ha : specificity a = none) :
    IsBest specificity weight (items ++ [a]) n q := by
  obtain ⟨b, hb, hattained⟩ := h.attained
  refine ⟨?_, ?_, b, List.mem_append_left _ hb, hattained⟩
  · intro c hc m hm
    rcases List.mem_append.mp hc with hc | hc
    · exact h.specific c hc m hm
    · rw [List.mem_singleton.mp hc, ha] at hm
      cases hm
  · intro c hc hm
    rcases List.mem_append.mp hc with hc | hc
    · exact h.heaviest c hc hm
    · rw [List.mem_singleton.mp hc, ha] at hm
      cases hm

/-- An item that is more specific than all the others is the best one. -/
theorem isBest_concat (ha : specificity a = some n)
    (h : ∀ b ∈ items, ∀ m, specificity b = some m → m < n) :
    IsBest specificity weight (items ++ [a]) n (weight a) := by
  refine ⟨?_, ?_, a, List.mem_append_right _ (List.mem_singleton_self a), ha, rfl⟩
  · intro c hc m hm
    rcases List.mem_append.mp hc with hc | hc
    · exact Nat.le_of_lt (h c hc m hm)
    · rw [List.mem_singleton.mp hc, ha] at hm
      exact Nat.le_of_eq (Option.some.inj hm).symm
  · intro c hc hm
    rcases List.mem_append.mp hc with hc | hc
    · exact absurd (h c hc n hm) (lt_irrefl n)
    · rw [List.mem_singleton.mp hc]

/-- An item that is as specific as the best ones. -/
theorem IsBest.concat_max (h : IsBest specificity weight items n q) (ha : specificity a = some n) :
    IsBest specificity weight (items ++ [a]) n (max q (weight a)) := by
  refine ⟨?_, ?_, ?_⟩
  · intro c hc m hm
    rcases List.mem_append.mp hc with hc | hc
    · exact h.specific c hc m hm
    · rw [List.mem_singleton.mp hc, ha] at hm
      exact Nat.le_of_eq (Option.some.inj hm).symm
  · intro c hc hm
    rcases List.mem_append.mp hc with hc | hc
    · exact (h.heaviest c hc hm).trans (le_max_left q _)
    · rw [List.mem_singleton.mp hc]
      exact le_max_right q _
  · -- the weight is the old one or the new one
    rcases max_choice q (weight a) with hmax | hmax
    · obtain ⟨b, hb, hn, hq⟩ := h.attained
      exact ⟨b, List.mem_append_left _ hb, hn, hq.trans hmax.symm⟩
    · exact ⟨a, List.mem_append_right _ (List.mem_singleton_self a), ha, hmax.symm⟩

/-- An item that is less specific than the best ones. -/
theorem IsBest.concat_lt (h : IsBest specificity weight items n q) {m : ℕ}
    (ha : specificity a = some m) (hlt : m < n) : IsBest specificity weight (items ++ [a]) n q := by
  obtain ⟨b, hb, hattained⟩ := h.attained
  refine ⟨?_, ?_, b, List.mem_append_left _ hb, hattained⟩
  · intro c hc k hk
    rcases List.mem_append.mp hc with hc | hc
    · exact h.specific c hc k hk
    · rw [List.mem_singleton.mp hc, ha] at hk
      exact (Option.some.inj hk) ▸ hlt.le
  · intro c hc hk
    rcases List.mem_append.mp hc with hc | hc
    · exact h.heaviest c hc hk
    · rw [List.mem_singleton.mp hc, ha] at hk
      exact absurd (Option.some.inj hk) hlt.ne

/-- The step: one more item is accounted for. -/
theorem Found.improve {found : Option (ℕ × Q)} (h : Found specificity weight items found) :
    Found specificity weight (items ++ [a]) (improve specificity weight found a) := by
  unfold Negotiation.improve
  cases ha : specificity a with
  | none =>
    cases found with
    | none =>
      intro c hc
      rcases List.mem_append.mp hc with hc | hc
      · exact h c hc
      · rw [List.mem_singleton.mp hc, ha]
    | some nq => exact IsBest.concat_none h ha
  | some n =>
    cases found with
    | none =>
      refine isBest_concat ha fun b hb m hm => ?_
      rw [h b hb] at hm
      cases hm
    | some mq =>
      obtain ⟨m, q⟩ := mq
      have hbest : IsBest specificity weight items m q := h
      simp only
      split
      · next hgt => exact isBest_concat ha fun b hb k hk => (hbest.specific b hb k hk).trans_lt hgt
      · split
        · next heq => exact hbest.concat_max (heq ▸ ha)
        · exact hbest.concat_lt ha (by omega)

/-- The run: all items are accounted for. -/
theorem found_best (items : List α) :
    Found specificity weight items (best specificity weight items) := by
  induction items using List.reverseRecOn with
  | nil => exact fun b hb => absurd hb List.not_mem_nil
  | append_singleton items a ih =>
    rw [best, List.foldl_append, List.foldl_cons, List.foldl_nil]
    exact ih.improve

/-- The pass finds a positive weight exactly when the items accept. -/
theorem acceptable_iff [Zero Q] :
    Acceptable specificity weight items ↔
      ∃ found, best specificity weight items = some found ∧ 0 < found.2 := by
  have hfound : Found specificity weight items (best specificity weight items) := found_best items
  constructor
  · rintro ⟨a, ⟨ha, n, hn, hmost⟩, hpos⟩
    cases hbest : best specificity weight items with
    | none =>
      rw [hbest] at hfound
      rw [hfound a ha] at hn
      cases hn
    | some mq =>
      rw [hbest] at hfound
      obtain ⟨b, hb, hm, -⟩ := hfound.attained
      -- both are the highest specificity
      have hsame : n = mq.1 := le_antisymm (hfound.specific a ha n hn) (hmost b hb mq.1 hm)
      exact ⟨mq, rfl, hpos.trans_le (hfound.heaviest a ha (hsame ▸ hn))⟩
  · rintro ⟨⟨n, q⟩, hbest, hpos⟩
    rw [hbest] at hfound
    obtain ⟨a, ha, hn, hq⟩ := hfound.attained
    exact ⟨a, ⟨ha, n, hn, hfound.specific⟩, hq.symm ▸ hpos⟩

/-- The weight that is found is positive exactly then. -/
theorem getD_best_pos_iff [Zero Q] : ((best specificity weight items).map (·.2)).getD 0 > 0 ↔
    Acceptable specificity weight items := by
  rw [acceptable_iff]
  cases best specificity weight items with
  | none => exact iff_of_false (lt_irrefl 0) nofun
  | some found =>
    constructor
    · exact fun hpos => ⟨found, rfl, hpos⟩
    · rintro ⟨found', hfound, hpos⟩
      obtain rfl := Option.some.inj hfound
      exact hpos

/-! ## Items in another form -/

section Covers

variable {specificity' : β → Option ℕ} {weight' : β → Q} {items' : List β}

/-- Whatever an item says, an item of the other list says. -/
def Covers (specificity : α → Option ℕ) (weight : α → Q) (items : List α)
    (specificity' : β → Option ℕ) (weight' : β → Q) (items' : List β) : Prop :=
  ∀ a ∈ items, ∀ n, specificity a = some n →
    ∃ b ∈ items', specificity' b = some n ∧ weight' b = weight a

theorem Acceptable.of_covers [Zero Q]
    (h : Covers specificity weight items specificity' weight' items')
    (hback : Covers specificity' weight' items' specificity weight items)
    (haccept : Acceptable specificity weight items) : Acceptable specificity' weight' items' := by
  obtain ⟨a, ⟨ha, n, hn, hmost⟩, hpos⟩ := haccept
  obtain ⟨b, hb, hspecific, hweight⟩ := h a ha n hn
  refine ⟨b, ⟨hb, n, hspecific, fun c hc m hm => ?_⟩, hweight.symm ▸ hpos⟩
  obtain ⟨a', ha', hm', -⟩ := hback c hc m hm
  exact hmost a' ha' m hm'

/-- Items that say the same accept the same. -/
theorem acceptable_congr [Zero Q] (h : Covers specificity weight items specificity' weight' items')
    (hback : Covers specificity' weight' items' specificity weight items) :
    Acceptable specificity weight items ↔ Acceptable specificity' weight' items' :=
  ⟨Acceptable.of_covers h hback, Acceptable.of_covers hback h⟩

end Covers

end ProxyCache.Lib.Negotiation
