import Mathlib.Logic.Function.Basic
import Mathlib.Order.Lattice

/-!
# Stores whose entries expire

A store maps a key to an entry with an expiry and a value. An entry is live
while the clock is before its expiry; a dead entry reads as an absent one.
Single and batched writes, the conditional batch and eviction are described by
what a reader sees afterwards.
-/

namespace ProxyCache.Lib

/-- A stored value and the time from which it is no longer live. -/
structure Entry (T V : Type) where
  expiry : T
  value : V

/-- A store is read at a time, so it is kept as the entry last written. -/
abbrev Store (K T V : Type) := K → Option (Entry T V)

namespace Store

variable {K T V : Type}

/-- The value under `k` that a reader sees at time `now`. -/
def get [LinearOrder T] (s : Store K T V) (now : T) (k : K) : Option V :=
  (s k).bind fun e => if now < e.expiry then some e.value else none

/-- Write one entry. -/
def put [DecidableEq K] (s : Store K T V) (k : K) (e : Entry T V) : Store K T V :=
  Function.update s k (some e)

/-- Write several entries at once, in order. -/
def putMany [DecidableEq K] (s : Store K T V) : List (K × Entry T V) → Store K T V
  | [] => s
  | (k, e) :: rest => putMany (s.put k e) rest

/-- Every key reads as expected; `none` pins an absent key. -/
def Matches [LinearOrder T] (s : Store K T V) (now : T) (expected : List (K × Option V)) :
    Prop :=
  ∀ kv ∈ expected, s.get now kv.1 = kv.2

instance [LinearOrder T] [DecidableEq V] (s : Store K T V) (now : T)
    (expected : List (K × Option V)) : Decidable (s.Matches now expected) :=
  inferInstanceAs (Decidable (∀ kv ∈ expected, s.get now kv.1 = kv.2))

/-- Drop the entries of the keys in `p`. -/
def evict (s : Store K T V) (p : K → Bool) : Store K T V :=
  fun k => if p k then none else s k

/-! ## Reading -/

section Reading

variable [LinearOrder T] {s : Store K T V} {now now' : T} {k : K} {v : V}

theorem get_eq_some : s.get now k = some v ↔
    ∃ e, s k = some e ∧ now < e.expiry ∧ e.value = v := by
  unfold get
  cases s k with
  | none => simp
  | some e => by_cases h : now < e.expiry <;> simp [h]

theorem get_congr {s' : Store K T V} (h : s' k = s k) : s'.get now k = s.get now k := by
  unfold get
  rw [h]

/-- A live value was live before, at any earlier time. -/
theorem get_earlier (h : now ≤ now') (hget : s.get now' k = some v) :
    s.get now k = some v := by
  obtain ⟨e, he, hlt, hv⟩ := get_eq_some.mp hget
  exact get_eq_some.mpr ⟨e, he, lt_of_le_of_lt h hlt, hv⟩

/-- Eviction brings no value back. -/
theorem get_of_evict {p : K → Bool} (h : (s.evict p).get now k = some v) :
    s.get now k = some v := by
  unfold evict at h
  by_cases hp : p k = true
  · simp [get, hp] at h
  · simpa [get, hp] using h

end Reading

/-! ## Writing -/

section Writing

variable [DecidableEq K] {s : Store K T V} {k k' : K} {e : Entry T V}

@[simp] theorem put_self : s.put k e k = some e := Function.update_self ..

theorem put_of_ne (h : k' ≠ k) : s.put k e k' = s k' := Function.update_of_ne h ..

/-- A batch leaves the keys it does not name alone. -/
theorem putMany_of_not_mem {kes : List (K × Entry T V)} (h : ∀ ke ∈ kes, ke.1 ≠ k) :
    s.putMany kes k = s k := by
  induction kes generalizing s with
  | nil => rfl
  | cons ke rest ih =>
    obtain ⟨k₀, e₀⟩ := ke
    rw [putMany, ih fun x hx => h x (List.mem_cons_of_mem _ hx)]
    exact put_of_ne (h (k₀, e₀) List.mem_cons_self).symm

/-- After a batch, a key holds what it held before or an entry of the batch. -/
theorem putMany_cases (s : Store K T V) (kes : List (K × Entry T V)) (k : K) :
    (s.putMany kes k = s k ∧ ∀ ke ∈ kes, ke.1 ≠ k) ∨
      ∃ e, (k, e) ∈ kes ∧ s.putMany kes k = some e := by
  induction kes generalizing s with
  | nil => exact .inl ⟨rfl, by simp⟩
  | cons ke rest ih =>
    obtain ⟨k₀, e₀⟩ := ke
    rcases ih (s.put k₀ e₀) with ⟨heq, hne⟩ | ⟨e, hmem, heq⟩
    · by_cases hk : k₀ = k
      · subst hk
        exact .inr ⟨e₀, List.mem_cons_self, by rw [putMany, heq, put_self]⟩
      · refine .inl ⟨by rw [putMany, heq, put_of_ne (Ne.symm hk)], ?_⟩
        intro ke hke
        rcases List.mem_cons.mp hke with rfl | hke
        · exact hk
        · exact hne ke hke
    · exact .inr ⟨e, List.mem_cons_of_mem _ hmem, heq⟩

/-- With one entry per key, a batch stores each of its entries. -/
theorem putMany_of_mem {kes : List (K × Entry T V)} (hnd : (kes.map Prod.fst).Nodup)
    (h : (k, e) ∈ kes) : s.putMany kes k = some e := by
  induction kes generalizing s with
  | nil => cases h
  | cons ke rest ih =>
    rw [List.map_cons, List.nodup_cons] at hnd
    rcases List.mem_cons.mp h with rfl | h
    · rw [putMany, putMany_of_not_mem, put_self]
      intro ke hke heq
      have hmem : ke.1 ∈ rest.map Prod.fst := List.mem_map_of_mem hke
      exact hnd.1 (heq ▸ hmem)
    · exact ih hnd.2 h

/-- A value live after a batch was live before, or is one of the batch. -/
theorem get_putMany [LinearOrder T] {now : T} {v : V} {kes : List (K × Entry T V)}
    (h : (s.putMany kes).get now k = some v) :
    (s.get now k = some v ∧ ∀ ke ∈ kes, ke.1 ≠ k) ∨
      ∃ e, (k, e) ∈ kes ∧ e.value = v ∧ now < e.expiry := by
  obtain ⟨e, he, hlt, hv⟩ := get_eq_some.mp h
  rcases putMany_cases s kes k with ⟨heq, hne⟩ | ⟨e', hmem, heq⟩
  · exact .inl ⟨get_eq_some.mpr ⟨e, heq ▸ he, hlt, hv⟩, hne⟩
  · obtain rfl : e' = e := Option.some.inj (heq.symm.trans he)
    exact .inr ⟨e', hmem, hv, hlt⟩

end Writing

end Store

end ProxyCache.Lib
