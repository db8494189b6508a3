import Mathlib.Data.List.Basic
import Mathlib.Data.Nat.Notation

/-!
# Semaphores of one event loop

`asyncio.Semaphore`: a counter, and the waiters in order. A permit that is given
back goes to the first waiter that still waits; that waiter is woken, and the
permit is its own before it runs again. A waiter that is cancelled keeps its place
until it runs again, and one that was woken before hands its permit on.

* `permits` — the permits that no task has: the counter, and one for each woken
  waiter;
* `Alert` — while a waiter waits, there is no permit to be had, or a woken waiter
  that will wake the next one.
-/

namespace ProxyCache.Python

/-- What the future of a waiter says. -/
inductive Waiter where
  | pending
  | woken
  | cancelled
  deriving DecidableEq

structure AsyncSemaphore where
  value : ℕ
  waiting : List (ℕ × Waiter) := []
  deriving DecidableEq

namespace AsyncSemaphore

variable (s : AsyncSemaphore) (t : ℕ)

/-- `locked`. -/
def Locked : Prop := s.value = 0 ∨ ∃ x ∈ s.waiting, x.2 ≠ .cancelled

instance : Decidable s.Locked := inferInstanceAs (Decidable (_ ∨ _))

/-- The first part of `acquire`: a permit is taken at once, or queued for. -/
def tryAcquire : Bool × AsyncSemaphore :=
  if s.Locked then (false, { s with waiting := s.waiting ++ [(t, .pending)] })
  else (true, { s with value := s.value - 1 })

/-- The first waiter that is not done is woken, if there is one. -/
def wakeFirst : List (ℕ × Waiter) → Option (List (ℕ × Waiter))
  | [] => none
  | (t, w) :: rest =>
    if w = .pending then some ((t, .woken) :: rest) else (wakeFirst rest).map ((t, w) :: ·)

/-- `_wake_up_next`. -/
def wakeUpNext : AsyncSemaphore :=
  (wakeFirst s.waiting).elim s fun waiting => ⟨s.value - 1, waiting⟩

def release : AsyncSemaphore := { s with value := s.value + 1 }.wakeUpNext

/-- `t` leaves the queue. -/
def leave : AsyncSemaphore := { s with waiting := s.waiting.filter fun x => x.1 ≠ t }

/-- The rest of `acquire`, for a waiter that has been woken. -/
def resume : AsyncSemaphore :=
  -- permits that came free meanwhile are handed on
  if 0 < (s.leave t).value then (s.leave t).wakeUpNext else s.leave t

/-- `t` has been woken. -/
def Woken : Prop := (t, Waiter.woken) ∈ s.waiting

instance : Decidable (s.Woken t) := inferInstanceAs (Decidable (_ ∈ _))

/-- The rest of `acquire`, for a waiter in which `CancelledError` is raised. -/
def abandon : AsyncSemaphore :=
  -- the permit that it was woken for is given back
  if s.Woken t then (s.leave t).release else s.leave t

/-- `Task.cancel` of a waiter: its future is cancelled unless it is done. -/
def cancel : AsyncSemaphore :=
  { s with waiting := s.waiting.map fun x => if x = (t, .pending) then (t, .cancelled) else x }

/-! ## Who waits -/

/-- The tasks in the queue. -/
def queue : List ℕ := s.waiting.map Prod.fst

/-- The permits that no task has. -/
def permits : ℕ := s.value + s.waiting.countP fun x => x.2 = .woken

/-- Nobody waits in vain: there is no permit to be had, or the next waiter will be woken. -/
def Alert : Prop := (∃ u, (u, Waiter.pending) ∈ s.waiting) → s.value = 0 ∨ ∃ u, s.Woken u

variable {s t} {u : ℕ}

section WakeFirst

variable {l l' : List (ℕ × Waiter)}

theorem wakeFirst_eq_none : wakeFirst l = none ↔ ∀ x ∈ l, x.2 ≠ .pending := by
  induction l with
  | nil => simp [wakeFirst]
  | cons x rest ih =>
    obtain ⟨v, w⟩ := x
    by_cases hw : w = .pending
    · simp [wakeFirst, hw]
    · simp [wakeFirst, hw, ih]

theorem wakeFirst_queue (h : wakeFirst l = some l') : l'.map Prod.fst = l.map Prod.fst := by
  induction l generalizing l' with
  | nil => simp [wakeFirst] at h
  | cons x rest ih =>
    obtain ⟨v, w⟩ := x
    by_cases hw : w = .pending
    · simp only [wakeFirst, hw, if_true, Option.some.injEq] at h
      simp [← h]
    · simp only [wakeFirst, if_neg hw, Option.map_eq_some_iff] at h
      obtain ⟨rest', hrest, hl⟩ := h
      simp [← hl, ih hrest]

/-- One waiter is woken. -/
theorem wakeFirst_count (h : wakeFirst l = some l') :
    (l'.countP fun x => x.2 = .woken) = (l.countP fun x => x.2 = .woken) + 1 := by
  induction l generalizing l' with
  | nil => simp [wakeFirst] at h
  | cons x rest ih =>
    obtain ⟨v, w⟩ := x
    by_cases hw : w = .pending
    · simp only [wakeFirst, hw, if_true, Option.some.injEq] at h
      simp [← h, hw]
    · simp only [wakeFirst, if_neg hw, Option.map_eq_some_iff] at h
      obtain ⟨rest', hrest, hl⟩ := h
      simp only [← hl, List.countP_cons, ih hrest]
      omega

theorem wakeFirst_woken (h : wakeFirst l = some l') : ∃ u, (u, Waiter.woken) ∈ l' := by
  have hcount := wakeFirst_count h
  obtain ⟨x, hx, hwoken⟩ := List.countP_pos_iff.mp
    (show 0 < l'.countP fun x => x.2 = .woken by omega)
  exact ⟨x.1, by simpa [Prod.ext_iff] using (of_decide_eq_true hwoken) ▸ hx⟩

/-- Nobody is cancelled by it. -/
theorem cancelled_of_wakeFirst (h : wakeFirst l = some l') (hu : (u, Waiter.cancelled) ∈ l') :
    (u, Waiter.cancelled) ∈ l := by
  induction l generalizing l' with
  | nil => simp [wakeFirst] at h
  | cons x rest ih =>
    obtain ⟨v, w⟩ := x
    by_cases hw : w = .pending
    · simp only [wakeFirst, hw, if_true, Option.some.injEq] at h
      subst h
      simpa [hw] using hu
    · simp only [wakeFirst, if_neg hw, Option.map_eq_some_iff] at h
      obtain ⟨rest', hrest, hl⟩ := h
      subst hl
      rcases List.mem_cons.mp hu with heq | hu
      · exact heq ▸ List.mem_cons_self
      · exact List.mem_cons_of_mem _ (ih hrest hu)

end WakeFirst

theorem cancelled_of_wakeUpNext (h : (u, Waiter.cancelled) ∈ s.wakeUpNext.waiting) :
    (u, Waiter.cancelled) ∈ s.waiting := by
  unfold wakeUpNext at h
  cases hfirst : wakeFirst s.waiting with
  | none => simpa [hfirst] using h
  | some waiting =>
    rw [hfirst] at h
    exact cancelled_of_wakeFirst hfirst h

theorem cancelled_of_release (h : (u, Waiter.cancelled) ∈ s.release.waiting) :
    (u, Waiter.cancelled) ∈ s.waiting :=
  cancelled_of_wakeUpNext (s := { s with value := s.value + 1 }) h

theorem cancelled_of_leave (h : (u, Waiter.cancelled) ∈ (s.leave t).waiting) :
    (u, Waiter.cancelled) ∈ s.waiting := (List.mem_filter.mp h).1

theorem cancelled_of_cancel (h : (u, Waiter.cancelled) ∈ (s.cancel t).waiting) (hne : u ≠ t) :
    (u, Waiter.cancelled) ∈ s.waiting := by
  obtain ⟨x, hx, hxu⟩ := List.mem_map.mp h
  by_cases heq : x = (t, .pending)
  · rw [if_pos heq] at hxu
    exact absurd (Prod.mk.inj hxu).1.symm hne
  · rw [if_neg heq] at hxu
    exact hxu ▸ hx

/-! ## What an operation does to the permits -/

theorem wakeUpNext_permits (h : 0 < s.value) : s.wakeUpNext.permits = s.permits := by
  unfold wakeUpNext permits
  cases hfirst : wakeFirst s.waiting with
  | none => rfl
  | some waiting =>
    simp only [Option.elim_some, wakeFirst_count hfirst]
    omega

/-- The permit that is given back is one to be had. -/
theorem release_permits : s.release.permits = s.permits + 1 := by
  rw [release, wakeUpNext_permits (Nat.succ_pos _)]
  simp only [permits]
  omega

theorem tryAcquire_permits :
    (s.tryAcquire t).2.permits + (if (s.tryAcquire t).1 then 1 else 0) = s.permits := by
  unfold tryAcquire
  by_cases hlocked : s.Locked
  · simp [hlocked, permits, List.countP_append]
  · have hvalue : s.value ≠ 0 := fun h => hlocked (.inl h)
    simp only [hlocked, permits, if_false, if_true]
    omega

/-- A task that waits once and is woken leaves with one permit. -/
theorem count_filter_ne {l : List (ℕ × Waiter)} (hl : (l.map Prod.fst).Nodup)
    (hmem : (t, Waiter.woken) ∈ l) :
    ((l.filter fun x => x.1 ≠ t).countP fun x => x.2 = .woken) + 1 =
      l.countP fun x => x.2 = .woken := by
  induction l with
  | nil => simp at hmem
  | cons x rest ih =>
    have hothers : ∀ y ∈ rest, y.1 ≠ x.1 := by
      intro y hy heq
      simp only [List.map_cons, List.nodup_cons] at hl
      exact hl.1 (heq ▸ List.mem_map_of_mem hy)
    rcases List.mem_cons.mp hmem with heq | hmem
    · -- nobody else of that name is left
      subst heq
      have hrest : (rest.filter fun x => x.1 ≠ t) = rest := by
        refine List.filter_eq_self.mpr fun y hy => ?_
        simpa using hothers y hy
      rw [List.filter_cons_of_neg (by simp), hrest, List.countP_cons_of_pos (by simp)]
    · have hne : x.1 ≠ t := fun heq => hothers _ hmem heq.symm
      have hih := ih (List.nodup_cons.mp hl).2 hmem
      rw [List.filter_cons_of_pos (by simpa using hne), List.countP_cons, List.countP_cons]
      omega

/-- A woken waiter leaves with its permit. -/
theorem leave_permits (hnodup : s.queue.Nodup) (h : s.Woken t) :
    (s.leave t).permits + 1 = s.permits := by
  have hcount := count_filter_ne hnodup h
  simp only [leave, permits]
  omega

/-- Another waiter has none. -/
theorem leave_permits_of_not_woken (h : ¬ s.Woken t) : (s.leave t).permits = s.permits := by
  simp only [leave, permits, List.countP_filter]
  congr 1
  refine List.countP_congr fun x hx => ?_
  have hne : x.2 = .woken → x.1 ≠ t := by
    intro hwoken heq
    refine h ?_
    unfold Woken
    rwa [← heq, ← hwoken]
  by_cases hwoken : x.2 = .woken
  · simp [hwoken, hne hwoken]
  · simp [hwoken]

theorem resume_permits (hnodup : s.queue.Nodup) (h : s.Woken t) :
    (s.resume t).permits + 1 = s.permits := by
  unfold resume
  split
  · next hvalue => rw [wakeUpNext_permits hvalue, leave_permits hnodup h]
  · exact leave_permits hnodup h

theorem abandon_permits (hnodup : s.queue.Nodup) : (s.abandon t).permits = s.permits := by
  unfold abandon
  by_cases h : s.Woken t
  · rw [if_pos h, release_permits, leave_permits hnodup h]
  · rw [if_neg h, leave_permits_of_not_woken h]

theorem cancel_permits : (s.cancel t).permits = s.permits := by
  simp only [cancel, permits, List.countP_map]
  congr 1
  refine List.countP_congr fun x _ => ?_
  by_cases h : x = (t, .pending)
  · simp [h]
  · simp [h]

/-! ## What an operation does to the queue -/

@[simp] theorem wakeUpNext_queue : s.wakeUpNext.queue = s.queue := by
  unfold wakeUpNext
  cases hfirst : wakeFirst s.waiting with
  | none => rfl
  | some waiting => exact wakeFirst_queue hfirst

@[simp] theorem release_queue : s.release.queue = s.queue := wakeUpNext_queue

theorem tryAcquire_queue :
    (s.tryAcquire t).2.queue = if (s.tryAcquire t).1 then s.queue else s.queue ++ [t] := by
  unfold tryAcquire
  by_cases hlocked : s.Locked
  · simp [hlocked, queue]
  · simp [hlocked, queue]

theorem leave_queue : (s.leave t).queue = s.queue.filter fun u => u ≠ t := by
  simp only [leave, queue, List.filter_map]
  rfl

@[simp] theorem resume_queue : (s.resume t).queue = s.queue.filter fun u => u ≠ t := by
  unfold resume
  split
  · rw [wakeUpNext_queue, leave_queue]
  · exact leave_queue

@[simp] theorem abandon_queue : (s.abandon t).queue = s.queue.filter fun u => u ≠ t := by
  unfold abandon
  split
  · rw [release_queue, leave_queue]
  · exact leave_queue

@[simp] theorem cancel_queue : (s.cancel t).queue = s.queue := by
  simp only [cancel, queue, List.map_map]
  refine List.map_congr_left fun x _ => ?_
  by_cases h : x = (t, .pending)
  · simp [h]
  · simp [h]

theorem mem_queue_of_mem {w : Waiter} (h : (t, w) ∈ s.waiting) : t ∈ s.queue :=
  List.mem_map_of_mem h

/-! ## Nobody waits in vain -/

/-- The next waiter is woken, if there is one. -/
theorem alert_wakeUpNext : s.wakeUpNext.Alert := by
  unfold wakeUpNext
  cases hfirst : wakeFirst s.waiting with
  | none =>
    rintro ⟨v, hv⟩
    exact absurd rfl (wakeFirst_eq_none.mp hfirst _ hv)
  | some waiting =>
    intro _
    exact .inr (wakeFirst_woken hfirst)

theorem alert_release : s.release.Alert := alert_wakeUpNext

theorem alert_tryAcquire (h : s.Alert) : (s.tryAcquire t).2.Alert := by
  unfold tryAcquire
  by_cases hlocked : s.Locked
  · rw [if_pos hlocked]
    rcases hlocked with hzero | ⟨x, hx, hne⟩
    · intro _
      exact .inl hzero
    · obtain ⟨v, w⟩ := x
      intro _
      -- the waiter in front is woken, or it waits for a good reason
      have hbefore : s.value = 0 ∨ ∃ u, s.Woken u := by
        cases w with
        | pending => exact h ⟨v, hx⟩
        | woken => exact .inr ⟨v, hx⟩
        | cancelled => exact absurd rfl hne
      rcases hbefore with hzero | ⟨u, hu⟩
      · exact .inl hzero
      · exact .inr ⟨u, List.mem_append_left _ hu⟩
  · rw [if_neg hlocked]
    rintro ⟨v, hv⟩
    refine absurd (Or.inr ⟨_, hv, ?_⟩) hlocked
    simp

theorem alert_resume : (s.resume t).Alert := by
  unfold resume
  split
  · exact alert_wakeUpNext
  · intro _
    left
    omega

theorem alert_abandon (h : s.Alert) : (s.abandon t).Alert := by
  unfold abandon
  by_cases hwoken : s.Woken t
  · rw [if_pos hwoken]
    exact alert_release
  · rw [if_neg hwoken]
    rintro ⟨v, hv⟩
    rcases h ⟨v, (List.mem_filter.mp hv).1⟩ with hzero | ⟨u, hu⟩
    · exact .inl hzero
    · have hne : u ≠ t := fun heq => hwoken (heq ▸ hu)
      exact .inr ⟨u, List.mem_filter.mpr ⟨hu, by simpa using hne⟩⟩

theorem alert_cancel (h : s.Alert) : (s.cancel t).Alert := by
  rintro ⟨v, hv⟩
  obtain ⟨x, hx, hxv⟩ := List.mem_map.mp hv
  have hpending : (v, Waiter.pending) ∈ s.waiting := by
    by_cases heq : x = (t, .pending)
    · rw [if_pos heq] at hxv
      cases hxv
    · rw [if_neg heq] at hxv
      exact hxv ▸ hx
  rcases h ⟨v, hpending⟩ with hzero | ⟨u, hu⟩
  · exact .inl hzero
  · refine .inr ⟨u, List.mem_map.mpr ⟨_, hu, ?_⟩⟩
    simp

/-- With all permits to be had, nobody waits who has not been woken or cancelled. -/
theorem Alert.not_pending (h : s.Alert) (hvalue : 0 < s.value) (hwoken : ∀ u, ¬ s.Woken u) :
    (u, Waiter.pending) ∉ s.waiting := by
  intro hu
  rcases h ⟨u, hu⟩ with hzero | ⟨v, hv⟩
  · omega
  · exact hwoken v hv

end AsyncSemaphore

end ProxyCache.Python
