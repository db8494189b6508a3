import Mathlib.Data.Nat.Notation

/-!
# Locks of one event loop

`asyncio.Lock`, by what its documentation promises: a mutex that queues its
waiters in order and that is acquired without suspending when it is free. A
waiter may be cancelled; it keeps its place until it runs again, but a lock that
only cancelled waiters queue for is free.
-/

namespace ProxyCache.Python

/-- Who holds the lock, and who waits for it, in order; `true` marks a waiter
that has been cancelled. -/
structure AsyncLock where
  holder : Option ℕ := none
  waiting : List (ℕ × Bool) := []
  deriving DecidableEq

namespace AsyncLock

variable (l : AsyncLock)

def Free : Prop := l.holder = none ∧ ∀ x ∈ l.waiting, x.2 = true

instance : Decidable l.Free := inferInstanceAs (Decidable (_ ∧ _))

/-- The first part of `acquire`: the lock is taken at once when it is free, and
queued for otherwise. -/
def tryAcquire (t : ℕ) : Bool × AsyncLock :=
  if l.Free then (true, { l with holder := some t })
  else (false, { l with waiting := l.waiting ++ [(t, false)] })

/-- The next waiter, once the lock has been released. -/
def Next (t : ℕ) : Prop := l.holder = none ∧ l.waiting.find? (fun x => !x.2) = some (t, false)

instance (t : ℕ) : Decidable (l.Next t) := inferInstanceAs (Decidable (_ ∧ _))

/-- `t` leaves the queue. -/
def leave (t : ℕ) : AsyncLock := { l with waiting := l.waiting.filter fun x => x.1 ≠ t }

/-- `t` leaves the queue with the lock. -/
def take (t : ℕ) : AsyncLock := { l.leave t with holder := some t }

def release : AsyncLock := { l with holder := none }

/-- `Task.cancel` of a waiter. -/
def cancel (t : ℕ) : AsyncLock :=
  { l with waiting := l.waiting.map fun x => if x.1 = t then (t, true) else x }

variable {l} {t u : ℕ}

theorem tryAcquire_eq (l : AsyncLock) (t : ℕ) :
    (l.tryAcquire t = (true, { l with holder := some t }) ∧ l.Free) ∨
      (l.tryAcquire t = (false, { l with waiting := l.waiting ++ [(t, false)] }) ∧ ¬ l.Free) := by
  unfold tryAcquire
  by_cases hfree : l.Free
  · exact .inl ⟨if_pos hfree, hfree⟩
  · exact .inr ⟨if_neg hfree, hfree⟩

@[simp] theorem leave_holder : (l.leave t).holder = l.holder := rfl

@[simp] theorem take_holder : (l.take t).holder = some t := rfl

@[simp] theorem release_holder : l.release.holder = none := rfl

@[simp] theorem release_waiting : l.release.waiting = l.waiting := rfl

@[simp] theorem cancel_holder : (l.cancel t).holder = l.holder := rfl

end AsyncLock

end ProxyCache.Python
