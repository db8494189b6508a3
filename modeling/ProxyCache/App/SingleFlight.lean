import ProxyCache.Lib.Program
import ProxyCache.Lib.Replay
import ProxyCache.Python.Asyncio
import ProxyCache.Python.Text

/-!
# In-process locks for cache-miss singleflight

`app/singleflight.py`: a lock for each key, made when the first task registers
for the key and dropped when the last one leaves. A stretch of code without
`await` is one call; a task lets the others run where it waits for a lock, and
inside the block. At each of these points it may be cancelled.
-/

namespace ProxyCache.App

open ProxyCache.Lib ProxyCache.Python

structure KeyLocker where
  metaLock : AsyncLock := {}
  /-- `_locks`: the lock object of a key. -/
  locks : Str → Option ℕ := fun _ => none
  /-- `_waiters`. -/
  waiters : Str → Option ℤ := fun _ => none
  /-- The lock objects, and how many have been made. -/
  object : ℕ → AsyncLock := fun _ => {}
  created : ℕ := 0

namespace KeyLocker

/-! ## Calls -/

/-- `self._meta`, or one of the lock objects. -/
inductive LockRef where
  | metaLock
  | keyed (object : ℕ)
  deriving DecidableEq

/-- An exception that leaves a suspension point or the block. -/
inductive Interruption where
  | cancelled
  | raised
  deriving DecidableEq

inductive Op where
  /-- `lock.acquire()`, up to where it has to wait; is the lock acquired? -/
  | tryAcquire (lock : LockRef)
  /-- The rest of `lock.acquire()`. -/
  | wait (lock : LockRef)
  | release (lock : LockRef)
  /-- What `hold` does under its first `async with self._meta`. -/
  | register (key : Str)
  /-- What `hold` does under its second `async with self._meta`. -/
  | unregister (key : Str)
  /-- The block under `async with locker.hold(key)`. -/
  | block
  deriving DecidableEq

@[reducible] def Ret : Op → Type
  | .tryAcquire _ => Bool
  | .wait _ => Except Interruption Unit
  | .release _ => Unit
  | .register _ => ℕ
  | .unregister _ => Unit
  | .block => Except Interruption Unit

abbrev Program (α : Type) := Prog Op Ret α

abbrev call (o : Op) : Program (Ret o) := Prog.op o

/-! ## `hold` -/

def acquire (lock : LockRef) : Program (Except Interruption Unit) := do
  if ← call (.tryAcquire lock) then return .ok ()
  call (.wait lock)

/-- `async with lock`. -/
def withLock {α : Type} (lock : LockRef) (block : Program (Except Interruption α)) :
    Program (Except Interruption α) := do
  match ← acquire lock with
  | .error e => return .error e
  | .ok () =>
    let result ← block
    call (.release lock)
    return result

def hold (key : Str) : Program (Except Interruption Unit) := do
  let registered ← withLock .metaLock (do
    let lock ← call (.register key)
    return .ok lock)
  match registered with
  | .error e => return .error e
  | .ok lock =>
    let result ← withLock (.keyed lock) (call .block)
    let left ← withLock .metaLock (do
      call (.unregister key)
      return .ok ())
    match left with
    | .error e => return .error e
    | .ok () => return result

/-! ## The state -/

def lock (s : KeyLocker) : LockRef → AsyncLock
  | .metaLock => s.metaLock
  | .keyed object => s.object object

def setLock (s : KeyLocker) (l : AsyncLock) : LockRef → KeyLocker
  | .metaLock => { s with metaLock := l }
  | .keyed object => { s with object := Function.update s.object object l }

/-- `self._locks.setdefault(key, asyncio.Lock())` and the increment. -/
def register (s : KeyLocker) (key : Str) : ℕ × KeyLocker :=
  let lock := (s.locks key).getD s.created
  (lock, { s with
    created := s.created + 1
    locks := Function.update s.locks key (some lock)
    waiters := Function.update s.waiters key (some ((s.waiters key).getD 0 + 1)) })

/-- The decrement; the last task removes both entries. -/
def unregister (s : KeyLocker) (key : Str) : KeyLocker :=
  let left := (s.waiters key).getD 1 - 1
  if left ≤ 0 then
    { s with
      waiters := Function.update s.waiters key none
      locks := Function.update s.locks key none }
  else { s with waiters := Function.update s.waiters key (some left) }

section Unregister

variable (s : KeyLocker) (key : Str)

@[simp] theorem unregister_metaLock : (s.unregister key).metaLock = s.metaLock := by
  unfold unregister
  dsimp only
  split <;> rfl

@[simp] theorem unregister_object : (s.unregister key).object = s.object := by
  unfold unregister
  dsimp only
  split <;> rfl

theorem unregister_waiters : (s.unregister key).waiters = Function.update s.waiters key
    (if (s.waiters key).getD 1 - 1 ≤ 0 then none else some ((s.waiters key).getD 1 - 1)) := by
  unfold unregister
  by_cases hlast : (s.waiters key).getD 1 - 1 ≤ 0
  · simp only [if_pos hlast]
  · simp only [if_neg hlast]

theorem unregister_locks : (s.unregister key).locks =
    if (s.waiters key).getD 1 - 1 ≤ 0 then Function.update s.locks key none else s.locks := by
  unfold unregister
  by_cases hlast : (s.waiters key).getD 1 - 1 ≤ 0
  · simp only [if_pos hlast]
  · simp only [if_neg hlast]

end Unregister

/-- `Task.cancel` of a task that waits for a lock. -/
def cancel (s : KeyLocker) (t : ℕ) : KeyLocker :=
  { s with metaLock := s.metaLock.cancel t, object := fun l => (s.object l).cancel t }

/-- The locker, and which tasks are registered for which key, with which lock
object; no task reads the latter. -/
structure World where
  locker : KeyLocker := {}
  registered : ℕ → Option (Str × ℕ) := fun _ => none

def World.setLock (w : World) (l : AsyncLock) (ref : LockRef) : World :=
  { w with locker := w.locker.setLock l ref }

/-- One call by the task `t`: the answer and the world after it. -/
def exec (t : ℕ) : (o : Op) → World → Ret o → World → Prop
  | .tryAcquire ref, w, acquired, w' =>
    acquired = ((w.locker.lock ref).tryAcquire t).1 ∧
      w' = w.setLock ((w.locker.lock ref).tryAcquire t).2 ref
  | .wait ref, w, .ok (), w' =>
    (w.locker.lock ref).Next t ∧ w' = w.setLock ((w.locker.lock ref).take t) ref
  | .wait ref, w, .error e, w' =>
    e = .cancelled ∧ w' = w.setLock ((w.locker.lock ref).leave t) ref
  | .release ref, w, (), w' => w' = w.setLock (w.locker.lock ref).release ref
  | .register key, w, l, w' =>
    l = (w.locker.register key).1 ∧
      w' = ⟨(w.locker.register key).2, Function.update w.registered t (some (key, l))⟩
  | .unregister key, w, (), w' =>
    w' = ⟨w.locker.unregister key, Function.update w.registered t none⟩
  | .block, w, _, w' => w' = w

/-- The calls at which a task waits. -/
def yields : Op → Bool
  | .wait _ | .block => true
  | _ => false

/-- Tasks that enter `hold` with a key, on one event loop. -/
def system : System Op Ret World Str (Except Interruption Unit) where
  yields := yields
  exec := exec
  prog := hold
  init w := w = {}
  env w w' := ∃ t, w' = { w with locker := w.locker.cancel t }

/-- The task `t` is inside `hold(key)`: what it does next is to end its block. -/
def Inside (c : Config Op Ret World Str (Except Interruption Unit)) (t : ℕ) (key : Str) : Prop :=
  ∃ k, c.task t = some (key, .call .block k)

/-- The tasks registered for a key. -/
def World.registeredFor (w : World) (key : Str) : Set ℕ :=
  {t | ∃ l, w.registered t = some (key, l)}

end KeyLocker

end ProxyCache.App
