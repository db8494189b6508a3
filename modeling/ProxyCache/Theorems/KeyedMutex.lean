import ProxyCache.App.SingleFlight
import Mathlib.Data.Set.Card
import Mathlib.Tactic.NormNum

/-!
# The keyed mutex

`KeyLocker.hold` gives each key one lock for as long as tasks are registered for
it. The invariant goes by the stage of a task: what a task has left to run says
whether it is registered, with which lock object, and which locks it holds.
-/

namespace ProxyCache.Theorems.KeyedMutex

open ProxyCache.Lib ProxyCache.Python ProxyCache.App.KeyLocker
open ProxyCache.App (KeyLocker)

abbrev Outcome := Except Interruption Unit

/-! ## Stages of a task -/

/-- From leaving the block's lock on. -/
def leaveHold (key : Str) (result : Outcome) : Program Outcome := do
  let left ← withLock .metaLock (do
    call (.unregister key)
    return .ok ())
  match left with
  | .error e => return .error e
  | .ok () => return result

inductive Stage where
  | entering
  | registering
  | registered (l : ℕ)
  | locking (l : ℕ)
  | waiting (l : ℕ)
  | inside (l : ℕ)
  | releasing (l : ℕ) (result : Outcome)
  | leaving (l : ℕ) (result : Outcome)
  | unregistering (l : ℕ) (result : Outcome)
  | unregistered (result : Outcome)
  | done (result : Outcome)

namespace Stage

/-- What is left to run. -/
def prog (key : Str) : Stage → Program Outcome
  | .entering => hold key
  | .registering =>
    .call (.register key) fun l => .call (.release .metaLock) fun _ =>
      withLock (.keyed l) (call .block) >>= leaveHold key
  | .registered l =>
    .call (.release .metaLock) fun _ => withLock (.keyed l) (call .block) >>= leaveHold key
  | .locking l => withLock (.keyed l) (call .block) >>= leaveHold key
  | .waiting l =>
    .call (.wait (.keyed l)) fun
      | .error e => leaveHold key (.error e)
      | .ok () => .call .block fun result => .call (.release (.keyed l)) fun _ =>
        leaveHold key result
  | .inside l =>
    .call .block fun result => .call (.release (.keyed l)) fun _ => leaveHold key result
  | .releasing l result => .call (.release (.keyed l)) fun _ => leaveHold key result
  | .leaving _ result => leaveHold key result
  | .unregistering _ result =>
    .call (.unregister key) fun _ => .call (.release .metaLock) fun _ => .ret result
  | .unregistered result => .call (.release .metaLock) fun _ => .ret result
  | .done result => .ret result

/-- The lock object the task is registered with. -/
def lock : Stage → Option ℕ
  | .registered l | .locking l | .waiting l | .inside l | .releasing l _ | .leaving l _ |
    .unregistering l _ => some l
  | _ => none

/-- The task is under `async with self._meta`. -/
def critical : Stage → Bool
  | .registering | .registered _ | .unregistering .. | .unregistered _ => true
  | _ => false

/-- The lock object the task holds. -/
def holds : Stage → Option ℕ
  | .inside l | .releasing l _ => some l
  | _ => none

/-- Under `self._meta`, a task does not wait. -/
theorem not_yields_of_critical {stage : Stage} {key : Str} (h : stage.critical = true) :
    ∃ o k, stage.prog key = .call o k ∧ yields o = false := by
  cases stage with
  | registering | registered | unregistering | unregistered => exact ⟨_, _, rfl, rfl⟩
  | _ => cases h

/-- The task is inside the block at one stage only. -/
theorem eq_inside {stage : Stage} {key : Str} {k : Ret .block → Program Outcome}
    (h : stage.prog key = .call .block k) : ∃ l, stage = .inside l := by
  cases stage with
  | inside l => exact ⟨l, rfl⟩
  | _ => cases h

end Stage

/-! ## Counting -/

/-- `_waiters` holds no entry for nobody, and otherwise how many they are. -/
def Counts (n : Option ℤ) (tasks : Set ℕ) : Prop :=
  tasks.Finite ∧ n = if tasks.ncard = 0 then none else some (tasks.ncard : ℤ)

section Counting

variable {n : Option ℤ} {tasks : Set ℕ} {t : ℕ}

theorem counts_empty : Counts none ∅ := ⟨Set.finite_empty, by simp⟩

theorem Counts.getD (h : Counts n tasks) : n.getD 0 = tasks.ncard := by
  rw [h.2]
  split
  · next hzero => simp [hzero]
  · rfl

theorem Counts.insert (h : Counts n tasks) (ht : t ∉ tasks) :
    Counts (some (n.getD 0 + 1)) (Insert.insert t tasks) := by
  have hcard : (Insert.insert t tasks).ncard = tasks.ncard + 1 := Set.ncard_insert_of_notMem ht h.1
  refine ⟨h.1.insert t, ?_⟩
  rw [if_neg (by omega), hcard, h.getD]
  push_cast
  rfl

theorem Counts.erase (h : Counts n tasks) (ht : t ∈ tasks) :
    Counts (if n.getD 1 - 1 ≤ 0 then none else some (n.getD 1 - 1)) (tasks \ {t}) := by
  have hcard : (tasks \ {t}).ncard + 1 = tasks.ncard := Set.ncard_sdiff_singleton_add_one ht h.1
  have hn : n = some (tasks.ncard : ℤ) := by
    rw [h.2, if_neg (by omega)]
  refine ⟨h.1.subset Set.sdiff_subset, ?_⟩
  rw [hn, ← hcard]
  simp only [Option.getD_some, Nat.cast_add, Nat.cast_one, add_sub_cancel_right]
  by_cases hzero : (tasks \ {t}).ncard = 0
  · rw [if_pos (by omega), if_pos hzero]
  · rw [if_neg (by omega), if_neg hzero]

/-- Who is left over is nobody when the count runs out. -/
theorem Counts.eq_empty (h : Counts n tasks) (ht : t ∈ tasks) :
    n.getD 1 - 1 ≤ 0 ↔ tasks \ {t} = ∅ := by
  have herase := h.erase ht
  have hcard : (tasks \ {t}).ncard + 1 = tasks.ncard := Set.ncard_sdiff_singleton_add_one ht h.1
  have hn : n = some (tasks.ncard : ℤ) := by
    rw [h.2, if_neg (by omega)]
  rw [← Set.ncard_eq_zero herase.1, hn, Option.getD_some]
  omega

end Counting

/-! ## Who is registered -/

section Registered

variable {w : World} {locker : KeyLocker} {t l : ℕ} {key : Str} (key' : Str)

/-- After one more task is registered. -/
theorem registeredFor_some (ht : w.registered t = none) :
    World.registeredFor ⟨locker, Function.update w.registered t (some (key, l))⟩ key' =
      if key' = key then insert t (w.registeredFor key) else w.registeredFor key' := by
  ext u
  by_cases hu : u = t
  · subst hu
    by_cases hkey : key' = key
    · simp [World.registeredFor, hkey]
    · simp [World.registeredFor, hkey, ht, Ne.symm hkey]
  · by_cases hkey : key' = key
    · simp [World.registeredFor, hkey, hu]
    · simp [World.registeredFor, hkey, hu]

/-- After a task is no longer registered. -/
theorem registeredFor_none (ht : w.registered t = some (key, l)) :
    World.registeredFor ⟨locker, Function.update w.registered t none⟩ key' =
      if key' = key then w.registeredFor key \ {t} else w.registeredFor key' := by
  ext u
  by_cases hu : u = t
  · subst hu
    by_cases hkey : key' = key
    · simp [World.registeredFor, hkey]
    · simp [World.registeredFor, hkey, ht, Ne.symm hkey]
  · by_cases hkey : key' = key
    · simp [World.registeredFor, hkey, hu]
    · simp [World.registeredFor, hkey, hu]

end Registered

/-! ## The invariant -/

/-- The maps say who is registered. -/
structure Maps (w : World) : Prop where
  metaWaiting : w.locker.metaLock.waiting = []
  locks : ∀ t key l, w.registered t = some (key, l) → w.locker.locks key = some l
  unlocked : ∀ key, w.registeredFor key = ∅ → w.locker.locks key = none
  waiters : ∀ key, Counts (w.locker.waiters key) (w.registeredFor key)

/-- What the world says about a task at a stage. -/
structure Owns (w : World) (t : ℕ) (key : Str) (stage : Stage) : Prop where
  registered : w.registered t = stage.lock.map fun l => (key, l)
  critical : w.locker.metaLock.holder = some t ↔ stage.critical = true
  holds : ∀ l, stage.holds = some l → (w.locker.object l).holder = some t

/-- A step of another task leaves what the world says about `u`. -/
structure Spares (u : ℕ) (w w' : World) : Prop where
  registered : w'.registered u = w.registered u
  critical : w'.locker.metaLock.holder = some u ↔ w.locker.metaLock.holder = some u
  holds : ∀ l, (w.locker.object l).holder = some u → (w'.locker.object l).holder = some u

structure Inv (c : Config Op Ret World Str Outcome) : Prop where
  maps : Maps c.world
  task : ∀ t key p, c.task t = some (key, p) →
    ∃ stage : Stage, p = stage.prog key ∧ Owns c.world t key stage
  absent : ∀ t, c.task t = none →
    c.world.registered t = none ∧ c.world.locker.metaLock.holder ≠ some t

section Steps

variable {w w' : World} {t u : ℕ} {key : Str} {stage : Stage} {l : ℕ}

theorem Owns.spared (h : Owns w u key stage) (hspares : Spares u w w') : Owns w' u key stage where
  registered := hspares.registered.trans h.registered
  critical := hspares.critical.trans h.critical
  holds l hl := hspares.holds l (h.holds l hl)

/-- A step on a lock that `u` does not hold, after which `u` does not hold it. -/
theorem spares_setLock {ref : LockRef} {lock : AsyncLock}
    (hbefore : (w.locker.lock ref).holder ≠ some u) (hafter : lock.holder ≠ some u) :
    Spares u w (w.setLock lock ref) := by
  cases ref with
  | metaLock => exact ⟨rfl, iff_of_false hafter hbefore, fun _ h => h⟩
  | keyed l =>
    refine ⟨rfl, Iff.rfl, fun l' h => ?_⟩
    have hne : l' ≠ l := fun heq => hbefore (heq ▸ h)
    show (Function.update w.locker.object l lock l').holder = some u
    rwa [Function.update_of_ne hne]

/-- A step on a lock that leaves its holder. -/
theorem spares_of_holder {ref : LockRef} {lock : AsyncLock}
    (h : lock.holder = (w.locker.lock ref).holder) : Spares u w (w.setLock lock ref) := by
  cases ref with
  | metaLock =>
    refine ⟨rfl, ?_, fun _ h => h⟩
    show lock.holder = some u ↔ _
    rw [h]
    rfl
  | keyed l =>
    refine ⟨rfl, Iff.rfl, fun l' hl' => ?_⟩
    show (Function.update w.locker.object l lock l').holder = some u
    by_cases heq : l' = l
    · subst heq
      rw [Function.update_self, h]
      exact hl'
    · rwa [Function.update_of_ne heq]

theorem Maps.setLock {ref : LockRef} {lock : AsyncLock} (h : Maps w)
    (hmeta : ref = .metaLock → lock.waiting = []) : Maps (w.setLock lock ref) := by
  cases ref with
  | metaLock => exact ⟨hmeta rfl, h.locks, h.unlocked, h.waiters⟩
  | keyed l => exact ⟨h.metaWaiting, h.locks, h.unlocked, h.waiters⟩

/-- Registering adds the task to its key, with the lock the others use. -/
theorem Maps.register (h : Maps w) (ht : w.registered t = none) :
    Maps ⟨(w.locker.register key).2,
      Function.update w.registered t (some (key, (w.locker.register key).1))⟩ := by
  have hnot : t ∉ w.registeredFor key := fun ⟨l, hl⟩ => by
    rw [ht] at hl
    cases hl
  refine ⟨h.metaWaiting, fun u key' l hu => ?_, fun key' hempty => ?_, fun key' => ?_⟩
  · show Function.update w.locker.locks key (some _) key' = some l
    by_cases hut : u = t
    · subst hut
      obtain ⟨rfl, rfl⟩ : key = key' ∧ (w.locker.register key).1 = l := by simpa using hu
      exact Function.update_self ..
    · have hu : w.registered u = some (key', l) := by simpa [hut] using hu
      have hlocks := h.locks u key' l hu
      by_cases heq : key' = key
      · subst heq
        rw [Function.update_self, hlocks]
        rfl
      · rwa [Function.update_of_ne heq]
  · rw [registeredFor_some _ ht] at hempty
    show Function.update w.locker.locks key (some _) key' = none
    by_cases heq : key' = key
    · rw [if_pos heq] at hempty
      exact absurd hempty (Set.insert_nonempty ..).ne_empty
    · rw [if_neg heq] at hempty
      rw [Function.update_of_ne heq]
      exact h.unlocked key' hempty
  · rw [registeredFor_some _ ht]
    show Counts (Function.update w.locker.waiters key (some _) key') _
    by_cases heq : key' = key
    · subst heq
      rw [if_pos rfl, Function.update_self]
      exact (h.waiters key').insert hnot
    · rw [if_neg heq, Function.update_of_ne heq]
      exact h.waiters key'

/-- Unregistering takes the task from its key, and drops the entries with the
last one. -/
theorem Maps.unregister (h : Maps w) (ht : w.registered t = some (key, l)) :
    Maps ⟨w.locker.unregister key, Function.update w.registered t none⟩ := by
  have hmem : t ∈ w.registeredFor key := ⟨l, ht⟩
  have hempty := (h.waiters key).eq_empty hmem
  refine ⟨?_, fun u key' l' hu => ?_, fun key' hnobody => ?_, fun key' => ?_⟩
  · rw [KeyLocker.unregister_metaLock]
    exact h.metaWaiting
  · have hut : u ≠ t := fun heq => by simp [heq] at hu
    have hu' : w.registered u = some (key', l') := by simpa [hut] using hu
    rw [KeyLocker.unregister_locks]
    split
    · next hlast =>
      have hne : key' ≠ key := by
        intro heq
        have hin : u ∈ w.registeredFor key \ {t} := ⟨⟨l', heq ▸ hu'⟩, hut⟩
        rw [hempty.mp hlast] at hin
        exact hin
      rw [Function.update_of_ne hne]
      exact h.locks u key' l' hu'
    · exact h.locks u key' l' hu'
  · rw [registeredFor_none _ ht] at hnobody
    rw [KeyLocker.unregister_locks]
    by_cases heq : key' = key
    · rw [if_pos heq] at hnobody
      rw [if_pos (hempty.mpr hnobody), heq, Function.update_self]
    · rw [if_neg heq] at hnobody
      split
      · rw [Function.update_of_ne heq]
        exact h.unlocked key' hnobody
      · exact h.unlocked key' hnobody
  · rw [registeredFor_none _ ht, KeyLocker.unregister_waiters]
    by_cases heq : key' = key
    · subst heq
      rw [if_pos rfl, Function.update_self]
      exact (h.waiters key').erase hmem
    · rw [if_neg heq, Function.update_of_ne heq]
      exact h.waiters key'

/-- Nobody holds or queues for `self._meta` between two stretches, so it is
acquired at once. -/
theorem tryAcquire_meta (h : Maps w) (hfree : w.locker.metaLock.holder = none) :
    w.locker.metaLock.tryAcquire t = (true, { w.locker.metaLock with holder := some t }) := by
  have hlock : w.locker.metaLock.Free := ⟨hfree, by simp [h.metaWaiting]⟩
  exact if_pos hlock

/-- What one step of a task does, from each of its stages. -/
theorem own_step {o : Op} {k : Ret o → Program Outcome} {r : Ret o} (hmaps : Maps w)
    (howns : Owns w t key stage)
    (hfree : stage.critical = false → w.locker.metaLock.holder = none)
    (hprog : stage.prog key = .call o k) (hex : exec t o w r w') :
    Maps w' ∧ (∃ stage' : Stage, k r = stage'.prog key ∧ Owns w' t key stage') ∧
      ∀ u, u ≠ t → Spares u w w' := by
  have hself : ∀ {u}, u ≠ t → (some t : Option ℕ) ≠ some u :=
    fun hu h => hu (Option.some.inj h).symm
  cases stage with
  | entering =>
    cases hprog
    have hnone := hfree rfl
    obtain ⟨rfl, rfl⟩ := hex
    simp only [KeyLocker.lock, tryAcquire_meta hmaps hnone]
    refine ⟨hmaps.setLock fun _ => hmaps.metaWaiting, ⟨.registering, rfl, ?_⟩, fun u hu => ?_⟩
    · exact ⟨howns.registered, iff_of_true rfl rfl, fun _ h => by cases h⟩
    · exact spares_setLock (by rw [KeyLocker.lock, hnone]; simp) (hself hu)
  | registering =>
    cases hprog
    obtain ⟨rfl, rfl⟩ := hex
    refine ⟨hmaps.register howns.registered, ⟨.registered _, rfl, ?_⟩, fun u hu => ?_⟩
    · exact ⟨Function.update_self .., howns.critical, fun _ h => by cases h⟩
    · exact ⟨Function.update_of_ne hu .., Iff.rfl, fun _ h => h⟩
  | registered l =>
    cases hprog
    obtain rfl := hex
    refine ⟨hmaps.setLock fun _ => hmaps.metaWaiting, ⟨.locking l, rfl, ?_⟩, fun u hu => ?_⟩
    · exact ⟨howns.registered, iff_of_false (fun h => by cases h) (fun h => by cases h),
        fun _ h => by cases h⟩
    · exact spares_setLock (by rw [KeyLocker.lock, howns.critical.mpr rfl]; exact hself hu)
        (by simp)
  | locking l =>
    cases hprog
    obtain ⟨rfl, rfl⟩ := hex
    rcases (w.locker.object l).tryAcquire_eq t with ⟨heq, hlock⟩ | ⟨heq, -⟩ <;>
      simp only [KeyLocker.lock, heq]
    · refine ⟨hmaps.setLock (fun h => by cases h), ⟨.inside l, rfl, ?_⟩, fun u hu => ?_⟩
      · refine ⟨howns.registered, howns.critical, ?_⟩
        rintro _ ⟨⟩
        exact congrArg AsyncLock.holder (Function.update_self l _ w.locker.object)
      · exact spares_setLock (by rw [KeyLocker.lock, hlock.1]; simp) (hself hu)
    · refine ⟨hmaps.setLock (fun h => by cases h), ⟨.waiting l, ?_, ?_⟩,
        fun u _ => spares_of_holder rfl⟩
      · show Prog.call _ _ = Prog.call _ _
        refine congrArg _ (funext fun entered => ?_)
        cases entered <;> rfl
      · exact ⟨howns.registered, howns.critical, fun _ h => by cases h⟩
  | waiting l =>
    cases hprog
    cases r with
    | ok _ =>
      obtain ⟨hnext, rfl⟩ := hex
      refine ⟨hmaps.setLock (fun h => by cases h), ⟨.inside l, rfl, ?_⟩, fun u hu => ?_⟩
      · refine ⟨howns.registered, howns.critical, ?_⟩
        rintro _ ⟨⟩
        exact congrArg AsyncLock.holder (Function.update_self l _ w.locker.object)
      · exact spares_setLock (by rw [hnext.1]; simp) (hself hu)
    | error e =>
      obtain ⟨-, rfl⟩ := hex
      refine ⟨hmaps.setLock (fun h => by cases h), ⟨.leaving l (.error e), rfl, ?_⟩, fun u _ =>
        spares_of_holder rfl⟩
      exact ⟨howns.registered, howns.critical, fun _ h => by cases h⟩
  | inside l =>
    cases hprog
    obtain rfl := hex
    refine ⟨hmaps, ⟨.releasing l r, rfl, ?_⟩, fun u _ => ⟨rfl, Iff.rfl, fun _ h => h⟩⟩
    exact ⟨howns.registered, howns.critical, howns.holds⟩
  | releasing l result =>
    cases hprog
    obtain rfl := hex
    refine ⟨hmaps.setLock (fun h => by cases h), ⟨.leaving l result, rfl, ?_⟩, fun u hu => ?_⟩
    · exact ⟨howns.registered, howns.critical, fun _ h => by cases h⟩
    · exact spares_setLock (by rw [KeyLocker.lock, howns.holds l rfl]; exact hself hu) (by simp)
  | leaving l result =>
    cases hprog
    have hnone := hfree rfl
    obtain ⟨rfl, rfl⟩ := hex
    simp only [KeyLocker.lock, tryAcquire_meta hmaps hnone]
    refine ⟨hmaps.setLock fun _ => hmaps.metaWaiting, ⟨.unregistering l result, rfl, ?_⟩,
      fun u hu => ?_⟩
    · exact ⟨howns.registered, iff_of_true rfl rfl, fun _ h => by cases h⟩
    · exact spares_setLock (by rw [KeyLocker.lock, hnone]; simp) (hself hu)
  | unregistering l result =>
    cases hprog
    obtain rfl := hex
    refine ⟨hmaps.unregister howns.registered, ⟨.unregistered result, rfl, ?_⟩, fun u hu => ?_⟩
    · refine ⟨Function.update_self .., ?_, fun _ h => by cases h⟩
      rw [KeyLocker.unregister_metaLock]
      exact howns.critical
    · refine ⟨Function.update_of_ne hu .., ?_, fun _ h => ?_⟩
      · rw [KeyLocker.unregister_metaLock]
      · rwa [KeyLocker.unregister_object]
  | unregistered result =>
    cases hprog
    obtain rfl := hex
    refine ⟨hmaps.setLock fun _ => hmaps.metaWaiting, ⟨.done result, rfl, ?_⟩, fun u hu => ?_⟩
    · exact ⟨howns.registered, iff_of_false (fun h => by cases h) (fun h => by cases h),
        fun _ h => by cases h⟩
    · exact spares_setLock (by rw [KeyLocker.lock, howns.critical.mpr rfl]; exact hself hu)
        (by simp)
  | done result => cases hprog

end Steps

/-! ## Every run -/

section Runs

variable {c c' : Config Op Ret World Str Outcome} {ev : Event Op Ret Str} {t : ℕ} {key : Str}
  {stage : Stage}

/-- While a task is not under `self._meta` and the others wait, nobody is. -/
theorem meta_free (hinv : Inv c) (hwait : ∀ u, u ≠ t → system.Waits c u)
    (howns : Owns c.world t key stage) (hstage : stage.critical = false) :
    c.world.locker.metaLock.holder = none := by
  cases hholder : c.world.locker.metaLock.holder with
  | none => rfl
  | some u =>
    by_cases hut : u = t
    · subst hut
      rw [howns.critical.mp hholder] at hstage
      cases hstage
    · cases htask : c.task u with
      | none => exact absurd hholder (hinv.absent u htask).2
      | some entry =>
        obtain ⟨key', p⟩ := entry
        obtain ⟨stage', rfl, howns'⟩ := hinv.task u key' p htask
        obtain ⟨o, k, hprog, hyields⟩ : ∃ o k, stage'.prog key' = .call o k ∧ yields o = false :=
          Stage.not_yields_of_critical (howns'.critical.mp hholder)
        have hwaits : yields o = true := hwait u hut key' o k (by rw [htask, hprog])
        rw [hyields] at hwaits
        cases hwaits

theorem inv_init (hinit : system.Init c) : Inv c := by
  obtain ⟨hworld, hnone⟩ := hinit
  have hworld : c.world = {} := hworld
  refine ⟨⟨by rw [hworld], fun t key l h => ?_, fun key _ => by rw [hworld], fun key => ?_⟩,
    fun t key p h => ?_, fun t _ => ⟨by rw [hworld], by rw [hworld]; nofun⟩⟩
  · rw [hworld] at h
    cases h
  · rw [hworld, show World.registeredFor {} key = ∅ from ?_]
    · exact counts_empty
    · ext t
      exact iff_of_false nofun id
  · rw [hnone t] at h
    cases h

theorem inv_step (hinv : Inv c) (hstep : system.Step c ev c') : Inv c' := by
  cases hstep with
  | @start t key hquiet hnone =>
    refine ⟨hinv.maps, fun u key' p hu => ?_, fun u hu => ?_⟩
    · by_cases hut : u = t
      · subst hut
        obtain ⟨rfl, rfl⟩ : key = key' ∧ hold key = p := by simpa [system] using hu
        obtain ⟨hregistered, hmeta⟩ := hinv.absent u hnone
        exact ⟨.entering, rfl, hregistered, iff_of_false hmeta nofun, nofun⟩
      · simp only [Function.update_of_ne hut] at hu
        exact hinv.task u key' p hu
    · by_cases hut : u = t
      · subst hut
        simp at hu
      · simp only [Function.update_of_ne hut] at hu
        exact hinv.absent u hu
  | @call t key o k r w hwait htask hex =>
    obtain ⟨stage, hprog, howns⟩ := hinv.task t key _ htask
    obtain ⟨hmaps, ⟨stage', hnext, howns'⟩, hspares⟩ :=
      own_step hinv.maps howns (meta_free hinv hwait howns) hprog.symm hex
    refine ⟨hmaps, fun u key' p hu => ?_, fun u hu => ?_⟩
    · by_cases hut : u = t
      · subst hut
        obtain ⟨rfl, rfl⟩ : key = key' ∧ k r = p := by simpa using hu
        exact ⟨stage', hnext, howns'⟩
      · simp only [Function.update_of_ne hut] at hu
        obtain ⟨other, hprog', hother⟩ := hinv.task u key' p hu
        exact ⟨other, hprog', hother.spared (hspares u hut)⟩
    · have hut : u ≠ t := by
        intro heq
        subst heq
        simp at hu
      simp only [Function.update_of_ne hut] at hu
      obtain ⟨hregistered, hmeta⟩ := hinv.absent u hu
      have hspared := hspares u hut
      exact ⟨hspared.registered.trans hregistered, fun h => hmeta (hspared.critical.mp h)⟩
  | @env w hquiet henv =>
    obtain ⟨t, rfl⟩ := henv
    have hmaps := hinv.maps
    refine ⟨⟨?_, hmaps.locks, hmaps.unlocked, hmaps.waiters⟩, fun u key p hu => ?_, hinv.absent⟩
    · show (c.world.locker.metaLock.cancel t).waiting = []
      simp [AsyncLock.cancel, hmaps.metaWaiting]
    · obtain ⟨stage, hprog, howns⟩ := hinv.task u key p hu
      exact ⟨stage, hprog, howns.registered, howns.critical, howns.holds⟩

theorem invariant (hreach : system.Reachable c) : Inv c := by
  induction hreach with
  | init hinit => exact inv_init hinit
  | step _ hstep ih => exact inv_step ih hstep

/-- A lock object that the call takes, waits for or gives back. -/
def Uses (o : Op) (l : ℕ) : Prop :=
  o = .tryAcquire (.keyed l) ∨ o = .wait (.keyed l) ∨ o = .release (.keyed l)

/-- What the class promises, after any step of the event loop. -/
structure Correct (c : Config Op Ret World Str Outcome) : Prop where
  exclusive : ∀ key t u, Inside c t key → Inside c u key → t = u
  shared : ∀ key t u l l', c.world.registered t = some (key, l) →
    c.world.registered u = some (key, l') → l = l'
  counted : ∀ key, (c.world.registeredFor key).Finite ∧
    (c.world.locker.waiters key).getD 0 = (c.world.registeredFor key).ncard
  present : ∀ key, c.world.locker.locks key ≠ none ↔ 0 < (c.world.registeredFor key).ncard
  clean : (∀ t, c.world.registered t = none) →
    ∀ key, c.world.locker.locks key = none ∧ c.world.locker.waiters key = none
  inside : ∀ key t, Inside c t key → t ∈ c.world.registeredFor key
  uses : ∀ key t o k l, c.task t = some (key, .call o k) → Uses o l →
    c.world.registered t = some (key, l)
  returned : ∀ key t r, c.task t = some (key, .ret r) → c.world.registered t = none

/-- A task uses the lock object it is registered with. -/
theorem Stage.lock_of_uses {o : Op} {k : Ret o → Program Outcome} {l : ℕ}
    (hprog : stage.prog key = .call o k) (huses : Uses o l) : stage.lock = some l := by
  rcases huses with rfl | rfl | rfl <;> cases stage <;> cases hprog <;> rfl

theorem Stage.lock_of_ret {r : Outcome} (hprog : stage.prog key = .ret r) : stage.lock = none := by
  cases stage with
  | done => rfl
  | _ => cases hprog

theorem Inv.inside (hinv : Inv c) (h : Inside c t key) :
    ∃ l, c.world.registered t = some (key, l) ∧ (c.world.locker.object l).holder = some t := by
  obtain ⟨k, htask⟩ := h
  obtain ⟨stage, hprog, howns⟩ := hinv.task t key _ htask
  obtain ⟨l, rfl⟩ := Stage.eq_inside hprog.symm
  exact ⟨l, howns.registered, howns.holds l rfl⟩

/-- **The keyed mutex.** -/
theorem keyed_mutex (hreach : system.Reachable c) : Correct c := by
  have hinv := invariant hreach
  have hshared : ∀ key t u l l', c.world.registered t = some (key, l) →
      c.world.registered u = some (key, l') → l = l' := by
    intro key t u l l' ht hu
    have ht' := hinv.maps.locks t key l ht
    have hu' := hinv.maps.locks u key l' hu
    exact Option.some.inj (ht'.symm.trans hu')
  refine ⟨fun key t u ht hu => ?_, hshared, fun key => ?_, fun key => ?_, fun hnobody key => ?_,
    fun key t h => ?_, fun key t o k l htask huses => ?_, fun key t r htask => ?_⟩
  · obtain ⟨l, htl, htheld⟩ := hinv.inside ht
    obtain ⟨l', hul, huheld⟩ := hinv.inside hu
    obtain rfl := hshared key t u l l' htl hul
    exact Option.some.inj (htheld.symm.trans huheld)
  · exact ⟨(hinv.maps.waiters key).1, (hinv.maps.waiters key).getD⟩
  · have hfinite := (hinv.maps.waiters key).1
    rw [Set.ncard_pos hfinite]
    constructor
    · intro hlocked
      rw [Set.nonempty_iff_ne_empty]
      exact fun hempty => hlocked (hinv.maps.unlocked key hempty)
    · rintro ⟨t, l, ht⟩
      rw [hinv.maps.locks t key l ht]
      nofun
  · have hempty : c.world.registeredFor key = ∅ := by
      refine Set.eq_empty_of_forall_notMem fun t => ?_
      rintro ⟨l, hl⟩
      rw [hnobody t] at hl
      cases hl
    refine ⟨hinv.maps.unlocked key hempty, ?_⟩
    have hcounts := (hinv.maps.waiters key).2
    rwa [hempty, Set.ncard_empty, if_pos rfl] at hcounts
  · obtain ⟨l, hl, -⟩ := hinv.inside h
    exact ⟨l, hl⟩
  · obtain ⟨stage, hprog, howns⟩ := hinv.task t key _ htask
    rw [howns.registered, Stage.lock_of_uses hprog.symm huses]
    rfl
  · obtain ⟨stage, hprog, howns⟩ := hinv.task t key _ htask
    rw [howns.registered, Stage.lock_of_ret hprog.symm]
    rfl

end Runs

/-! ## A contended key -/

section Scenario

/-- How a wait or a block ends, and whom the environment cancels. -/
structure Choice where
  ends : Outcome := .ok ()
  cancels : ℕ := 0

def respond (a : Choice) (t : ℕ) : (o : Op) → World → Option (Ret o × World)
  | .tryAcquire ref, w =>
    let (acquired, lock) := (w.locker.lock ref).tryAcquire t
    some (acquired, w.setLock lock ref)
  | .wait ref, w =>
    match a.ends with
    | .ok () =>
      if (w.locker.lock ref).Next t then
        some (.ok (), w.setLock ((w.locker.lock ref).take t) ref)
      else none
    | .error _ => some (.error .cancelled, w.setLock ((w.locker.lock ref).leave t) ref)
  | .release ref, w => some ((), w.setLock (w.locker.lock ref).release ref)
  | .register key, w =>
    let (l, locker) := w.locker.register key
    some (l, ⟨locker, Function.update w.registered t (some (key, l))⟩)
  | .unregister key, w =>
    some ((), ⟨w.locker.unregister key, Function.update w.registered t none⟩)
  | .block, w => some (a.ends, w)

theorem respond_sound {a : Choice} {o : Op} {t : ℕ} {w w' : World} {r : Ret o}
    (h : respond a t o w = some (r, w')) : exec t o w r w' := by
  cases o with
  | tryAcquire | register =>
    obtain ⟨rfl, rfl⟩ := Prod.mk.inj (Option.some.inj h)
    exact ⟨rfl, rfl⟩
  | release | unregister | block =>
    obtain ⟨rfl, rfl⟩ := Prod.mk.inj (Option.some.inj h)
    rfl
  | wait ref =>
    simp only [respond] at h
    split at h
    · split at h
      · next hnext =>
        obtain ⟨rfl, rfl⟩ := Prod.mk.inj (Option.some.inj h)
        exact ⟨hnext, rfl⟩
      · cases h
    · obtain ⟨rfl, rfl⟩ := Prod.mk.inj (Option.some.inj h)
      exact ⟨rfl, rfl⟩

def driver : Driver system Choice where
  respond := respond
  drift a w := some { w with locker := w.locker.cancel a.cancels }
  respond_sound := respond_sound
  drift_sound {a _ _} h := ⟨a.cancels, (Option.some.inj h).symm⟩

def one : Str := "one".toList

/-- Two tasks queue behind a third one, the first of them is cancelled, and the
block of the holder raises. -/
def schedule : List (Move Str Choice) :=
  [.start 0 one {}, .start 1 one {}, .start 2 one {}, .env { cancels := 1 },
    .call 0 { ends := .error .raised }, .call 2 {}, .call 1 { ends := .error .cancelled }]

/-- Is the task about to end its block? -/
def inBlock (c : Config Op Ret World Str Outcome) (t : ℕ) : Bool :=
  match c.task t with
  | some (_, .call .block _) => true
  | _ => false

theorem inside_of_inBlock {c : Config Op Ret World Str Outcome} {t : ℕ} (h : inBlock c t = true) :
    ∃ key, Inside c t key := by
  unfold inBlock at h
  split at h
  · next key k htask => exact ⟨key, k, htask⟩
  · cases h

theorem schedule_contends :
    (driver.replay schedule (Driver.boot {})).any (fun c =>
      inBlock c 2 && decide (c.world.locker.waiters one = some 1)) = true := by
  decide +kernel

theorem keyed_mutex_contended : ∃ c, (∃ key, Inside c 2 key) ∧
    c.world.locker.waiters one = some 1 ∧ Correct c := by
  obtain ⟨c, hreplay, hfound⟩ := (Option.any_eq_true _ _).mp schedule_contends
  obtain ⟨hinside, hcount⟩ := Bool.and_eq_true_iff.mp hfound
  exact ⟨c, inside_of_inBlock hinside, of_decide_eq_true hcount,
    keyed_mutex (Driver.replay_boot rfl hreplay).1⟩

end Scenario

end ProxyCache.Theorems.KeyedMutex
