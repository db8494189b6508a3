import Mathlib.Algebra.Order.Ring.Int
import Mathlib.Data.List.AList

/-!
# Tables of background tasks

A table names at most one task for each key, up to a limit. A task that is finished stays in the
table until its callback runs, or until somebody who waited for it sweeps it away; meanwhile it may
have been replaced by a newer task of the same key.

`Consistent` says what the table knows about the tasks. It is kept by every operation, whatever
the order in which tasks finish, callbacks run and sweeps are made.
-/

namespace ProxyCache.Lib

/-- A finished task has yet to run its callback. -/
inductive Life where
  | unfinished
  | finished
  | settled
  deriving DecidableEq, Repr

structure BackgroundTask (κ ι : Type) where
  key : κ
  job : ι
  life : Life := .unfinished

/-- The tasks by the order in which they were created, and the table of their numbers. -/
structure TaskQueue (κ ι : Type) where
  tasks : List (BackgroundTask κ ι) := []
  pending : AList fun _ : κ => ℕ := ∅

/-- What became of a request for a task. -/
inductive Submission where
  | created
  | coalesced
  | dropped
  deriving DecidableEq, Repr

namespace TaskQueue

variable {κ ι : Type} [DecidableEq κ]

/-! ## Operations -/

section Operations

variable (q : TaskQueue κ ι)

def life (t : ℕ) : Option Life := (q.tasks[t]?).map (·.life)

/-- `task.done()`. -/
def done (t : ℕ) : Bool := q.life t != some .unfinished

def size : ℕ := q.pending.keys.length

/-- A task of the key is in the table and unfinished. -/
def busy (k : κ) : Bool := (q.pending.lookup k).any fun t => !q.done t

/-- A new task for the key, unless there is one or the table is full. -/
def submit (limit : ℤ) (k : κ) (job : ι) : TaskQueue κ ι × Submission :=
  if q.busy k then (q, .coalesced)
  else if max 0 limit ≤ q.size then (q, .dropped)
  else
    ({ tasks := q.tasks ++ [{ key := k, job }]
       pending := q.pending.insert k q.tasks.length }, .created)

/-- The task goes on to a later part of its life. -/
def setLife (t : ℕ) (life : Life) : TaskQueue κ ι :=
  { q with tasks := q.tasks.modify t fun task => { task with life } }

def finish (t : ℕ) : TaskQueue κ ι :=
  if q.life t = some .unfinished then q.setLife t .finished else q

/-- The key's entry goes, if it is this task's. -/
def removeIfCurrent (k : κ) (t : ℕ) : TaskQueue κ ι :=
  if q.pending.lookup k = some t then { q with pending := q.pending.erase k } else q

/-- The callback of a finished task. -/
def callback (t : ℕ) : TaskQueue κ ι :=
  match q.tasks[t]? with
  | some task =>
    if task.life = .finished then (q.setLife t .settled).removeIfCurrent task.key t else q
  | none => q

/-- The entries, as they are. -/
def items : List (κ × ℕ) := q.pending.entries.map fun entry => (entry.1, entry.2)

/-- One of the entries that were waited for. -/
def sweepOne (item : κ × ℕ) : TaskQueue κ ι :=
  if q.done item.2 then q.removeIfCurrent item.1 item.2 else q

/-- The entries that were waited for are removed, where they are done and still the same. -/
def sweep (items : List (κ × ℕ)) : TaskQueue κ ι := items.foldl sweepOne q

/-- One of the entries, whatever the key's entry is by now. -/
def discardOne (item : κ × ℕ) : TaskQueue κ ι :=
  if q.done item.2 then { q with pending := q.pending.erase item.1 } else q

/-- All done entries are removed. -/
def discard : TaskQueue κ ι := q.items.foldl discardOne q

end Operations

/-! ## The operations as one -/

/-- An operation on a table. -/
inductive Action (κ ι : Type) where
  | submit (k : κ) (job : ι)
  | finish (t : ℕ)
  | callback (t : ℕ)
  | sweep (items : List (κ × ℕ))

def act (limit : ℤ) (q : TaskQueue κ ι) : Action κ ι → TaskQueue κ ι
  | .submit k job => (q.submit limit k job).1
  | .finish t => q.finish t
  | .callback t => q.callback t
  | .sweep items => q.sweep items

/-! ## What the table knows -/

structure Consistent (q : TaskQueue κ ι) : Prop where
  /-- An entry is a task of its key that has not run its callback. -/
  entry : ∀ k t, q.pending.lookup k = some t →
    ∃ task, q.tasks[t]? = some task ∧ task.key = k ∧ task.life ≠ .settled
  /-- An unfinished task is an entry. -/
  mapped : ∀ t task, q.tasks[t]? = some task → task.life = .unfinished →
    q.pending.lookup task.key = some t

section Invariant

variable {q : TaskQueue κ ι} {limit : ℤ} {k : κ} {t : ℕ} {job : ι}

theorem consistent_empty : Consistent ({} : TaskQueue κ ι) where
  entry := nofun
  mapped := nofun

omit [DecidableEq κ] in
theorem done_eq_false_iff : q.done t = false ↔ q.life t = some .unfinished := by
  rw [done, bne_eq_false_iff_eq]

theorem busy_eq_false_iff : q.busy k = false ↔ ∀ t, q.pending.lookup k = some t →
    q.done t = true := by
  unfold busy
  cases q.pending.lookup k with
  | none => simp
  | some t => simp

omit [DecidableEq κ] in
theorem life_of_getElem? {task : BackgroundTask κ ι} (h : q.tasks[t]? = some task) :
    q.life t = some task.life := by
  rw [life, h]
  rfl

/-- An unfinished task of the key makes it busy. -/
theorem Consistent.busy (h : q.Consistent) {task : BackgroundTask κ ι}
    (htask : q.tasks[t]? = some task)
    (hlife : task.life = .unfinished) : q.busy task.key = true := by
  have hdone : q.done t = false := by
    rw [done_eq_false_iff, life_of_getElem? htask, hlife]
  rw [TaskQueue.busy, h.mapped t task htask hlife]
  simp [hdone]

/-- A key has at most one unfinished task. -/
theorem Consistent.unique (h : q.Consistent) {t t' : ℕ} {task task' : BackgroundTask κ ι}
    (htask : q.tasks[t]? = some task) (htask' : q.tasks[t']? = some task')
    (hlife : task.life = .unfinished) (hlife' : task'.life = .unfinished)
    (hkey : task.key = task'.key) : t = t' := by
  have hentry := h.mapped t task htask hlife
  rw [hkey, h.mapped t' task' htask' hlife'] at hentry
  exact (Option.some.inj hentry).symm

/-! ### Submitting -/

theorem submit_coalesced (h : q.busy k = true) : q.submit limit k job = (q, .coalesced) := if_pos h

theorem submit_dropped (h : q.busy k = false) (hfull : max 0 limit ≤ q.size) :
    q.submit limit k job = (q, .dropped) := by
  rw [submit, if_neg (by rw [h]; exact Bool.false_ne_true), if_pos hfull]

theorem submit_created (h : q.busy k = false) (hroom : (q.size : ℤ) < max 0 limit) :
    q.submit limit k job =
      ({ tasks := q.tasks ++ [{ key := k, job }], pending := q.pending.insert k q.tasks.length },
        .created) := by
  rw [submit, if_neg (by rw [h]; exact Bool.false_ne_true), if_neg (not_le.mpr hroom)]

/-- What a request does. -/
theorem submit_cases (limit : ℤ) (q : TaskQueue κ ι) (k : κ) (job : ι) :
    (q.busy k = true ∧ q.submit limit k job = (q, .coalesced)) ∨
    (q.busy k = false ∧ max 0 limit ≤ q.size ∧ q.submit limit k job = (q, .dropped)) ∨
    (q.busy k = false ∧ (q.size : ℤ) < max 0 limit ∧ q.submit limit k job =
      ({ tasks := q.tasks ++ [{ key := k, job }], pending := q.pending.insert k q.tasks.length },
        .created)) := by
  cases hbusy : q.busy k with
  | true => exact .inl ⟨rfl, submit_coalesced hbusy⟩
  | false =>
    rcases le_or_gt (max 0 limit) (q.size : ℤ) with hfull | hroom
    · exact .inr (.inl ⟨rfl, hfull, submit_dropped hbusy hfull⟩)
    · exact .inr (.inr ⟨rfl, hroom, submit_created hbusy hroom⟩)

/-- The new task takes the place of a finished one, or none. -/
theorem Consistent.insert (h : q.Consistent) (hbusy : q.busy k = false) :
    Consistent
      { tasks := q.tasks ++ [{ key := k, job }]
        pending := q.pending.insert k q.tasks.length } where
  entry k' t' hlookup := by
    by_cases hk : k' = k
    · subst hk
      rw [AList.lookup_insert] at hlookup
      obtain rfl := Option.some.inj hlookup
      exact ⟨{ key := k', job }, by simp, rfl, nofun⟩
    · rw [AList.lookup_insert_ne hk] at hlookup
      obtain ⟨task, htask, hkey⟩ := h.entry k' t' hlookup
      have hlt : t' < q.tasks.length := (List.getElem?_eq_some_iff.mp htask).1
      exact ⟨task, (List.getElem?_append_left hlt).trans htask, hkey⟩
  mapped t' task htask hlife := by
    rcases lt_or_ge t' q.tasks.length with hlt | hge
    · simp only at htask
      rw [List.getElem?_append_left hlt] at htask
      have hne : task.key ≠ k := by
        rintro rfl
        exact Bool.false_ne_true (hbusy.symm.trans (h.busy htask hlife))
      exact (AList.lookup_insert_ne hne).trans (h.mapped t' task htask hlife)
    · -- the new task itself
      have hlt : t' < (q.tasks ++ [({ key := k, job } : BackgroundTask κ ι)]).length :=
        (List.getElem?_eq_some_iff.mp htask).1
      have ht : t' = q.tasks.length := by
        rw [List.length_append, List.length_singleton] at hlt
        omega
      subst ht
      obtain rfl : ({ key := k, job } : BackgroundTask κ ι) = task := by simpa using htask
      exact AList.lookup_insert _

theorem Consistent.submit (h : q.Consistent) (limit : ℤ) (k : κ) (job : ι) :
    (q.submit limit k job).1.Consistent := by
  obtain ⟨-, heq⟩ | ⟨-, -, heq⟩ | ⟨hbusy, -, heq⟩ := submit_cases limit q k job
  · rwa [heq]
  · rwa [heq]
  · rw [heq]
    exact h.insert hbusy

theorem size_submit_le (limit : ℤ) (k : κ) (job : ι) (h : (q.size : ℤ) ≤ max 0 limit) :
    ((q.submit limit k job).1.size : ℤ) ≤ max 0 limit := by
  obtain ⟨-, heq⟩ | ⟨-, -, heq⟩ | ⟨-, hroom, heq⟩ := submit_cases limit q k job
  · rwa [heq]
  · rwa [heq]
  · rw [heq]
    have hle : ((q.pending.insert k q.tasks.length).keys.length : ℤ) ≤ q.size + 1 := by
      rw [AList.keys_insert, List.length_cons]
      have := List.length_erase_le (a := k) (l := q.pending.keys)
      simp only [size]
      omega
    exact le_trans hle (by omega)

/-! ### The life of a task -/

omit [DecidableEq κ] in
theorem getElem?_setLife (q : TaskQueue κ ι) (t : ℕ) (life : Life) (t' : ℕ) :
    (q.setLife t life).tasks[t']? =
      if t = t' then (q.tasks[t']?).map fun task => { task with life } else q.tasks[t']? := by
  rw [setLife, List.getElem?_modify]
  split
  · rfl
  · simp

/-- Finishing a task keeps its entry, whose callback is due. -/
theorem Consistent.finish (h : q.Consistent) (t : ℕ) : (q.finish t).Consistent := by
  unfold TaskQueue.finish
  split
  · refine ⟨fun k t' hlookup => ?_, fun t' task htask hlife => ?_⟩
    · obtain ⟨task, htask, hkey, hlife⟩ := h.entry k t' hlookup
      rw [getElem?_setLife, htask]
      split
      · exact ⟨_, rfl, hkey, nofun⟩
      · exact ⟨task, rfl, hkey, hlife⟩
    · rw [getElem?_setLife] at htask
      split at htask
      · obtain ⟨task', -, rfl⟩ := Option.map_eq_some_iff.mp htask
        cases hlife
      · exact h.mapped t' task htask hlife
  · exact h

/-! ### Removing entries -/

theorem removeIfCurrent_tasks (q : TaskQueue κ ι) (k : κ) (t : ℕ) :
    (q.removeIfCurrent k t).tasks = q.tasks := by
  unfold removeIfCurrent
  split
  · rfl
  · rfl

/-- Only this very entry is removed. -/
theorem lookup_removeIfCurrent {k' : κ} {t' : ℕ} :
    (q.removeIfCurrent k t).pending.lookup k' = some t' ↔
      q.pending.lookup k' = some t' ∧ ¬ (k' = k ∧ t' = t) := by
  unfold removeIfCurrent
  split
  · next hcurrent =>
    by_cases hk : k' = k
    · subst hk
      rw [AList.lookup_erase, hcurrent]
      simp only [reduceCtorEq, Option.some.injEq, true_and, false_iff, not_and, not_not]
      exact fun h => h.symm
    · rw [AList.lookup_erase_ne hk]
      simp [hk]
  · next hother =>
    refine ⟨fun h => ⟨h, ?_⟩, fun h => h.1⟩
    rintro ⟨rfl, rfl⟩
    exact hother h

theorem size_removeIfCurrent_le (q : TaskQueue κ ι) (k : κ) (t : ℕ) :
    (q.removeIfCurrent k t).size ≤ q.size := by
  unfold removeIfCurrent size
  split
  · rw [AList.keys_erase]
    exact List.length_erase_le
  · exact le_refl _

/-- The entry of a task that is not unfinished may go. -/
theorem Consistent.removeIfCurrent (h : q.Consistent) (hdone : q.done t = true) :
    (q.removeIfCurrent k t).Consistent := by
  refine ⟨fun k' t' hlookup => ?_, fun t' task htask hlife => ?_⟩
  · rw [removeIfCurrent_tasks]
    exact h.entry k' t' (lookup_removeIfCurrent.mp hlookup).1
  · rw [removeIfCurrent_tasks] at htask
    refine lookup_removeIfCurrent.mpr ⟨h.mapped t' task htask hlife, ?_⟩
    rintro ⟨-, rfl⟩
    rw [done, life_of_getElem? htask, hlife] at hdone
    exact absurd hdone (by decide)

/-- The callback of a task removes its entry, so that none is left of a settled task. -/
theorem Consistent.callback (h : q.Consistent) (t : ℕ) : (q.callback t).Consistent := by
  unfold TaskQueue.callback
  split
  · next task htask =>
    split
    · next hlife =>
      refine ⟨fun k t' hlookup => ?_, fun t' task' htask' hlife' => ?_⟩
      · obtain ⟨hentry, hne⟩ := lookup_removeIfCurrent.mp hlookup
        obtain ⟨task', htask', hkey, hlife'⟩ := h.entry k t' hentry
        rw [removeIfCurrent_tasks, getElem?_setLife, if_neg]
        · exact ⟨task', htask', hkey, hlife'⟩
        · rintro rfl
          obtain rfl := Option.some.inj (htask.symm.trans htask')
          exact hne ⟨hkey.symm, rfl⟩
      · rw [removeIfCurrent_tasks, getElem?_setLife] at htask'
        split at htask'
        · obtain ⟨task'', -, rfl⟩ := Option.map_eq_some_iff.mp htask'
          cases hlife'
        · next hne =>
          refine lookup_removeIfCurrent.mpr ⟨h.mapped t' task' htask' hlife', ?_⟩
          rintro ⟨-, rfl⟩
          exact hne rfl
    · exact h
  · exact h

/-- No other entry goes with a callback. -/
theorem lookup_callback {k' : κ} {t' : ℕ} (h : q.pending.lookup k' = some t') (hne : t' ≠ t) :
    (q.callback t).pending.lookup k' = some t' := by
  unfold callback
  split
  · split
    · exact lookup_removeIfCurrent.mpr ⟨h, fun hsame => hne hsame.2⟩
    · exact h
  · exact h

theorem size_callback_le (q : TaskQueue κ ι) (t : ℕ) : (q.callback t).size ≤ q.size := by
  unfold callback
  split
  · split
    · exact size_removeIfCurrent_le _ _ t
    · exact le_refl _
  · exact le_refl _

theorem Consistent.sweep (h : q.Consistent) (items : List (κ × ℕ)) :
    (q.sweep items).Consistent := by
  unfold TaskQueue.sweep
  induction items generalizing q with
  | nil => exact h
  | cons item items ih =>
    refine ih ?_
    unfold sweepOne
    split
    · next hdone => exact h.removeIfCurrent hdone
    · exact h

theorem size_sweep_le (q : TaskQueue κ ι) (items : List (κ × ℕ)) :
    (q.sweep items).size ≤ q.size := by
  unfold sweep
  induction items generalizing q with
  | nil => exact le_refl _
  | cons item items ih =>
    refine (ih _).trans ?_
    unfold sweepOne
    split
    · exact size_removeIfCurrent_le _ _ _
    · exact le_refl _

/-- An entry that is still the same is discarded as it is swept. -/
theorem discardOne_eq {item : κ × ℕ} (h : q.pending.lookup item.1 = some item.2) :
    q.discardOne item = q.sweepOne item := by
  unfold discardOne sweepOne removeIfCurrent
  rw [if_pos h]

theorem lookup_sweepOne_ne {item : κ × ℕ} (hne : k ≠ item.1) :
    (q.sweepOne item).pending.lookup k = q.pending.lookup k := by
  unfold sweepOne removeIfCurrent
  split
  · split
    · exact AList.lookup_erase_ne hne
    · rfl
  · rfl

theorem lookup_items {item : κ × ℕ} (h : item ∈ q.items) :
    q.pending.lookup item.1 = some item.2 := by
  obtain ⟨entry, hentry, rfl⟩ := List.mem_map.mp h
  exact AList.mem_lookup_iff.mpr hentry

omit [DecidableEq κ] in
theorem items_keys (q : TaskQueue κ ι) : q.items.map Prod.fst = q.pending.keys := by
  rw [items, List.map_map]
  rfl

/-- Discarding sweeps the entries of the table as it is: no key stands twice in it. -/
theorem discard_eq_sweep (q : TaskQueue κ ι) : q.discard = q.sweep q.items := by
  have hfold : ∀ (items : List (κ × ℕ)) (q : TaskQueue κ ι), (items.map Prod.fst).Nodup →
      (∀ item ∈ items, q.pending.lookup item.1 = some item.2) →
      items.foldl discardOne q = items.foldl sweepOne q := by
    intro items
    induction items with
    | nil => exact fun _ _ _ => rfl
    | cons item items ih =>
      intro q hkeys hlookup
      rw [List.map_cons, List.nodup_cons] at hkeys
      rw [List.foldl_cons, List.foldl_cons, discardOne_eq (hlookup item List.mem_cons_self)]
      refine ih _ hkeys.2 fun other hother => ?_
      have hne : other.1 ≠ item.1 := by
        intro hsame
        exact hkeys.1 (hsame ▸ List.mem_map_of_mem hother)
      rw [lookup_sweepOne_ne hne]
      exact hlookup other (List.mem_cons_of_mem _ hother)
  refine hfold q.items q ?_ fun item => lookup_items
  rw [items_keys]
  exact q.pending.keys_nodup

/-! ### Every operation -/

omit [DecidableEq κ] in
theorem size_finish (q : TaskQueue κ ι) (t : ℕ) : (q.finish t).size = q.size := by
  unfold finish
  split
  · rfl
  · rfl

/-- The invariant of every table: it is consistent and within its limit. -/
structure WellKept (limit : ℤ) (q : TaskQueue κ ι) : Prop where
  consistent : q.Consistent
  bounded : (q.size : ℤ) ≤ max 0 limit

theorem wellKept_empty (limit : ℤ) : WellKept limit ({} : TaskQueue κ ι) :=
  ⟨consistent_empty, le_max_left 0 limit⟩

/-- Whatever is done to a table keeps it so. -/
theorem WellKept.act (h : WellKept limit q) (a : Action κ ι) : WellKept limit (act limit q a) := by
  have hle : ∀ {q' : TaskQueue κ ι}, q'.size ≤ q.size → (q'.size : ℤ) ≤ max 0 limit :=
    fun hle => le_trans (Int.ofNat_le.mpr hle) h.bounded
  cases a with
  | submit k job => exact ⟨h.consistent.submit limit k job, size_submit_le limit k job h.bounded⟩
  | finish t => exact ⟨h.consistent.finish t, hle (size_finish q t).le⟩
  | callback t => exact ⟨h.consistent.callback t, hle (size_callback_le q t)⟩
  | sweep items => exact ⟨h.consistent.sweep items, hle (size_sweep_le q items)⟩

/-- A table is full for a request, if its entries are unfinished tasks of other keys or finished
ones. -/
structure Full (limit : ℤ) (q : TaskQueue κ ι) (k : κ) : Prop where
  size : (q.size : ℤ) = max 0 limit
  entry : ∀ k' t, q.pending.lookup k' = some t →
    (k' ≠ k ∧ q.life t = some .unfinished) ∨ q.life t = some .finished

/-- Only a full table drops a request. -/
theorem WellKept.full (h : WellKept limit q) (hdropped : (q.submit limit k job).2 = .dropped) :
    Full limit q k := by
  obtain ⟨-, heq⟩ | ⟨hbusy, hfull, -⟩ | ⟨-, -, heq⟩ := submit_cases limit q k job
  · rw [heq] at hdropped
    cases hdropped
  · refine ⟨le_antisymm h.bounded hfull, fun k' t hlookup => ?_⟩
    obtain ⟨task, htask, hkey, hlife⟩ := h.consistent.entry k' t hlookup
    rw [life_of_getElem? htask]
    cases hstage : task.life with
    | unfinished =>
      left
      refine ⟨?_, rfl⟩
      rintro rfl
      -- the key would be busy
      have hdone := busy_eq_false_iff.mp hbusy t hlookup
      rw [done, life_of_getElem? htask, hstage] at hdone
      exact absurd hdone (by decide)
    | finished => exact .inr rfl
    | settled => exact absurd hstage hlife
  · rw [heq] at hdropped
    cases hdropped

/-! ### Tables that only shrink -/

/-- No new task. -/
def Action.Shrinks : Action κ ι → Prop
  | .submit _ _ => False
  | _ => True

theorem size_act_le (limit : ℤ) (q : TaskQueue κ ι) {a : Action κ ι} (ha : a.Shrinks) :
    (act limit q a).size ≤ q.size := by
  cases a with
  | submit k job => exact ha.elim
  | finish t => exact (size_finish q t).le
  | callback t => exact size_callback_le q t
  | sweep items => exact size_sweep_le q items

end Invariant

end TaskQueue

end ProxyCache.Lib
