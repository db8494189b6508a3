import ProxyCache.App.IdleGate
import Mathlib.Data.List.Nodup
import Mathlib.Tactic.Linarith

/-!
# The gate of the background work

Whatever happens on the event loop, and whenever jobs are cancelled or fail:

* **permits** — of each phase no more jobs are past their semaphore than it had permits at
  first, and no permit is lost: once all jobs have ended, the semaphores are as new;
* **idleness** — a job begins to read its project, or a batch, only when the last request is
  its period ago.
-/

namespace ProxyCache.Theorems.IdleGate

open ProxyCache.Python ProxyCache.App ProxyCache.App.Gate

variable {settings : GateSettings} {g g' : Gate} {t u : ℕ} {job : GatedJob} {p q : Phase}
  {s s' : AsyncSemaphore} {stage : JobStage} {had has : Bool}

/-! ## The semaphores of the gate -/

@[simp] theorem semaphore_setSemaphore : (g.setSemaphore s p).semaphore q =
    if q = p then s else g.semaphore q := by
  cases p <;> cases q <;> rfl

@[simp] theorem setSemaphore_semaphore : g.setSemaphore (g.semaphore p) p = g := by
  cases p <;> rfl

@[simp] theorem semaphore_place : (g.place t job stage).semaphore q = g.semaphore q := by
  cases q <;> rfl

@[simp] theorem setSemaphore_jobs : (g.setSemaphore s p).jobs = g.jobs := by cases p <;> rfl

@[simp] theorem setSemaphore_now : (g.setSemaphore s p).now = g.now := by cases p <;> rfl

@[simp] theorem setSemaphore_lastProjectActivity :
    (g.setSemaphore s p).lastProjectActivity = g.lastProjectActivity := by cases p <;> rfl

@[simp] theorem place_jobs : (g.place t job stage).jobs = g.jobs.set t { job with stage } := rfl

@[simp] theorem place_now : (g.place t job stage).now = g.now := rfl

@[simp] theorem place_lastProjectActivity :
    (g.place t job stage).lastProjectActivity = g.lastProjectActivity := rfl

/-! ## What a step does to a semaphore -/

/-- The task `t` had a permit or not, and now it has one or not, and is queued or not. -/
structure Account (s : AsyncSemaphore) (t : ℕ) (had : Bool) (s' : AsyncSemaphore)
    (has queued : Bool) : Prop where
  permits : s'.permits + has.toNat = s.permits + had.toNat
  nodup : s'.queue.Nodup
  queue : ∀ u, u ∈ s'.queue ↔ if u = t then queued = true else u ∈ s.queue
  alert : s'.Alert
  cancelled : ∀ u, (u, Waiter.cancelled) ∈ s'.waiting → (u, Waiter.cancelled) ∈ s.waiting

section Accounts

theorem account_keep (hnodup : s.queue.Nodup) (halert : s.Alert) (ht : t ∉ s.queue) :
    Account s t had s had false where
  permits := rfl
  nodup := hnodup
  queue u := by
    by_cases hu : u = t
    · simp [hu, ht]
    · simp [hu]
  alert := halert
  cancelled _ h := h

theorem account_tryAcquire (hnodup : s.queue.Nodup) (halert : s.Alert) (ht : t ∉ s.queue) :
    Account s t false (s.tryAcquire t).2 (s.tryAcquire t).1 (!(s.tryAcquire t).1) where
  permits := by
    rw [← AsyncSemaphore.tryAcquire_permits (s := s) (t := t)]
    cases (s.tryAcquire t).1 <;> simp
  nodup := by
    rw [AsyncSemaphore.tryAcquire_queue]
    split
    · exact hnodup
    · exact List.nodup_append.mpr ⟨hnodup, List.nodup_singleton t, by
        intro a ha b hb heq
        exact ht (by rwa [← List.mem_singleton.mp hb, ← heq])⟩
  queue u := by
    rw [AsyncSemaphore.tryAcquire_queue]
    by_cases hu : u = t
    · subst hu
      cases (s.tryAcquire u).1 <;> simp [ht]
    · cases (s.tryAcquire t).1 <;> simp [hu]
  alert := AsyncSemaphore.alert_tryAcquire halert
  cancelled u h := by
    unfold AsyncSemaphore.tryAcquire at h
    split at h
    · simpa using h
    · exact h

theorem account_resume (hnodup : s.queue.Nodup) (h : s.Woken t) :
    Account s t false (s.resume t) true false where
  permits := AsyncSemaphore.resume_permits hnodup h
  nodup := by
    rw [AsyncSemaphore.resume_queue]
    exact hnodup.filter _
  queue u := by
    rw [AsyncSemaphore.resume_queue]
    by_cases hu : u = t <;> simp [hu]
  alert := AsyncSemaphore.alert_resume
  cancelled u h := by
    unfold AsyncSemaphore.resume at h
    split at h
    · exact AsyncSemaphore.cancelled_of_leave (AsyncSemaphore.cancelled_of_wakeUpNext h)
    · exact AsyncSemaphore.cancelled_of_leave h

theorem account_release (hnodup : s.queue.Nodup) (ht : t ∉ s.queue) :
    Account s t true s.release false false where
  permits := AsyncSemaphore.release_permits
  nodup := by rwa [AsyncSemaphore.release_queue]
  queue u := by
    rw [AsyncSemaphore.release_queue]
    by_cases hu : u = t
    · simp [hu, ht]
    · simp [hu]
  alert := AsyncSemaphore.alert_release
  cancelled _ h := AsyncSemaphore.cancelled_of_release h

theorem account_abandon (hnodup : s.queue.Nodup) (halert : s.Alert) :
    Account s t false (s.abandon t) false false where
  permits := by rw [AsyncSemaphore.abandon_permits hnodup]
  nodup := by
    rw [AsyncSemaphore.abandon_queue]
    exact hnodup.filter _
  queue u := by
    rw [AsyncSemaphore.abandon_queue]
    by_cases hu : u = t <;> simp [hu]
  alert := AsyncSemaphore.alert_abandon halert
  cancelled u h := by
    unfold AsyncSemaphore.abandon at h
    split at h
    · exact AsyncSemaphore.cancelled_of_leave (AsyncSemaphore.cancelled_of_release h)
    · exact AsyncSemaphore.cancelled_of_leave h

end Accounts

/-! ## Where a job comes to wait -/

/-- A job that sleeps sleeps to the end of the period, and one that begins to work does so at
its end. -/
structure Timely (settings : GateSettings) (g : Gate) (p : Phase) (stage : JobStage) : Prop where
  asleep : ∀ wait wakeAt, stage = .idling wait wakeAt →
    wakeAt = g.lastProjectActivity + settings.idleSeconds p ∧ g.now < wakeAt
  idle : stage.Speculative → g.lastProjectActivity + settings.idleSeconds p ≤ g.now

/-- How often a job may fall asleep before its body asks for it, if no more requests come: a
sleeper that was overtaken by a request sleeps once more. -/
def credit (settings : GateSettings) (g : Gate) (p : Phase) : JobStage → ℕ
  | .created => 2
  | .idling wait wakeAt => (if wait = .arrival then 1 else 0) +
      if wakeAt < g.lastProjectActivity + settings.idleSeconds p then 1 else 0
  | .queued => 1
  | .working _ | .ended => 0

/-- One, if the job has fallen asleep. -/
def dozes : JobStage → ℕ
  | .idling .. => 1
  | _ => 0

/-- The job waits at another stage, the semaphore of its phase is accounted for, and the sleep
it may have begun is paid for. -/
def Lands (settings : GateSettings) (g : Gate) (t : ℕ) (job : GatedJob) (budget : ℕ) (g' : Gate) :
    Prop :=
  ∃ s stage, g' = (g.setSemaphore s job.phase).place t job stage ∧
    Account (g.semaphore job.phase) t job.stage.holds s stage.holds (stage = .queued) ∧
    Timely settings g job.phase stage ∧ dozes stage + credit settings g job.phase stage ≤ budget

/-- What the steps of a job rely on. -/
structure Standing (g : Gate) (t : ℕ) (job : GatedJob) : Prop where
  nodup : (g.semaphore job.phase).queue.Nodup
  alert : (g.semaphore job.phase).Alert
  queue : t ∈ (g.semaphore job.phase).queue ↔ job.stage = .queued

section Landing

variable {budget : ℕ}

/-- Only a job that begins to work has to be in time. -/
theorem timely_of_ne (hidling : ∀ wait wakeAt, stage ≠ .idling wait wakeAt)
    (hworks : ¬ stage.Speculative) : Timely settings g p stage where
  asleep wait wakeAt heq := absurd heq (hidling wait wakeAt)
  idle h := absurd h hworks

theorem timely_rest (hstage : stage = .queued ∨ stage = .ended ∨ stage = .working .committing) :
    Timely settings g p stage := by
  apply timely_of_ne
  · rintro wait wakeAt rfl
    simp at hstage
  · rintro (rfl | ⟨left, rfl⟩) <;> simp at hstage

/-- A period has passed: the job begins to work. -/
theorem timely_work {work : Work} (hidle : g.lastProjectActivity + settings.idleSeconds p ≤ g.now) :
    Timely settings g p (.working work) where
  asleep wait wakeAt heq := by cases heq
  idle _ := hidle

/-- The wait for an idle period. -/
theorem lands_wait {wait : IdleWait} {next : Gate}
    (hwait : Account (g.semaphore job.phase) t job.stage.holds s
      (JobStage.idling wait 0).holds false)
    (hbusy : g.now < g.lastProjectActivity + settings.idleSeconds job.phase →
      1 + (if wait = .arrival then 1 else 0) ≤ budget)
    (hnext : g.lastProjectActivity + settings.idleSeconds job.phase ≤ g.now →
      Lands settings g t job budget next) :
    Lands settings g t job budget
      ((g.setSemaphore s job.phase).waitForProjectIdle settings t job wait next) := by
  have hremaining : (g.setSemaphore s job.phase).remaining settings job.phase =
      g.lastProjectActivity + settings.idleSeconds job.phase - g.now := by
    simp [Gate.remaining]
  unfold Gate.waitForProjectIdle
  rw [hremaining]
  split
  · next hidle =>
    apply hnext
    linarith
  · next hremains =>
    -- it sleeps up to the end of the period, as it stands now
    have hlater : g.now < g.lastProjectActivity + settings.idleSeconds job.phase := by linarith
    have hwakeAt : (g.setSemaphore s job.phase).now +
        (g.lastProjectActivity + settings.idleSeconds job.phase - g.now) =
        g.lastProjectActivity + settings.idleSeconds job.phase := by
      rw [setSemaphore_now]
      linarith
    rw [hwakeAt]
    refine ⟨s, _, rfl, ?_, ?_, ?_⟩
    · cases wait <;> exact hwait
    · refine ⟨fun wait' wakeAt heq => ?_, fun hworks => ?_⟩
      · obtain ⟨-, rfl⟩ := JobStage.idling.inj heq
        exact ⟨rfl, hlater⟩
      · rcases hworks with h | ⟨left, h⟩ <;> cases h
    · simpa [dozes, credit] using hbusy hlater

theorem lands_enter (h : Account (g.semaphore job.phase) t job.stage.holds s true false)
    (hbusy : g.now < g.lastProjectActivity + settings.idleSeconds job.phase → 1 ≤ budget) :
    Lands settings g t job budget ((g.setSemaphore s job.phase).enter settings t job) := by
  unfold Gate.enter
  apply lands_wait h
  · simpa using hbusy
  · intro hidle
    exact ⟨s, _, rfl, h, timely_work hidle, Nat.zero_le _⟩

theorem lands_acquire (hstanding : Standing g t job) (hstage : job.stage ≠ .queued)
    (hholds : job.stage.holds = false) (hbudget : 1 ≤ budget) :
    Lands settings g t job budget (g.acquire settings t job) := by
  have haccount := account_tryAcquire hstanding.nodup hstanding.alert
    (fun ht => hstage (hstanding.queue.mp ht))
  rw [← hholds] at haccount
  unfold Gate.acquire
  dsimp only
  split
  · next hacquired =>
    rw [hacquired] at haccount
    exact lands_enter haccount fun _ => hbudget
  · next hqueued =>
    rw [Bool.not_eq_true] at hqueued
    rw [hqueued] at haccount
    exact ⟨_, _, rfl, haccount, timely_rest (.inl rfl), hbudget⟩

/-- A job that is not queued, with the semaphore as it is. -/
theorem account_standing (hstanding : Standing g t job) (hstage : job.stage ≠ .queued) :
    Account (g.semaphore job.phase) t job.stage.holds (g.semaphore job.phase) job.stage.holds
      false :=
  account_keep hstanding.nodup hstanding.alert fun ht => hstage (hstanding.queue.mp ht)

theorem lands_arrive (hstanding : Standing g t job) (hstage : job.stage ≠ .queued)
    (hholds : job.stage.holds = false) (hbudget : 1 ≤ budget)
    (hbusy : g.now < g.lastProjectActivity + settings.idleSeconds job.phase → 2 ≤ budget) :
    Lands settings g t job budget (g.arrive settings t job) := by
  have hkeep := account_standing hstanding hstage
  unfold Gate.arrive
  have hwait : Lands settings g t job budget
      ((g.setSemaphore (g.semaphore job.phase) job.phase).waitForProjectIdle settings t job .arrival
        (g.acquire settings t job)) :=
    lands_wait (by rw [hholds] at hkeep ⊢; exact hkeep) (by simpa using hbusy)
      fun _ => lands_acquire hstanding hstage hholds hbudget
  rwa [setSemaphore_semaphore] at hwait

/-- A job that has a permit is not queued. -/
theorem ne_queued_of_holds (hholds : job.stage.holds = true) : job.stage ≠ .queued := by
  intro h
  rw [h] at hholds
  cases hholds

theorem lands_nextBatch (hstanding : Standing g t job) (hholds : job.stage.holds = true)
    (hbusy : g.now < g.lastProjectActivity + settings.idleSeconds job.phase → 1 ≤ budget)
    (left : ℕ) : Lands settings g t job budget (g.nextBatch settings t job left) := by
  have hkeep := account_standing hstanding (ne_queued_of_holds hholds)
  unfold Gate.nextBatch
  split
  · refine ⟨_, .working .committing, by rw [setSemaphore_semaphore], by rwa [hholds] at hkeep ⊢,
      timely_rest (.inr (.inr rfl)), Nat.zero_le _⟩
  · have hwait : Lands settings g t job budget
        ((g.setSemaphore (g.semaphore job.phase) job.phase).waitForProjectIdle settings t job
          (.batch left) (g.place t job (.working (.batch left)))) :=
      lands_wait (by rwa [hholds] at hkeep ⊢) (by simpa using hbusy) fun hidle =>
        ⟨_, .working (.batch left), by rw [setSemaphore_semaphore], by rwa [hholds] at hkeep ⊢,
          timely_work hidle, Nat.zero_le _⟩
    rwa [setSemaphore_semaphore] at hwait

theorem lands_leave (hstanding : Standing g t job) (hholds : job.stage.holds = true) :
    Lands settings g t job budget (g.leave t job) := by
  refine ⟨_, .ended, rfl, ?_, timely_rest (.inr (.inl rfl)), Nat.zero_le _⟩
  rw [hholds]
  exact account_release hstanding.nodup fun ht =>
    ne_queued_of_holds hholds (hstanding.queue.mp ht)

/-- Whatever the job waits for, it runs on from there. -/
theorem lands_runJob (hstanding : Standing g t job)
    (h : g.runJob settings t job job.stage = some g') :
    Lands settings g t job (credit settings g job.phase job.stage) g' := by
  cases hstage : job.stage with
  | created =>
    rw [hstage] at h
    obtain rfl := Option.some.inj h
    exact lands_arrive hstanding (by simp [hstage]) (by rw [hstage]; rfl) (by simp [credit])
      (by simp [credit])
  | idling wait wakeAt =>
    rw [hstage] at h
    have hqueued : job.stage ≠ .queued := by simp [hstage]
    simp only [Gate.runJob] at h
    split at h
    · next hawake =>
      obtain rfl := Option.some.inj h
      -- it sleeps again only when a request has overtaken it
      have hovertaken : g.now < g.lastProjectActivity + settings.idleSeconds job.phase →
          wakeAt < g.lastProjectActivity + settings.idleSeconds job.phase := hawake.trans_lt
      cases wait with
      | arrival =>
        have hfree : job.stage.holds = false := by rw [hstage]; rfl
        refine lands_arrive hstanding hqueued hfree (by simp [credit]) fun hbusy => ?_
        simp [credit, hovertaken hbusy]
      | admission =>
        have hkeep := account_standing hstanding hqueued
        have hholds : job.stage.holds = true := by rw [hstage]; rfl
        have henter : Lands settings g t job
            (credit settings g job.phase (.idling .admission wakeAt))
            ((g.setSemaphore (g.semaphore job.phase) job.phase).enter settings t job) :=
          lands_enter (by rwa [hholds] at hkeep ⊢) fun hbusy => by simp [credit, hovertaken hbusy]
        rwa [setSemaphore_semaphore] at henter
      | batch left =>
        refine lands_nextBatch hstanding (by rw [hstage]; rfl) (fun hbusy => ?_) left
        simp [credit, hovertaken hbusy]
    · cases h
  | queued =>
    rw [hstage] at h
    simp only [Gate.runJob] at h
    split at h
    · next hwoken =>
      obtain rfl := Option.some.inj h
      refine lands_enter ?_ fun _ => le_refl _
      rw [hstage]
      exact account_resume hstanding.nodup hwoken
    · cases h
  | working | ended =>
    rw [hstage] at h
    cases h

/-- A body that goes on is one that has its permit. -/
theorem lands_finish (hstanding : Standing g t job) {work : Work}
    (hstage : job.stage = .working work) (batches : Option ℕ) :
    Lands settings g t job 1 (g.finish settings t job batches work) := by
  have hholds : job.stage.holds = true := by rw [hstage]; rfl
  cases work with
  | reading =>
    dsimp only [Gate.finish]
    split
    · exact lands_nextBatch hstanding hholds (fun _ => le_refl _) _
    · exact lands_leave hstanding hholds
  | batch left => exact lands_nextBatch hstanding hholds (fun _ => le_refl _) _
  | committing => exact lands_leave hstanding hholds

/-- A cancelled job ends, and leaves neither a permit nor a place in the queue behind. -/
theorem lands_interrupt (hstanding : Standing g t job) (hstage : job.stage ≠ .ended) :
    Lands settings g t job budget (g.interrupt t job job.stage) := by
  have hleave : job.stage.holds = true → Lands settings g t job budget (g.leave t job) :=
    lands_leave hstanding
  have hend : job.stage ≠ .queued → job.stage.holds = false →
      Lands settings g t job budget (g.place t job .ended) := by
    intro hqueued hholds
    have hkeep := account_standing hstanding hqueued
    refine ⟨_, .ended, by rw [setSemaphore_semaphore], ?_, timely_rest (.inr (.inl rfl)),
      Nat.zero_le _⟩
    rwa [hholds] at hkeep ⊢
  cases hcase : job.stage with
  | created => exact hend (by simp [hcase]) (by rw [hcase]; rfl)
  | idling wait wakeAt =>
    cases wait with
    | arrival => exact hend (by simp [hcase]) (by rw [hcase]; rfl)
    | admission => exact hleave (by rw [hcase]; rfl)
    | batch left => exact hleave (by rw [hcase]; rfl)
  | queued =>
    refine ⟨_, .ended, rfl, ?_, timely_rest (.inr (.inl rfl)), Nat.zero_le _⟩
    rw [hcase]
    exact account_abandon hstanding.nodup hstanding.alert
  | working work => exact hleave (by rw [hcase]; rfl)
  | ended => exact absurd hcase hstage

end Landing

/-! ## The invariant -/

structure Inv (settings : GateSettings) (g : Gate) : Prop where
  permits : ∀ p, (g.semaphore p).permits +
    (g.jobs.countP fun job => job.phase = p ∧ job.stage.holds) = settings.maxInflight p
  nodup : ∀ p, (g.semaphore p).queue.Nodup
  alert : ∀ p, (g.semaphore p).Alert
  queue : ∀ p t, t ∈ (g.semaphore p).queue ↔
    ∃ job, g.jobs[t]? = some job ∧ job.phase = p ∧ job.stage = .queued
  cancelled : ∀ p t, (t, Waiter.cancelled) ∈ (g.semaphore p).waiting →
    ∃ job, g.jobs[t]? = some job ∧ job.cancelled = true
  clock : g.lastProjectActivity ≤ g.now
  asleep : ∀ (t : ℕ) (job : GatedJob), g.jobs[t]? = some job →
    ∀ wait wakeAt, job.stage = .idling wait wakeAt →
    wakeAt ≤ g.lastProjectActivity + settings.idleSeconds job.phase

section Invariant

theorem Inv.standing (hinv : Inv settings g) (hjob : g.jobs[t]? = some job) : Standing g t job where
  nodup := hinv.nodup _
  alert := hinv.alert _
  queue := by
    rw [hinv.queue]
    constructor
    · rintro ⟨job', hjob', -, hqueued⟩
      obtain rfl := Option.some.inj (hjob.symm.trans hjob')
      exact hqueued
    · intro hqueued
      exact ⟨job, hjob, rfl, hqueued⟩

/-- A job that waits elsewhere counts as it has a permit there. -/
theorem countP_set_job {jobs : List GatedJob} (hjob : jobs[t]? = some job) {job' : GatedJob}
    (hphase : job'.phase = job.phase) (p : Phase) :
    ((jobs.set t job').countP fun job => job.phase = p ∧ job.stage.holds) +
        (if job.phase = p then job.stage.holds.toNat else 0) =
      (jobs.countP fun job => job.phase = p ∧ job.stage.holds) +
        (if job.phase = p then job'.stage.holds.toNat else 0) := by
  obtain ⟨hlt, hget⟩ := List.getElem?_eq_some_iff.mp hjob
  have hpos : (if job.phase = p then job.stage.holds.toNat else 0) ≤
      jobs.countP fun job => job.phase = p ∧ job.stage.holds := by
    by_cases hholds : job.phase = p ∧ job.stage.holds = true
    · have hcount := List.countP_pos_iff (p := fun job : GatedJob =>
        decide (job.phase = p ∧ job.stage.holds)).mpr
        ⟨job, List.mem_of_getElem? hjob, by simpa using hholds⟩
      simp only [if_pos hholds.1, hholds.2, Bool.toNat_true]
      exact hcount
    · by_cases hp : job.phase = p
      · have : job.stage.holds = false := by simpa [hp] using hholds
        simp [this]
      · simp [hp]
  rw [List.countP_set hlt, hget]
  generalize (jobs.countP fun job => job.phase = p ∧ job.stage.holds) = n at hpos ⊢
  by_cases hp : job.phase = p
  · have hp' : job'.phase = p := hphase.trans hp
    cases h : job.stage.holds <;> cases h' : job'.stage.holds <;>
      simp [hp, hp', h] at hpos ⊢ <;> omega
  · have hp' : job'.phase ≠ p := fun heq => hp (hphase.symm.trans heq)
    simp [hp, hp']

/-- What another job sees of the step. -/
theorem getElem?_set_job {jobs : List GatedJob} (hjob : jobs[t]? = some job) {job' : GatedJob}
    (u : ℕ) : (jobs.set t job')[u]? = if u = t then some job' else jobs[u]? := by
  obtain ⟨hlt, -⟩ := List.getElem?_eq_some_iff.mp hjob
  by_cases hu : u = t
  · simp [hu, hlt]
  · simp [hu, List.getElem?_set_ne (Ne.symm hu)]

theorem getElem?_place (hjob : g.jobs[t]? = some job) (u : ℕ) :
    ((g.setSemaphore s job.phase).place t job stage).jobs[u]? =
      if u = t then some { job with stage } else g.jobs[u]? := by
  rw [place_jobs, setSemaphore_jobs]
  exact getElem?_set_job hjob u

/-- The queues afterwards: the job is in the one of its phase if that is its stage, and the others
are where they were. -/
theorem Inv.queue_place (hinv : Inv settings g) (hjob : g.jobs[t]? = some job)
    (hqueue : ∀ u, u ∈ s.queue ↔
      if u = t then stage = .queued else u ∈ (g.semaphore job.phase).queue) (p : Phase) (u : ℕ) :
    u ∈ (((g.setSemaphore s job.phase).place t job stage).semaphore p).queue ↔
      ∃ job', ((g.setSemaphore s job.phase).place t job stage).jobs[u]? = some job' ∧
        job'.phase = p ∧ job'.stage = .queued := by
  rw [getElem?_place hjob, semaphore_place, semaphore_setSemaphore]
  by_cases hu : u = t
  · subst hu
    by_cases hp : p = job.phase
    · rw [if_pos hp, hqueue, if_pos rfl, if_pos rfl]
      constructor
      · intro hqueued
        exact ⟨_, rfl, hp.symm, hqueued⟩
      · rintro ⟨job', hjob', -, hqueued⟩
        rw [← Option.some.inj hjob'] at hqueued
        exact hqueued
    · -- nothing is said of the job in the queue of the other phase
      rw [if_neg hp, if_pos rfl, hinv.queue]
      constructor
      · rintro ⟨job', hjob', hp', -⟩
        rw [Option.some.inj (hjob.symm.trans hjob')] at hp
        exact absurd hp'.symm hp
      · rintro ⟨job', hjob', hp', -⟩
        rw [← Option.some.inj hjob'] at hp'
        exact absurd hp'.symm hp
  · rw [if_neg hu, ← hinv.queue]
    by_cases hp : p = job.phase
    · rw [if_pos hp, hqueue, if_neg hu, hp]
    · rw [if_neg hp]

/-- The step lemma for what a job does. -/
theorem Inv.lands (hinv : Inv settings g) (hjob : g.jobs[t]? = some job)
    {budget : ℕ} (h : Lands settings g t job budget g') : Inv settings g' := by
  obtain ⟨s, stage, rfl, haccount, htimely, -⟩ := h
  constructor
  case permits =>
    intro p
    have hcount := @countP_set_job t job g.jobs hjob { job with stage } rfl p
    have hpermits := haccount.permits
    have hbefore := hinv.permits p
    simp only [semaphore_place, semaphore_setSemaphore, place_jobs, setSemaphore_jobs]
    by_cases hp : p = job.phase
    · subst hp
      simp only [if_true] at hcount ⊢
      omega
    · simp only [if_neg hp, if_neg (Ne.symm hp)] at hcount ⊢
      omega
  case nodup =>
    intro p
    simp only [semaphore_place, semaphore_setSemaphore]
    split
    · exact haccount.nodup
    · exact hinv.nodup p
  case alert =>
    intro p
    simp only [semaphore_place, semaphore_setSemaphore]
    split
    · exact haccount.alert
    · exact hinv.alert p
  case queue =>
    refine hinv.queue_place hjob fun u => ?_
    simp only [haccount.queue, decide_eq_true_eq]
  case cancelled =>
    intro p u hu
    have hbefore : (u, Waiter.cancelled) ∈ (g.semaphore p).waiting := by
      rw [semaphore_place, semaphore_setSemaphore] at hu
      by_cases hp : p = job.phase
      · rw [if_pos hp] at hu
        rw [hp]
        exact haccount.cancelled u hu
      · rwa [if_neg hp] at hu
    obtain ⟨job', hjob', hcancelled⟩ := hinv.cancelled p u hbefore
    rw [getElem?_place hjob]
    by_cases hut : u = t
    · subst hut
      obtain rfl := Option.some.inj (hjob.symm.trans hjob')
      exact ⟨_, if_pos rfl, hcancelled⟩
    · exact ⟨job', by rwa [if_neg hut], hcancelled⟩
  case clock => simpa using hinv.clock
  case asleep =>
    intro u job' hu wait wakeAt hidling
    rw [getElem?_place hjob] at hu
    simp only [place_lastProjectActivity, setSemaphore_lastProjectActivity]
    by_cases hut : u = t
    · -- it has just fallen asleep, for no longer than the period
      rw [if_pos hut] at hu
      obtain rfl := Option.some.inj hu
      exact (htimely.asleep wait wakeAt hidling).1.le
    · rw [if_neg hut] at hu
      exact hinv.asleep u job' hu wait wakeAt hidling

theorem semaphore_cancelJob : (g.cancelJob t job).semaphore p =
    if p = job.phase ∧ job.stage = .queued then (g.semaphore p).cancel t
    else g.semaphore p := by
  show (g.setSemaphore _ job.phase).semaphore p = _
  rw [semaphore_setSemaphore]
  by_cases hp : p = job.phase
  · subst hp
    by_cases hqueued : job.stage = .queued <;> simp [hqueued]
  · simp [hp]

theorem getElem?_cancelJob (hjob : g.jobs[t]? = some job) (u : ℕ) :
    (g.cancelJob t job).jobs[u]? =
      if u = t then some { job with cancelled := true } else g.jobs[u]? :=
  getElem?_set_job hjob u

theorem cancelJob_lastProjectActivity :
    (g.cancelJob t job).lastProjectActivity = g.lastProjectActivity :=
  setSemaphore_lastProjectActivity

/-- A job that is cancelled stays where it is until it runs. -/
theorem Inv.cancelJob (hinv : Inv settings g) (hjob : g.jobs[t]? = some job) :
    Inv settings (g.cancelJob t job) := by
  constructor
  case permits =>
    intro p
    have hcount := @countP_set_job t job g.jobs hjob { job with cancelled := true } rfl p
    have hbefore := hinv.permits p
    have hpermits : ((g.cancelJob t job).semaphore p).permits = (g.semaphore p).permits := by
      rw [semaphore_cancelJob]
      split
      · exact AsyncSemaphore.cancel_permits
      · rfl
    have hset : (g.cancelJob t job).jobs = g.jobs.set t { job with cancelled := true } := rfl
    dsimp only at hcount
    rw [hpermits, hset]
    omega
  case nodup =>
    intro p
    rw [semaphore_cancelJob]
    split
    · rw [AsyncSemaphore.cancel_queue]
      exact hinv.nodup p
    · exact hinv.nodup p
  case alert =>
    intro p
    rw [semaphore_cancelJob]
    split
    · exact AsyncSemaphore.alert_cancel (hinv.alert p)
    · exact hinv.alert p
  case queue =>
    -- the waiter that is cancelled stays in the queue until its task runs
    intro p u
    have hqueue : ((g.cancelJob t job).semaphore p).queue = (g.semaphore p).queue := by
      rw [semaphore_cancelJob]
      split
      · exact AsyncSemaphore.cancel_queue
      · rfl
    rw [hqueue, hinv.queue, getElem?_cancelJob hjob]
    by_cases hu : u = t
    · subst hu
      rw [if_pos rfl, hjob]
      simp
    · rw [if_neg hu]
  case cancelled =>
    intro p u hu
    rw [getElem?_cancelJob hjob]
    by_cases hut : u = t
    · exact ⟨_, if_pos hut, rfl⟩
    · rw [if_neg hut]
      refine hinv.cancelled p u ?_
      rw [semaphore_cancelJob] at hu
      split at hu
      · exact AsyncSemaphore.cancelled_of_cancel hu hut
      · exact hu
  case clock =>
    rw [cancelJob_lastProjectActivity]
    exact hinv.clock.trans_eq setSemaphore_now.symm
  case asleep =>
    intro u job' hu wait wakeAt hidling
    rw [getElem?_cancelJob hjob] at hu
    rw [cancelJob_lastProjectActivity]
    by_cases hut : u = t
    · rw [if_pos hut] at hu
      obtain rfl := Option.some.inj hu
      exact hinv.asleep t job hjob wait wakeAt hidling
    · rw [if_neg hut] at hu
      exact hinv.asleep u job' hu wait wakeAt hidling

theorem inv_boot : Inv settings (boot settings) where
  permits p := by cases p <;> rfl
  nodup p := by cases p <;> exact List.nodup_nil
  alert p := by
    rintro ⟨u, hu⟩
    cases p <;> cases hu
  queue p t := by
    constructor
    · intro h
      cases p <;> cases h
    · rintro ⟨job, hjob, -⟩
      simp [boot] at hjob
  cancelled p t h := by cases p <;> cases h
  clock := le_refl _
  asleep t job hjob := by simp [boot] at hjob

/-- A job that is created has no permit and no place in a queue. -/
theorem Inv.spawn (hinv : Inv settings g) :
    Inv settings { g with jobs := g.jobs ++ [{ phase := p }] } := by
  have hjobs : ∀ {u : ℕ} {job : GatedJob},
      (g.jobs ++ [({ phase := p } : GatedJob)])[u]? = some job →
      g.jobs[u]? = some job ∨ job = { phase := p } := by
    intro u job hu
    rw [List.getElem?_append] at hu
    split at hu
    · exact .inl hu
    · right
      exact List.mem_singleton.mp (List.mem_of_getElem? hu)
  have hkeep : ∀ {u : ℕ} {job : GatedJob}, g.jobs[u]? = some job →
      (g.jobs ++ [({ phase := p } : GatedJob)])[u]? = some job := by
    intro u job hu
    obtain ⟨hlt, -⟩ := List.getElem?_eq_some_iff.mp hu
    rwa [List.getElem?_append_left hlt]
  refine ⟨fun q => ?_, hinv.nodup, hinv.alert, fun q u => ?_, fun q u hu => ?_, hinv.clock,
    fun u job hu wait wakeAt hidling => ?_⟩
  · have hcount : ((g.jobs ++ [({ phase := p } : GatedJob)]).countP fun job =>
        job.phase = q ∧ job.stage.holds) =
        g.jobs.countP fun job => job.phase = q ∧ job.stage.holds := by
      rw [List.countP_append, List.countP_singleton]
      simp [JobStage.holds]
    rw [← hinv.permits q, ← hcount]
    rfl
  · rw [show (Gate.semaphore { g with jobs := _ } q) = g.semaphore q by cases q <;> rfl, hinv.queue]
    constructor
    · rintro ⟨job, hjob, h⟩
      exact ⟨job, hkeep hjob, h⟩
    · rintro ⟨job, hjob, hq, hqueued⟩
      rcases hjobs hjob with hjob | rfl
      · exact ⟨job, hjob, hq, hqueued⟩
      · cases hqueued
  · obtain ⟨job, hjob, hcancelled⟩ := hinv.cancelled q u (by cases q <;> exact hu)
    exact ⟨job, hkeep hjob, hcancelled⟩
  · rcases hjobs hu with hu | rfl
    · exact hinv.asleep u job hu wait wakeAt hidling
    · cases hidling

/-- The clock moves on, or a request is noted. -/
theorem Inv.clocked (hinv : Inv settings g) {now last : ℚ} (hlast : g.lastProjectActivity ≤ last)
    (hnow : last ≤ now) :
    Inv settings { g with now, lastProjectActivity := last } where
  permits p := by
    rw [← hinv.permits p]
    cases p <;> rfl
  nodup p := by
    have := hinv.nodup p
    cases p <;> exact this
  alert p := by
    have := hinv.alert p
    cases p <;> exact this
  queue p t := by
    rw [← hinv.queue p t]
    cases p <;> rfl
  cancelled p t h := by
    apply hinv.cancelled p t
    cases p <;> exact h
  clock := hnow
  asleep t job hjob wait wakeAt hidling := by
    have := hinv.asleep t job hjob wait wakeAt hidling
    linarith

/-- The stretches of a job, and what each of them may cost. -/
def Stretch (settings : GateSettings) (g : Gate) (t : ℕ) (job : GatedJob) (e : Event)
    (budget : ℕ) : Prop :=
  (e = .run t ∧ budget = credit settings g job.phase job.stage) ∨
    (∃ batches, e = .finish t batches ∧ budget = 1) ∨ (e = .fail t ∧ budget = 0)

/-- An event in the body of a job that works. -/
theorem bodyEvent_cases {f : GatedJob → Work → Gate} (h : g.bodyEvent t f = some g') :
    ∃ job work, g.jobs[t]? = some job ∧ job.stage = .working work ∧ g' = f job work := by
  obtain ⟨job, hjob, h⟩ := Option.bind_eq_some_iff.mp h
  split at h
  · next work hwork =>
    split at h
    · cases h
    · exact ⟨job, work, hjob, hwork, (Option.some.inj h).symm⟩
  · cases h

/-- What a step was: a change of the clock or of the list of jobs, a cancellation, or a stretch
of one job. -/
theorem step_cases {e : Event} (hinv : Inv settings g) (h : g.step settings e = some g') :
    (∃ now last, g.lastProjectActivity ≤ last ∧ last ≤ now ∧
      (e = .request ∨ last = g.lastProjectActivity) ∧ (e = .request ∨ ∃ now, e = .tick now) ∧
      g' = { g with now, lastProjectActivity := last }) ∨
    (∃ p, e = .spawn p ∧ g' = { g with jobs := g.jobs ++ [{ phase := p }] }) ∨
    (∃ t job, e = .cancel t ∧ g.jobs[t]? = some job ∧ g' = g.cancelJob t job) ∨
    ∃ t job budget, Stretch settings g t job e budget ∧ g.jobs[t]? = some job ∧
      Lands settings g t job budget g' := by
  cases e with
  | tick now =>
    simp only [Gate.step] at h
    split at h
    · next hnow =>
      obtain rfl := Option.some.inj h
      exact .inl ⟨now, g.lastProjectActivity, le_refl _, hinv.clock.trans hnow, .inr rfl,
        .inr ⟨now, rfl⟩, rfl⟩
    · cases h
  | request =>
    simp only [Gate.step, Option.some.injEq] at h
    subst h
    left
    split
    · exact ⟨g.now, g.now, hinv.clock, le_refl _, .inl rfl, .inl rfl, rfl⟩
    · exact ⟨g.now, g.lastProjectActivity, le_refl _, hinv.clock, .inl rfl, .inl rfl, rfl⟩
  | spawn p =>
    obtain rfl := Option.some.inj h
    exact .inr (.inl ⟨p, rfl, rfl⟩)
  | run t =>
    obtain ⟨job, hjob, h⟩ := Option.bind_eq_some_iff.mp h
    have hstanding := hinv.standing hjob
    refine .inr (.inr (.inr ⟨t, job, _, .inl ⟨rfl, rfl⟩, hjob, ?_⟩))
    split at h
    · cases h
    · next hended =>
      split at h
      · obtain rfl := Option.some.inj h
        exact lands_interrupt hstanding hended
      · exact lands_runJob hstanding h
  | finish t batches =>
    obtain ⟨job, work, hjob, hwork, rfl⟩ := bodyEvent_cases h
    exact .inr (.inr (.inr ⟨t, job, 1, .inr (.inl ⟨batches, rfl, rfl⟩), hjob,
      lands_finish (hinv.standing hjob) hwork batches⟩))
  | fail t =>
    obtain ⟨job, work, hjob, hwork, rfl⟩ := bodyEvent_cases h
    refine .inr (.inr (.inr ⟨t, job, 0, .inr (.inr ⟨rfl, rfl⟩), hjob,
      lands_leave (hinv.standing hjob) ?_⟩))
    rw [hwork]
    rfl
  | cancel t =>
    obtain ⟨job, hjob, h⟩ := Option.bind_eq_some_iff.mp h
    split at h
    · cases h
    · obtain rfl := Option.some.inj h
      exact .inr (.inr (.inl ⟨t, job, rfl, hjob, rfl⟩))

/-- The step lemma. -/
theorem inv_step {e : Event} (hinv : Inv settings g) (h : g.step settings e = some g') :
    Inv settings g' := by
  rcases step_cases hinv h with ⟨now, last, hlast, hnow, -, -, rfl⟩ | ⟨p, -, rfl⟩ |
    ⟨t, job, -, hjob, rfl⟩ | ⟨t, job, budget, -, hjob, hlands⟩
  · exact hinv.clocked hlast hnow
  · exact hinv.spawn
  · exact hinv.cancelJob hjob
  · exact hinv.lands hjob hlands

/-- The run lemma. -/
theorem inv_run {trace : List (Event × Gate)} (hinv : Inv settings g)
    (hrun : Run settings g trace g') : Inv settings g' := by
  induction hrun with
  | nil => exact hinv
  | snoc _ hstep ih => exact inv_step ih hstep

end Invariant

/-! ## Runs of given events -/

theorem Run.cons {g₁ : Gate} {e : Event} {trace : List (Event × Gate)}
    (hstep : g.step settings e = some g₁) (hrun : Run settings g₁ trace g') :
    Run settings g ((e, g₁) :: trace) g' := by
  induction hrun with
  | nil => exact (Run.nil g).snoc hstep
  | snoc _ hlast ih => exact ih.snoc hlast

theorem run_play (g : Gate) (events : List Event) :
    Run settings g (g.play settings events) (g.final (g.play settings events)) := by
  induction events generalizing g with
  | nil => exact Run.nil g
  | cons e rest ih =>
    unfold Gate.play
    cases hstep : g.step settings e with
    | none => exact Run.nil g
    | some g₁ =>
      have hrun := Run.cons hstep (ih g₁)
      have hfinal : g.final ((e, g₁) :: g₁.play settings rest) =
          g₁.final (g₁.play settings rest) := by
        unfold Gate.final
        rw [List.getLast?_cons]
        cases (g₁.play settings rest).getLast? <;> rfl
      show Run settings g ((e, g₁) :: _) (g.final ((e, g₁) :: _))
      rwa [hfinal]

/-! ## Permits and idleness -/

/-- What the gate lets happen. -/
structure Gated (settings : GateSettings) (g : Gate) : Prop where
  inflight : ∀ p, (g.jobs.countP fun job => job.phase = p ∧ job.stage.holds) ≤
    settings.maxInflight p
  restored : (∀ job ∈ g.jobs, job.stage = .ended) →
    ∀ p, g.semaphore p = ⟨settings.maxInflight p, []⟩
  idle : ∀ (e : Event) (g' : Gate), g.step settings e = some g' →
    ∀ (t : ℕ) (job : GatedJob), g'.jobs[t]? = some job → job.stage.Speculative →
     (∃ job' : GatedJob, g.jobs[t]? = some job' ∧ job'.stage = job.stage) ∨
      g.lastProjectActivity + settings.idleSeconds job.phase ≤ g.now

section Permits

/-- Nobody in the queue, and nobody with a permit: all permits are there. -/
theorem Inv.restored (hinv : Inv settings g) (hended : ∀ job ∈ g.jobs, job.stage = .ended)
    (p : Phase) : g.semaphore p = ⟨settings.maxInflight p, []⟩ := by
  have hqueue : (g.semaphore p).queue = [] := by
    apply List.eq_nil_iff_forall_not_mem.mpr
    intro t ht
    obtain ⟨job, hjob, -, hqueued⟩ := (hinv.queue p t).mp ht
    rw [hended job (List.mem_of_getElem? hjob)] at hqueued
    cases hqueued
  have hwaiting : (g.semaphore p).waiting = [] := List.map_eq_nil_iff.mp hqueue
  have hcount : (g.jobs.countP fun job => job.phase = p ∧ job.stage.holds) = 0 := by
    apply List.countP_eq_zero.mpr
    intro job hjob
    simp [hended job hjob, JobStage.holds]
  have hpermits := hinv.permits p
  rw [hcount] at hpermits
  simp only [AsyncSemaphore.permits, hwaiting, List.countP_nil] at hpermits
  cases hsemaphore : g.semaphore p with
  | mk value waiting =>
    simp only [hsemaphore] at hwaiting hpermits
    subst hwaiting
    simpa using hpermits

theorem Inv.idle (hinv : Inv settings g) {e : Event} (h : g.step settings e = some g')
    (hjob : g'.jobs[t]? = some job) (hworks : job.stage.Speculative) :
    (∃ job', g.jobs[t]? = some job' ∧ job'.stage = job.stage) ∨
      g.lastProjectActivity + settings.idleSeconds job.phase ≤ g.now := by
  rcases step_cases hinv h with ⟨now, last, -, -, -, -, rfl⟩ | ⟨p, -, rfl⟩ |
    ⟨u, other, -, hother, rfl⟩ | ⟨u, other, budget, -, hother, s, stage, rfl, -, htimely, -⟩
  · exact .inl ⟨job, hjob, rfl⟩
  · left
    rw [List.getElem?_append] at hjob
    split at hjob
    · exact ⟨job, hjob, rfl⟩
    · rw [List.mem_singleton.mp (List.mem_of_getElem? hjob)] at hworks
      rcases hworks with h | ⟨left, h⟩ <;> cases h
  · left
    rw [getElem?_cancelJob hother] at hjob
    by_cases htu : t = u
    · rw [if_pos htu] at hjob
      obtain rfl := Option.some.inj hjob
      exact ⟨other, htu ▸ hother, rfl⟩
    · rw [if_neg htu] at hjob
      exact ⟨job, hjob, rfl⟩
  · -- only the job that has run can have begun something
    rw [getElem?_place hother] at hjob
    by_cases htu : t = u
    · rw [if_pos htu] at hjob
      obtain rfl := Option.some.inj hjob
      exact .inr (htimely.idle hworks)
    · rw [if_neg htu] at hjob
      exact .inl ⟨job, hjob, rfl⟩

/-- **The gate holds**, in every state that the event loop can reach. -/
theorem background_gated {trace : List (Event × Gate)}
    (hrun : Run settings (boot settings) trace g) : Gated settings g := by
  have hinv := inv_run inv_boot hrun
  refine ⟨fun p => ?_, hinv.restored, fun e g' h t job hjob hworks => hinv.idle h hjob hworks⟩
  have hpermits := hinv.permits p
  omega

/-- One permit for discovery. -/
def oneAtATime : GateSettings := { metadataMaxInflightProjects := 1 }

/-- Two jobs that have waited for the period: one reads its project, the other is queued. -/
def contention : List (Event × Gate) :=
  (boot oneAtATime).play oneAtATime
    [.spawn .discovery, .spawn .discovery, .tick 30, .request, .run 0, .run 1, .tick 120, .run 1,
      .run 0]

theorem background_gated_contention :
    ((boot oneAtATime).final contention).jobs.map GatedJob.stage = [.queued, .working .reading] ∧
      Gated oneAtATime ((boot oneAtATime).final contention) :=
  ⟨by decide +kernel, background_gated (run_play _ _)⟩

end Permits

/-! ## Sleeps -/

/-- The event lets the job `t` run. -/
def runs (t : ℕ) : Event → Bool
  | .run u | .finish u _ => u = t
  | _ => false

/-- The job `t` has fallen asleep in this step. -/
def fallsAsleep (t : ℕ) (x : Event × Gate) : Bool :=
  runs t x.1 && (x.2.jobs[t]?).any fun job => dozes job.stage = 1

/-- The body of the job `t` goes on. -/
def finishes (t : ℕ) : Event → Bool
  | .finish u _ => u = t
  | _ => false

/-- What the job `t` may sleep, before and after it is created. -/
def credits (settings : GateSettings) (g : Gate) (t : ℕ) : ℕ :=
  (g.jobs[t]?).elim 2 fun job => credit settings g job.phase job.stage

section Sleeps

/-- A request costs one sleep at most. -/
theorem credit_clocked {now last : ℚ} :
    credit settings { g with now, lastProjectActivity := last } p stage ≤
      credit settings g p stage + 1 := by
  cases stage with
  | idling wait wakeAt =>
    simp only [credit]
    split <;> split <;> omega
  | _ => simp [credit]

theorem credits_of_jobs {g g' : Gate} (hlast : g'.lastProjectActivity = g.lastProjectActivity)
    (hjobs : (g'.jobs[t]?).map (fun job => (job.phase, job.stage)) =
      (g.jobs[t]?).map fun job => (job.phase, job.stage)) :
    credits settings g' t = credits settings g t := by
  have hsame : ∀ p stage, credit settings g' p stage = credit settings g p stage := by
    intro p stage
    cases stage <;> simp [credit, hlast]
  unfold credits
  cases h : g.jobs[t]? with
  | none =>
    rw [h] at hjobs
    rw [Option.map_eq_none_iff.mp hjobs]
    rfl
  | some job =>
    rw [h] at hjobs
    obtain ⟨job', hjob', heq⟩ := Option.map_eq_some_iff.mp hjobs
    obtain ⟨hphase, hstage⟩ := Prod.mk.inj heq
    rw [hjob']
    simp [hphase, hstage, hsame]

theorem credits_clocked {now last : ℚ} :
    credits settings { g with now, lastProjectActivity := last } t ≤ credits settings g t + 1 := by
  unfold credits
  cases hjob : g.jobs[t]? with
  | none => simp
  | some job => exact credit_clocked

/-- A job that is created may sleep as often as before. -/
theorem credits_spawn :
    credits settings { g with jobs := g.jobs ++ [{ phase := p }] } t = credits settings g t := by
  unfold credits
  dsimp only
  rw [List.getElem?_append]
  split
  · rfl
  · next hlt =>
    rw [List.getElem?_eq_none (l := g.jobs) (by omega)]
    cases hnew : t - g.jobs.length with
    | zero => rfl
    | succ n => rfl

theorem credits_cancelJob (hjob : g.jobs[u]? = some job) :
    credits settings (g.cancelJob u job) t = credits settings g t := by
  apply credits_of_jobs cancelJob_lastProjectActivity
  rw [getElem?_cancelJob hjob]
  by_cases htu : t = u
  · subst htu
    simp [hjob]
  · simp [htu]

theorem credits_of_job (hjob : g.jobs[t]? = some job) :
    credits settings g t = credit settings g job.phase job.stage := by
  unfold credits
  rw [hjob]
  rfl

theorem credits_place_self (hjob : g.jobs[t]? = some job) :
    credits settings ((g.setSemaphore s job.phase).place t job stage) t =
      credit settings g job.phase stage := by
  rw [credits_of_job (by rw [getElem?_place hjob, if_pos rfl])]
  cases stage <;> simp [credit]

theorem credits_place_of_ne (hjob : g.jobs[u]? = some job) (htu : t ≠ u) :
    credits settings ((g.setSemaphore s job.phase).place u job stage) t =
      credits settings g t := by
  apply credits_of_jobs (by simp)
  rw [getElem?_place hjob, if_neg htu]

theorem fallsAsleep_place (e : Event) (hjob : g.jobs[t]? = some job) :
    (fallsAsleep t (e, (g.setSemaphore s job.phase).place t job stage)).toNat ≤ dozes stage := by
  simp only [fallsAsleep, getElem?_place hjob, if_true, Option.any_some]
  cases stage with
  | idling wait wakeAt => exact Bool.toNat_le _
  | _ => simp [dozes]

/-- The step lemma: a sleep is paid for, by the job, a request, or what the body awaited. -/
theorem credits_step {e : Event} (hinv : Inv settings g) (h : g.step settings e = some g')
    (t : ℕ) : (fallsAsleep t (e, g')).toNat + credits settings g' t ≤
      credits settings g t + (decide (e = .request)).toNat + (finishes t e).toNat := by
  have hawake : runs t e = false → (fallsAsleep t (e, g')).toNat = 0 := by
    intro hruns
    simp [fallsAsleep, hruns]
  rcases step_cases hinv h with ⟨now, last, -, -, hlast, hevent, rfl⟩ | ⟨p, rfl, rfl⟩ |
    ⟨u, job, rfl, hjob, rfl⟩ | ⟨u, job, budget, hstretch, hjob, s, stage, rfl, -, -, hbudget⟩
  · have hruns : runs t e = false := by
      rcases hevent with rfl | ⟨now', rfl⟩ <;> rfl
    rw [hawake hruns]
    rcases hlast with rfl | rfl
    · simpa using credits_clocked.trans (by simp)
    · -- time alone costs nothing
      have hcredit :
          credits settings { g with now, lastProjectActivity := g.lastProjectActivity } t =
            credits settings g t := credits_of_jobs rfl rfl
      omega
  · rw [hawake rfl, credits_spawn]
    omega
  · rw [hawake rfl, credits_cancelJob hjob]
    omega
  by_cases htu : t = u
  · -- what the stretch may cost bounds the sleep that it ends with
    subst htu
    have hasleep : (fallsAsleep t (e, (g.setSemaphore s job.phase).place t job stage)).toNat ≤
        dozes stage := fallsAsleep_place e hjob
    rw [credits_place_self hjob, credits_of_job hjob]
    rcases hstretch with ⟨rfl, rfl⟩ | ⟨batches, rfl, rfl⟩ | ⟨rfl, rfl⟩
    · omega
    · simp only [finishes, decide_true, Bool.toNat_true]
      omega
    · omega
  · have hruns : runs t e = false := by
      rcases hstretch with ⟨rfl, -⟩ | ⟨batches, rfl, -⟩ | ⟨rfl, -⟩
      · simp [runs, Ne.symm htu]
      · simp [runs, Ne.symm htu]
      · rfl
    rw [hawake hruns, credits_place_of_ne hjob htu]
    omega

/-- **No job is woken in vain**: it sleeps twice, and besides at most once for each request and
for each thing that its body awaited. -/
theorem sleeps_bounded {trace : List (Event × Gate)}
    (hrun : Run settings (boot settings) trace g) (t : ℕ) :
    trace.countP (fallsAsleep t) ≤
      2 + (trace.countP fun x => x.1 = .request) + trace.countP fun x => finishes t x.1 := by
  have hcredits : trace.countP (fallsAsleep t) + credits settings g t ≤
      2 + (trace.countP fun x => x.1 = .request) + trace.countP fun x => finishes t x.1 := by
    induction hrun with
    | nil => simp [credits, boot]
    | snoc hbefore hstep ih =>
      have hpaid := credits_step (inv_run inv_boot hbefore) hstep t
      have htoNat : ∀ b : Bool, (if b = true then 1 else 0) = b.toNat := by
        intro b
        cases b <;> rfl
      simp only [List.countP_append, List.countP_singleton, htoNat]
      omega
  omega

/-- A request overtakes the first sleep of a job. -/
theorem sleeps_bounded_overtaken :
    ((boot oneAtATime).play oneAtATime [.spawn .discovery, .run 0, .tick 30, .request, .tick 90,
      .run 0, .tick 120, .run 0]).countP (fallsAsleep 0) = 2 ∧
    ((boot oneAtATime).play oneAtATime [.spawn .discovery, .run 0, .tick 30, .request, .tick 90,
      .run 0, .tick 120, .run 0]).countP (fallsAsleep 0) ≤ 3 :=
  ⟨by decide +kernel, (sleeps_bounded (run_play _ _) 0).trans (by decide +kernel)⟩

end Sleeps

end ProxyCache.Theorems.IdleGate
