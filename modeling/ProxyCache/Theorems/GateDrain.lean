import ProxyCache.Theorems.IdleGate

/-!
# The background work comes to an end

Once the last request is its period ago, no job sleeps any more. Whatever order the event loop
runs the jobs in from then on, each stretch of a job brings it nearer to its end; and as long as
a job has not ended, one of them can go on, for no permit is lost and nobody waits in vain.
-/

namespace ProxyCache.Theorems.GateDrain

open ProxyCache.Python ProxyCache.App ProxyCache.App.Gate ProxyCache.Theorems.IdleGate

variable {settings : GateSettings} {g g' : Gate} {t : ℕ} {job : GatedJob} {p : Phase}
  {s : AsyncSemaphore} {stage : JobStage} {e : Event} {trace : List (Event × Gate)}

/-- The event is a stretch of a job. -/
def proceeds : Event → Bool
  | .run _ | .finish .. | .fail _ => true
  | .tick _ | .request | .spawn _ | .cancel _ => false

/-- No request is noted, and no job is created. -/
def calm : Event → Bool
  | .request | .spawn _ => false
  | _ => true

/-- The batches that an event announces. -/
def announced : Event → ℕ
  | .finish _ (some batches) => batches
  | _ => 0

/-- The last request is its period ago. -/
def Quiet (settings : GateSettings) (g : Gate) : Prop :=
  ∀ p, g.lastProjectActivity + settings.idleSeconds p ≤ g.now

/-- The stretches that a job has before it, with the batches that it knows of. -/
def rank : JobStage → ℕ
  | .created | .idling .arrival _ => 5
  | .queued | .idling .admission _ => 4
  | .working .reading => 3
  | .idling (.batch left) _ => left + 3
  | .working (.batch left) => left + 2
  | .working .committing => 1
  | .ended => 0

/-- The stretches that all jobs have before them. -/
def effort (g : Gate) : ℕ := (g.jobs.map fun job => rank job.stage).sum

section Effort

theorem sum_set_rank {jobs : List GatedJob} (hjob : jobs[t]? = some job) (job' : GatedJob) :
    ((jobs.set t job').map fun job => rank job.stage).sum + rank job.stage =
      (jobs.map fun job => rank job.stage).sum + rank job'.stage := by
  induction jobs generalizing t with
  | nil => simp at hjob
  | cons first rest ih =>
    cases t with
    | zero =>
      obtain rfl := Option.some.inj hjob
      simp only [List.set_cons_zero, List.map_cons, List.sum_cons]
      omega
    | succ t =>
      have hrest := ih (t := t) (by simpa using hjob)
      simp only [List.set_cons_succ, List.map_cons, List.sum_cons]
      omega

/-- The job waits at another stage now, with at most so many stretches before it. -/
def Nears (g : Gate) (t : ℕ) (job : GatedJob) (n : ℕ) (g' : Gate) : Prop :=
  ∃ s stage, g' = (g.setSemaphore s job.phase).place t job stage ∧ rank stage ≤ n

theorem Nears.effort_le {n : ℕ} (hjob : g.jobs[t]? = some job) (h : Nears g t job n g') :
    effort g' + rank job.stage ≤ effort g + n := by
  obtain ⟨s, stage, rfl, hrank⟩ := h
  have hsum := sum_set_rank hjob { job with stage }
  unfold effort
  rw [place_jobs, setSemaphore_jobs]
  dsimp only at hsum
  omega

theorem Nears.mono {m n : ℕ} (h : Nears g t job m g') (hmn : m ≤ n) : Nears g t job n g' := by
  obtain ⟨s, stage, heq, hrank⟩ := h
  exact ⟨s, stage, heq, hrank.trans hmn⟩

theorem nears_leave : Nears g t job 0 (g.leave t job) := ⟨_, .ended, rfl, le_refl _⟩

/-- No job falls asleep any more. -/
theorem waitForProjectIdle_quiet (hquiet : Quiet settings g) {wait : IdleWait} {next : Gate} :
    (g.setSemaphore s p).waitForProjectIdle settings t job wait next = next := by
  have hidle := hquiet job.phase
  have hremaining : (g.setSemaphore s p).remaining settings job.phase ≤ 0 := by
    simp only [Gate.remaining, setSemaphore_now, setSemaphore_lastProjectActivity]
    linarith
  unfold Gate.waitForProjectIdle
  rw [if_pos hremaining]

theorem waitForProjectIdle_quiet' (hquiet : Quiet settings g) {wait : IdleWait} {next : Gate} :
    g.waitForProjectIdle settings t job wait next = next := by
  have h : (g.setSemaphore (g.semaphore .discovery) .discovery).waitForProjectIdle settings t job
      wait next = next := waitForProjectIdle_quiet hquiet
  rwa [setSemaphore_semaphore] at h

theorem nears_enter (hquiet : Quiet settings g) :
    Nears g t job 3 ((g.setSemaphore s job.phase).enter settings t job) := by
  unfold Gate.enter
  rw [waitForProjectIdle_quiet hquiet]
  exact ⟨s, .working .reading, rfl, le_refl _⟩

theorem nears_arrive (hquiet : Quiet settings g) :
    Nears g t job 4 (g.arrive settings t job) := by
  unfold Gate.arrive
  rw [waitForProjectIdle_quiet' hquiet]
  unfold Gate.acquire
  dsimp only
  split
  · exact (nears_enter hquiet).mono (by omega)
  · exact ⟨_, .queued, rfl, le_refl _⟩

theorem nears_commit : Nears g t job 1 (g.place t job (.working .committing)) :=
  ⟨g.semaphore job.phase, .working .committing, by rw [setSemaphore_semaphore], le_refl _⟩

theorem nears_nextBatch (hquiet : Quiet settings g) (left : ℕ) :
    Nears g t job (left + 2) (g.nextBatch settings t job left) := by
  unfold Gate.nextBatch
  split
  · exact nears_commit.mono (by omega)
  · rw [waitForProjectIdle_quiet' hquiet]
    exact ⟨g.semaphore job.phase, .working (.batch left), by rw [setSemaphore_semaphore], le_refl _⟩

/-- What a job has before it gets less with each stretch, but for the batches that it hears of. -/
theorem nears_runJob (hquiet : Quiet settings g)
    (h : g.runJob settings t job job.stage = some g') :
    ∃ n, n + 1 ≤ rank job.stage ∧ Nears g t job n g' := by
  cases hstage : job.stage with
  | created =>
    rw [hstage] at h
    obtain rfl := Option.some.inj h
    exact ⟨4, le_refl _, nears_arrive hquiet⟩
  | idling wait wakeAt =>
    rw [hstage] at h
    simp only [Gate.runJob] at h
    split at h
    · obtain rfl := Option.some.inj h
      cases wait with
      | arrival => exact ⟨4, le_refl _, nears_arrive hquiet⟩
      | admission =>
        have henter : Nears g t job 3
            ((g.setSemaphore (g.semaphore job.phase) job.phase).enter settings t job) :=
          nears_enter hquiet
        rw [setSemaphore_semaphore] at henter
        exact ⟨3, le_refl _, henter⟩
      | batch left => exact ⟨left + 2, le_refl _, nears_nextBatch hquiet left⟩
    · cases h
  | queued =>
    rw [hstage] at h
    simp only [Gate.runJob] at h
    split at h
    · obtain rfl := Option.some.inj h
      exact ⟨3, le_refl _, nears_enter hquiet⟩
    · cases h
  | working | ended =>
    rw [hstage] at h
    cases h

theorem nears_finish (hquiet : Quiet settings g) {work : Work} (hstage : job.stage = .working work)
    (batches : Option ℕ) :
    ∃ n, n + 1 ≤ rank job.stage + announced (.finish t batches) ∧
      Nears g t job n (g.finish settings t job batches work) := by
  rw [hstage]
  cases work with
  | reading =>
    dsimp only [Gate.finish]
    split
    · next batches _ =>
      refine ⟨batches + 2, ?_, nears_nextBatch hquiet batches⟩
      simp only [rank, announced]
      omega
    · refine ⟨0, ?_, nears_leave⟩
      simp only [rank]
      omega
  | batch left =>
    refine ⟨left + 1, by simp [rank, announced], ?_⟩
    cases left with
    | zero => exact nears_commit
    | succ left => exact (nears_nextBatch hquiet left).mono (by omega)
  | committing => exact ⟨0, by simp [rank], nears_leave⟩

theorem nears_interrupt (hstage : job.stage ≠ .ended) :
    Nears g t job 0 (g.interrupt t job job.stage) := by
  have hend : Nears g t job 0 (g.place t job .ended) :=
    ⟨g.semaphore job.phase, .ended, by rw [setSemaphore_semaphore], le_refl _⟩
  cases hcase : job.stage with
  | created => exact hend
  | idling wait wakeAt =>
    cases wait with
    | arrival => exact hend
    | admission | batch left => exact nears_leave
  | queued => exact ⟨_, .ended, rfl, le_refl _⟩
  | working work => exact nears_leave
  | ended => exact absurd hcase hstage

theorem rank_pos (hstage : stage ≠ .ended) : 0 < rank stage := by
  cases stage with
  | idling wait wakeAt => cases wait <;> simp [rank]
  | working work => cases work <;> simp [rank]
  | ended => exact absurd rfl hstage
  | _ => simp [rank]

/-- The step lemma. -/
theorem effort_step (hquiet : Quiet settings g) (hcalm : calm e = true)
    (h : g.step settings e = some g') :
    effort g' + (proceeds e).toNat ≤ effort g + announced e ∧ Quiet settings g' := by
  have hplace : ∀ {t : ℕ} {job : GatedJob} {n : ℕ}, g.jobs[t]? = some job →
      n + 1 ≤ rank job.stage + announced e → Nears g t job n g' →
      effort g' + 1 ≤ effort g + announced e ∧ Quiet settings g' := by
    intro t job n hjob hn hnears
    -- the job has one stretch less before it, and the times stay as they are
    have heffort := hnears.effort_le hjob
    refine ⟨by omega, ?_⟩
    obtain ⟨s, stage, rfl, -⟩ := hnears
    intro p
    simpa using hquiet p
  cases e with
  | tick now =>
    simp only [Gate.step] at h
    split at h
    · next hnow =>
      obtain rfl := Option.some.inj h
      exact ⟨le_refl _, fun p => (hquiet p).trans hnow⟩
    · cases h
  | request | spawn p => cases hcalm
  | run t =>
    obtain ⟨job, hjob, h⟩ := Option.bind_eq_some_iff.mp h
    split at h
    · cases h
    · next hended =>
      split at h
      · obtain rfl := Option.some.inj h
        exact hplace hjob (rank_pos hended) (nears_interrupt hended)
      · obtain ⟨n, hn, hnears⟩ := nears_runJob hquiet h
        exact hplace hjob hn hnears
  | finish t batches =>
    obtain ⟨job, work, hjob, hwork, rfl⟩ := bodyEvent_cases h
    obtain ⟨n, hn, hnears⟩ := nears_finish (t := t) hquiet hwork batches
    exact hplace hjob hn hnears
  | fail t =>
    obtain ⟨job, work, hjob, hwork, rfl⟩ := bodyEvent_cases h
    exact hplace hjob (rank_pos (by simp [hwork])) nears_leave
  | cancel t =>
    obtain ⟨job, hjob, h⟩ := Option.bind_eq_some_iff.mp h
    split at h
    · cases h
    · obtain rfl := Option.some.inj h
      -- its stage is the same, so its rank is
      have hsum := sum_set_rank hjob { job with cancelled := true }
      refine ⟨?_, fun p => ?_⟩
      · show effort (g.cancelJob t job) + 0 ≤ effort g + 0
        unfold effort
        show (((g.jobs.set t { job with cancelled := true }).map _).sum + 0 ≤ _)
        dsimp only at hsum
        omega
      · show (g.setSemaphore _ job.phase).lastProjectActivity + settings.idleSeconds p ≤
          (g.setSemaphore _ job.phase).now
        simpa using hquiet p

/-- The run lemma. -/
theorem effort_run (hquiet : Quiet settings g) (hrun : Run settings g trace g')
    (hcalm : ∀ x ∈ trace, calm x.1 = true) :
    effort g' + (trace.countP fun x => proceeds x.1) ≤
      effort g + (trace.map fun x => announced x.1).sum ∧ Quiet settings g' := by
  induction hrun with
  | nil => exact ⟨by simp, hquiet⟩
  | snoc hbefore hstep ih =>
    obtain ⟨hpaid, hquiet⟩ := ih fun x hx => hcalm x (List.mem_append_left _ hx)
    obtain ⟨hstep, hquiet⟩ := effort_step hquiet
      (hcalm _ (List.mem_append_right _ (List.mem_singleton_self _))) hstep
    refine ⟨?_, hquiet⟩
    have htoNat : ∀ b : Bool, (if b = true then 1 else 0) = b.toNat := by
      intro b
      cases b <;> rfl
    dsimp only at hstep
    simp only [List.countP_append, List.countP_singleton, List.map_append, List.map_cons,
      List.map_nil, List.sum_append, List.sum_cons, List.sum_nil, htoNat]
    omega

end Effort

/-! ## Somebody can go on -/

section Progress

/-- No job can go on. -/
def Stuck (settings : GateSettings) (g : Gate) : Prop :=
  ∀ e, proceeds e = true → g.step settings e = none

variable (hquiet : Quiet settings g) (hinv : Inv settings g) (hstuck : Stuck settings g)
include hstuck

/-- A job that waits in vain is neither cancelled nor woken. -/
theorem Stuck.runJob (hjob : g.jobs[t]? = some job) (hended : job.stage ≠ .ended) :
    job.cancelled = false ∧ g.runJob settings t job job.stage = none := by
  have hrun : g.step settings (.run t) = none := hstuck (.run t) rfl
  simp only [Gate.step, Gate.jobEvent, hjob, Option.bind_some, if_neg hended] at hrun
  cases hcancelled : job.cancelled with
  | false => simpa [hcancelled] using hrun
  | true => simp [hcancelled] at hrun

include hquiet hinv in
/-- Only in the queue of a semaphore can a job be stuck. -/
theorem Stuck.queued (hjob : g.jobs[t]? = some job) (hended : job.stage ≠ .ended) :
    job.stage = .queued := by
  obtain ⟨hcancelled, hrun⟩ := hstuck.runJob hjob hended
  cases hstage : job.stage with
  | created => simp [hstage, Gate.runJob] at hrun
  | idling wait wakeAt =>
    -- the period it sleeps for is over
    have hawake : wakeAt ≤ g.now := (hinv.asleep t job hjob wait wakeAt hstage).trans (hquiet _)
    simp [hstage, Gate.runJob, hawake] at hrun
  | queued => rfl
  | working work =>
    have hfinish : g.step settings (.finish t none) = none := hstuck (.finish t none) rfl
    simp [Gate.step, Gate.bodyEvent, Gate.jobEvent, hjob, hstage, hcancelled] at hfinish
  | ended => exact absurd hstage hended

include hquiet hinv in
/-- With a permit to be had, nobody is stuck. -/
theorem Stuck.ended (hpermits : ∀ p, 0 < settings.maxInflight p) :
    ∀ job ∈ g.jobs, job.stage = .ended := by
  intro job hmem
  obtain ⟨t, hjob⟩ := List.mem_iff_getElem?.mp hmem
  by_contra hended
  have hqueued := hstuck.queued hquiet hinv hjob hended
  -- nobody of this phase is past the semaphore
  have hcount : (g.jobs.countP fun other => other.phase = job.phase ∧ other.stage.holds) = 0 := by
    apply List.countP_eq_zero.mpr
    intro other hother
    obtain ⟨u, hu⟩ := List.mem_iff_getElem?.mp hother
    by_cases hend : other.stage = .ended
    · simp [hend, JobStage.holds]
    · simp [hstuck.queued hquiet hinv hu hend, JobStage.holds]
  -- and nobody has been woken
  have hwoken : ∀ u, ¬ (g.semaphore job.phase).Woken u := by
    intro u hu
    obtain ⟨other, hother, hphase, hstage⟩ :=
      (hinv.queue _ _).mp (AsyncSemaphore.mem_queue_of_mem hu)
    have hrun := (hstuck.runJob hother (by simp [hstage])).2
    rw [← hphase] at hu
    simp [hstage, Gate.runJob, hu] at hrun
  have hvalue : 0 < (g.semaphore job.phase).value := by
    have htotal := hinv.permits job.phase
    have hnone : ((g.semaphore job.phase).waiting.countP fun x => x.2 = .woken) = 0 := by
      apply List.countP_eq_zero.mpr
      rintro ⟨u, w⟩ hu hw
      refine hwoken u ?_
      unfold AsyncSemaphore.Woken
      rwa [← of_decide_eq_true hw]
    have hlimit := hpermits job.phase
    simp only [AsyncSemaphore.permits, hnone, hcount] at htotal
    omega
  -- so the job is in the queue, and its place there is a cancelled one
  obtain ⟨⟨u, w⟩, hwaits, rfl⟩ := List.mem_map.mp ((hinv.queue _ _).mpr ⟨job, hjob, rfl, hqueued⟩)
  cases w with
  | pending => exact (hinv.alert _).not_pending hvalue hwoken hwaits
  | woken => exact hwoken _ hwaits
  | cancelled =>
    obtain ⟨other, hother, hcancelled⟩ := hinv.cancelled _ _ hwaits
    obtain rfl := Option.some.inj (hjob.symm.trans hother)
    have hfalse := (hstuck.runJob hjob hended).1
    rw [hcancelled] at hfalse
    cases hfalse

end Progress

/-- Nothing is left to be done. -/
theorem stuck_of_ended (hended : ∀ job ∈ g.jobs, job.stage = .ended) : Stuck settings g := by
  have hnone : ∀ t (f : GatedJob → Option Gate),
      (∀ job : GatedJob, job.stage = .ended → f job = none) → g.jobEvent t f = none := by
    intro t f hf
    apply Option.bind_eq_none_iff.mpr
    intro job hjob
    exact hf job (hended job (List.mem_of_getElem? hjob))
  intro e hproceeds
  cases e with
  | run t => exact hnone t _ fun job h => by simp [h]
  | finish t batches => exact hnone t _ fun job h => by simp [h]
  | fail t => exact hnone t _ fun job h => by simp [h]
  | _ => cases hproceeds

/-- **The background work comes to an end**, in every order of events after the last request was
its period ago: the stretches are no more than the jobs had before them, and one for each batch
that they heard of since; some job can go on until all have ended, and then the semaphores are as
new. -/
theorem jobs_drain (hpermits : ∀ p, 0 < settings.maxInflight p) {before : List (Event × Gate)}
    (hbefore : Run settings (boot settings) before g) (hquiet : Quiet settings g)
    (hrun : Run settings g trace g') (hcalm : ∀ x ∈ trace, calm x.1 = true) :
    (trace.countP fun x => proceeds x.1) ≤ effort g + (trace.map fun x => announced x.1).sum ∧
      (Stuck settings g' ↔ ∀ job ∈ g'.jobs, job.stage = .ended) ∧
      (Stuck settings g' → ∀ p, g'.semaphore p = ⟨settings.maxInflight p, []⟩) := by
  have hinv := inv_run (inv_run inv_boot hbefore) hrun
  obtain ⟨heffort, hquiet⟩ := effort_run hquiet hrun hcalm
  have hended : Stuck settings g' → ∀ job ∈ g'.jobs, job.stage = .ended :=
    fun hstuck => hstuck.ended hquiet hinv hpermits
  exact ⟨by omega, ⟨hended, stuck_of_ended⟩, fun hstuck => hinv.restored (hended hstuck)⟩

/-- A job that reads its project, and one that waits for its permit. -/
theorem jobs_drain_contention :
    let g := (boot oneAtATime).final contention
    let trace := g.play oneAtATime [.finish 1 none, .run 0, .finish 0 none]
    effort g = 7 ∧ (trace.countP fun x => proceeds x.1) = 3 ∧
      Stuck oneAtATime (g.final trace) ∧
      ∀ p, (g.final trace).semaphore p = ⟨oneAtATime.maxInflight p, []⟩ := by
  intro g trace
  have hpermits : ∀ p, 0 < oneAtATime.maxInflight p := by
    intro p
    cases p <;> decide
  have hquiet : Quiet oneAtATime g := by
    intro p
    cases p <;> decide +kernel
  have hcalm : ∀ x ∈ trace, calm x.1 = true := by decide +kernel
  obtain ⟨-, hended, hrestored⟩ :=
    jobs_drain hpermits (run_play _ _) hquiet (run_play g _) hcalm
  have hstuck := hended.mpr (by decide +kernel)
  exact ⟨by decide +kernel, by decide +kernel, hstuck, hrestored hstuck⟩

end ProxyCache.Theorems.GateDrain
