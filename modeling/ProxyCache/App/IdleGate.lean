import ProxyCache.Python.Semaphore
import Mathlib.Algebra.Order.Ring.Rat

/-!
# When background work runs (`app/metadata.py`)

`_enrich` and `_extract_project_after_idle`, by where they wait: for a period without
project requests, for a permit of the semaphore of their phase, for the period once
more, and for what the body awaits. An extraction waits for the period again before
each of its batches.

What a job does between two `await`s is one function here. The clock of the event loop
is exact, and moves on between the steps.
-/

namespace ProxyCache.App

open ProxyCache.Python

inductive Phase where
  | discovery
  | extraction
  deriving DecidableEq

structure GateSettings where
  enableBackgroundMetadata : Bool := true
  metadataBackgroundDiscoveryIdleSeconds : ℚ := 90
  metadataBackgroundExtractionIdleSeconds : ℚ := 90
  metadataMaxInflightProjects : ℕ := 4
  metadataMaxInflightExtractionProjects : ℕ := 4

namespace GateSettings

variable (settings : GateSettings)

/-- What `_wait_for_discovery_idle` and `_wait_for_extraction_idle` wait for. -/
def idleSeconds : Phase → ℚ
  | .discovery => settings.metadataBackgroundDiscoveryIdleSeconds
  | .extraction => settings.metadataBackgroundExtractionIdleSeconds

/-- What the semaphores start with. -/
def maxInflight : Phase → ℕ
  | .discovery => settings.metadataMaxInflightProjects
  | .extraction => settings.metadataMaxInflightExtractionProjects

end GateSettings

/-- Which period a job waits for: the one before it asks for a permit, the one after it
has it, or the one before a batch, with the batches that are left. -/
inductive IdleWait where
  | arrival
  | admission
  | batch (left : ℕ)
  deriving DecidableEq

/-- What a job awaits in its body. Of discovery everything is `reading`. -/
inductive Work where
  | reading
  | batch (left : ℕ)
  | committing
  deriving DecidableEq

inductive JobStage where
  /-- The task has not run yet. -/
  | created
  /-- In `asyncio.sleep`. -/
  | idling (wait : IdleWait) (wakeAt : ℚ)
  /-- In `acquire`. -/
  | queued
  | working (work : Work)
  | ended
  deriving DecidableEq

namespace JobStage

/-- The job is past the semaphore. -/
def holds : JobStage → Bool
  | .idling .arrival _ | .created | .queued | .ended => false
  | .idling .admission _ | .idling (.batch _) _ | .working _ => true

/-- The job reads its project, or it works at a batch. -/
def Speculative (stage : JobStage) : Prop :=
  stage = .working .reading ∨ ∃ left, stage = .working (.batch left)

end JobStage

structure GatedJob where
  phase : Phase
  stage : JobStage := .created
  /-- `Task.cancel` was called. -/
  cancelled : Bool := false

structure Gate where
  now : ℚ := 0
  lastProjectActivity : ℚ := 0
  taskSemaphore : AsyncSemaphore
  extractionProjectSemaphore : AsyncSemaphore
  /-- The background tasks, by the order in which they were created. -/
  jobs : List GatedJob := []

namespace Gate

variable (settings : GateSettings) (g : Gate) (t : ℕ) (job : GatedJob)

/-- The module as it is loaded. -/
def boot : Gate where
  taskSemaphore := ⟨settings.metadataMaxInflightProjects, []⟩
  extractionProjectSemaphore := ⟨settings.metadataMaxInflightExtractionProjects, []⟩

/-- The semaphore of a phase. -/
def semaphore : Phase → AsyncSemaphore
  | .discovery => g.taskSemaphore
  | .extraction => g.extractionProjectSemaphore

def setSemaphore (s : AsyncSemaphore) : Phase → Gate
  | .discovery => { g with taskSemaphore := s }
  | .extraction => { g with extractionProjectSemaphore := s }

/-- The job waits there now. -/
def place (stage : JobStage) : Gate := { g with jobs := g.jobs.set t { job with stage } }

/-! ## The jobs -/

def remaining (phase : Phase) : ℚ := g.lastProjectActivity + settings.idleSeconds phase - g.now

/-- `_wait_for_project_idle`, from its look at the clock on: the job sleeps, or it goes on
at once. -/
def waitForProjectIdle (wait : IdleWait) (next : Gate) : Gate :=
  if g.remaining settings job.phase ≤ 0 then next
  else g.place t job (.idling wait (g.now + g.remaining settings job.phase))

/-- With a permit: the second wait, and the body. -/
def enter : Gate :=
  g.waitForProjectIdle settings t job .admission (g.place t job (.working .reading))

/-- `async with` the semaphore. -/
def acquire : Gate :=
  let acquired := (g.semaphore job.phase).tryAcquire t
  let g := g.setSemaphore acquired.2 job.phase
  -- a permit that is free is taken without a suspension
  if acquired.1 then g.enter settings t job else g.place t job .queued

def arrive : Gate := g.waitForProjectIdle settings t job .arrival (g.acquire settings t job)

/-- The loop over the batches. -/
def nextBatch (left : ℕ) : Gate :=
  if left = 0 then g.place t job (.working .committing)
  else g.waitForProjectIdle settings t job (.batch left) (g.place t job (.working (.batch left)))

/-- The end of the body: the permit is given back, however the body ends. -/
def leave : Gate :=
  (g.setSemaphore (g.semaphore job.phase).release job.phase).place t job .ended

/-- Awake again: the loop of `_wait_for_project_idle`. -/
def wake : IdleWait → Gate
  | .arrival => g.arrive settings t job
  | .admission => g.enter settings t job
  | .batch left => g.nextBatch settings t job left

/-- What the body awaited is there. An extraction that has read its project knows how many
batches it has, unless there is nothing to do. -/
def finish (batches : Option ℕ) : Work → Gate
  | .reading =>
    match job.phase, batches with
    | .extraction, some batches => g.nextBatch settings t job batches
    | _, _ => g.leave t job
  | .batch left => g.nextBatch settings t job (left - 1)
  | .committing => g.leave t job

/-- `CancelledError`, where the job waits. -/
def interrupt : JobStage → Gate
  -- there is no permit to be given back yet
  | .created | .idling .arrival _ => g.place t job .ended
  | .queued =>
    (g.setSemaphore ((g.semaphore job.phase).abandon t) job.phase).place t job .ended
  | .idling .. | .working _ => g.leave t job
  | .ended => g

/-- The job runs on to its next `await`, if it can. -/
def runJob : JobStage → Option Gate
  | .created => some (g.arrive settings t job)
  | .idling wait wakeAt => if wakeAt ≤ g.now then some (g.wake settings t job wait) else none
  | .queued =>
    if (g.semaphore job.phase).Woken t then
      some ((g.setSemaphore ((g.semaphore job.phase).resume t) job.phase).enter settings t job)
    else none
  | .working _ | .ended => none

/-- `Task.cancel`. -/
def cancelJob : Gate :=
  let s := g.semaphore job.phase
  { g.setSemaphore (if job.stage = .queued then s.cancel t else s) job.phase with
    jobs := g.jobs.set t { job with cancelled := true } }

/-! ## Events -/

inductive Event where
  | tick (now : ℚ)
  /-- `note_project_request`. -/
  | request
  /-- `asyncio.create_task`. -/
  | spawn (phase : Phase)
  /-- The job runs on. -/
  | run (t : ℕ)
  /-- What the body awaited is there. -/
  | finish (t : ℕ) (batches : Option ℕ)
  /-- What the body awaited raised an exception. -/
  | fail (t : ℕ)
  | cancel (t : ℕ)
  deriving DecidableEq

/-- An event of the job `t`. -/
def jobEvent (f : GatedJob → Option Gate) : Option Gate := (g.jobs[t]?).bind f

/-- An event in the body of the job `t`, while it is not cancelled. -/
def bodyEvent (f : GatedJob → Work → Gate) : Option Gate :=
  g.jobEvent t fun job =>
    match job.stage with
    -- a cancelled body runs on with CancelledError only
    | .working work => if job.cancelled then none else some (f job work)
    | _ => none

/-- One event, where it can happen. -/
def step : Event → Option Gate
  | .tick now => if g.now ≤ now then some { g with now } else none
  -- without background metadata nothing is noted
  | .request =>
    some (if settings.enableBackgroundMetadata then { g with lastProjectActivity := g.now } else g)
  | .spawn phase => some { g with jobs := g.jobs ++ [{ phase }] }
  | .run t => g.jobEvent t fun job =>
    if job.stage = .ended then none
    else if job.cancelled then some (g.interrupt t job job.stage)
    else g.runJob settings t job job.stage
  | .finish t batches => g.bodyEvent t fun job work => g.finish settings t job batches work
  | .fail t => g.bodyEvent t fun job _ => g.leave t job
  | .cancel t => g.jobEvent t fun job =>
    if job.stage = .ended then none else some (g.cancelJob t job)

/-- The events, each with the state after it, lead from one state to another. -/
inductive Run : Gate → List (Event × Gate) → Gate → Prop
  | nil (g : Gate) : Run g [] g
  | snoc {g g₁ g' : Gate} {trace : List (Event × Gate)} {e : Event}
      (hrun : Run g trace g₁) (hstep : g₁.step settings e = some g') :
      Run g (trace ++ [(e, g')]) g'

/-- The events up to the first that cannot happen. -/
def play : Gate → List Event → List (Event × Gate)
  | _, [] => []
  | g, e :: rest => (g.step settings e).elim [] fun g' => (e, g') :: play g' rest

/-- The state at the end of a run. -/
def final (trace : List (Event × Gate)) : Gate := (trace.getLast?.map Prod.snd).getD g

end Gate

end ProxyCache.App
