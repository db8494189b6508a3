import ProxyCache.App.Effects
import ProxyCache.App.Packaging
import ProxyCache.Lib.TaskQueue

/-!
# The background queues (`app/metadata.py`)

Two tables of tasks: discovery by project, extraction by project, format and body. Requests and
the tasks themselves ask for more tasks; a task leaves its table by its callback, or when
`drain_metadata_tasks` or `cancel_metadata_tasks` finds it done.

What runs between two `await`s is one function here, which ends or says what it waits for. A task
is only known by its life: when it is cancelled, it finishes at some time, as any other.
-/

namespace ProxyCache.App

open ProxyCache.Lib ProxyCache.Python

abbrev ExtractionKey := Str × Bool × Str

/-- What a coroutine waits for. -/
inductive Await where
  /-- `ensure_metadata_background_work`, for the marker of the discovery. -/
  | discovered (canonical body : Str) (isJson : Bool)
  /-- And for the lifetime of the body. -/
  | bodyTtl (canonical body : Str) (isJson : Bool)
  /-- `drain_metadata_tasks`, for the tasks of these entries. -/
  | drain (discovery : List (Str × ℕ)) (extraction : List (ExtractionKey × ℕ))
  /-- `cancel_metadata_tasks`, for these tasks. -/
  | cancel (discovery : List ℕ) (extraction : List ℕ)

/-- The module's variables, and the coroutines that wait. -/
structure Background where
  /-- `_pending`. -/
  pending : TaskQueue Str Job := {}
  /-- `_extraction_pending`. -/
  extractionPending : TaskQueue ExtractionKey Job := {}
  closing : Bool := false
  waiting : ℕ → Option Await := fun _ => none
  /-- The metrics. -/
  enrichmentDropped : ℕ := 0
  extractionJobsDropped : ℕ := 0
  extractionJobsCoalesced : ℕ := 0
  extractionJobsQueued : ℕ := 0

/-- What a function ended with, or that it waits. -/
inductive Notice where
  | skipped
  | enrichment (canonical : Str) (result : Submission)
  | extraction (key : ExtractionKey) (result : Submission)
  | returned
  | waits
  deriving DecidableEq

/-- A coroutine, up to its next `await`. -/
inductive Progress where
  | ends (notice : Notice)
  | awaits (a : Await)

namespace Background

variable (P : Packaging) (settings : Settings) (s : Background)

/-! ## Scheduling -/

/-- `schedule_metadata_enrichment`. -/
def scheduleMetadataEnrichment (canonical body : Str) (isJson : Bool) : Background × Notice :=
  if !settings.enableBackgroundMetadata || s.closing then (s, .skipped)
  else
    let canonical := P.canonicalizeName canonical
    let (pending, result) := s.pending.submit settings.metadataMaxPendingProjects canonical
      (.enrich canonical body isJson)
    ({ s with
      pending
      enrichmentDropped := s.enrichmentDropped + if result = .dropped then 1 else 0 },
      .enrichment canonical result)

/-- `_schedule_project_extraction`. -/
def scheduleProjectExtraction (canonical body : Str) (isJson : Bool) : Background × Notice :=
  if s.closing then (s, .skipped)
  else
    let digest := bodyDigest body
    let key := (canonical, isJson, digest)
    let (extractionPending, result) := s.extractionPending.submit
      settings.metadataMaxPendingExtractionProjects key (.extract canonical isJson digest)
    ({ s with
      extractionPending
      extractionJobsCoalesced := s.extractionJobsCoalesced + if result = .coalesced then 1 else 0
      extractionJobsDropped := s.extractionJobsDropped + if result = .dropped then 1 else 0
      extractionJobsQueued := s.extractionJobsQueued + if result = .created then 1 else 0 },
      .extraction key result)

/-- `ensure_metadata_background_work`, up to the marker of the discovery. -/
def ensureMetadataBackgroundWork (canonical body : Str) (isJson : Bool) : Progress :=
  if !settings.enableBackgroundMetadata || s.closing then .ends .skipped
  else
    let canonical := P.canonicalizeName canonical
    if s.extractionPending.busy (canonical, isJson, bodyDigest body) then .ends .skipped
    else if s.pending.busy canonical then .ends .skipped
    else .awaits (.discovered canonical body isJson)

/-- The same, from the marker on. -/
def ensureDiscovered (canonical body : Str) (isJson : Bool) (discovered : Option Str) :
    Background × Progress :=
  if discovered = some (bodyDigest body) then
    let (s, notice) := s.scheduleProjectExtraction settings canonical body isJson
    (s, .ends notice)
  else (s, .awaits (.bodyTtl canonical body isJson))

/-- The same, from the lifetime of the body on. -/
def ensureBodyTtl (canonical body : Str) (isJson : Bool) (ttl : Option ℤ) : Background × Progress :=
  match ttl with
  | some _ =>
    let (s, notice) := s.scheduleMetadataEnrichment P settings canonical body isJson
    (s, .ends notice)
  | none => (s, .ends .skipped)

/-! ## Waiting for all tasks -/

/-- The condition of both loops. -/
def idle : Bool := s.pending.size == 0 && s.extractionPending.size == 0

/-- `drain_metadata_tasks`, from the condition of its loop on. -/
def drainMetadataTasks : Progress :=
  if s.idle then .ends .returned
  else .awaits (.drain s.pending.items s.extractionPending.items)

/-- The rest of the loop's body. -/
def drained (discovery : List (Str × ℕ)) (extraction : List (ExtractionKey × ℕ)) : Background :=
  { s with
    pending := s.pending.sweep discovery
    extractionPending := s.extractionPending.sweep extraction }

/-- `cancel_metadata_tasks`, from the condition of its loop on. Before it returns it clears both
tables. -/
def cancelLoop : Background × Progress :=
  if s.idle then
    ({ s with
      pending := { s.pending with pending := ∅ }
      extractionPending := { s.extractionPending with pending := ∅ } }, .ends .returned)
  else
    (s, .awaits (.cancel (s.pending.items.map Prod.snd) (s.extractionPending.items.map Prod.snd)))

def cancelMetadataTasks : Background × Progress := { s with closing := true }.cancelLoop

/-- The rest of the loop's body. -/
def cancelled : Background :=
  { s with
    pending := s.pending.discard
    extractionPending := s.extractionPending.discard }

def startMetadataTasks : Background := { s with closing := false }

/-- `asyncio.gather` is done: all tasks are. -/
def gathered : Await → Bool
  | .drain discovery extraction =>
    discovery.all (s.pending.done ·.2) && extraction.all (s.extractionPending.done ·.2)
  | .cancel discovery extraction =>
    discovery.all s.pending.done && extraction.all s.extractionPending.done
  | _ => false

/-! ## Events -/

/-- What happens on the event loop: a function is called, as the coroutine `i` if it is one, a
coroutine goes on, or a task finishes or runs its callback. -/
inductive Event where
  | scheduleEnrichment (canonical body : Str) (isJson : Bool)
  | scheduleExtraction (canonical body : Str) (isJson : Bool)
  | ensure (i : ℕ) (canonical body : Str) (isJson : Bool)
  | discovered (i : ℕ) (value : Option Str)
  | bodyTtl (i : ℕ) (value : Option ℤ)
  | drain (i : ℕ)
  | cancel (i : ℕ)
  | gathered (i : ℕ)
  /-- The coroutine is cancelled, or what it waits for raises. -/
  | abort (i : ℕ)
  | finish (t : ℕ)
  | finishExtraction (t : ℕ)
  | callback (t : ℕ)
  | callbackExtraction (t : ℕ)
  | start
  deriving DecidableEq

/-- The coroutine `i` ends or waits. -/
def proceed (i : ℕ) : Background × Progress → Background × Notice
  | (s, .ends notice) => ({ s with waiting := Function.update s.waiting i none }, notice)
  | (s, .awaits a) => ({ s with waiting := Function.update s.waiting i (some a) }, .waits)

/-- A call as the coroutine `i`, which is a new one. -/
def spawn (i : ℕ) (call : Background × Progress) : Option (Background × Notice) :=
  if (s.waiting i).isNone then some (proceed i call) else none

/-- One event, where it can happen. -/
def step : Event → Option (Background × Notice)
  | .scheduleEnrichment canonical body isJson =>
    some (s.scheduleMetadataEnrichment P settings canonical body isJson)
  | .scheduleExtraction canonical body isJson =>
    some (s.scheduleProjectExtraction settings canonical body isJson)
  | .ensure i canonical body isJson =>
    s.spawn i (s, s.ensureMetadataBackgroundWork P settings canonical body isJson)
  | .discovered i value =>
    match s.waiting i with
    | some (.discovered canonical body isJson) =>
      some (proceed i (s.ensureDiscovered settings canonical body isJson value))
    | _ => none
  | .bodyTtl i value =>
    match s.waiting i with
    | some (.bodyTtl canonical body isJson) =>
      some (proceed i (s.ensureBodyTtl P settings canonical body isJson value))
    | _ => none
  | .drain i => s.spawn i (s, s.drainMetadataTasks)
  | .cancel i => s.spawn i s.cancelMetadataTasks
  | .gathered i =>
    match s.waiting i with
    | some (.drain discovery extraction) =>
      if s.gathered (.drain discovery extraction) then
        some (proceed i (s.drained discovery extraction,
          (s.drained discovery extraction).drainMetadataTasks))
      else none
    | some (.cancel discovery extraction) =>
      if s.gathered (.cancel discovery extraction) then some (proceed i s.cancelled.cancelLoop)
      else none
    | _ => none
  | .abort i => some ({ s with waiting := Function.update s.waiting i none }, .skipped)
  | .finish t =>
    if s.pending.life t = some .unfinished
      then some ({ s with pending := s.pending.finish t }, .skipped)
    else none
  | .finishExtraction t =>
    if s.extractionPending.life t = some .unfinished then
      some ({ s with extractionPending := s.extractionPending.finish t }, .skipped)
    else none
  | .callback t =>
    if s.pending.life t = some .finished
      then some ({ s with pending := s.pending.callback t }, .skipped)
    else none
  | .callbackExtraction t =>
    if s.extractionPending.life t = some .finished then
      some ({ s with extractionPending := s.extractionPending.callback t }, .skipped)
    else none
  | .start => some (s.startMetadataTasks, .skipped)

/-- The events, with what each ended with, lead from one state to another. -/
inductive Run : Background → List (Event × Notice) → Background → Prop
  | nil (s : Background) : Run s [] s
  | cons {s s₁ s' : Background} {e : Event} {notice : Notice} {events : List (Event × Notice)}
      (hstep : s.step P settings e = some (s₁, notice)) (hrun : Run s₁ events s') :
      Run s ((e, notice) :: events) s'

end Background

end ProxyCache.App
