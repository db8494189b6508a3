import ProxyCache.App.CallRules
import ProxyCache.Lib.Locking
import ProxyCache.Theorems.Readiness

/-!
# The miss locks cannot deadlock

`hold` is entered on a project's fill lock by its requests and its commits, and on the fill lock of
an artifact's metadata by every probe. Neither block enters another one, and no exit of a block
keeps the lock. So whatever requests and background tasks are under way in whatever order, the
miss locks do not keep the service from finishing all of them.

Nothing is said here of the semaphores (`_cache`, `_probe`, `_extract`, `_recovery`, `_task` and
`_extraction_project`), in front of which a task also waits: they are left out, and the probes of
one `gather` are made one after the other.
-/

namespace ProxyCache.Theorems.Draining

open ProxyCache.Lib ProxyCache.Python ProxyCache.App

/-! ## Which calls take locks -/

/-- What a call does to `miss_locks`. -/
def lockAction : Op → LockAction (ℕ × Str)
  | .acquire lock => .acquire lock
  | .release lock => .release lock
  | _ => .none

theorem lockAction_acquire (lock : ℕ × Str) : lockAction (.acquire lock) = .acquire lock := rfl

theorem lockAction_release (lock : ℕ × Str) : lockAction (.release lock) = .release lock := rfl

/-- The call is made outside of `miss_locks`. -/
def Lockless (o : Op) : Prop := lockAction o = .none

theorem lockless_of_isRead {o : Op} (ho : o.isRead = true) : Lockless o := by
  cases o with
  | acquire | release => cases ho
  | _ => rfl

variable {s : Site} {r : ProjectRequest} {α : Type} {p : Program α} {pid : ℕ} {key fileUrl : Str}

theorem cacheGet_lockless (key : Str) : (cacheGet key).Calls Lockless := ⟨rfl, fun _ => trivial⟩

theorem cacheGetTwo_lockless (key key' : Str) : (cacheGetTwo key key').Calls Lockless :=
  ⟨rfl, fun _ => trivial⟩

/-- A block without locks, under one. -/
theorem withLock_brackets (hp : p.Calls Lockless) :
    (withLock pid key p).Brackets lockAction none none := by
  unfold withLock
  rw [Prog.op_bind, Prog.brackets_acquire (lockAction_acquire _)]
  refine ⟨rfl, fun _ => (Prog.brackets_of_calls hp _).bind fun a => ?_⟩
  rw [Prog.op_bind, Prog.brackets_release (lockAction_release _)]
  exact ⟨rfl, fun _ => rfl⟩

/-! ## The routes -/

theorem tryServeFromCache_lockless : (tryServeFromCache s r).Calls Lockless :=
  Prog.CallsGiven.calls
    (tryServeFromCache_callsGiven (fun _ => lockless_of_isRead) rfl fun _ _ _ _ _ _ => rfl)

/-- What runs under the fill lock takes no other one. -/
theorem fill_lockless : (fill s r).Calls Lockless := by
  unfold fill
  refine tryServeFromCache_lockless.bind fun result => ?_
  split
  · trivial
  · trivial
  · exact fetchUpstream_calls (fun _ => lockless_of_isRead) (fun _ => rfl) rfl (fun _ _ _ => rfl)
      (fun _ => rfl) (fun _ _ _ => rfl) fun _ _ _ _ => rfl

theorem serveProject_brackets :
    (serveProject s pid r).Brackets lockAction none none := by
  unfold serveProject
  refine (Prog.brackets_of_calls tryServeFromCache_lockless none).bind fun result => ?_
  split
  · exact rfl
  · exact rfl
  · exact withLock_brackets fill_lockless

theorem loadMetadataForUrl_lockless (expected : Option Str) :
    (loadMetadataForUrl s fileUrl expected).Calls Lockless :=
  (loadMetadataForUrl_reads expected).mono fun _ => lockless_of_isRead

theorem lockless_of_storesRecord {o : Op} (ho : o.StoresRecord s) : Lockless o := by
  obtain ⟨key, value, -, rfl | rfl⟩ := ho <;> rfl

theorem resolveMetadataForUrl_brackets (wheelSha256 : Option Str)
    (allowExtraction checkNative : Bool) :
    (resolveMetadataForUrl s pid fileUrl wheelSha256 allowExtraction checkNative).Brackets
      lockAction none none := by
  unfold resolveMetadataForUrl
  refine (Prog.brackets_of_calls (loadMetadataForUrl_lockless _) none).bind fun stored => ?_
  split
  · exact rfl
  · exact rfl
  · exact withLock_brackets (resolveMissing_calls_of (fun _ => lockless_of_isRead)
      (fun _ => lockless_of_storesRecord) _ _ _)

theorem wheelMetadata_brackets (host path query : Str) :
    (wheelMetadata s pid host path query).Brackets lockAction none none := by
  have hload : ∀ url, (loadOrRecoverMetadataForUrl s pid url).Brackets lockAction none none := by
    intro url
    unfold loadOrRecoverMetadataForUrl
    split
    · exact Prog.brackets_of_calls (loadMetadataForUrl_lockless _) none
    refine (resolveMetadataForUrl_brackets _ _ _).bind fun resolved => ?_
    split
    · exact rfl
    · exact rfl
    split
    · exact rfl
    · split <;> exact rfl
  unfold wheelMetadata
  split
  · exact rfl
  split
  · exact rfl
  split
  · exact rfl
  refine (hload _).bind fun stored => ?_
  split <;> exact rfl

/-! ## The background tasks -/

theorem probeAll_brackets (allowExtraction checkNative : Bool) (files : List File) :
    (probeAll s pid allowExtraction checkNative files).Brackets lockAction none none := by
  induction files with
  | nil => exact rfl
  | cons f files ih =>
    unfold probeAll
    refine Prog.Brackets.bind ?_ fun probed => ih.bind fun _ => rfl
    unfold probe
    split
    · exact rfl
    split
    · exact rfl
    · exact rfl
    · exact rfl
    refine (resolveMetadataForUrl_brackets _ _ _).bind fun resolved => ?_
    split <;> exact rfl

theorem commitProjectEnrichment_brackets (canonical body : Str) (isJson : Bool) (files : List File)
    (changed ready : Bool) :
    (commitProjectEnrichment s pid canonical body isJson files changed ready).Brackets
      lockAction none none := by
  have hlocked : ∀ completedBody,
      (commitLocked s canonical body isJson completedBody changed ready).Calls Lockless :=
    fun completedBody => Prog.CallsGiven.calls
      (commitLocked_callsGiven (fun _ => lockless_of_isRead) fun _ _ _ _ => rfl)
  unfold commitProjectEnrichment
  split
  · rw [Prog.op_bind, Prog.brackets_none rfl]
    intro _
    split
    · exact rfl
    · exact withLock_brackets (hlocked _)
  · exact withLock_brackets (hlocked _)

theorem scheduleProjectExtraction_brackets (canonical : Str) (isJson : Bool) (body : Str) :
    (scheduleProjectExtraction canonical isJson body).Brackets lockAction none none := by
  show (call (.schedule _)).Brackets lockAction none none
  exact (Prog.brackets_none rfl).mpr fun _ => rfl

theorem enrich_brackets (canonical body : Str) (isJson : Bool) :
    (enrich s pid canonical body isJson).Brackets lockAction none none := by
  have hdiscover : ∀ project candidates,
      (discover s pid canonical body isJson project candidates).Brackets lockAction none none := by
    intro project candidates
    unfold discover
    refine (probeAll_brackets _ _ _).bind fun probed => ?_
    split
    · exact rfl
    dsimp only
    split
    · exact rfl
    refine (commitProjectEnrichment_brackets _ _ _ _ _ _).bind fun committed => ?_
    split
    · exact rfl
    · exact rfl
    split
    · exact (scheduleProjectExtraction_brackets _ _ _).bind fun _ => rfl
    · exact rfl
  unfold enrich
  rw [Prog.op_bind, Prog.brackets_none rfl]
  intro _
  split
  · exact rfl
  split
  · exact rfl
  refine (Prog.brackets_of_calls (cacheGet_lockless _) none).bind fun discovered => ?_
  split
  · split
    · exact rfl
    · exact (scheduleProjectExtraction_brackets _ _ _).bind fun _ => rfl
    · exact (commitProjectEnrichment_brackets _ _ _ _ _ _).bind fun _ => rfl
  · exact hdiscover _ _

theorem extractBatches_brackets (files : List File) (batches : List (List ℕ))
    (newFiles : List File) :
    (extractBatches s pid files batches newFiles).Brackets lockAction none none := by
  induction batches generalizing newFiles with
  | nil => exact rfl
  | cons batch batches ih =>
    unfold extractBatches
    rw [Prog.op_bind, Prog.brackets_none rfl]
    refine fun _ => (probeAll_brackets _ _ _).bind fun probed => ?_
    split
    · exact rfl
    · exact ih _

theorem extractProjectAfterIdle_brackets (canonical : Str) (isJson : Bool) (digest : Str) :
    (extractProjectAfterIdle s pid canonical isJson digest).Brackets lockAction none none := by
  have hextract : ∀ body,
      (extractBody s pid canonical body isJson).Brackets lockAction none none := by
    intro body
    unfold extractBody
    rw [Prog.op_bind, Prog.brackets_none rfl]
    intro _
    split
    · exact rfl
    split
    · exact rfl
    dsimp only
    refine (extractBatches_brackets _ _ _).bind fun newFiles => ?_
    split
    · exact rfl
    · exact (commitProjectEnrichment_brackets _ _ _ _ _ _).bind fun _ => rfl
  unfold extractProjectAfterIdle
  rw [Prog.op_bind, Prog.brackets_none rfl]
  intro _
  refine (Prog.brackets_of_calls (cacheGetTwo_lockless _ _) none).bind fun ⟨current, stale⟩ => ?_
  dsimp only
  split
  · exact hextract _
  · exact hextract _
  · exact rfl

/-! ## The service -/

theorem simpleIndex_lockless (render : Bool → UpstreamResponse → Except Raised Str)
    (accept : Option Str) : (simpleIndex s render accept).Calls Lockless :=
  simpleIndex_calls_of (fun _ => lockless_of_isRead) (fun _ => rfl) fun _ _ => rfl

/-- Every task of the service takes one lock at a time and gives it back. -/
theorem prog_brackets (e : ℕ × ServiceTask) : (e.2.prog s e.1).Brackets lockAction none none := by
  obtain ⟨pid, task⟩ := e
  cases task with
  | project name accept => exact serveProject_brackets.bind fun _ => rfl
  | index render accept =>
    exact (Prog.brackets_of_calls (simpleIndex_lockless render accept) none).bind fun _ => rfl
  | metadata host path query => exact (wheelMetadata_brackets host path query).bind fun _ => rfl
  | background job =>
    cases job with
    | enrich canonical body isJson => exact (enrich_brackets _ _ _).bind fun _ => rfl
    | extract canonical isJson digest =>
      exact (extractProjectAfterIdle_brackets _ _ _).bind fun _ => rfl

/-- Every call is answered in the end: a GET by a response or by a timeout. -/
theorem exists_answer {B : Backend} {upstream : Upstream}
    (hanswers : ∀ version request, ∃ response, upstream version request response) (t : ℕ) (o : Op)
    (w : World) (hfree : ∀ lock, lockAction o = .acquire lock → w.held lock = none) :
    ∃ r w', exec B upstream t o w r w' := by
  cases o with
  | getMany | existsAny | ttl | ttlIfValues => exact ⟨_, w, rfl, rfl⟩
  | setexMany values => exact ⟨(), _, rfl⟩
  | setexManyIfUnchanged expected values =>
    by_cases hmatches : w.store.Matches w.now expected
    · refine ⟨true, (w.write values).record (.committed t values), ?_⟩
      simp [exec, hmatches]
    · refine ⟨false, w, ?_⟩
      simp [exec, hmatches]
  | acquire lock => exact ⟨(), _, hfree lock rfl, rfl⟩
  | release lock => exact ⟨(), _, rfl⟩
  | httpGet request =>
    obtain ⟨response, hresponse⟩ := hanswers w.version request
    exact ⟨response, _, hresponse, rfl⟩
  | httpHead | extractWheelMetadata => exact ⟨none, w, rfl⟩
  | elapse => exact ⟨(), _, w.now, le_refl w.now, rfl⟩
  | suspend | schedule => exact ⟨(), w, rfl⟩
  | unfinished => exact ⟨false, w, rfl⟩

/-- `miss_locks` of all processes. -/
def missLocks (B : Backend) (upstream : Upstream)
    (hanswers : ∀ version request, ∃ response, upstream version request response) :
    Locking (deployment s B upstream) (ℕ × Str) where
  action := lockAction
  holder := World.held
  init _ hfresh := hfresh.2.1
  env := by
    intro w _ ⟨now, evicted, version, _, _, hw'⟩
    rw [hw']
  keep := by
    intro t o w r w' ho hexec
    replace hexec : exec B upstream t o w r w' := hexec
    by_cases hread : o.isRead = true
    · rw [eq_of_isRead hread hexec]
    cases o with
    | getMany | existsAny | ttl | ttlIfValues | httpHead | extractWheelMetadata | suspend
    | unfinished | schedule => exact absurd rfl hread
    | acquire | release => cases ho
    | setexMany values =>
      obtain rfl : w' = (w.write values).record (.stored t values) := hexec
      rfl
    | setexManyIfUnchanged expected values =>
      rcases exec_setexManyIfUnchanged hexec with ⟨-, -, rfl⟩ | ⟨-, rfl⟩ <;> rfl
    | httpGet request =>
      obtain ⟨-, rfl⟩ := hexec
      cases r <;> rfl
    | elapse =>
      obtain ⟨now, -, rfl⟩ := hexec
      rfl
  acquire := by
    intro t o lock w r w' ho hexec
    cases o with
    | acquire lock' =>
      obtain rfl := LockAction.acquire.inj ho
      exact ⟨hexec.1, congrArg World.held hexec.2⟩
    | _ => cases ho
  release := by
    intro t o lock w r w' ho hexec
    cases o with
    | release lock' =>
      obtain rfl := LockAction.release.inj ho
      exact congrArg World.held hexec
    | _ => cases ho
  answers := exists_answer hanswers
  waits := by
    intro o lock ho
    cases o with
    | acquire => rfl
    | _ => cases ho
  prog := prog_brackets

/-- The task waits for the miss lock. -/
def awaits (c : Config Op Ret World (ℕ × ServiceTask) TaskResult) (t : ℕ) (lock : ℕ × Str) :
    Bool :=
  match c.task t with
  | some (_, .call (.acquire lock') _) => lock' = lock
  | _ => false

theorem of_awaits {c : Config Op Ret World (ℕ × ServiceTask) TaskResult} {t : ℕ} {lock : ℕ × Str}
    (h : awaits c t lock = true) : ∃ e k, c.task t = some (e, .call (.acquire lock) k) := by
  unfold awaits at h
  split at h
  · next e lock' k htask =>
    obtain rfl := of_decide_eq_true h
    exact ⟨e, k, htask⟩
  · cases h

/-- **The miss locks drain.** Whatever requests, for whatever projects, and background tasks are
under way in however many processes, on either backend: no task waits for a miss lock while it
holds one; and if every GET is answered or times out, the tasks can all be brought to their end by
calls of their own, without another task being started, and no miss lock is left behind. -/
theorem service_drains {B : Backend} {upstream : Upstream}
    (hanswers : ∀ version request, ∃ response, upstream version request response)
    {c : Config Op Ret World (ℕ × ServiceTask) TaskResult}
    (hreach : (deployment s B upstream).Reachable c) :
    (∀ t lock lock', c.world.held lock = some t → awaits c t lock' = false) ∧
    ∃ evs c', (deployment s B upstream).Run c evs c' ∧ (∀ ev ∈ evs, ∃ t o r, ev = .call t o r) ∧
      (∀ t e p, c.task t = some (e, p) → ∃ result, c'.task t = some (e, .ret result)) ∧
      ∀ lock, c'.world.held lock = none := by
  constructor
  · intro t lock lock' hheld
    rw [Bool.eq_false_iff]
    intro hawaits
    obtain ⟨e, k, htask⟩ := of_awaits hawaits
    exact Locking.not_acquires (K := missLocks B upstream hanswers) hreach hheld htask
      (lockAction_acquire lock')
  · obtain ⟨evs, c', hrun, hcalls, hended, hfree⟩ := (missLocks B upstream hanswers).drains hreach
    refine ⟨evs, c', hrun, hcalls, fun t e p htask => ?_, hfree⟩
    obtain ⟨p', htask'⟩ := hrun.persists t e p htask
    obtain ⟨result, rfl⟩ := hended t e p' htask'
    exact ⟨result, htask'⟩

/-! ## Two requests for one page -/

/-- The first request is under the fill lock when the second one comes to it. -/
def contention : List (Move (ℕ × ServiceTask) Choice) :=
  [.start 0 Readiness.pageRequest {}, .call 0 {}, .call 0 {}, .call 0 {},
    .start 1 Readiness.pageRequest {}, .call 1 {}, .call 1 {}]

theorem contention_spec : (Readiness.pageDriver.replay contention (Driver.boot emptyWorld)).any
    (fun c => decide (c.world.held (0, fillLockKey Readiness.one) = some 0) &&
      awaits c 1 (0, fillLockKey Readiness.one)) = true := by
  decide +kernel

/-- A GET is always answered with the page, so both requests can be finished. -/
theorem service_drains_contention :
    ∃ c, c.world.held (0, fillLockKey Readiness.one) = some 0 ∧
      awaits c 1 (0, fillLockKey Readiness.one) = true ∧
      ∃ evs c', Readiness.pageService.Run c evs c' ∧ (∀ ev ∈ evs, ∃ t o r, ev = .call t o r) ∧
        (∀ t e p, c.task t = some (e, p) → ∃ result, c'.task t = some (e, .ret result)) ∧
        ∀ lock, c'.world.held lock = none := by
  obtain ⟨c, hreplay, hcheck⟩ := (Option.any_eq_true _ _).mp contention_spec
  obtain ⟨hheld, hawaits⟩ := Bool.and_eq_true_iff.mp hcheck
  have hreach := (Driver.replay_boot fresh_emptyWorld hreplay).1
  have hanswers : ∀ version request, ∃ response,
      Readiness.upstreamPage version request response :=
    fun version request => ⟨Readiness.servePage version request, rfl⟩
  exact ⟨c, of_decide_eq_true hheld, hawaits, (service_drains hanswers hreach).2⟩

end ProxyCache.Theorems.Draining
