import ProxyCache.App.Rules
import ProxyCache.Lib.Replay

/-!
# The service as a system of tasks

Requests for one project, in one process or in several processes over one store,
and the background tasks that may run besides. A background task may be started
at any time with any body: what the queues let through is a part of that.
-/

namespace ProxyCache.App

open ProxyCache.Lib ProxyCache.Python

variable (s : Site) (c : Str)

/-- A request for the project with the canonical name `c`. -/
structure Request where
  project : Str
  accept : Option Str
  canonical : s.packaging.canonicalizeName project = c

/-- The task that serves a request. -/
def Request.prog {s : Site} {c : Str} (pid : ℕ) (r : Request s c) : Program Outcome :=
  simpleProject s pid r.project r.accept

/-- One process that serves requests for the project `c`. -/
def oneProcess (B : Backend) (upstream : Upstream) :
    System Op Ret World (Request s c) Outcome where
  toEffects := effects B upstream
  prog r := r.prog 0
  init := Fresh
  env := Drift

/-- Any number of processes that serve requests for the project `c` from one
Redis store. -/
def manyProcesses (upstream : Upstream) :
    System Op Ret World (ℕ × Request s c) Outcome where
  toEffects := effects .redis upstream
  prog e := e.2.prog e.1
  init := Fresh
  env := Drift

/-- A request, or a background task for the project. -/
inductive ProjectTask where
  | request (r : Request s c)
  | enrich (body : Str) (isJson : Bool)
  | extract (isJson : Bool) (bodyDigest : Str)

/-- What a task ends with; a background task has no response. -/
abbrev TaskResult := Except Failure (Option Reply)

/-- What a background task raises is logged. -/
def logged : Except Raised Unit → TaskResult := fun _ => .ok none

def ProjectTask.prog {s : Site} {c : Str} (pid : ℕ) : ProjectTask s c → Program TaskResult
  | .request r => do
    let outcome ← r.prog pid
    return outcome.map some
  | .enrich body isJson => do
    let result ← App.enrich s pid c body isJson
    return logged result
  | .extract isJson bodyDigest => do
    let result ← extractProjectAfterIdle s pid c isJson bodyDigest
    return logged result

/-- One process on the memory backend, with its background tasks. -/
def memoryService (upstream : Upstream) :
    System Op Ret World (ProjectTask s c) TaskResult where
  toEffects := effects .memory upstream
  prog e := e.prog 0
  init := Fresh
  env := Drift

/-- Any number of replicas over one Redis store, with their background tasks. -/
def replicas (upstream : Upstream) :
    System Op Ret World (ℕ × ProjectTask s c) TaskResult where
  toEffects := effects .redis upstream
  prog e := e.2.prog e.1
  init := Fresh
  env := Drift

/-! ## Schedules -/

/-- What is left to choose in a schedule: what HEADs and extractions answer, and
what happens to the clock, the entries and the upstream. -/
structure Choice where
  elapsed : ℕ := 0
  evicted : Str → Bool := fun _ => false
  published : ℕ := 0
  head : Option ℕ := none
  extracted : Option Str := none
  unfinished : Bool := false

/-- One answer of a call; `serve` is what the upstream answers. -/
def respond (B : Backend) (serve : ℕ → UpstreamRequest → Option UpstreamResponse) (a : Choice)
    (t : ℕ) : (o : Op) → World → Option (Ret o × World)
  | .getMany keys, w => some (keys.map w.get, w)
  | .existsAny keys, w => some (keys.any (fun k => (w.get k).isSome), w)
  | .setexMany values, w => some ((), (w.write values).record (.stored t values))
  | .ttl key, w => some ((w.expiry key).bind fun e => B.ttl (e - w.now), w)
  | .ttlIfValues key expected boundKey expectedBound, w =>
    some (if w.get key = some expected ∧ w.get boundKey = some expectedBound then
      (w.expiry key).bind fun e => (w.expiry boundKey).bind fun e' => B.ttl (min e e' - w.now)
    else none, w)
  | .setexManyIfUnchanged expected values, w =>
    if w.store.Matches w.now expected then
      some (true, (w.write values).record (.committed t values))
    else some (false, w)
  | .acquire lock, w => if w.held lock = none then some ((), w.setHeld lock (some t)) else none
  | .release lock, w => some ((), w.setHeld lock none)
  | .httpGet request, w =>
    match serve w.version request with
    | none => some (none, w)
    | some response =>
      some (some response, w.record (.exchange t w.now w.version request response))
  | .elapse, w => some ((), { w with now := w.now + a.elapsed })
  | .httpHead _, w => some (a.head, w)
  | .extractWheelMetadata _, w => some (a.extracted, w)
  | .suspend, w => some ((), w)
  | .unfinished .., w => some (a.unfinished, w)
  | .schedule _, w => some ((), w)

/-- What happens between two steps. -/
def drift (a : Choice) (w : World) : World :=
  { w with now := w.now + a.elapsed, store := w.store.evict a.evicted,
           version := w.version + a.published }

theorem now_le_add (w : World) (n : ℕ) : w.now ≤ w.now + n :=
  le_add_of_nonneg_right n.cast_nonneg

theorem drift_sound (a : Choice) (w : World) : Drift w (drift a w) :=
  ⟨_, a.evicted, _, now_le_add w a.elapsed, Nat.le_add_right .., rfl⟩

theorem respond_sound {B : Backend} {upstream : Upstream}
    {serve : ℕ → UpstreamRequest → Option UpstreamResponse} {a : Choice} {t : ℕ} {o : Op}
    {w w' : World} {r : Ret o} (hserve : ∀ v request, upstream v request (serve v request))
    (h : respond B serve a t o w = some (r, w')) : exec B upstream t o w r w' := by
  cases o with
  | getMany | existsAny | ttl | ttlIfValues =>
    obtain ⟨rfl, rfl⟩ := Prod.mk.inj (Option.some.inj h)
    exact ⟨rfl, rfl⟩
  | setexMany | release | httpHead | extractWheelMetadata | suspend | unfinished | schedule =>
    exact (Prod.mk.inj (Option.some.inj h)).2.symm
  | setexManyIfUnchanged expected values =>
    simp only [respond] at h
    simp only [exec]
    split at h
    · next hmatches =>
      obtain ⟨rfl, rfl⟩ := Prod.mk.inj (Option.some.inj h)
      rw [if_pos hmatches]
      exact ⟨rfl, rfl⟩
    · next hmatches =>
      obtain ⟨rfl, rfl⟩ := Prod.mk.inj (Option.some.inj h)
      rw [if_neg hmatches]
      exact ⟨rfl, rfl⟩
  | acquire lock =>
    simp only [respond] at h
    split at h
    · next hfree => exact ⟨hfree, (Prod.mk.inj (Option.some.inj h)).2.symm⟩
    · cases h
  | httpGet request =>
    simp only [respond] at h
    have hanswer := hserve w.version request
    split at h <;> next hresponse =>
      obtain ⟨rfl, rfl⟩ := Prod.mk.inj (Option.some.inj h)
      exact ⟨hresponse ▸ hanswer, rfl⟩
  | elapse => exact ⟨_, now_le_add w a.elapsed, (Prod.mk.inj (Option.some.inj h)).2.symm⟩

/-- Schedules of a system whose calls do what `exec` says. -/
def serviceDriver {E α : Type} {B : Backend} {upstream : Upstream} (S : System Op Ret World E α)
    (hcalls : S.toEffects = effects B upstream) (henv : S.env = Drift)
    (serve : ℕ → UpstreamRequest → Option UpstreamResponse)
    (hserve : ∀ v request, upstream v request (serve v request)) : Driver S Choice where
  respond := respond B serve
  drift a w := some (drift a w)
  respond_sound h := by
    rw [hcalls]
    exact respond_sound hserve h
  drift_sound := by
    rintro a w _ ⟨⟩
    rw [henv]
    exact drift_sound a w

/-- A world before any request. -/
def emptyWorld : World := ⟨0, fun _ => none, fun _ => none, 0, []⟩

theorem fresh_emptyWorld : Fresh emptyWorld := ⟨fun _ => rfl, fun _ => rfl, rfl⟩

end ProxyCache.App
