import ProxyCache.App.CachedService
import ProxyCache.App.CallRules
import ProxyCache.Lib.Simulation
import ProxyCache.Theorems.Backends
import ProxyCache.Theorems.Readiness

/-!
# The abstract store is refined by the cache objects

What is proved about the handlers over one abstract store is about the service as it is written:
its runs over the `cache` objects of its processes are, event by event, runs over that store.

* `memory_refined` — one process whose cache has no client, with lazily deleted local entries;
* `redis_refined` — any number of processes whose caches share a Redis server that does not fail,
  with the Lua scripts as they are written. Redis refuses a lifetime that is not positive, so here
  the configured lifetimes have to be.
-/

namespace ProxyCache.Theorems.StoreRefinement

open ProxyCache.Lib ProxyCache.Python ProxyCache.App
open ProxyCache.Theorems.Backends (live spec Agree)

/-! ## Calls and methods -/

section Calls

variable {B : Backend} {upstream : Upstream} {t : ℕ} {w : World} {o : Op} {r : Ret o}
  {request : Cache.Request} {answer : Cache.Answer}

theorem expiry_eq_live (key : Str) :
    w.expiry key = (live w.store w.now key).map Entry.expiry := by
  unfold World.expiry live
  cases w.store key with
  | none => rfl
  | some e =>
    simp only [Option.bind_some]
    split <;> rfl

theorem storeAll_eq (values : List Write) :
    Cache.storeAll w.now (values.map Write.triple) w.store = (w.write values).store := by
  have hput : ∀ s : Store Str ℚ Str, Cache.storeAll w.now (values.map Write.triple) s =
      s.putMany (w.entries values) := by
    induction values with
    | nil => exact fun _ => rfl
    | cons x values ih => exact fun s => ih (s.put x.key ⟨w.now + x.ttl, x.value⟩)
  exact hput w.store

/-- What the abstract store answers to a method, it answers to the call. -/
theorem exec_of_spec (hmethod : Method o request answer r)
    (hanswer : (spec B w.now w.store request).1 = answer) :
    exec B upstream t o w r
      { w with store := (spec B w.now w.store request).2, log := noted t o r ++ w.log } := by
  cases hmethod with
  | get key value =>
    obtain rfl := Cache.Answer.value.inj hanswer
    exact ⟨rfl, rfl⟩
  | getMany keys values =>
    obtain rfl := Cache.Answer.values.inj hanswer
    exact ⟨rfl, rfl⟩
  | existsAny keys found =>
    obtain rfl := Cache.Answer.found.inj hanswer
    exact ⟨rfl, rfl⟩
  | setex x =>
    have hstore := @storeAll_eq w [x]
    show _ = (w.write [x]).record (.stored t [x])
    rw [World.record, ← hstore]
    rfl
  | setexMany values =>
    have hstore := @storeAll_eq w values
    show _ = (w.write values).record (.stored t values)
    rw [World.record, ← hstore]
    rfl
  | ttl key remaining =>
    obtain rfl := Cache.Answer.remaining.inj hanswer
    refine ⟨?_, rfl⟩
    rw [expiry_eq_live]
    cases live w.store w.now key <;> rfl
  | ttlIfValues key expected boundKey expectedBound remaining =>
    obtain rfl := Cache.Answer.remaining.inj hanswer
    refine ⟨?_, rfl⟩
    show _ = if w.store.get w.now key = some expected ∧
      w.store.get w.now boundKey = some expectedBound then _ else _
    rw [expiry_eq_live, expiry_eq_live, Backends.get_eq_live, Backends.get_eq_live]
    cases live w.store w.now key with
    | none => simp
    | some e =>
      cases live w.store w.now boundKey with
      | none => simp
      | some e' => simp
  | setexManyIfUnchanged expected values stored =>
    have hstore := @storeAll_eq w values
    by_cases hmatches : w.store.Matches w.now expected
    · simp only [spec, hmatches, if_true] at hanswer ⊢
      obtain rfl := Cache.Answer.stored.inj hanswer
      simp only [exec, hmatches, if_true, true_and]
      rw [World.record, hstore]
      rfl
    · simp only [spec, hmatches, if_false] at hanswer ⊢
      obtain rfl := Cache.Answer.stored.inj hanswer
      simp only [exec, hmatches, if_false, true_and]
      rfl

/-- A call that is not one of the cache does not look at what is stored. -/
theorem exec_of_outside {store : Store Str ℚ Str} {v : World} (ho : o.isCached = false)
    (hexec : exec B upstream t o { w with store := fun _ => none } r v) :
    exec B upstream t o { w with store } r { v with store } ∧ w.now ≤ v.now := by
  cases o with
  | getMany | existsAny | setexMany | ttl | ttlIfValues | setexManyIfUnchanged => cases ho
  | acquire lock =>
    obtain ⟨hfree, rfl⟩ := hexec
    exact ⟨⟨hfree, rfl⟩, le_refl w.now⟩
  | release lock =>
    obtain rfl := hexec
    exact ⟨rfl, le_refl w.now⟩
  | httpGet request =>
    obtain ⟨hanswer, rfl⟩ := hexec
    cases r with
    | none => exact ⟨⟨hanswer, rfl⟩, le_refl w.now⟩
    | some response => exact ⟨⟨hanswer, rfl⟩, le_refl w.now⟩
  | elapse =>
    obtain ⟨now, hnow, rfl⟩ := hexec
    exact ⟨⟨now, hnow, rfl⟩, hnow⟩
  | httpHead | extractWheelMetadata | suspend | unfinished | schedule =>
    obtain rfl := hexec
    exact ⟨rfl, le_refl w.now⟩

end Calls

/-! ## One process without Redis -/

/-- The two worlds are the same but for what is stored. -/
def SameOutside (v : CachedWorld) (w : World) : Prop :=
  v.now = w.now ∧ v.held = w.held ∧ v.version = w.version ∧ v.log = w.log

theorem SameOutside.outside {v : CachedWorld} {w : World} (h : SameOutside v w) :
    v.outside = { w with store := fun _ => none } := by
  obtain ⟨hnow, hheld, hversion, hlog⟩ := h
  simp [CachedWorld.outside, hnow, hheld, hversion, hlog]

/-- The local entries of the first process are live as those of the store are. -/
structure LocalRel (v : CachedWorld) (w : World) : Prop where
  same : SameOutside v w
  redis : (v.caches 0).redis = false
  agree : Agree w.now (v.caches 0).mem w.store

section Memory

variable {E α : Type} {upstream : Upstream} {prog : E → Program α} {t : ℕ} {v v' : CachedWorld}
  {w : World} {o : Op} {r : Ret o}

/-- A method of a cache without a client. -/
theorem local_serve (hrel : LocalRel v w) {request : Cache.Request} {answer : Cache.Answer}
    (hmethod : Method o request answer r) (hanswer : (v.serve 0 request).1 = answer) :
    exec .memory upstream t o w r { w with
      store := (spec .memory w.now w.store request).2, log := noted t o r ++ w.log } ∧
    LocalRel ((v.serve 0 request).2.note (noted t o r)) { w with
      store := (spec .memory w.now w.store request).2, log := noted t o r ++ w.log } := by
  obtain ⟨⟨hnow, hheld, hversion, hlog⟩, hredis, hagree⟩ := hrel
  obtain ⟨hfirst, hmem, hredis'⟩ := Backends.memory_refines (w := ⟨v.caches 0, v.server, v.now⟩)
    request .none v.now hredis
  obtain ⟨hspec, hagree'⟩ := @Backends.spec_congr _ _ _ .memory hagree request
  have hserved : (v.serve 0 request).1 = (spec .memory v.now (v.caches 0).mem request).1 := hfirst
  refine ⟨exec_of_spec hmethod ?_, ⟨hnow, hheld, hversion, ?_⟩, ?_, ?_⟩
  · rw [← hspec, ← hanswer, hserved, hnow]
  · show noted t o r ++ v.log = noted t o r ++ w.log
    rw [hlog]
  · show (Function.update v.caches 0 _ 0).redis = false
    rw [Function.update_self]
    exact hredis'
  · show Agree w.now (Function.update v.caches 0 _ 0).mem _
    rw [Function.update_self, ← hnow] at *
    exact hmem.trans hagree'

/-- One process with its local entries does what one store does. -/
def localSimulation (upstream : Upstream) (prog : E → Program α) :
    Simulation (overCaches .memory upstream (fun _ => 0) prog) (overStore .memory upstream prog)
      fun _ => True where
  rel := LocalRel
  prog := rfl
  yields := rfl
  init := by
    intro v ⟨hboots, _, hheld, hlog⟩
    refine ⟨⟨v.now, fun _ => none, v.held, v.version, v.log⟩, ⟨fun _ => rfl, hheld, hlog⟩,
      ⟨rfl, rfl, rfl, rfl⟩, ?_, fun key => ?_⟩
    · rw [show v.caches 0 = Cache.new .memory from hboots 0]
      rfl
    · rw [show v.caches 0 = Cache.new .memory from hboots 0]
      rfl
  exec := by
    intro t o v r v' w _ hrel hexec
    replace hexec : cachedExec .memory upstream (fun _ => 0) t o v r v' := hexec
    unfold cachedExec at hexec
    split at hexec
    · obtain ⟨request, answer, hmethod, hanswer, rfl⟩ := hexec
      exact ⟨_, local_serve hrel hmethod hanswer⟩
    · next ho =>
      obtain ⟨x, hexec, rfl⟩ := hexec
      rw [hrel.same.outside] at hexec
      obtain ⟨hexec', hlater⟩ := exec_of_outside (Bool.not_eq_true _ ▸ ho) hexec
      exact ⟨_, hexec', ⟨rfl, rfl, rfl, rfl⟩, hrel.redis, hrel.agree.later hlater⟩
  env := by
    intro v v' w ⟨⟨hnow, hheld, hversion, hlog⟩, hredis, hagree⟩
      ⟨now, evicted, version, hlater, hversion', hv'⟩
    subst hv'
    refine ⟨{ w with now, store := w.store.evict fun _ => false, version },
      ⟨now, _, version, hnow ▸ hlater, hversion ▸ hversion', rfl⟩,
      ⟨rfl, hheld, rfl, hlog⟩, hredis, ?_⟩
    have hstore : w.store.evict (fun _ => false) = w.store := rfl
    rw [hstore]
    exact hagree.later (hnow ▸ hlater)

end Memory

/-- **The abstract store is refined by the memory backend.** Every run of a system of tasks in one
process, over its `cache` without a client, is event by event a run of the same tasks over one
abstract store; where it ends, the same tasks are at the same points, and the live local entries are
those of the store. -/
theorem memory_refined {E α : Type} (upstream : Upstream) (prog : E → Program α)
    {d d' : Config Op Ret CachedWorld E α} {evs : List (Event Op Ret E)}
    (hinit : (overCaches .memory upstream (fun _ => 0) prog).Init d)
    (hrun : (overCaches .memory upstream (fun _ => 0) prog).Run d evs d') :
    ∃ c c', (overStore .memory upstream prog).Init c ∧
      (overStore .memory upstream prog).Run c evs c' ∧ d'.task = c'.task ∧
      LocalRel d'.world c'.world := by
  obtain ⟨c, c', hinit', hrun', hrelated⟩ :=
    (localSimulation upstream prog).simulated (fun _ _ _ _ _ _ _ => trivial) hinit hrun
  exact ⟨c, c', hinit', hrun', hrelated.task, hrelated.world⟩

/-! ## Processes over one server -/

/-- What a call stores has a lifetime that Redis accepts. -/
def Lasting (o : Op) : Prop := ∀ x ∈ o.writes, 1 ≤ x.ttl

/-- All caches have their client, and the server holds what the store holds. -/
structure SharedRel (v : CachedWorld) (w : World) : Prop where
  same : SameOutside v w
  redis : ∀ i, (v.caches i).redis = true
  server : v.server = w.store

section Shared

variable {E α : Type} {upstream : Upstream} {prog : E → Program α} {t : ℕ} {v v' : CachedWorld}
  {w : World} {o : Op} {r : Ret o}

theorem lasting_of_method {request : Cache.Request} {answer : Cache.Answer}
    (hmethod : Method o request answer r) (ho : Lasting o) :
    ∀ x ∈ request.writes, 1 ≤ x.2.1 := by
  cases hmethod with
  | get | getMany | existsAny | ttl | ttlIfValues => exact nofun
  | setex x =>
    intro y hy
    rw [List.mem_singleton.mp hy]
    exact ho x List.mem_cons_self
  | setexMany values | setexManyIfUnchanged expected values =>
    intro y hy
    obtain ⟨x, hx, rfl⟩ := List.mem_map.mp hy
    exact ho x hx

/-- A method of one of the caches. -/
theorem shared_serve {i : ℕ} (hrel : SharedRel v w) (ho : Lasting o) {request : Cache.Request}
    {answer : Cache.Answer} (hmethod : Method o request answer r)
    (hanswer : (v.serve i request).1 = answer) :
    exec .redis upstream t o w r { w with
      store := (spec .redis w.now w.store request).2, log := noted t o r ++ w.log } ∧
    SharedRel ((v.serve i request).2.note (noted t o r)) { w with
      store := (spec .redis w.now w.store request).2, log := noted t o r ++ w.log } := by
  obtain ⟨⟨hnow, hheld, hversion, hlog⟩, hredis, hserver⟩ := hrel
  obtain ⟨hfirst, hstore, hredis'⟩ := @Backends.redis_refines ⟨v.caches i, v.server, v.now⟩ v.now
    request (hredis i) (lasting_of_method hmethod ho)
  have hserved : (v.serve i request).1 = (spec .redis v.now v.server request).1 := hfirst
  have hstored : (v.serve i request).2.server = (spec .redis v.now v.server request).2 := hstore
  refine ⟨exec_of_spec hmethod ?_, ⟨hnow, hheld, hversion, ?_⟩, fun j => ?_, ?_⟩
  · rw [← hanswer, hserved, hnow, hserver]
  · show noted t o r ++ v.log = noted t o r ++ w.log
    rw [hlog]
  · show (Function.update v.caches i _ j).redis = true
    by_cases hj : j = i
    · subst hj
      rw [Function.update_self]
      exact hredis'
    · rw [Function.update_of_ne hj]
      exact hredis j
  · show (v.serve i request).2.server = _
    rw [hstored, hnow, hserver]

/-- Processes over one server do what processes over one store do. -/
def sharedSimulation (upstream : Upstream) (process : ℕ → ℕ) (prog : E → Program α) :
    Simulation (overCaches .redis upstream process prog) (overStore .redis upstream prog)
      Lasting where
  rel := SharedRel
  prog := rfl
  yields := rfl
  init := by
    intro v ⟨hboots, hserver, hheld, hlog⟩
    refine ⟨⟨v.now, v.server, v.held, v.version, v.log⟩, ⟨hserver, hheld, hlog⟩,
      ⟨rfl, rfl, rfl, rfl⟩, fun i => ?_, rfl⟩
    have hboot : v.caches i = Cache.new .redis ∨ v.caches i = Cache.new .redisRequired := hboots i
    rcases hboot with hboot | hboot <;> rw [hboot] <;> rfl
  exec := by
    intro t o v r v' w ho hrel hexec
    replace hexec : cachedExec .redis upstream process t o v r v' := hexec
    unfold cachedExec at hexec
    split at hexec
    · obtain ⟨request, answer, hmethod, hanswer, rfl⟩ := hexec
      exact ⟨_, shared_serve hrel ho hmethod hanswer⟩
    · next hoff =>
      obtain ⟨x, hexec, rfl⟩ := hexec
      rw [hrel.same.outside] at hexec
      obtain ⟨hexec', -⟩ := exec_of_outside (Bool.not_eq_true _ ▸ hoff) hexec
      exact ⟨_, hexec', ⟨rfl, rfl, rfl, rfl⟩, hrel.redis, hrel.server⟩
  env := by
    intro v v' w ⟨⟨hnow, hheld, hversion, hlog⟩, hredis, hserver⟩
      ⟨now, evicted, version, hlater, hversion', hv'⟩
    subst hv'
    refine ⟨{ w with now, store := w.store.evict evicted, version },
      ⟨now, _, version, hnow ▸ hlater, hversion ▸ hversion', rfl⟩,
      ⟨rfl, hheld, rfl, hlog⟩, hredis, ?_⟩
    show v.server.evict evicted = w.store.evict evicted
    rw [hserver]

end Shared

/-! ## What the service stores -/

/-- The configured lifetimes are ones that Redis accepts. -/
structure Lifetimes (settings : Settings) : Prop where
  index : 1 ≤ settings.cacheTtlSeconds
  project : 1 ≤ settings.cacheProjectTtlSeconds
  notFound : 1 ≤ settings.cache404Ttl
  stale : 1 ≤ settings.cacheStaleTtlSeconds
  metadata : 1 ≤ settings.metadataCacheTtlSeconds
  failure : 1 ≤ settings.metadataFailureTtlSeconds

/-- A lifetime that is reported is at least a second. -/
def Sampled : (o : Op) → Ret o → Prop
  | .ttl _, remaining => ∀ n, remaining = some n → 1 ≤ n
  | _, _ => True

theorem sampled_of_exec {B : Backend} {upstream : Upstream} {t : ℕ} {o : Op} {w w' : World}
    {r : Ret o} (hexec : exec B upstream t o w r w') : Sampled o r := by
  cases o with
  | ttl key =>
    intro n hn
    obtain ⟨rfl, -⟩ := hexec
    obtain ⟨e, -, he⟩ := Option.bind_eq_some_iff.mp hn
    exact Backend.ttl_pos he
  | _ => trivial

section Lasting

variable {s : Site} {r : ProjectRequest} {pid : ℕ} {α β : Type} {p : Program α}

theorem lasting_of_isRead {o : Op} (ho : o.isRead = true) : Lasting o := by
  cases o with
  | setexMany | setexManyIfUnchanged => cases ho
  | _ => exact nofun

theorem lasting_singleton {key value : Str} {ttl : ℤ} (h : 1 ≤ ttl) :
    Lasting (.setexMany [⟨key, ttl, value⟩]) := by
  intro x hx
  rw [List.mem_singleton.mp hx]
  exact h

theorem one_le_effectiveProjectTtl (hlifetimes : Lifetimes s.settings)
    (cacheControl : Option Str) : 1 ≤ effectiveProjectTtl s.settings cacheControl := by
  have hproject := hlifetimes.project
  unfold effectiveProjectTtl
  split
  · split
    · exact le_max_of_le_right (by decide)
    · exact hproject
  · exact hproject

theorem one_le_validatorValues (hlifetimes : Lifetimes s.settings) {etag lastMod : Option Str}
    {x : Write} (hx : x ∈ validatorValues s r etag lastMod) : 1 ≤ x.ttl := by
  rcases mem_validatorValues.mp hx with ⟨v, -, rfl⟩ | ⟨v, -, rfl⟩ <;> exact hlifetimes.stale

/-- A program that stores for such lifetimes as long as it is told such. -/
abbrev Lasts (p : Program α) : Prop := p.CallsGiven Sampled Lasting

theorem lasting_lock (lock : ℕ × Str) : Lasting (.acquire lock) ∧ Lasting (.release lock) :=
  ⟨nofun, nofun⟩

theorem lasts_tryServeFromCache : Lasts (tryServeFromCache s r) := by
  refine tryServeFromCache_callsGiven (fun _ => lasting_of_isRead) nofun ?_
  intro other body n staleTtl hn hstale x hx
  rcases mem_conversionValues.mp hx with rfl | ⟨m, hm, rfl⟩
  · exact hn n rfl
  · exact hstale m hm

theorem lasts_fetchUpstream (hlifetimes : Lifetimes s.settings) : Lasts (fetchUpstream s r) := by
  refine Prog.callsGiven_of_calls (fetchUpstream_calls (fun _ => lasting_of_isRead)
    (fun _ => nofun) (lasting_singleton hlifetimes.notFound) ?_
    (fun _ => lasting_singleton hlifetimes.stale) ?_ ?_)
  · intro response values hfill x hx
    obtain ⟨bodies, rfl, hbodies⟩ := hfill
    rcases List.mem_append.mp hx with hx | hx
    · exact one_le_validatorValues hlifetimes hx
    · obtain ⟨isJson, body, hx⟩ := hbodies x hx
      rcases mem_bodyValues.mp hx with rfl | rfl
      · exact one_le_effectiveProjectTtl hlifetimes _
      · exact hlifetimes.stale
  · intro response values hrefresh x hx
    obtain ⟨etag, lastMod, responseJson, body, otherStale, rfl⟩ := hrefresh
    rcases mem_refreshedValues.mp hx with rfl | hx | ⟨-, other, -, rfl⟩
    · exact one_le_effectiveProjectTtl hlifetimes _
    · exact one_le_validatorValues hlifetimes hx
    · exact one_le_effectiveProjectTtl hlifetimes _
  · intro expected key value ttl x hx
    rw [List.mem_singleton.mp hx]
    exact le_max_of_le_left hlifetimes.stale

theorem lasting_of_storesRecord (hlifetimes : Lifetimes s.settings) {o : Op}
    (ho : o.StoresRecord s) : Lasting o := by
  obtain ⟨key, value, -, rfl | rfl⟩ := ho
  · exact lasting_singleton hlifetimes.metadata
  · exact lasting_singleton hlifetimes.failure

theorem lasts_probeAll (hlifetimes : Lifetimes s.settings) (allowExtraction checkNative : Bool)
    (files : List File) : Lasts (probeAll s pid allowExtraction checkNative files) := by
  induction files with
  | nil => trivial
  | cons f files ih =>
    unfold probeAll
    refine Prog.CallsGiven.bind ?_ fun probed => ih.bind fun _ => trivial
    unfold probe
    split
    · trivial
    split
    · trivial
    · trivial
    · trivial
    refine Prog.CallsGiven.bind (Prog.callsGiven_of_calls (resolveMetadataForUrl_calls_of
      (fun _ => lasting_of_isRead) lasting_lock (fun _ => lasting_of_storesRecord hlifetimes)
      _ _ _)) fun resolved => ?_
    split <;> trivial

theorem lasts_commitProjectEnrichment (hlifetimes : Lifetimes s.settings) (canonical body : Str)
    (isJson : Bool) (files : List File) (changed ready : Bool) :
    Lasts (commitProjectEnrichment s pid canonical body isJson files changed ready) := by
  have hlocked : ∀ completedBody,
      Lasts (commitLocked s canonical body isJson completedBody changed ready) := by
    intro completedBody
    refine commitLocked_callsGiven (fun _ => lasting_of_isRead) ?_
    intro expected part n hn x hx
    have hsampled : 1 ≤ n := hn n rfl
    rcases mem_commitBatch.mp hx with ⟨-, rfl | ⟨-, rfl⟩⟩ | rfl | ⟨-, rfl⟩
    · exact hsampled
    · exact hlifetimes.stale
    · exact le_max_of_le_right hsampled
    · exact le_max_of_le_right hsampled
  unfold commitProjectEnrichment
  split
  · simp only [Prog.op_bind]
    refine ⟨nofun, fun _ _ => ?_⟩
    split
    · trivial
    · exact withLock_callsGiven lasting_lock (hlocked _)
  · exact withLock_callsGiven lasting_lock (hlocked _)

theorem lasts_scheduleProjectExtraction (canonical : Str) (isJson : Bool) (body : Str) :
    Lasts (scheduleProjectExtraction canonical isJson body) := ⟨nofun, fun _ _ => trivial⟩

theorem lasts_enrich (hlifetimes : Lifetimes s.settings) (canonical body : Str) (isJson : Bool) :
    Lasts (enrich s pid canonical body isJson) := by
  have hdiscover : ∀ project candidates,
      Lasts (discover s pid canonical body isJson project candidates) := by
    intro project candidates
    unfold discover
    refine (lasts_probeAll hlifetimes _ _ _).bind fun probed => ?_
    split
    · trivial
    dsimp only
    split
    · trivial
    refine (lasts_commitProjectEnrichment hlifetimes _ _ _ _ _ _).bind fun committed => ?_
    split
    · trivial
    · trivial
    split
    · exact (lasts_scheduleProjectExtraction _ _ _).bind fun _ => trivial
    · trivial
  unfold enrich
  simp only [Prog.op_bind]
  refine ⟨nofun, fun _ _ => ?_⟩
  split
  · trivial
  split
  · trivial
  refine Prog.CallsGiven.bind ⟨nofun, fun _ _ => trivial⟩ fun discovered => ?_
  split
  · split
    · trivial
    · exact (lasts_scheduleProjectExtraction _ _ _).bind fun _ => trivial
    · exact (lasts_commitProjectEnrichment hlifetimes _ _ _ _ _ _).bind fun _ => trivial
  · exact hdiscover _ _

theorem lasts_extractProjectAfterIdle (hlifetimes : Lifetimes s.settings) (canonical : Str)
    (isJson : Bool) (digest : Str) :
    Lasts (extractProjectAfterIdle s pid canonical isJson digest) := by
  have hbatches : ∀ files batches newFiles,
      Lasts (extractBatches s pid files batches newFiles) := by
    intro files batches
    induction batches with
    | nil => exact fun _ => trivial
    | cons batch batches ih =>
      intro newFiles
      unfold extractBatches
      simp only [Prog.op_bind]
      refine ⟨nofun, fun _ _ => (lasts_probeAll hlifetimes _ _ _).bind fun probed => ?_⟩
      split
      · trivial
      · exact ih _
  have hextract : ∀ body, Lasts (extractBody s pid canonical body isJson) := by
    intro body
    unfold extractBody
    simp only [Prog.op_bind]
    refine ⟨nofun, fun _ _ => ?_⟩
    split
    · trivial
    split
    · trivial
    dsimp only
    refine (hbatches _ _ _).bind fun newFiles => ?_
    split
    · trivial
    · exact (lasts_commitProjectEnrichment hlifetimes _ _ _ _ _ _).bind fun _ => trivial
  unfold extractProjectAfterIdle
  simp only [Prog.op_bind]
  refine ⟨nofun, fun _ _ => ?_⟩
  refine Prog.CallsGiven.bind ⟨nofun, fun _ _ => trivial⟩ fun ⟨current, stale⟩ => ?_
  dsimp only
  split
  · exact hextract _
  · exact hextract _
  · trivial

/-- Every task of the service stores for lifetimes that Redis accepts. -/
theorem lasts_prog (hlifetimes : Lifetimes s.settings) (e : ℕ × ServiceTask) :
    Lasts (e.2.prog s e.1) := by
  obtain ⟨pid, task⟩ := e
  cases task with
  | project name accept =>
    exact (serveProject_callsGiven lasting_lock lasts_tryServeFromCache
      (lasts_fetchUpstream hlifetimes)).bind fun _ => trivial
  | index render accept =>
    refine Prog.CallsGiven.bind (Prog.callsGiven_of_calls ?_) fun _ => trivial
    exact simpleIndex_calls_of (fun _ => lasting_of_isRead) (fun _ => nofun)
      fun _ _ => lasting_singleton hlifetimes.index
  | metadata host path query =>
    refine Prog.CallsGiven.bind (Prog.callsGiven_of_calls ?_) fun _ => trivial
    exact wheelMetadata_calls_of (fun _ => lasting_of_isRead) lasting_lock
      fun _ => lasting_of_storesRecord hlifetimes
  | background job =>
    cases job with
    | enrich canonical body isJson =>
      exact (lasts_enrich hlifetimes canonical body isJson).bind fun _ => trivial
    | extract canonical isJson digest =>
      exact (lasts_extractProjectAfterIdle hlifetimes canonical isJson digest).bind fun _ => trivial

end Lasting

/-- **The abstract store is refined by Redis.** Every run of the service in any number of processes,
over their `cache` objects and a server that answers every command, is event by event a run of the
service over one abstract store, which is what the server holds where the run ends. -/
theorem redis_refined {s : Site} (hlifetimes : Lifetimes s.settings) (upstream : Upstream)
    (process : ℕ → ℕ) {d d' : Config Op Ret CachedWorld (ℕ × ServiceTask) TaskResult}
    {evs : List (Event Op Ret (ℕ × ServiceTask))}
    (hinit : (overCaches .redis upstream process fun e => e.2.prog s e.1).Init d)
    (hrun : (overCaches .redis upstream process fun e => e.2.prog s e.1).Run d evs d') :
    ∃ c c', (deployment s .redis upstream).Init c ∧ (deployment s .redis upstream).Run c evs c' ∧
      d'.task = c'.task ∧ SharedRel d'.world c'.world := by
  have hok : ∀ c, (deployment s .redis upstream).Reachable c → ∀ t e o k,
      c.task t = some (e, .call o k) → Lasting o := by
    intro c hreach t e o k htask
    have hcalls :=
      hreach.callsGiven (fun t o w r w' => sampled_of_exec) (lasts_prog hlifetimes) htask
    exact hcalls.1
  obtain ⟨c, c', hinit', hrun', hrelated⟩ :=
    (sharedSimulation upstream process fun e => e.2.prog s e.1).simulated hok hinit hrun
  exact ⟨c, c', hinit', hrun', hrelated.task, hrelated.world⟩

/-! ## A page over its cache -/

/-- One answer of a call over the caches. -/
def respondCached (B : Backend) (serve : ℕ → UpstreamRequest → Option UpstreamResponse)
    (process : ℕ → ℕ) (a : Choice) (t : ℕ) : (o : Op) → CachedWorld → Option (Ret o × CachedWorld)
  | .getMany keys, w =>
    match w.serve (process t) (.getMany keys) with
    | (.values values, w') => some (values, w')
    | _ => none
  | .existsAny keys, w =>
    match w.serve (process t) (.existsAny keys) with
    | (.found found, w') => some (found, w')
    | _ => none
  | .setexMany values, w =>
    match w.serve (process t) (.setexMany (values.map Write.triple)) with
    | (.done, w') => some ((), w'.note [.stored t values])
    | _ => none
  | .ttl key, w =>
    match w.serve (process t) (.ttl key) with
    | (.remaining n, w') => some (n, w')
    | _ => none
  | .ttlIfValues key expected boundKey expectedBound, w =>
    match w.serve (process t) (.ttlIfValues key expected boundKey expectedBound) with
    | (.remaining n, w') => some (n, w')
    | _ => none
  | .setexManyIfUnchanged _ _, _ => none
  | o, w => (respond B serve a t o w.outside).map fun (r, v) => (r, w.setOutside v)

theorem respondCached_sound {B : Backend} {upstream : Upstream}
    {serve : ℕ → UpstreamRequest → Option UpstreamResponse} {process : ℕ → ℕ} {a : Choice} {t : ℕ}
    {o : Op} {w w' : CachedWorld} {r : Ret o}
    (hserve : ∀ version request, upstream version request (serve version request))
    (h : respondCached B serve process a t o w = some (r, w')) :
    cachedExec B upstream process t o w r w' := by
  unfold cachedExec
  cases o with
  | getMany | existsAny | ttl | ttlIfValues | setexMany =>
    simp only [Op.isCached, if_true]
    simp only [respondCached] at h
    split at h
    · next _ hanswer =>
      obtain ⟨rfl, rfl⟩ := Prod.mk.inj (Option.some.inj h)
      refine ⟨_, _, by constructor, congrArg Prod.fst hanswer, ?_⟩
      rw [congrArg Prod.snd hanswer]
      rfl
    · cases h
  | setexManyIfUnchanged => cases h
  | acquire | release | httpGet | httpHead | extractWheelMetadata | elapse | suspend | unfinished
  | schedule =>
    simp only [Op.isCached, Bool.false_eq_true, if_false]
    simp only [respondCached] at h
    obtain ⟨⟨r', v⟩, hrespond, heq⟩ := Option.map_eq_some_iff.mp h
    obtain ⟨rfl, rfl⟩ := Prod.mk.inj heq
    exact ⟨v, respond_sound hserve hrespond, rfl⟩

/-- Schedules over the caches, in which the clock stands still. -/
def cachedDriver {E α : Type} (B : Backend) (process : ℕ → ℕ) (prog : E → Program α) :
    Driver (overCaches B Readiness.upstreamPage process prog) Choice where
  respond := respondCached B Readiness.servePage process
  drift _ _ := none
  respond_sound := respondCached_sound fun _ _ => rfl
  drift_sound := nofun

/-- New caches, and nothing stored. -/
def bootedWorld (backend : CacheBackendName) : CachedWorld :=
  ⟨fun _ => Cache.new backend, fun _ => none, 0, fun _ => none, 0, []⟩

/-- The service, over its caches. -/
abbrev cachedService (B : Backend) :
    System Op Ret CachedWorld (ℕ × ServiceTask) TaskResult :=
  overCaches B Readiness.upstreamPage (fun _ => 0) fun e => e.2.prog Readiness.pageSite e.1

/-- A request that fills the cache. -/
def pageFill (B : Backend) (backend : CacheBackendName) :
    Option (List (Event Op Ret (ℕ × ServiceTask)) × TaskResult × CachedWorld) :=
  (cachedDriver B (fun _ => 0) fun e => e.2.prog Readiness.pageSite e.1).finish {} 0
    ((cachedService B).prog Readiness.pageRequest) (bootedWorld backend)

/-- The request leaves the page in the local entries, or on the server. -/
theorem pageFill_spec :
    (pageFill .memory .memory).any (fun (_, _, w) =>
      (live (w.caches 0).mem w.now (Readiness.primaryKey Readiness.one true)).map Entry.value =
        some Readiness.page) = true ∧
    (pageFill .redis .redisRequired).any (fun (_, _, w) =>
      w.server.get w.now (Readiness.primaryKey Readiness.one true) = some Readiness.page) =
        true := by
  decide +kernel

/-- The request as a run. -/
theorem pageFill_run {B : Backend} {backend : CacheBackendName}
    {evs : List (Event Op Ret (ℕ × ServiceTask))} {result : TaskResult} {w : CachedWorld}
    (hboots : B.Boots (Cache.new backend)) (h : pageFill B backend = some (evs, result, w)) :
    (cachedService B).Init (Driver.boot (bootedWorld backend)) ∧
      ∃ evs' d', (cachedService B).Run (Driver.boot (bootedWorld backend)) evs' d' ∧
        d'.world = w := by
  have hquiet : (cachedService B).Quiet (Driver.boot (bootedWorld backend)) :=
    fun _ _ _ _ h => nomatch h
  obtain ⟨hrun, -⟩ := Driver.complete (.nil _) hquiet rfl h
  refine ⟨⟨⟨fun _ => hboots, fun _ => rfl, fun _ => rfl, rfl⟩, fun _ => rfl⟩, _, _, hrun, rfl⟩

theorem memory_refined_page : ∃ (evs : List (Event Op Ret (ℕ × ServiceTask)))
    (d d' : Config Op Ret CachedWorld (ℕ × ServiceTask) TaskResult)
    (c c' : Config Op Ret World (ℕ × ServiceTask) TaskResult),
    (cachedService .memory).Run d evs d' ∧
      (deployment Readiness.pageSite .memory Readiness.upstreamPage).Init c ∧
      (deployment Readiness.pageSite .memory Readiness.upstreamPage).Run c evs c' ∧
      c'.world.get (Readiness.primaryKey Readiness.one true) = some Readiness.page := by
  obtain ⟨⟨evs, result, w⟩, hfill, hpage⟩ := (Option.any_eq_true _ _).mp pageFill_spec.1
  obtain ⟨hinit, evs', d', hrun, hw⟩ := pageFill_run (B := .memory) (by exact rfl) hfill
  obtain ⟨c, c', hinit', hrun', -, hrel⟩ := memory_refined Readiness.upstreamPage
    (fun e => e.2.prog Readiness.pageSite e.1) hinit hrun
  refine ⟨evs', _, d', c, c', hrun, hinit', hrun', ?_⟩
  show c'.world.store.get c'.world.now _ = _
  rw [Backends.get_eq_live, ← hrel.agree, ← hrel.same.1, hw]
  exact of_decide_eq_true hpage

theorem redis_refined_page : ∃ (evs : List (Event Op Ret (ℕ × ServiceTask)))
    (d d' : Config Op Ret CachedWorld (ℕ × ServiceTask) TaskResult)
    (c c' : Config Op Ret World (ℕ × ServiceTask) TaskResult),
    (cachedService .redis).Run d evs d' ∧
      (deployment Readiness.pageSite .redis Readiness.upstreamPage).Init c ∧
      (deployment Readiness.pageSite .redis Readiness.upstreamPage).Run c evs c' ∧
      c'.world.get (Readiness.primaryKey Readiness.one true) = some Readiness.page := by
  obtain ⟨⟨evs, result, w⟩, hfill, hpage⟩ := (Option.any_eq_true _ _).mp pageFill_spec.2
  obtain ⟨hinit, evs', d', hrun, hw⟩ := pageFill_run (B := .redis) (by exact Or.inr rfl) hfill
  have hlifetimes : Lifetimes Readiness.pageSite.settings := by
    constructor <;> decide
  obtain ⟨c, c', hinit', hrun', -, hrel⟩ := redis_refined hlifetimes Readiness.upstreamPage
    (fun _ => 0) hinit hrun
  refine ⟨evs', _, d', c, c', hrun, hinit', hrun', ?_⟩
  show c'.world.store.get c'.world.now _ = _
  rw [← hrel.server, ← hrel.same.1, hw]
  exact of_decide_eq_true hpage

end ProxyCache.Theorems.StoreRefinement
