import ProxyCache.App.BackgroundRules
import ProxyCache.App.Service
import ProxyCache.Lib.Trace

/-!
# What the parts of the handlers call

For a property of calls, what is to be shown of the calls of each part of the handlers. The blocks
that run under a lock are treated apart from `withLock`, so that a property may tell the two lock
calls from the rest; lifetimes that were sampled are known from the answers to `cache.ttl`.
-/

namespace ProxyCache.App

open ProxyCache.Lib ProxyCache.Python

variable {s : Site} {P : Op → Prop} {answered : (o : Op) → Ret o → Prop}

theorem calls_of_reads {α : Type} {Q : Op → Prop} {p : Program α}
    (hread : ∀ o : Op, o.isRead → P o) (hp : p.Calls fun o => o.isRead ∧ Q o) : p.Calls P :=
  hp.mono fun o ho => hread o ho.1

/-! ## The project route -/

section Project

variable {r : ProjectRequest}

/-- Serving from the cache reads, converts, and stores what was converted for sampled lifetimes. -/
theorem tryServeFromCache_callsGiven (hread : ∀ o : Op, o.isRead → P o) (helapse : P .elapse)
    (hcommit : ∀ other body n staleTtl, answered (.ttl r.otherKey) (some n) →
      answered (.ttl r.otherStaleKey) staleTtl →
      P (.setexManyIfUnchanged [(r.otherKey, some other)]
        (conversionValues r n staleTtl body))) :
    (tryServeFromCache s r).CallsGiven answered P := by
  have hcached : ∀ body isJson, (cachedResponse s r.canonical body isJson).CallsGiven answered P :=
    fun body isJson =>
      Prog.callsGiven_of_calls (calls_of_reads hread (cachedResponse_calls s _ _ _))
  have hget : ∀ key, (cacheGet key).CallsGiven answered P :=
    fun key => ⟨hread _ rfl, fun _ _ => trivial⟩
  have hconversion : ∀ other body, (storeConversion s r other body).CallsGiven answered P := by
    intro other body
    unfold storeConversion
    simp only [Prog.op_bind]
    refine ⟨hread _ rfl, fun otherTtl hother => ?_⟩
    cases otherTtl with
    | none => trivial
    | some otherTtl =>
      refine ⟨hread _ rfl, fun staleTtl hstale => ⟨hcommit _ _ _ _ hother hstale, ?_⟩⟩
      intro committed _
      cases committed with
      | false => trivial
      | true =>
        refine Prog.CallsGiven.bind ?_ fun _ => trivial
        exact Prog.callsGiven_of_calls
          (calls_of_reads hread (scheduleMetadataEnrichment_calls s _ r.canonical _ _))
  unfold tryServeFromCache
  refine Prog.CallsGiven.bind ⟨hread _ rfl, fun _ _ => trivial⟩ fun ⟨notFound, cached⟩ => ?_
  dsimp only
  split
  · trivial
  split
  · exact (hcached _ _).bind fun _ => trivial
  refine (hget _).bind fun other => ?_
  split
  · unfold serveOther
    split
    · exact (hcached _ _).bind fun _ => trivial
    simp only [Prog.op_bind]
    refine ⟨helapse, fun _ _ => ?_⟩
    split
    · exact hconversion _ _
    · trivial
  · trivial

/-- What the rules of the handlers keep: every call so far satisfies the property. -/
abbrev RecordedCalls (P : Op → Prop) {α : Type} (p : Program α) : Prop :=
  ∀ last : Option Op, Effects.recorder.wp (fun last => ∀ o, last = some o → P o) (fun _ _ => True)
    (fun _ _ => True) 0 (fun _ _ => True) p last

theorem recorded_call {o : Op} (ho : P o) : RecordedCalls P (call o) := by
  intro last
  refine Effects.wp_of_calls (P := P) ⟨ho, fun _ => trivial⟩ fun _ _ _ _ ho _ hexec => ⟨?_, trivial⟩
  intro _ hlast
  obtain rfl := Option.some.inj (hexec.symm.trans hlast)
  exact ho

theorem nonempty_ret (o : Op) : Nonempty (Ret o) := by
  cases o <;> exact inferInstance

/-- A fetch reads, asks the upstream, and stores the batches of its answers. -/
theorem fetchUpstream_calls (hread : ∀ o : Op, o.isRead → P o)
    (hget : ∀ request, P (.httpGet request))
    (hmark : P (.setexMany [⟨r.notFoundKey, s.settings.cache404Ttl, ("1" : Str)⟩]))
    (hfill : ∀ response values, IsFill s r response values → P (.setexMany values))
    (hrestale : ∀ other,
      P (.setexMany [⟨r.otherStaleKey, s.settings.cacheStaleTtlSeconds, other⟩]))
    (hrefresh : ∀ response values, IsRefresh s r response values → P (.setexMany values))
    (hready : ∀ expected key value ttl, P (.setexManyIfUnchanged expected
      [⟨key, max s.settings.cacheStaleTtlSeconds ttl, value⟩])) :
    (fetchUpstream s r).Calls P := by
  have hfetches : Fetches Effects.recorder (fun last => ∀ o, last = some o → P o)
      (fun _ _ => True) (fun _ _ => True) 0 s r (fun _ => True) fun _ _ => True := {
    read := fun o ho last _ => recorded_call (hread o ho) last
    get := fun request last _ =>
      Effects.wp_mono (recorded_call (hget request) last) fun _ _ _ => ⟨trivial, fun _ _ => trivial⟩
    leave := fun _ _ _ => trivial
    lookup := fun _ keys last _ => recorded_call (hread (.getMany keys) rfl) last
    mark := fun _ last _ _ => recorded_call hmark last
    fill := fun _ values last _ hvalues _ => recorded_call (hfill _ values hvalues) last
    restale := fun _ other last _ _ => recorded_call (hrestale other) last
    refresh := fun _ values last _ hvalues _ => recorded_call (hrefresh _ values hvalues) last
    ready := fun _ _ _ last _ => recorded_call (hready _ _ _ _) last }
  have : ∀ o, Nonempty (Ret o) := nonempty_ret
  have hnone : ∀ o, (none : Option Op) = some o → P o := nofun
  exact (Effects.wp_recorder hnone).mp (hfetches.wp_fetchUpstream trivial)

/-- A block under a lock. -/
theorem withLock_callsGiven {α : Type} {p : Program α} {pid : ℕ} {key : Str}
    (hlock : ∀ lock, P (.acquire lock) ∧ P (.release lock)) (hp : p.CallsGiven answered P) :
    (withLock pid key p).CallsGiven answered P := by
  unfold withLock
  rw [Prog.op_bind]
  exact ⟨(hlock _).1, fun _ _ => hp.bind fun _ => ⟨(hlock _).2, fun _ _ => trivial⟩⟩

/-- A request serves from the cache, or fetches under the fill lock. -/
theorem serveProject_callsGiven {pid : ℕ} (hlock : ∀ lock, P (.acquire lock) ∧ P (.release lock))
    (hserve : (tryServeFromCache s r).CallsGiven answered P)
    (hfetch : (fetchUpstream s r).CallsGiven answered P) :
    (serveProject s pid r).CallsGiven answered P := by
  unfold serveProject
  refine hserve.bind fun result => ?_
  split
  · trivial
  · trivial
  refine withLock_callsGiven hlock ?_
  unfold fill
  refine hserve.bind fun result => ?_
  split
  · trivial
  · trivial
  · exact hfetch

end Project

/-- The index route reads, asks the upstream, and stores the page. -/
theorem simpleIndex_calls_of {render : Bool → UpstreamResponse → Except Raised Str}
    {accept : Option Str} (hread : ∀ o : Op, o.isRead → P o)
    (hget : ∀ request, P (.httpGet request))
    (hstore : ∀ key value, P (.setexMany [⟨key, s.settings.cacheTtlSeconds, value⟩])) :
    (simpleIndex s render accept).Calls P := by
  unfold simpleIndex
  refine Prog.Calls.bind ⟨hread _ rfl, fun _ => trivial⟩ fun cached => ?_
  split
  · trivial
  simp only [Prog.op_bind, Prog.calls_call]
  refine ⟨hget _, fun response => ?_⟩
  cases response with
  | none => trivial
  | some response =>
    dsimp only
    split
    · trivial
    unfold storeIndex
    split
    · trivial
    · exact ⟨hstore _ _, fun _ => trivial⟩

/-! ## Metadata of an artifact -/

section Metadata

variable {fileUrl : Str}

/-- A call that stores one metadata record. -/
def Op.StoresRecord (s : Site) (o : Op) : Prop :=
  ∃ key value, IsMetadataKey key ∧
    (o = .setexMany [⟨key, s.settings.metadataCacheTtlSeconds, value⟩] ∨
      o = .setexMany [⟨key, s.settings.metadataFailureTtlSeconds, value⟩])

theorem loadMetadataForUrl_reads (expected : Option Str) :
    (loadMetadataForUrl s fileUrl expected).Calls fun o : Op => o.isRead = true :=
  loadMetadataForUrl_calls_of s (fun _ => ⟨rfl, fun _ => trivial⟩) fileUrl expected

theorem storeMetadataContent_calls_of (hstore : ∀ o : Op, o.StoresRecord s → P o) (text : Str)
    (wheelSha256 : Option Str) : (storeMetadataContent s fileUrl text wheelSha256).Calls P := by
  have hset : ∀ key value, IsMetadataKey key →
      (cacheSetex key s.settings.metadataCacheTtlSeconds value).Calls P :=
    fun key value hkey => ⟨hstore _ ⟨key, value, hkey, .inl rfl⟩, fun _ => trivial⟩
  unfold storeMetadataContent
  dsimp only
  split
  · trivial
  refine (hset _ _ (isMetadataKey_content ..)).bind fun _ => ?_
  cases wheelSha256 with
  | none => exact (hset _ _ (isMetadataKey_url _)).bind fun _ => trivial
  | some digest =>
    refine (hset _ _ (isMetadataKey_blob ..)).bind fun _ => ?_
    exact (hset _ _ (isMetadataKey_url _)).bind fun _ => trivial

theorem extractMissing_calls_of (hread : ∀ o : Op, o.isRead → P o)
    (hstore : ∀ o : Op, o.StoresRecord s → P o) (wheelSha256 : Option Str)
    (allowExtraction : Bool) :
    (extractMissing s fileUrl wheelSha256 allowExtraction).Calls P := by
  have hfailed : ∀ url, (extractionFailed s url
      (metadataFailureKey s.U fileUrl wheelSha256)).Calls P := by
    intro url
    unfold extractionFailed
    split
    · trivial
    · exact ⟨hstore _ ⟨_, _, isMetadataKey_failure .., .inr rfl⟩, fun _ => trivial⟩
  unfold extractMissing
  split
  · trivial
  refine Prog.Calls.bind ⟨hread _ rfl, fun _ => trivial⟩ fun failure => ?_
  split
  · trivial
  split
  · trivial
  · trivial
  simp only [Prog.op_bind, Prog.calls_call]
  refine ⟨hread _ rfl, fun text => ?_⟩
  cases text with
  | none => exact hfailed _
  | some text =>
    refine (storeMetadataContent_calls_of hstore _ _).bind fun stored => ?_
    cases stored with
    | error e => exact hfailed _
    | ok stored => trivial

/-- What a resolution does under the lock of its artifact. -/
theorem resolveMissing_calls_of (hread : ∀ o : Op, o.isRead → P o)
    (hstore : ∀ o : Op, o.StoresRecord s → P o) (wheelSha256 : Option Str)
    (allowExtraction checkNative : Bool) :
    (resolveMissing s fileUrl wheelSha256 allowExtraction checkNative).Calls P := by
  have hextract := @extractMissing_calls_of s P fileUrl hread hstore wheelSha256 allowExtraction
  unfold resolveMissing
  refine ((loadMetadataForUrl_reads _).mono hread).bind fun stored => ?_
  split
  · trivial
  · trivial
  split
  · unfold checkNativeThenExtract
    split
    · trivial
    · trivial
    simp only [Prog.op_bind, Prog.calls_call]
    refine ⟨hread _ rfl, fun status => ?_⟩
    cases status with
    | none =>
      dsimp only
      split
      · trivial
      · exact hextract
    | some status =>
      dsimp only
      split
      · trivial
      · exact hextract
  · exact hextract

theorem resolveMetadataForUrl_calls_of {pid : ℕ} (hread : ∀ o : Op, o.isRead → P o)
    (hlock : ∀ lock, P (.acquire lock) ∧ P (.release lock))
    (hstore : ∀ o : Op, o.StoresRecord s → P o) (wheelSha256 : Option Str)
    (allowExtraction checkNative : Bool) :
    (resolveMetadataForUrl s pid fileUrl wheelSha256 allowExtraction checkNative).Calls P := by
  unfold resolveMetadataForUrl
  refine ((loadMetadataForUrl_reads _).mono hread).bind fun stored => ?_
  split
  · trivial
  · trivial
  · exact Prog.CallsGiven.calls (withLock_callsGiven hlock
      (Prog.callsGiven_of_calls (resolveMissing_calls_of hread hstore _ _ _)))

theorem wheelMetadata_calls_of {pid : ℕ} {host path query : Str}
    (hread : ∀ o : Op, o.isRead → P o) (hlock : ∀ lock, P (.acquire lock) ∧ P (.release lock))
    (hstore : ∀ o : Op, o.StoresRecord s → P o) :
    (wheelMetadata s pid host path query).Calls P := by
  unfold wheelMetadata
  split
  · trivial
  split
  · trivial
  split
  · trivial
  refine Prog.Calls.bind ?_ fun stored => ?_
  · unfold loadOrRecoverMetadataForUrl
    split
    · exact (loadMetadataForUrl_reads _).mono hread
    refine (resolveMetadataForUrl_calls_of hread hlock hstore _ _ _).bind fun resolved => ?_
    split
    · trivial
    · trivial
    split
    · trivial
    · split <;> trivial
  · split <;> trivial

end Metadata

/-! ## Commits -/

/-- What a commit does under the fill lock. -/
theorem commitLocked_callsGiven {canonical body completedBody : Str} {isJson changed ready : Bool}
    (hread : ∀ o : Op, o.isRead → P o)
    (hcommit : ∀ expected part n, answered (.ttl (projectKey canonical part)) (some n) →
      P (.setexManyIfUnchanged expected (commitBatch s canonical isJson changed ready part n
        (max s.settings.cacheStaleTtlSeconds n) completedBody))) :
    (commitLocked s canonical body isJson completedBody changed ready).CallsGiven answered P := by
  have hbound : ∀ part expected, (commitBound s canonical isJson completedBody changed ready part
      expected).CallsGiven answered P := by
    intro part expected
    unfold commitBound
    simp only [Prog.op_bind]
    refine ⟨hread _ rfl, fun ttl hanswer => ?_⟩
    cases ttl with
    | none => trivial
    | some n =>
      dsimp only
      split
      · trivial
      · exact ⟨hcommit expected part n hanswer, fun _ _ => trivial⟩
  unfold commitLocked
  refine Prog.CallsGiven.bind ⟨hread _ rfl, fun _ _ => trivial⟩ fun ⟨current, stale⟩ => ?_
  dsimp only
  split
  · exact hbound _ _
  split
  · exact hbound _ _
  · trivial

end ProxyCache.App
