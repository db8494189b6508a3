import ProxyCache.App.Service
import ProxyCache.Lib.History
import ProxyCache.Theorems.Readiness
import Mathlib.Data.List.Sort

/-!
# Outbound traffic

What the service asks of others is bounded by what it is asked: a page costs at most two GETs, an
index one, a metadata file one HEAD and one extraction, and each background job one HEAD or one
extraction for each of the wheels that `_extraction_candidate_indexes` selects. The bounds are about
whole runs, whatever the requests and the jobs of the processes do to each other.
-/

namespace ProxyCache.Theorems.Traffic

open ProxyCache.Lib ProxyCache.Python ProxyCache.App

/-! ## What goes out -/

/-- The kinds of outbound work. -/
inductive Outbound where
  | get | head | extraction
  deriving DecidableEq

/-- The outbound work that a call is. -/
def outbound : Op → Option Outbound
  | .httpGet _ => some .get
  | .httpHead _ => some .head
  | .extractWheelMetadata _ => some .extraction
  | _ => none

/-- A call that stays inside. -/
def Inward (o : Op) : Prop := outbound o = none

variable {s : Site} {k : Outbound} {n : ℕ}

/-- The cost of a call in outbound work of one kind. -/
def cost (k : Outbound) (o : Op) (_ : Ret o) : ℕ := if outbound o = some k then 1 else 0

/-- The work that one resolution of a wheel's metadata is allowed. -/
def resolution (allowExtraction checkNative : Bool) : Outbound → ℕ
  | .get => 0
  | .head => checkNative.toNat
  | .extraction => allowExtraction.toNat

/-- A number of GETs. -/
def fetches (n : ℕ) : Outbound → ℕ
  | .get => n
  | _ => 0

/-- The number of wheels that are selected from a project, at most. -/
def selection (s : Site) : ℕ := s.settings.metadataMaxExtractFilesPerProject.toNat

/-- The work that one task is allowed. -/
def allowance (s : Site) (k : Outbound) : ServiceTask → ℕ
  | .project .. => fetches 2 k
  | .index .. => fetches 1 k
  | .metadata .. => resolution true true k
  | .background (.enrich ..) => selection s * resolution false true k
  | .background (.extract ..) => selection s * resolution true false k

/-! ## Calls that stay inside -/

section Inward

variable {α : Type} {p : Program α}

theorem costs_of_inward (hp : p.Calls Inward) : p.Costs (cost k) n := by
  refine Prog.costs_of_free (hp.mono fun o ho r => ?_)
  simp [cost, show outbound o = none from ho]

theorem costs_inward_bind {β : Type} {f : α → Program β} (hp : p.Calls Inward)
    (hf : ∀ a, (f a).Costs (cost k) n) : (p >>= f).Costs (cost k) n := by
  refine Prog.costs_free_bind (hp.mono fun o ho r => ?_) hf
  simp [cost, show outbound o = none from ho]

/-- A call that goes out, and what follows it. -/
theorem costs_out {o : Op} {f : Ret o → Program α} {kind : Outbound}
    (ho : outbound o = some kind) {a m : ℕ} (ha : kind = k → 1 ≤ a)
    (hf : ∀ r, (f r).Costs (cost k) m) :
    ((call o : Program (Ret o)) >>= f).Costs (cost k) (a + m) := by
  rw [Prog.op_bind]
  intro r
  refine ⟨m, ?_, hf r⟩
  by_cases hk : kind = k
  · have := ha hk
    simp only [cost, ho, hk, if_true]
    omega
  · simp [cost, ho, hk]

theorem inward_op {o : Op} (ho : outbound o = none) : (call o : Program (Ret o)).Calls Inward :=
  ⟨ho, fun _ => trivial⟩

theorem cacheGet_inward (key : Str) : (cacheGet key).Calls Inward := ⟨rfl, fun _ => trivial⟩

theorem cacheGetTwo_inward (key key' : Str) : (cacheGetTwo key key').Calls Inward :=
  ⟨rfl, fun _ => trivial⟩

theorem cacheSetex_inward (key : Str) (ttl : ℤ) (value : Str) :
    (cacheSetex key ttl value).Calls Inward := ⟨rfl, fun _ => trivial⟩

theorem scheduleMetadataEnrichment_inward (canonical body : Str) (isJson : Bool) :
    (scheduleMetadataEnrichment s canonical body isJson).Calls Inward := by
  unfold scheduleMetadataEnrichment
  split
  · exact inward_op rfl
  · trivial

theorem cachedResponse_inward (canonical body : Str) (isJson : Bool) :
    (cachedResponse s canonical body isJson).Calls Inward := by
  unfold cachedResponse
  split
  · refine Prog.Calls.bind (inward_op rfl) fun ttl => ?_
    cases ttl with
    | some ttl => trivial
    | none =>
      refine Prog.Calls.bind ?_ fun _ => trivial
      unfold ensureMetadataBackgroundWork
      split
      · trivial
      refine Prog.Calls.bind (inward_op rfl) fun unfinished => ?_
      split
      · trivial
      refine (cacheGet_inward _).bind fun discovered => ?_
      split
      · exact inward_op rfl
      refine Prog.Calls.bind (inward_op rfl) fun ttl => ?_
      cases ttl with
      | none => trivial
      | some ttl => exact scheduleMetadataEnrichment_inward _ _ _
  · trivial

theorem tryServeFromCache_inward (r : ProjectRequest) :
    (tryServeFromCache s r).Calls Inward := by
  have hconversion : ∀ other body, (storeConversion s r other body).Calls Inward := by
    intro other body
    unfold storeConversion
    refine Prog.Calls.bind (inward_op rfl) fun ttl => ?_
    cases ttl with
    | none => trivial
    | some ttl =>
      refine Prog.Calls.bind (inward_op rfl) fun staleTtl => ?_
      refine Prog.Calls.bind (inward_op rfl) fun committed => ?_
      split
      · exact (scheduleMetadataEnrichment_inward _ _ _).bind fun _ => trivial
      · trivial
  unfold tryServeFromCache
  refine (cacheGetTwo_inward _ _).bind fun ⟨notFound, cached⟩ => ?_
  dsimp only
  split
  · trivial
  split
  · exact (cachedResponse_inward _ _ _).bind fun _ => trivial
  refine (cacheGet_inward _).bind fun other => ?_
  split
  · unfold serveOther
    split
    · exact (cachedResponse_inward _ _ _).bind fun _ => trivial
    refine Prog.Calls.bind (inward_op rfl) fun _ => ?_
    split
    · exact hconversion _ _
    · trivial
  · trivial

end Inward

/-! ## The project route -/

section Project

variable {r : ProjectRequest}

theorem answer_inward (response : UpstreamResponse) : (answer s r response).Calls Inward := by
  unfold answer
  split
  · exact (cacheSetex_inward _ _ _).bind fun _ => trivial
  split
  · trivial
  unfold storeFill
  dsimp only
  split
  · split
    · trivial
    · refine Prog.Calls.bind (inward_op rfl) fun _ => ?_
      exact (scheduleMetadataEnrichment_inward _ _ _).bind fun _ => trivial
  · split
    · trivial
    · refine Prog.Calls.bind (inward_op rfl) fun _ => ?_
      exact (scheduleMetadataEnrichment_inward _ _ _).bind fun _ => trivial

theorem refresh_inward {etag lastMod otherStale : Option Str} {response : UpstreamResponse}
    {isJson : Bool} {body : Str} :
    (refresh s r etag lastMod response isJson body otherStale).Calls Inward := by
  unfold refresh
  refine Prog.Calls.bind (inward_op rfl) fun _ => ?_
  split
  · refine Prog.Calls.bind (inward_op rfl) fun _ => ?_
    exact (cachedResponse_inward _ _ _).bind fun _ => trivial
  · exact (cachedResponse_inward _ _ _).bind fun _ => trivial

/-- The second GET is the last one. -/
theorem refetch_costs : (refetch s r).Costs (cost k) (fetches 1 k) := by
  unfold refetch
  refine costs_out (m := 0) rfl (fun hk => hk ▸ le_refl 1) fun response => ?_
  cases response with
  | none => trivial
  | some response =>
    dsimp only
    split
    · trivial
    · exact costs_of_inward (answer_inward _)

theorem conditionalGet_costs (etag lastMod : Option Str) :
    (conditionalGet s r etag lastMod).Costs (cost k) (fetches 2 k) := by
  have hsplit : fetches 2 k = fetches 1 k + fetches 1 k := by
    cases k <;> rfl
  rw [hsplit]
  unfold conditionalGet
  refine costs_out rfl (fun hk => hk ▸ le_refl 1) fun response => ?_
  cases response with
  | none => trivial
  | some response =>
    dsimp only
    split
    · unfold notModified
      refine costs_inward_bind (cacheGetTwo_inward _ _) fun ⟨stale, otherStale⟩ => ?_
      dsimp only
      split
      · exact costs_of_inward refresh_inward
      · -- only the other format has a stale copy; a failed conversion fetches again
        unfold synthesizeStale
        split
        · exact costs_of_inward refresh_inward
        split
        · split
          · exact refetch_costs
          · trivial
        · exact costs_inward_bind (cacheSetex_inward _ _ _) fun _ =>
            costs_of_inward refresh_inward
      · exact refetch_costs
    · exact costs_of_inward (answer_inward _)

theorem serveProject_costs (pid : ℕ) :
    (serveProject s pid r).Costs (cost k) (fetches 2 k) := by
  unfold serveProject
  refine costs_inward_bind (tryServeFromCache_inward r) fun result => ?_
  split
  · trivial
  · trivial
  unfold withLock
  refine costs_inward_bind (inward_op rfl) fun _ => ?_
  have hfill : (fill s r).Costs (cost k) (fetches 2 k) := by
    unfold fill
    refine costs_inward_bind (tryServeFromCache_inward r) fun result => ?_
    split
    · trivial
    · trivial
    unfold fetchUpstream
    refine costs_inward_bind (inward_op rfl) fun stale => ?_
    split
    · exact costs_inward_bind (cacheGetTwo_inward _ _) fun _ => conditionalGet_costs _ _
    · exact conditionalGet_costs _ _
  refine hfill.bind (m := 0) fun _ => ?_
  exact costs_inward_bind (inward_op rfl) fun _ => trivial

end Project

theorem simpleIndex_costs (render : Bool → UpstreamResponse → Except Raised Str)
    (accept : Option Str) :
    (simpleIndex s render accept).Costs (cost k) (fetches 1 k) := by
  unfold simpleIndex
  refine costs_inward_bind (cacheGet_inward _) fun cached => ?_
  split
  · trivial
  refine costs_out (m := 0) rfl (fun hk => hk ▸ le_refl 1) fun response => ?_
  cases response with
  | none => trivial
  | some response =>
    dsimp only
    split
    · trivial
    unfold storeIndex
    split
    · trivial
    · exact costs_of_inward ((cacheSetex_inward _ _ _).bind fun _ => trivial)

/-! ## Metadata of a wheel -/

section Metadata

variable {pid : ℕ} {fileUrl : Str} {allowExtraction checkNative : Bool}

theorem loadMetadataForUrl_inward (expected : Option Str) :
    (loadMetadataForUrl s fileUrl expected).Calls Inward :=
  loadMetadataForUrl_calls_of s cacheGet_inward fileUrl expected

theorem storeMetadataContent_inward (text : Str) (wheelSha256 : Option Str) :
    (storeMetadataContent s fileUrl text wheelSha256).Calls Inward := by
  unfold storeMetadataContent
  dsimp only
  split
  · trivial
  refine (cacheSetex_inward _ _ _).bind fun _ => ?_
  cases wheelSha256 with
  | none => exact (cacheSetex_inward _ _ _).bind fun _ => trivial
  | some digest =>
    refine (cacheSetex_inward _ _ _).bind fun _ => ?_
    exact (cacheSetex_inward _ _ _).bind fun _ => trivial

theorem extractMissing_costs (wheelSha256 : Option Str) :
    (extractMissing s fileUrl wheelSha256 allowExtraction).Costs (cost k)
      (resolution allowExtraction false k) := by
  have hfailed : ∀ url key, (extractionFailed s url key).Calls Inward := by
    intro url key
    unfold extractionFailed
    split
    · trivial
    · exact (cacheSetex_inward _ _ _).bind fun _ => trivial
  unfold extractMissing
  split
  · trivial
  next hallow =>
  refine costs_inward_bind (cacheGet_inward _) fun failure => ?_
  split
  · trivial
  split
  · trivial
  · trivial
  refine costs_out (m := 0) rfl ?_ fun text => ?_
  · intro hk
    subst hk
    have hone : allowExtraction = true := by simpa using hallow
    rw [hone]
    exact le_refl 1
  cases text with
  | none => exact costs_of_inward (hfailed _ _)
  | some text =>
    refine costs_inward_bind (storeMetadataContent_inward _ _) fun stored => ?_
    cases stored with
    | error e => exact costs_of_inward (hfailed _ _)
    | ok stored => trivial

/-- One HEAD at most, if there may be one, then one extraction, if there may be one. -/
theorem resolveMetadataForUrl_costs (wheelSha256 : Option Str) :
    (resolveMetadataForUrl s pid fileUrl wheelSha256 allowExtraction checkNative).Costs (cost k)
      (resolution allowExtraction checkNative k) := by
  have hsplit : resolution allowExtraction checkNative k =
      resolution false checkNative k + resolution allowExtraction false k := by
    cases k <;> simp [resolution]
  have hmissing : (resolveMissing s fileUrl wheelSha256 allowExtraction checkNative).Costs
      (cost k) (resolution allowExtraction checkNative k) := by
    unfold resolveMissing
    refine costs_inward_bind (loadMetadataForUrl_inward _) fun stored => ?_
    rw [hsplit]
    split
    · trivial
    · trivial
    split
    · next hnative =>
      unfold checkNativeThenExtract
      split
      · trivial
      · trivial
      refine costs_out rfl ?_ fun status => ?_
      · intro hk
        subst hk
        simp [resolution, hnative]
      cases status with
      | none =>
        dsimp only
        split
        · trivial
        · exact extractMissing_costs _
      | some status =>
        dsimp only
        split
        · trivial
        · exact extractMissing_costs _
    · exact (extractMissing_costs _).mono (Nat.le_add_left _ _)
  unfold resolveMetadataForUrl
  refine costs_inward_bind (loadMetadataForUrl_inward _) fun stored => ?_
  split
  · trivial
  · trivial
  unfold withLock
  refine costs_inward_bind (inward_op rfl) fun _ => ?_
  refine hmissing.bind (m := 0) fun _ => ?_
  exact costs_inward_bind (inward_op rfl) fun _ => trivial

theorem wheelMetadata_costs (host path query : Str) :
    (wheelMetadata s pid host path query).Costs (cost k) (resolution true true k) := by
  unfold wheelMetadata
  split
  · trivial
  split
  · trivial
  split
  · trivial
  refine Prog.Costs.bind (m := 0) ?_ fun stored => ?_
  · unfold loadOrRecoverMetadataForUrl
    split
    · exact costs_of_inward (loadMetadataForUrl_inward _)
    refine (resolveMetadataForUrl_costs none).bind (m := 0) fun resolved => ?_
    split
    · trivial
    · trivial
    split
    · trivial
    · split <;> trivial
  · split <;> trivial

end Metadata

/-! ## The background tasks -/

section Background

variable {pid : ℕ} {allowExtraction checkNative : Bool}

theorem probe_costs (f : File) :
    (probe s pid f allowExtraction checkNative).Costs (cost k)
      (resolution allowExtraction checkNative k) := by
  unfold probe
  split
  · trivial
  split
  · trivial
  · trivial
  · trivial
  next wheelSha256 extractable fileUrl _ _ _ =>
  have hless : resolution (extractable && allowExtraction) checkNative k ≤
      resolution allowExtraction checkNative k := by
    cases k <;> cases extractable <;> simp [resolution]
  refine Prog.Costs.bind (m := 0) ((resolveMetadataForUrl_costs _).mono hless) fun resolved => ?_
  split <;> trivial

theorem probeAll_costs (files : List File) :
    (probeAll s pid allowExtraction checkNative files).Costs (cost k)
      (files.length * resolution allowExtraction checkNative k) := by
  induction files with
  | nil => trivial
  | cons f files ih =>
    have hlength : (f :: files).length * resolution allowExtraction checkNative k =
        resolution allowExtraction checkNative k +
          files.length * resolution allowExtraction checkNative k := by
      rw [List.length_cons, Nat.succ_mul, Nat.add_comm]
    rw [hlength]
    exact (probe_costs f).bind fun probed => ih.bind (m := 0) fun _ => trivial

theorem length_filesAt_le (files : List File) (indexes : List ℕ) :
    (filesAt files indexes).length ≤ indexes.length := List.length_filterMap_le _ _

/-- No more files are selected than the limit. -/
theorem length_candidates_le {files : List File} {candidates : List ℕ}
    (h : extractionCandidateIndexes s files = .ok candidates) :
    candidates.length ≤ selection s := by
  unfold extractionCandidateIndexes at h
  cases hranked : rankedFiles s 0 files with
  | error e =>
    rw [hranked] at h
    cases h
  | ok ranked =>
    rw [hranked] at h
    obtain rfl := Except.ok.inj h
    rw [List.length_insertionSort, List.length_map, List.length_take]
    exact min_le_left _ _

theorem commitProjectEnrichment_inward (canonical body : Str) (isJson : Bool) (files : List File)
    (changed ready : Bool) :
    (commitProjectEnrichment s pid canonical body isJson files changed ready).Calls Inward := by
  have hbound : ∀ completedBody part expected, (commitBound s canonical isJson completedBody changed
      ready part expected).Calls Inward := by
    intro completedBody part expected
    unfold commitBound
    refine Prog.Calls.bind (inward_op rfl) fun ttl => ?_
    cases ttl with
    | none => trivial
    | some ttl =>
      dsimp only
      split
      · trivial
      · exact Prog.Calls.bind (inward_op rfl) fun _ => trivial
  have hlocked : ∀ completedBody, (withLock pid (fillLockKey canonical)
      (commitLocked s canonical body isJson completedBody changed ready)).Calls Inward := by
    intro completedBody
    unfold withLock
    refine Prog.Calls.bind (inward_op rfl) fun _ => ?_
    refine Prog.Calls.bind ?_ fun _ => Prog.Calls.bind (inward_op rfl) fun _ => trivial
    unfold commitLocked
    refine (cacheGetTwo_inward _ _).bind fun ⟨current, stale⟩ => ?_
    dsimp only
    split
    · exact hbound _ _ _
    split
    · exact hbound _ _ _
    · trivial
  unfold commitProjectEnrichment
  split
  · refine Prog.Calls.bind (inward_op rfl) fun _ => ?_
    split
    · trivial
    · exact hlocked _
  · exact hlocked _

/-- Discovery asks for native metadata, once for each selected file. -/
theorem enrich_costs (canonical body : Str) (isJson : Bool) :
    (enrich s pid canonical body isJson).Costs (cost k)
      (selection s * resolution false true k) := by
  unfold enrich
  refine costs_inward_bind (inward_op rfl) fun _ => ?_
  split
  · trivial
  split
  · trivial
  next candidates hcandidates =>
  refine costs_inward_bind (cacheGet_inward _) fun discovered => ?_
  split
  · split
    · trivial
    · exact costs_inward_bind (inward_op rfl) fun _ => trivial
    · exact costs_inward_bind (commitProjectEnrichment_inward _ _ _ _ _ _) fun _ => trivial
  unfold discover
  refine Prog.Costs.bind (m := 0) ((probeAll_costs _).mono ?_) fun probed => ?_
  · exact Nat.mul_le_mul_right _ ((length_filesAt_le _ _).trans (length_candidates_le
    (discoveryCandidates_eq_ok.mp hcandidates).1))
  split
  · trivial
  dsimp only
  split
  · trivial
  refine costs_inward_bind (commitProjectEnrichment_inward _ _ _ _ _ _) fun committed => ?_
  split
  · trivial
  · trivial
  split
  · exact costs_inward_bind (inward_op rfl) fun _ => trivial
  · trivial

theorem extractBatches_costs (files : List File) (batches : List (List ℕ)) (newFiles : List File) :
    (extractBatches s pid files batches newFiles).Costs (cost k)
      (batches.flatten.length * resolution true false k) := by
  induction batches generalizing newFiles with
  | nil => trivial
  | cons batch batches ih =>
    have hsplit : (batch :: batches).flatten.length * resolution true false k =
        batch.length * resolution true false k +
          batches.flatten.length * resolution true false k := by
      rw [List.flatten_cons, List.length_append, Nat.add_mul]
    rw [hsplit]
    unfold extractBatches
    refine costs_inward_bind (inward_op rfl) fun _ => ?_
    refine Prog.Costs.bind ((probeAll_costs _).mono ?_) fun probed => ?_
    · exact Nat.mul_le_mul_right _ (length_filesAt_le _ _)
    split
    · trivial
    · exact ih _

/-- An extraction job extracts, once for each selected file. -/
theorem extractProjectAfterIdle_costs (canonical : Str) (isJson : Bool) (digest : Str) :
    (extractProjectAfterIdle s pid canonical isJson digest).Costs (cost k)
      (selection s * resolution true false k) := by
  have hextract : ∀ body, (extractBody s pid canonical body isJson).Costs (cost k)
      (selection s * resolution true false k) := by
    intro body
    unfold extractBody
    refine costs_inward_bind (inward_op rfl) fun _ => ?_
    split
    · trivial
    split
    · trivial
    next candidates hcandidates =>
    refine Prog.Costs.bind (m := 0) ((extractBatches_costs _ _ _).mono ?_) fun newFiles => ?_
    · rw [flatten_pieces (by omega) le_rfl]
      exact Nat.mul_le_mul_right _ (length_candidates_le hcandidates)
    split
    · trivial
    · exact costs_inward_bind (commitProjectEnrichment_inward _ _ _ _ _ _) fun _ => trivial
  unfold extractProjectAfterIdle
  refine costs_inward_bind (inward_op rfl) fun _ => ?_
  refine costs_inward_bind (cacheGetTwo_inward _ _) fun ⟨current, stale⟩ => ?_
  dsimp only
  split
  · exact hextract _
  · exact hextract _
  · trivial

end Background

/-! ## The service -/

theorem prog_costs (e : ℕ × ServiceTask) :
    (e.2.prog s e.1).Costs (cost k) (allowance s k e.2) := by
  obtain ⟨pid, task⟩ := e
  cases task with
  | project name accept =>
    exact Prog.Costs.bind (m := 0) (serveProject_costs pid) fun _ => trivial
  | index render accept =>
    exact Prog.Costs.bind (m := 0) (simpleIndex_costs render accept) fun _ => trivial
  | metadata host path query =>
    exact Prog.Costs.bind (m := 0) (wheelMetadata_costs host path query) fun _ => trivial
  | background job =>
    cases job with
    | enrich canonical body isJson =>
      exact Prog.Costs.bind (m := 0) (enrich_costs canonical body isJson) fun _ => trivial
    | extract canonical isJson digest =>
      exact Prog.Costs.bind (m := 0) (extractProjectAfterIdle_costs canonical isJson digest)
        fun _ => trivial

/-- **Traffic is bounded.** In every run of the service, in any number of processes and over either
backend, the GETs, the HEADs and the extractions so far are no more than the requests and the jobs
that were started are allowed: a page two GETs, an index one, a metadata file one HEAD and one
extraction, discovery one HEAD and an extraction job one extraction for each file of the limit. -/
theorem traffic_bounded {B : Backend} {upstream : Upstream} (k : Outbound)
    {c₀ c : Config Op Ret World (ℕ × ServiceTask) TaskResult}
    {evs : List (Event Op Ret (ℕ × ServiceTask))} (hinit : (deployment s B upstream).Init c₀)
    (hrun : (deployment s B upstream).Run c₀ evs c) :
    (evs.map (Event.cost (cost k))).sum ≤
      (evs.map (Event.budget fun e => allowance s k e.2)).sum :=
  hrun.cost_le prog_costs hinit

/-- A request that fills the cache. -/
theorem pageFetch_spec :
    ((Readiness.pageDriver.finish {} 0 (Readiness.pageService.prog Readiness.pageRequest)
      emptyWorld).any fun (evs, _, _) => (evs.map (Event.cost (cost .get))).sum = 1) = true := by
  decide +kernel

theorem traffic_bounded_page : ∃ (c₀ c : Config Op Ret World (ℕ × ServiceTask) TaskResult)
    (evs : List (Event Op Ret (ℕ × ServiceTask))), Readiness.pageService.Init c₀ ∧
      Readiness.pageService.Run c₀ evs c ∧ (evs.map (Event.cost (cost .get))).sum = 1 ∧
      1 ≤ (evs.map (Event.budget fun e => allowance Readiness.pageSite .get e.2)).sum := by
  obtain ⟨⟨evs, result, w⟩, hfetch, hone⟩ := (Option.any_eq_true _ _).mp pageFetch_spec
  have hquiet : Readiness.pageService.Quiet (Driver.boot emptyWorld) := fun _ _ _ _ h => nomatch h
  have hinit : Readiness.pageService.Init (Driver.boot emptyWorld) :=
    ⟨fresh_emptyWorld, fun _ => rfl⟩
  obtain ⟨hrun, -⟩ := Driver.complete (.nil _) hquiet rfl hfetch
  have hbound := traffic_bounded .get hinit hrun
  have hcost : ((([] ++ [Event.start 0 Readiness.pageRequest]) ++ evs).map
      (Event.cost (cost .get))).sum = 1 := by
    simpa [Event.cost] using hone
  exact ⟨_, _, _, hinit, hrun, hcost, hcost ▸ hbound⟩

end ProxyCache.Theorems.Traffic
