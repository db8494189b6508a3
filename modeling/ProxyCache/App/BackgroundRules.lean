import ProxyCache.App.Rules

/-!
# Rules for the background tasks

The probes write metadata records only, so the one call of a background task
that touches what is cached for a project is the conditional write of a commit.
-/

namespace ProxyCache.App

open ProxyCache.Lib ProxyCache.Python

/-- The entries that a call may store. -/
def Op.writes : Op → List Write
  | .setexMany values | .setexManyIfUnchanged _ values => values
  | _ => []

/-- What is live after a call was live before, or is stored by the call. -/
theorem get_of_exec {B : Backend} {upstream : Upstream} {t : ℕ} {o : Op} {r : Ret o}
    {w w' : World} {key value : Str} (hex : exec B upstream t o w r w')
    (hget : w'.get key = some value) :
    w.get key = some value ∨ ∃ x ∈ o.writes, x.key = key ∧ x.value = value := by
  have hsame : w' = w → w.get key = some value := fun h => h ▸ hget
  cases o with
  | getMany | existsAny | ttl | ttlIfValues => exact .inl (hsame hex.2)
  | httpHead | extractWheelMetadata | suspend | unfinished | schedule => exact .inl (hsame hex)
  | setexMany values =>
    obtain rfl : w' = (w.write values).record (.stored t values) := hex
    exact (World.get_write hget).imp_left And.left
  | setexManyIfUnchanged expected values =>
    rcases exec_setexManyIfUnchanged hex with ⟨-, -, rfl⟩ | ⟨-, hw'⟩
    · exact (World.get_write hget).imp_left And.left
    · exact .inl (hsame hw')
  | acquire lock =>
    obtain ⟨-, rfl⟩ := hex
    exact .inl hget
  | release lock =>
    obtain rfl : w' = w.setHeld lock none := hex
    exact .inl hget
  | elapse =>
    obtain ⟨now, hnow, rfl⟩ := hex
    exact .inl (World.get_of_elapse hnow hget)
  | httpGet request =>
    obtain ⟨-, hw'⟩ := hex
    cases r with
    | none => exact .inl (hsame hw')
    | some response =>
      obtain rfl : w' = w.record _ := hw'
      exact .inl hget

/-- The call is a conditional write. -/
def Op.isConditional : Op → Bool
  | .setexManyIfUnchanged .. => true
  | _ => false

/-- The call is no conditional write and stores nothing for any project. -/
def Op.Apart (o : Op) : Prop :=
  o.isConditional = false ∧ ∀ x ∈ o.writes, ∀ c part, x.key ≠ projectKey c part

/-- The key of a metadata record. -/
def IsMetadataKey (key : Str) : Prop := ("metadata:" : Str) <+: key

theorem IsMetadataKey.append {p : Str} (h : ("metadata:" : Str).isPrefixOf p = true) (rest : Str) :
    IsMetadataKey (p ++ rest) :=
  (List.isPrefixOf_iff_prefix.mp h).trans (List.prefix_append p rest)

theorem IsMetadataKey.not_simple {key : Str} (h : IsMetadataKey key) :
    ¬ ("simple:" : Str) <+: key := by
  intro hsimple
  rcases List.prefix_or_prefix_of_prefix h hsimple with hp | hp
  · exact absurd (List.isPrefixOf_iff_prefix.mpr hp) (by decide +kernel)
  · exact absurd (List.isPrefixOf_iff_prefix.mpr hp) (by decide +kernel)

theorem IsMetadataKey.ne_projectKey {key : Str} (h : IsMetadataKey key) (c : Str)
    (part : ProjectPart) : key ≠ projectKey c part := by
  rintro rfl
  exact h.not_simple (List.prefix_append ..)

theorem IsMetadataKey.ne_fillLockKey {key : Str} (h : IsMetadataKey key) (c : Str) :
    key ≠ fillLockKey c := by
  rintro rfl
  exact h.not_simple (List.prefix_append ..)

theorem isMetadataKey_url (fileUrl : Str) : IsMetadataKey (metadataUrlKey fileUrl) :=
  .append (by decide +kernel) _

theorem isMetadataKey_fillLock (fileUrl : Str) : IsMetadataKey (metadataFillLockKey fileUrl) :=
  .append (by decide +kernel) _

theorem isMetadataKey_blob (U : Unicode) (fileUrl digest : Str) :
    IsMetadataKey (metadataBlobKey U fileUrl digest) := .append (by decide +kernel) _

theorem isMetadataKey_content (U : Unicode) (digest : Str) :
    IsMetadataKey (metadataContentKey U digest) := .append (by decide +kernel) _

theorem isMetadataKey_failure (U : Unicode) (fileUrl : Str) (digest : Option Str) :
    IsMetadataKey (metadataFailureKey U fileUrl digest) := .append (by decide +kernel) _

/-- A call of the probes: it reads, waits, or locks or stores what belongs to an artifact. -/
def Op.IsProbe : Op → Prop
  | .setexMany values => ∀ x ∈ values, IsMetadataKey x.key
  | .acquire lock | .release lock => IsMetadataKey lock.2
  | .setexManyIfUnchanged .. | .httpGet _ | .elapse => False
  | _ => True

theorem Op.IsProbe.apart {o : Op} (h : o.IsProbe) : o.Apart := by
  cases o with
  | setexMany values => exact ⟨rfl, fun x hx c part => (h x hx).ne_projectKey c part⟩
  | setexManyIfUnchanged => exact h.elim
  | _ => exact ⟨rfl, fun _ hx => nomatch hx⟩

theorem apart_of_writes_nil {o : Op} (h : o.writes = []) (ho : o.isConditional = false) :
    o.Apart :=
  ⟨ho, by simp [h]⟩

/-- A `setex` of a metadata record. -/
theorem cacheSetex_probe {key : Str} (hkey : IsMetadataKey key) (ttl : ℤ) (value : Str) :
    (cacheSetex key ttl value).Calls Op.IsProbe := by
  refine ⟨fun x hx => ?_, fun _ => trivial⟩
  rw [List.mem_singleton.mp hx]
  exact hkey

theorem cacheGet_probe (key : Str) : (cacheGet key).Calls Op.IsProbe :=
  ⟨trivial, fun _ => trivial⟩

theorem cacheGetTwo_probe (key key' : Str) : (cacheGetTwo key key').Calls Op.IsProbe :=
  ⟨trivial, fun _ => trivial⟩

theorem cacheGetTwo_apart (key key' : Str) : (cacheGetTwo key key').Calls Op.Apart :=
  (cacheGetTwo_probe key key').mono fun _ => Op.IsProbe.apart

theorem withLock_probe {α : Type} {pid : ℕ} {key : Str} {p : Program α} (hkey : IsMetadataKey key)
    (h : p.Calls Op.IsProbe) : (withLock pid key p).Calls Op.IsProbe := by
  simp only [withLock, Prog.op_bind, Prog.calls_call]
  exact ⟨hkey, fun _ => h.bind fun _ => ⟨hkey, fun _ => trivial⟩⟩

variable (s : Site) {fileUrl : Str}

/-! ## Stored metadata -/

theorem loadMetadataForUrl_probe (expected : Option Str) :
    (loadMetadataForUrl s fileUrl expected).Calls Op.IsProbe :=
  loadMetadataForUrl_calls_of s cacheGet_probe fileUrl expected

theorem storeMetadataContent_probe (text : Str) (wheelSha256 : Option Str) :
    (storeMetadataContent s fileUrl text wheelSha256).Calls Op.IsProbe := by
  unfold storeMetadataContent
  dsimp only
  split
  · trivial
  refine (cacheSetex_probe (isMetadataKey_content ..) _ _).bind fun _ => ?_
  have hrecord : ∀ value, (do
      cacheSetex (metadataUrlKey fileUrl) s.settings.metadataCacheTtlSeconds value
      return .ok (text, sha256Hex (utf8 text)) : Program (Except Raised (Str × Str))).Calls
        Op.IsProbe :=
    fun value => (cacheSetex_probe (isMetadataKey_url _) _ _).bind fun _ => trivial
  cases wheelSha256 with
  | none => exact hrecord _
  | some digest => exact (cacheSetex_probe (isMetadataKey_blob ..) _ _).bind fun _ => hrecord _

/-! ## Probes -/

theorem extractMissing_probe (wheelSha256 : Option Str) (allowExtraction : Bool) :
    (extractMissing s fileUrl wheelSha256 allowExtraction).Calls Op.IsProbe := by
  have hfailed : ∀ url, (extractionFailed s url
      (metadataFailureKey s.U fileUrl wheelSha256)).Calls Op.IsProbe := by
    intro url
    unfold extractionFailed
    split
    · trivial
    · exact (cacheSetex_probe (isMetadataKey_failure ..) _ _).bind fun _ => trivial
  unfold extractMissing
  split
  · trivial
  refine (cacheGet_probe _).bind fun failure => ?_
  cases failure with
  | some _ => trivial
  | none =>
    dsimp only
    split
    · trivial
    · trivial
    · simp only [Prog.op_bind, Prog.calls_call]
      refine ⟨trivial, fun text => ?_⟩
      cases text with
      | none => exact hfailed _
      | some text =>
        refine (storeMetadataContent_probe s _ _).bind fun stored => ?_
        cases stored with
        | error e => exact hfailed _
        | ok stored => trivial

theorem checkNativeThenExtract_probe (wheelSha256 : Option Str) (allowExtraction : Bool) :
    (checkNativeThenExtract s fileUrl wheelSha256 allowExtraction).Calls Op.IsProbe := by
  have hextract := @extractMissing_probe s fileUrl wheelSha256 allowExtraction
  unfold checkNativeThenExtract
  split
  · trivial
  · trivial
  simp only [Prog.op_bind, Prog.calls_call]
  refine ⟨trivial, fun status => ?_⟩
  cases status with
  | none =>
    dsimp only
    split
    · trivial
    · exact hextract
  | some status =>
    dsimp only
    split
    · trivial
    · exact hextract

theorem resolveMetadataForUrl_probe (pid : ℕ) (wheelSha256 : Option Str)
    (allowExtraction checkNative : Bool) :
    (resolveMetadataForUrl s pid fileUrl wheelSha256 allowExtraction checkNative).Calls
      Op.IsProbe := by
  unfold resolveMetadataForUrl
  refine (loadMetadataForUrl_probe s _).bind ?_
  rintro (e | _ | stored)
  · trivial
  · refine withLock_probe (isMetadataKey_fillLock _) ((loadMetadataForUrl_probe s _).bind ?_)
    rintro (e | _ | stored)
    · trivial
    · dsimp only
      split
      · exact checkNativeThenExtract_probe s _ _
      · exact extractMissing_probe s _ _
    · trivial
  · trivial

theorem probe_probe (pid : ℕ) (f : File) (allowExtraction checkNative : Bool) :
    (probe s pid f allowExtraction checkNative).Calls Op.IsProbe := by
  unfold probe
  split
  · trivial
  split
  · trivial
  · trivial
  · trivial
  · refine (resolveMetadataForUrl_probe s _ _ _ _).bind fun resolved => ?_
    cases resolved <;> trivial

/-- The calls of the probes. -/
theorem probeAll_probe (pid : ℕ) (allowExtraction checkNative : Bool) (files : List File) :
    (probeAll s pid allowExtraction checkNative files).Calls Op.IsProbe := by
  induction files with
  | nil => trivial
  | cons f files ih =>
    exact (probe_probe s pid f _ _).bind fun _ => ih.bind fun _ => trivial

theorem extractBatches_probe (pid : ℕ) (files : List File) (batches : List (List ℕ))
    (newFiles : List File) : (extractBatches s pid files batches newFiles).Calls Op.IsProbe := by
  induction batches generalizing newFiles with
  | nil => trivial
  | cons batch batches ih =>
    simp only [extractBatches, Prog.op_bind, Prog.calls_call]
    refine ⟨trivial, fun _ => (probeAll_probe s pid _ _ _).bind fun probed => ?_⟩
    cases probed with
    | error e => trivial
    | ok probed => exact ih _

theorem scheduleProjectExtraction_probe (canonical : Str) (isJson : Bool) (body : Str) :
    (scheduleProjectExtraction canonical isJson body).Calls Op.IsProbe :=
  ⟨trivial, fun _ => trivial⟩

/-! ## The two phases -/

/-- The body that a commit places: the advertised one, or the one it is bound to. -/
def Completes (isJson : Bool) (body completedBody : Str) (changed : Bool) : Prop :=
  if changed then ∃ files, advertiseMetadata s body isJson files = .ok completedBody
  else completedBody = body

/-- The batch of a commit. -/
abbrev commitBatch (canonical : Str) (isJson changed ready : Bool) (boundPart : ProjectPart)
    (boundTtl markerTtl : ℤ) (completedBody : Str) : List Write :=
  (if changed then commitBodies s canonical isJson boundPart boundTtl completedBody else []) ++
    commitMarkers canonical isJson ready markerTtl (bodyDigest completedBody)

theorem mem_commitBatch {s : Site} {canonical completedBody : Str} {isJson changed ready : Bool}
    {boundPart : ProjectPart} {boundTtl markerTtl : ℤ} {x : Write} :
    x ∈ commitBatch s canonical isJson changed ready boundPart boundTtl markerTtl completedBody ↔
      (changed = true ∧ (x = ⟨projectKey canonical boundPart, boundTtl, completedBody⟩ ∨
        (boundPart = .body isJson ∧
          x = ⟨projectKey canonical (.stale isJson), s.settings.cacheStaleTtlSeconds,
            completedBody⟩))) ∨
      x = ⟨projectKey canonical (.metadataDiscovered isJson), markerTtl, bodyDigest completedBody⟩ ∨
      (ready = true ∧
        x = ⟨projectKey canonical (.metadataReady isJson), markerTtl,
          bodyDigest completedBody⟩) := by
  by_cases hbound : boundPart = .body isJson <;> cases changed <;> cases ready <;>
    simp [commitBatch, commitBodies, commitMarkers, hbound, or_assoc]

/-- What a proof about the background tasks of a project has to show: calls that
store nothing for a project are safe, and so is the locked part of a commit that
is computed from a body satisfying `source`. -/
structure Commits {W : Type} (F : Effects Op Ret W) (I : W → Prop) (R G : W → W → Prop) (t : ℕ)
    (s : Site) (canonical : Str) (isJson : Bool) (source : Str → Prop) : Prop where
  apart : ∀ {α : Type} {p : Program α}, p.Calls Op.Apart → ∀ w,
    F.wp I R G t (fun _ _ => True) p w
  commit : ∀ body completedBody changed ready, source body →
    Completes s isJson body completedBody changed → ∀ w,
      F.wp I R G t (fun _ _ => True)
        (commitLocked s canonical body isJson completedBody changed ready) w

/-- The same, for a commit with its lock around it. -/
structure LockedCommits {W : Type} (F : Effects Op Ret W) (I : W → Prop) (R G : W → W → Prop)
    (t : ℕ) (s : Site) (pid : ℕ) (canonical : Str) (isJson : Bool) (source : Str → Prop) :
    Prop where
  probe : ∀ {α : Type} {p : Program α}, p.Calls Op.IsProbe → ∀ w,
    F.wp I R G t (fun _ _ => True) p w
  commit : ∀ body completedBody changed ready, source body →
    Completes s isJson body completedBody changed → ∀ w,
      F.wp I R G t (fun _ _ => True) (withLock pid (fillLockKey canonical)
        (commitLocked s canonical body isJson completedBody changed ready)) w

section Phases

variable {s} {W : Type} {F : Effects Op Ret W} {I : W → Prop} {R G : W → W → Prop} {t pid : ℕ}
  {canonical body : Str} {isJson : Bool} {source : Str → Prop} {w : W}

/-- A part that stores nothing for a project, and what follows it. -/
theorem Commits.bind_apart (h : Commits F I R G t s canonical isJson source) {α β : Type}
    {p : Program α} {f : α → Program β} (hp : p.Calls Op.Apart)
    (hf : ∀ a w, F.wp I R G t (fun _ _ => True) (f a) w) :
    F.wp I R G t (fun _ _ => True) (p >>= f) w :=
  Effects.wp_bind.mpr (Effects.wp_mono (h.apart hp w) fun a w _ => hf a w)

/-- A commit takes its lock and gives it back. -/
theorem Commits.locked (h : Commits F I R G t s canonical isJson source) (pid : ℕ) :
    LockedCommits F I R G t s pid canonical isJson source where
  probe hp := h.apart (hp.mono fun _ => Op.IsProbe.apart)
  commit body completedBody changed ready hbody hcompletes w := by
    have hacquire : (call (.acquire (pid, fillLockKey canonical))).Calls Op.Apart :=
      ⟨apart_of_writes_nil rfl rfl, fun _ => trivial⟩
    have hrelease : (call (.release (pid, fillLockKey canonical))).Calls Op.Apart :=
      ⟨apart_of_writes_nil rfl rfl, fun _ => trivial⟩
    refine h.bind_apart hacquire fun _ w₁ => ?_
    refine Effects.wp_bind.mpr (Effects.wp_mono
      (h.commit body completedBody changed ready hbody hcompletes w₁) fun a w₂ _ => ?_)
    exact h.bind_apart hrelease fun _ _ => trivial

namespace LockedCommits

/-- A part that makes calls of a probe only, and what follows it. -/
theorem bind_probe (h : LockedCommits F I R G t s pid canonical isJson source) {α β : Type}
    {p : Program α} {f : α → Program β} (hp : p.Calls Op.IsProbe)
    (hf : ∀ a w, F.wp I R G t (fun _ _ => True) (f a) w) :
    F.wp I R G t (fun _ _ => True) (p >>= f) w :=
  Effects.wp_bind.mpr (Effects.wp_mono (h.probe hp w) fun a w _ => hf a w)

theorem wp_commitProjectEnrichment (h : LockedCommits F I R G t s pid canonical isJson source)
    (hbody : source body) (files : List File) (changed ready : Bool) :
    F.wp I R G t (fun _ _ => True)
      (commitProjectEnrichment s pid canonical body isJson files changed ready) w := by
  unfold commitProjectEnrichment
  split
  · next hchanged =>
    refine h.bind_probe ⟨trivial, fun _ => trivial⟩ fun _ w₁ => ?_
    split
    · trivial
    · next completedBody hadvertise =>
      have hcompletes : Completes s isJson body completedBody changed := by
        simpa [Completes, hchanged] using ⟨files, hadvertise⟩
      exact h.commit _ _ _ _ hbody hcompletes w₁
  · next hchanged =>
    exact h.commit _ _ _ _ hbody (by simp [Completes, hchanged]) w

theorem wp_discover (h : LockedCommits F I R G t s pid canonical isJson source)
    (hbody : source body) (project : Project) (candidates : List ℕ) :
    F.wp I R G t (fun _ _ => True) (discover s pid canonical body isJson project candidates) w := by
  unfold discover
  refine h.bind_probe (probeAll_probe s pid _ _ _) fun probed w₁ => ?_
  split
  · trivial
  dsimp only
  split
  · trivial
  · refine Effects.wp_bind.mpr
      (Effects.wp_mono (h.wp_commitProjectEnrichment hbody _ _ _) fun committed w₂ _ => ?_)
    split
    · trivial
    · trivial
    · split
      · exact h.bind_probe (scheduleProjectExtraction_probe ..) fun _ _ => trivial
      · trivial

/-- The discovery task. -/
theorem wp_enrich (h : LockedCommits F I R G t s pid canonical isJson source)
    (hbody : source body) :
    F.wp I R G t (fun _ _ => True) (enrich s pid canonical body isJson) w := by
  unfold enrich
  refine h.bind_probe ⟨trivial, fun _ => trivial⟩ fun _ w₁ => ?_
  split
  · trivial
  split
  · trivial
  refine h.bind_probe (cacheGet_probe _) fun discovered w₂ => ?_
  split
  · split
    · trivial
    · exact h.bind_probe (scheduleProjectExtraction_probe ..) fun _ _ => trivial
    · refine Effects.wp_bind.mpr ?_
      exact Effects.wp_mono (h.wp_commitProjectEnrichment hbody _ _ _) fun _ _ _ => trivial
  · exact h.wp_discover hbody _ _

theorem wp_extractBody (h : LockedCommits F I R G t s pid canonical isJson source)
    (hbody : source body) :
    F.wp I R G t (fun _ _ => True) (extractBody s pid canonical body isJson) w := by
  unfold extractBody
  refine h.bind_probe ⟨trivial, fun _ => trivial⟩ fun _ w₁ => ?_
  split
  · trivial
  split
  · trivial
  refine h.bind_probe (extractBatches_probe s pid _ _ _) fun newFiles w₂ => ?_
  split
  · trivial
  · refine Effects.wp_bind.mpr ?_
    exact Effects.wp_mono (h.wp_commitProjectEnrichment hbody _ _ _) fun _ _ _ => trivial

/-- The extraction task. -/
theorem wp_extractProjectAfterIdle {digest : Str}
    (h : LockedCommits F I R G t s pid canonical isJson fun body => bodyDigest body = digest) :
    F.wp I R G t (fun _ _ => True) (extractProjectAfterIdle s pid canonical isJson digest) w := by
  unfold extractProjectAfterIdle
  refine h.bind_probe ⟨trivial, fun _ => trivial⟩ fun _ w₁ => ?_
  refine h.bind_probe (cacheGetTwo_probe _ _) ?_
  rintro ⟨current, stale⟩ w₂
  dsimp only
  split
  · next body _ hbody =>
    exact h.wp_extractBody (of_decide_eq_true (Option.filter_eq_some_iff.mp hbody).2)
  · next body _ _ hbody =>
    exact h.wp_extractBody (of_decide_eq_true (Option.filter_eq_some_iff.mp hbody).2)
  · trivial

end LockedCommits

theorem Commits.wp_enrich (h : Commits F I R G t s canonical isJson source) (hbody : source body) :
    F.wp I R G t (fun _ _ => True) (enrich s pid canonical body isJson) w :=
  (h.locked pid).wp_enrich hbody

theorem Commits.wp_extractProjectAfterIdle {digest : Str}
    (h : Commits F I R G t s canonical isJson fun body => bodyDigest body = digest) :
    F.wp I R G t (fun _ _ => True) (extractProjectAfterIdle s pid canonical isJson digest) w :=
  (h.locked pid).wp_extractProjectAfterIdle

end Phases

end ProxyCache.App
