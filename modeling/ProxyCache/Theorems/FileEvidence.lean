import ProxyCache.App.Service
import ProxyCache.Lib.History
import ProxyCache.Theorems.CandidateSelection

/-!
# Evidence for metadata

What a probe has seen when it resolves the metadata of a file, or gives up on it.

* A file is advertised with native metadata after a HEAD that was answered with 200, and with a
  digest after a text with this digest was read as metadata of the file or extracted and stored.
* Extraction gives up on a file after it has failed, or when its URL is none that may be fetched.
-/

namespace ProxyCache.Theorems.FileEvidence

open ProxyCache.Lib ProxyCache.Python ProxyCache.App

variable {s : Site} {pid : ℕ} {fileUrl : Str} {wheelSha256 : Option Str}
  {allowExtraction checkNative : Bool}

/-! ## What is seen -/

/-- What a task learns, stores and hands on. -/
inductive Evidence where
  | read (key : Str) (value : Option Str)
  | headed (url : Str) (status : Option ℕ)
  | extracted (url : Str) (text : Option Str)
  | stored (values : List Write)
  | committed (expected : List (Str × Option Str)) (values : List Write)
  | scheduled (job : Job)

def evidence : (o : Op) → Ret o → List Evidence
  | .getMany keys, values => (keys.zip values).map fun (key, value) => .read key value
  | .httpHead url, status => [.headed url status]
  | .extractWheelMetadata url, text => [.extracted url text]
  | .setexMany values, _ => [.stored values]
  | .setexManyIfUnchanged expected values, committed =>
    if committed = true then [.committed expected values] else []
  | .schedule job, _ => [.scheduled job]
  | _, _ => []

/-- Nothing was committed or handed on. -/
def Still (log : List Evidence) : Prop :=
  ∀ x ∈ log, (∀ expected values, x ≠ .committed expected values) ∧ ∀ job, x ≠ .scheduled job

/-- The text was read as metadata of the file, or extracted from it and stored. -/
inductive Held (s : Site) (fileUrl : Str) (log : List Evidence) (text : Str) : Prop
  | found {key : Str} :
      (key = metadataContentKey s.U (sha256Hex (utf8 text)) ∨
        ∃ wheel, key = metadataBlobKey s.U fileUrl wheel) →
      Evidence.read key (some text) ∈ log → Held s fileUrl log text
  | extracted {url : Str} : artifactUpstreamUrl s fileUrl = .ok (some url) →
      Evidence.extracted url (some text) ∈ log →
      Evidence.stored [⟨metadataContentKey s.U (sha256Hex (utf8 text)),
        s.settings.metadataCacheTtlSeconds, text⟩] ∈ log → Held s fileUrl log text

/-- The resolution says what was seen. -/
inductive Backed (s : Site) (fileUrl : Str) (log : List Evidence) : MetadataResolution → Prop
  | native {url : Str} : metadataHeadUrl s fileUrl = .ok (some url) →
      Evidence.headed url (some 200) ∈ log → Backed s fileUrl log { native := true }
  | held {text : Str} : Held s fileUrl log text →
      Backed s fileUrl log { body := some text, metadataSha256 := some (sha256Hex (utf8 text)) }

/-- Extraction has nothing left to try. -/
inductive Exhausted (s : Site) (fileUrl : Str) (wheelSha256 : Option Str) (log : List Evidence) :
    Prop
  | failedBefore {value : Str} :
      Evidence.read (metadataFailureKey s.U fileUrl wheelSha256) (some value) ∈ log →
      Exhausted s fileUrl wheelSha256 log
  | foreign : artifactUpstreamUrl s fileUrl = .ok none → Exhausted s fileUrl wheelSha256 log
  | tried {url : Str} {text : Option Str} : artifactUpstreamUrl s fileUrl = .ok (some url) →
      Evidence.extracted url text ∈ log → Exhausted s fileUrl wheelSha256 log

/-- What has been seen when a URL is resolved. -/
def Resolves (s : Site) (fileUrl : Str) (wheelSha256 : Option Str)
    (allowExtraction checkNative : Bool) (log : List Evidence) : Resolved → Prop
  | .error _ => True
  | .ok (some resolution) => Backed s fileUrl log resolution
  | .ok none => allowExtraction = true → checkNative = false → Exhausted s fileUrl wheelSha256 log

/-- What a probe makes of a file. -/
inductive Probed (s : Site) (allowExtraction checkNative : Bool) (log : List Evidence) (f : File) :
    File → Prop
  | advertised : needsProbe f = false → Probed s allowExtraction checkNative log f f
  | resolved {fileUrl : Str} {resolution : MetadataResolution} : f.url.asStr = .ok fileUrl →
      Backed s fileUrl log resolution →
      Probed s allowExtraction checkNative log f (applyResolution f (some resolution))
  | unresolved {fileUrl wheelSha256 : Str} {extractable : Bool} : f.url.asStr = .ok fileUrl →
      wheelSha256Of s f = .ok wheelSha256 → canExtract s f = .ok extractable →
      (extractable = true → allowExtraction = true → checkNative = false →
        Exhausted s fileUrl (some wheelSha256) log) →
      Probed s allowExtraction checkNative log f f

/-! ## Evidence accumulates -/

section Logs

variable {log log' : List Evidence}

theorem Still.append (h : Still log) (h' : Still log') : Still (log ++ log') := by
  intro x hx
  rcases List.mem_append.mp hx with hx | hx
  · exact h x hx
  · exact h' x hx

theorem still_nil : Still [] := nofun

theorem Held.mono {text : Str} (h : Held s fileUrl log text) (hsub : log ⊆ log') :
    Held s fileUrl log' text := by
  cases h with
  | found hkey hread => exact .found hkey (hsub hread)
  | extracted hurl hextracted hstored => exact .extracted hurl (hsub hextracted) (hsub hstored)

theorem Backed.mono {resolution : MetadataResolution} (h : Backed s fileUrl log resolution)
    (hsub : log ⊆ log') : Backed s fileUrl log' resolution := by
  cases h with
  | native hurl hhead => exact .native hurl (hsub hhead)
  | held hheld => exact .held (hheld.mono hsub)

theorem Exhausted.mono (h : Exhausted s fileUrl wheelSha256 log) (hsub : log ⊆ log') :
    Exhausted s fileUrl wheelSha256 log' := by
  cases h with
  | failedBefore hread => exact .failedBefore (hsub hread)
  | foreign hurl => exact .foreign hurl
  | tried hurl hextracted => exact .tried hurl (hsub hextracted)

theorem Resolves.mono {result : Resolved}
    (h : Resolves s fileUrl wheelSha256 allowExtraction checkNative log result)
    (hsub : log ⊆ log') :
    Resolves s fileUrl wheelSha256 allowExtraction checkNative log' result := by
  rcases result with e | _ | resolution
  · trivial
  · exact fun hallow hnative => (h hallow hnative).mono hsub
  · exact Backed.mono h hsub

theorem Probed.mono {f f' : File} (h : Probed s allowExtraction checkNative log f f')
    (hsub : log ⊆ log') : Probed s allowExtraction checkNative log' f f' := by
  cases h with
  | advertised hneeds => exact .advertised hneeds
  | resolved hurl hbacked => exact .resolved hurl (hbacked.mono hsub)
  | unresolved hurl hsha hextract hexhausted =>
    exact .unresolved hurl hsha hextract fun h₁ h₂ h₃ => (hexhausted h₁ h₂ h₃).mono hsub

end Logs

/-! ## Programs that hand nothing on -/

section Programs

variable {α β : Type}

/-- Nothing is committed or handed on, and `P` holds of what is seen and returned. -/
abbrev Learns (P : List Evidence → α → Prop) (p : Program α) : Prop :=
  p.Emits evidence fun log a => Still log ∧ P log a

theorem learns_ret {P : List Evidence → α → Prop} {a : α} (h : P [] a) :
    Learns P (.ret a : Program α) := ⟨still_nil, h⟩

/-- The rule of sequencing. -/
theorem Learns.bind {P : List Evidence → α → Prop} {Q : List Evidence → β → Prop} {p : Program α}
    {f : α → Program β} (hp : Learns P p)
    (hf : ∀ before a, P before a → Learns (fun log b => Q (before ++ log) b) (f a)) :
    Learns Q (p >>= f) := by
  refine Prog.Emits.bind hp fun before a ⟨hstill, ha⟩ => ?_
  exact (hf before a ha).mono fun log b ⟨hstill', hb⟩ => ⟨hstill.append hstill', hb⟩

theorem Learns.mono {P Q : List Evidence → α → Prop} {p : Program α} (hp : Learns P p)
    (himp : ∀ log a, P log a → Q log a) : Learns Q p :=
  Prog.Emits.mono hp fun log a h => ⟨h.1, himp log a h.2⟩

/-- One call that hands nothing on. -/
theorem learns_call {o : Op} (h : ∀ r, Still (evidence o r)) :
    Learns (fun log r => log = evidence o r) (call o) := by
  intro r
  show Still (evidence o r ++ []) ∧ evidence o r ++ [] = evidence o r
  rw [List.append_nil]
  exact ⟨h r, rfl⟩

theorem still_reads (keys : List Str) (values : List (Option Str)) :
    Still (evidence (.getMany keys) values) := by
  intro x hx
  obtain ⟨pair, -, rfl⟩ := List.mem_map.mp hx
  exact ⟨nofun, nofun⟩

theorem still_singleton {x : Evidence} (h : ∀ expected values, x ≠ .committed expected values)
    (h' : ∀ job, x ≠ .scheduled job) : Still [x] := by
  intro y hy
  rw [List.mem_singleton.mp hy]
  exact ⟨h, h'⟩

theorem learns_cacheGet (key : Str) :
    Learns (fun log value => ∀ v, value = some v → Evidence.read key (some v) ∈ log)
      (cacheGet key) := by
  refine (learns_call fun values => still_reads [key] values).bind fun log values hlog => ?_
  refine learns_ret fun v hv => ?_
  rw [hlog, List.append_nil]
  match values, hv with
  | some _ :: _, rfl => exact List.mem_cons_self

theorem learns_cacheGetTwo (key key' : Str) :
    Learns (fun log (values : Option Str × Option Str) =>
      (∀ v, values.1 = some v → Evidence.read key (some v) ∈ log) ∧
      ∀ v, values.2 = some v → Evidence.read key' (some v) ∈ log) (cacheGetTwo key key') := by
  refine (learns_call fun values => still_reads [key, key'] values).bind fun log values hlog => ?_
  refine learns_ret ⟨fun v hv => ?_, fun v hv => ?_⟩
  · rw [hlog, List.append_nil]
    match values, hv with
    | some _ :: _, rfl => exact List.mem_cons_self
  · rw [hlog, List.append_nil]
    match values, hv with
    | _ :: some _ :: _, rfl => exact List.mem_cons_of_mem _ List.mem_cons_self

theorem learns_cacheSetex (key : Str) (ttl : ℤ) (value : Str) :
    Learns (fun log _ => Evidence.stored [⟨key, ttl, value⟩] ∈ log) (cacheSetex key ttl value) :=
  (learns_call (o := .setexMany [⟨key, ttl, value⟩]) fun _ => still_singleton nofun nofun).mono
    fun _ _ hlog => hlog ▸ List.mem_cons_self

/-- What is seen need not matter. -/
theorem Learns.any {P : List Evidence → α → Prop} {p : Program α} (hp : Learns P p) :
    Learns (fun _ _ => True) p := hp.mono fun _ _ _ => trivial

end Programs

/-! ## Loading and storing -/

/-- Metadata that is loaded has its digest and was read. -/
theorem learns_loadMetadataForUrl (expected : Option Str) :
    Learns (fun log result => ∀ text digest, result = .ok (some (text, digest)) →
      digest = sha256Hex (utf8 text) ∧ Held s fileUrl log text)
      (loadMetadataForUrl s fileUrl expected) := by
  have hnone : ∀ {result : Except Raised (Option (Str × Str))} {log : List Evidence},
      (∀ stored, result ≠ .ok (some stored)) → ∀ text digest, result = .ok (some (text, digest)) →
        digest = sha256Hex (utf8 text) ∧ Held s fileUrl log text :=
    fun h text digest hresult => absurd hresult (h _)
  have hcontent : ∀ digest wheel first,
      Learns (fun log body => ∀ text, body = some text →
        (∃ key, (key = metadataContentKey s.U digest ∨ ∃ wheel, key = metadataBlobKey s.U fileUrl
          wheel) ∧ Evidence.read key (some text) ∈ log))
        (loadContent s fileUrl digest wheel first) := by
    intro digest wheel first
    have hblob : ∀ (before : List Evidence) (wheel : Str),
        Learns (fun log body => ∀ text, body = some text →
          (∃ key, (key = metadataContentKey s.U digest ∨ ∃ wheel, key = metadataBlobKey s.U fileUrl
            wheel) ∧ Evidence.read key (some text) ∈ before ++ log))
          (cacheGet (metadataBlobKey s.U fileUrl wheel)) := by
      intro before wheel
      refine (learns_cacheGet _).mono fun log value hvalue text htext => ?_
      exact ⟨_, .inr ⟨_, rfl⟩, List.mem_append_right _ (hvalue text htext)⟩
    unfold loadContent
    dsimp only
    split
    · refine (learns_cacheGet _).bind fun before body hbody => ?_
      split
      · exact hblob before _
      · refine learns_ret fun text htext => ?_
        exact ⟨_, .inl rfl, List.mem_append_left _ (hbody text htext)⟩
    · cases wheel with
      | none => exact learns_ret fun text htext => by cases htext
      | some wheel => exact hblob [] wheel
  unfold loadMetadataForUrl
  refine (learns_cacheGet _).bind fun before raw _ => ?_
  split
  · exact learns_ret (hnone (by simp))
  split
  · exact learns_ret (hnone (by simp))
  · exact learns_ret (hnone (by simp))
  split
  · exact learns_ret (hnone (by simp))
  refine (hcontent _ _ _).bind fun before' body hbody => ?_
  split
  · exact learns_ret (hnone (by simp))
  · next text =>
    refine learns_ret fun text' digest hresult => ?_
    split at hresult
    · next hdigest =>
      obtain ⟨rfl, rfl⟩ := Prod.mk.inj (Option.some.inj (Except.ok.inj hresult))
      obtain ⟨key, hkey, hread⟩ := hbody text rfl
      rw [List.append_nil]
      rw [← hdigest] at hkey
      exact ⟨hdigest.symm, .found hkey (List.mem_append_right _ hread)⟩
    · cases hresult

/-- Content that is stored has its digest, and its content key was written. -/
theorem learns_storeMetadataContent (text : Str) (wheelSha256 : Option Str) :
    Learns (fun log result => ∀ body digest, result = .ok (body, digest) → body = text ∧
      digest = sha256Hex (utf8 text) ∧
      Evidence.stored [⟨metadataContentKey s.U (sha256Hex (utf8 text)),
        s.settings.metadataCacheTtlSeconds, text⟩] ∈ log)
      (storeMetadataContent s fileUrl text wheelSha256) := by
  unfold storeMetadataContent
  dsimp only
  split
  · exact learns_ret nofun
  refine (learns_cacheSetex _ _ _).bind fun before _ hstored => ?_
  have hend : ∀ between : List Evidence,
      Learns (fun log result => ∀ body digest, result = .ok (body, digest) → body = text ∧
        digest = sha256Hex (utf8 text) ∧
        Evidence.stored [⟨metadataContentKey s.U (sha256Hex (utf8 text)),
          s.settings.metadataCacheTtlSeconds, text⟩] ∈ before ++ (between ++ log))
        (do
          cacheSetex (metadataUrlKey fileUrl) s.settings.metadataCacheTtlSeconds
            (s.D.dumpsCompact
              (metadataRecord (sha256Hex (utf8 text)) (wheelSha256.map (lower s.U))))
          return .ok (text, sha256Hex (utf8 text)) : Program (Except Raised (Str × Str))) := by
    intro between
    refine (learns_cacheSetex _ _ _).bind fun after _ _ => learns_ret fun body digest hresult => ?_
    obtain ⟨rfl, rfl⟩ := Prod.mk.inj (Except.ok.inj hresult)
    exact ⟨rfl, rfl, List.mem_append_left _ hstored⟩
  split
  · exact (learns_cacheSetex _ _ _).bind fun between _ _ => hend between
  · exact hend []

/-! ## Resolving -/

/-- A failure is remembered, and nothing is resolved. -/
theorem learns_extractionFailed (artifactUrl failureKey : Str) :
    Learns (fun _ result => ∀ resolution, result ≠ .ok (some resolution))
      (extractionFailed s artifactUrl failureKey) := by
  unfold extractionFailed
  split
  · exact learns_ret nofun
  · exact (learns_cacheSetex _ _ _).bind fun _ _ _ => learns_ret nofun

theorem learns_extractMissing :
    Learns (Resolves s fileUrl wheelSha256 allowExtraction checkNative)
      (extractMissing s fileUrl wheelSha256 allowExtraction) := by
  unfold extractMissing
  split
  · next hforbidden =>
    refine learns_ret fun hallow _ => ?_
    rw [hallow] at hforbidden
    cases hforbidden
  refine (learns_cacheGet _).bind fun before failure hfailure => ?_
  split
  · next value =>
    exact learns_ret fun _ _ => .failedBefore (List.mem_append_left _ (hfailure value rfl))
  split
  · exact learns_ret trivial
  · next hurl => exact learns_ret fun _ _ => .foreign hurl
  next url hurl =>
  refine (learns_call (o := .extractWheelMetadata url) fun _ => still_singleton nofun nofun).bind ?_
  intro extraction text hextraction
  have htried : ∀ rest, Exhausted s fileUrl wheelSha256 (before ++ (extraction ++ rest)) := by
    intro rest
    have hmem : Evidence.extracted url text ∈ extraction := by
      rw [hextraction]
      exact List.mem_cons_self
    exact .tried hurl (List.mem_append_right _ (List.mem_append_left _ hmem))
  have hfailed : ∀ between : List Evidence,
      Learns (fun log result => Resolves s fileUrl wheelSha256 allowExtraction checkNative
        (before ++ (extraction ++ (between ++ log))) result)
        (extractionFailed s url (metadataFailureKey s.U fileUrl wheelSha256)) := by
    intro between
    refine (learns_extractionFailed _ _).mono fun log result hresult => ?_
    rcases result with e | _ | resolution
    · trivial
    · exact fun _ _ => htried _
    · exact absurd rfl (hresult resolution)
  cases text with
  | none => exact hfailed []
  | some text =>
    refine (learns_storeMetadataContent text _).bind fun between stored hstored => ?_
    rcases stored with e | ⟨body, digest⟩
    · exact hfailed between
    · obtain ⟨rfl, rfl, hmem⟩ := hstored body digest rfl
      refine learns_ret (.held (.extracted hurl ?_ ?_))
      · rw [hextraction]
        exact List.mem_append_right _ (List.mem_append_left _ List.mem_cons_self)
      · exact List.mem_append_right _ (List.mem_append_right _ (List.mem_append_left _ hmem))

theorem learns_resolveMissing :
    Learns (Resolves s fileUrl wheelSha256 allowExtraction checkNative)
      (resolveMissing s fileUrl wheelSha256 allowExtraction checkNative) := by
  have hextract : ∀ before : List Evidence,
      Learns (fun log result => Resolves s fileUrl wheelSha256 allowExtraction checkNative
        (before ++ log) result) (extractMissing s fileUrl wheelSha256 allowExtraction) :=
    fun before => learns_extractMissing.mono fun log result h =>
      h.mono (List.subset_append_right before log)
  unfold resolveMissing
  refine (learns_loadMetadataForUrl _).bind fun before stored hstored => ?_
  split
  · exact learns_ret trivial
  · next stored =>
    obtain ⟨hdigest, hheld⟩ := hstored stored.1 stored.2 rfl
    refine learns_ret ?_
    show Backed s fileUrl (before ++ []) ⟨some stored.1, some stored.2, false⟩
    rw [List.append_nil, hdigest]
    exact .held hheld
  split
  · -- HEAD first, then extraction
    next hnative =>
    unfold checkNativeThenExtract
    have hsilent : ∀ log, Resolves s fileUrl wheelSha256 allowExtraction checkNative log
        (.ok none) := by
      intro log _ hcheck
      rw [hnative] at hcheck
      cases hcheck
    split
    · exact learns_ret trivial
    · exact learns_ret (hsilent _)
    next url hurl =>
    refine (learns_call (o := .httpHead url) fun _ => still_singleton nofun nofun).bind ?_
    intro head status hhead
    have hafter : Learns (fun log result => Resolves s fileUrl wheelSha256 allowExtraction
        checkNative (before ++ (head ++ log)) result)
        (extractMissing s fileUrl wheelSha256 allowExtraction) := by
      refine (hextract (before ++ head)).mono fun log result h => ?_
      rwa [List.append_assoc] at h
    cases status with
    | none =>
      dsimp only
      split
      · exact learns_ret trivial
      · exact hafter
    | some status =>
      dsimp only
      split
      · next hok =>
        refine learns_ret (.native hurl ?_)
        rw [hhead, hok]
        exact List.mem_append_right _ (List.mem_append_left _ List.mem_cons_self)
      · exact hafter
  · exact hextract before

/-- A block under a lock. -/
theorem Learns.withLock {α : Type} {P : List Evidence → α → Prop} {key : Str} {p : Program α}
    (hp : Learns P p) : Learns P (withLock pid key p) := by
  unfold App.withLock
  rw [Prog.op_bind]
  intro _
  refine Prog.Emits.bind hp fun log a h _ => ?_
  show Still (log ++ []) ∧ P (log ++ []) a
  rwa [List.append_nil]

theorem learns_resolveMetadataForUrl :
    Learns (Resolves s fileUrl wheelSha256 allowExtraction checkNative)
      (resolveMetadataForUrl s pid fileUrl wheelSha256 allowExtraction checkNative) := by
  unfold resolveMetadataForUrl
  refine (learns_loadMetadataForUrl _).bind fun before stored hstored => ?_
  split
  · exact learns_ret trivial
  · next stored =>
    obtain ⟨hdigest, hheld⟩ := hstored stored.1 stored.2 rfl
    refine learns_ret ?_
    show Backed s fileUrl (before ++ []) ⟨some stored.1, some stored.2, false⟩
    rw [List.append_nil, hdigest]
    exact .held hheld
  · exact learns_resolveMissing.withLock.mono fun log result h =>
      h.mono (List.subset_append_right before log)

/-! ## Probing -/

theorem learns_probe (f : File) :
    Learns (fun log result => ∀ f', result = .ok f' →
      Probed s allowExtraction checkNative log f f')
      (probe s pid f allowExtraction checkNative) := by
  unfold probe
  split
  · next hneeds =>
    refine learns_ret fun f' hf' => ?_
    obtain rfl := Except.ok.inj hf'
    exact .advertised (by simpa using hneeds)
  split
  · exact learns_ret nofun
  · exact learns_ret nofun
  · exact learns_ret nofun
  next sha extractable fileUrl hsha hextract hprobed =>
  have hurl : f.url.asStr = .ok fileUrl := by rw [(probedUrl_eq_ok.mp hprobed).1, Json.asStr_str]
  refine learns_resolveMetadataForUrl.bind fun before resolved hresolved => ?_
  rcases resolved with e | _ | resolution
  · exact learns_ret nofun
  · refine learns_ret fun f' hf' => ?_
    obtain rfl := Except.ok.inj hf'
    rw [List.append_nil]
    refine .unresolved hurl hsha hextract fun htrue hallow hnative => ?_
    have hexhausted := hresolved (by rw [htrue, hallow]; rfl) hnative
    rwa [htrue] at hexhausted
  · refine learns_ret fun f' hf' => ?_
    obtain rfl := Except.ok.inj hf'
    rw [List.append_nil]
    exact .resolved hurl hresolved

theorem learns_probeAll (files : List File) :
    Learns (fun log result => ∀ probed, result = .ok probed →
      List.Forall₂ (Probed s allowExtraction checkNative log) files probed)
      (probeAll s pid allowExtraction checkNative files) := by
  induction files with
  | nil =>
    refine learns_ret fun probed hprobed => ?_
    obtain rfl := Except.ok.inj hprobed
    exact .nil
  | cons f files ih =>
    unfold probeAll
    refine (learns_probe f).bind fun before probed hprobed => ih.bind fun after rest hrest => ?_
    refine learns_ret fun all hall => ?_
    cases probed with
    | error e => cases hall
    | ok f' =>
      cases rest with
      | error e => cases hall
      | ok rest =>
        obtain rfl := Except.ok.inj hall
        rw [List.append_nil]
        refine .cons ((hprobed f' rfl).mono (List.subset_append_left before after)) ?_
        exact (hrest rest rfl).imp fun g g' h => h.mono (List.subset_append_right before after)

end ProxyCache.Theorems.FileEvidence
