import ProxyCache.App.BackgroundRules
import ProxyCache.App.Batches
import ProxyCache.Theorems.Allowlist
import ProxyCache.Theorems.AdvertisedDocument
import ProxyCache.Theorems.AdvertisedLinks
import ProxyCache.Theorems.CandidateSelection
import ProxyCache.Theorems.Commits
import ProxyCache.Theorems.StoredMetadata

/-!
# Files that cannot be probed

Discovery probes the candidate wheels of a project in one `gather`. What the probe of one file
raises before or beside its guarded HEAD is raised by the whole pass. Here the pass is compared
with one that keeps such a file unresolved, in any environment that answers their calls; and what
was found has to be committed, which a link beside any advertised file can prevent.
-/

namespace ProxyCache.Theorems.BadFiles

open ProxyCache.Lib ProxyCache.Python ProxyCache.App
open ProxyCache.Theorems.AdvertisedLinks (advertisedLinks advertiseMetadata_ok_iff)
open ProxyCache.Theorems.MalformedLinks (Readable)

variable (s : Site) (pid : ℕ) (canonical body : Str) (isJson : Bool) (project : Project)

/-! ## Each file on its own -/

/-- The probe of a file in a discovery; a file whose probe raises stays as it is. -/
def probeOrKeep (f : File) : Program File := do
  let probed ← probe s pid f false true
  return probed.toOption.getD f

/-- The probes of a discovery, each on its own. -/
def probeEach : List File → Program (List File)
  | [] => return []
  | f :: files => do
    let f ← probeOrKeep s pid f
    let rest ← probeEach files
    return f :: rest

/-- The file can be extracted, as far as its fields can be read. -/
def mayExtract (f : File) : Bool := (canExtract s f).toOption.getD false

/-- The candidates, without the files whose name cannot be read. -/
def candidatesOf (files : List File) : List ℕ :=
  (((newestFirst s (eligibleItems s 0 files)).take
    s.settings.metadataMaxExtractFilesPerProject.toNat).map (·.2)).insertionSort (· ≤ ·)

/-- The candidate files. -/
def wheels : List File := filesAt project.files (candidatesOf s project.files)

/-- The files after the probes. -/
def resolvedFiles (probed : List File) : List File :=
  replaceFiles project.files (candidatesOf s project.files) probed

/-- Something is left to extract. -/
def needsExtraction (files : List File) : Bool :=
  (filesAt files (candidatesOf s project.files)).any fun f => needsProbe f && mayExtract s f

/-- `discover`, with each probe on its own. -/
def discoverEach : Program Unit := do
  let probed ← probeEach s pid (wheels s project)
  let newFiles := resolvedFiles s project probed
  let committed ← commitProjectEnrichment s pid canonical body isJson newFiles
    (filesChanged newFiles project.files) (!needsExtraction s project newFiles)
  match committed with
  | .ok (some completedBody) =>
    if needsExtraction s project newFiles then
      scheduleProjectExtraction canonical isJson completedBody
    else return ()
  | _ => return ()

/-- `_enrich` of a body that was parsed, with each file on its own. -/
def enrichEach : Program Unit := do
  call .suspend
  let discovered ← cacheGet (projectKey canonical (.metadataDiscovered isJson))
  if discovered = some (bodyDigest body) then
    if (wheels s project).any (mayExtract s) then scheduleProjectExtraction canonical isJson body
    else do
      let _ ← commitProjectEnrichment s pid canonical body isJson project.files false true
      return ()
  else discoverEach s pid canonical body isJson project

/-- What a commit stores that is not given up by an exception: nothing, where the body has been
replaced, or the markers of the completed body, and the body where something was found. -/
inductive Committed (files : List File) (changed ready : Bool) :
    List Mark → Except Raised (Option Str) → Prop
  | nothing : Committed files changed ready [] (.ok none)
  | completed {completedBody : Str} {boundPart : ProjectPart} {boundTtl : ℤ} :
      (if changed then advertiseMetadata s body isJson files = .ok completedBody
        else completedBody = body) →
      Committed files changed ready
        [.stored (commitBatch s canonical isJson changed ready boundPart boundTtl
          (max s.settings.cacheStaleTtlSeconds boundTtl) completedBody)]
        (.ok (some completedBody))

theorem Committed.returns {files : List File} {changed ready : Bool} {ms : List Mark}
    {result : Except Raised (Option Str)}
    (h : Committed s canonical body isJson files changed ready ms result) :
    ∃ outcome, result = .ok outcome := by
  cases h with
  | nothing => exact ⟨none, rfl⟩
  | completed => exact ⟨_, rfl⟩

section Environment

variable {E : Type} (answer : (o : Op) → E → Ret o × E) (e : E)

/-- What is read of the body's discovery. -/
def discoveredIn : Option Str × E :=
  (cacheGet (projectKey canonical (.metadataDiscovered isJson))).run answer (answer .suspend e).2

/-- **No file is in the way of the others**, in an environment with these answers. -/
structure StillCommits : Prop where
  /-- The task makes the calls, and so the commits, that it makes when the files that cannot be
  probed just stay unresolved. -/
  asIfUnresolved : (enrich s pid canonical body isJson).log answer e =
    (enrichEach s pid canonical body isJson project).log answer e
  /-- A discovery commits what was found of the others, and its marker. -/
  committed : (discoveredIn canonical isJson answer e).1 ≠ some (bodyDigest body) →
    let probed := (probeEach s pid (wheels s project)).run answer
      (discoveredIn canonical isJson answer e).2
    let newFiles := resolvedFiles s project probed.1
    let changed := filesChanged newFiles project.files
    let ready := !needsExtraction s project newFiles
    Committed s canonical body isJson newFiles changed ready
      (marks ((enrich s pid canonical body isJson).log answer e))
      ((commitProjectEnrichment s pid canonical body isJson newFiles changed ready).run answer
        probed.2).1

/-! ## When it holds -/

/-- The hashes are a mapping, and the SHA-256 among them is a string if there is one. -/
def HashesReadable (f : File) : Prop :=
  ∃ members sha256, f.hashes = .dict members ∧
    (dictGet members ("sha256" : Str)).getD (.str []) = .str sha256

/-- The wheel digest that stored metadata of the file must belong to. -/
def expectedSha256 (f : File) : Option Str :=
  if mayExtract s f then (wheelSha256Of s f).toOption else none

/-- The stored metadata of a link when it is looked up, and when its lock has been taken. -/
def storedBefore (url : Str) (expected : Option Str) : Except Raised (Option (Str × Str)) :=
  ((loadMetadataForUrl s url expected).run answer e).1

def storedLocked (url : Str) (expected : Option Str) : Except Raised (Option (Str × Str)) :=
  ((loadMetadataForUrl s url expected).run answer
    (answer (.acquire (pid, metadataFillLockKey url))
      ((loadMetadataForUrl s url expected).run answer e).2).2).1

/-- The link cannot be resolved: what is stored for it cannot be read, or nothing is stored and the
link itself cannot be read. -/
inductive Unresolvable (url : Str) (expected : Option Str) : Prop
  | before {raised : Raised} : storedBefore s answer e url expected = .error raised →
      Unresolvable url expected
  | locked {raised : Raised} : storedBefore s answer e url expected = .ok none →
      storedLocked s pid answer e url expected = .error raised → Unresolvable url expected
  | link {raised : Raised} : storedBefore s answer e url expected = .ok none →
      storedLocked s pid answer e url expected = .ok none →
      metadataHeadUrl s url = .error raised → Unresolvable url expected

/-- The file cannot be probed because of its own fields. -/
inductive Unprobeable (f : File) : Prop
  | hashes : ¬ HashesReadable f → Unprobeable f
  | url : (∀ url, f.url = .str url → encodable s.U (normaliseArtifactUrl url) = false) →
      Unprobeable f
  | link {url : Str} : f.url = .str url →
      Unresolvable s pid answer e url (expectedSha256 s f) → Unprobeable f

/-- Each file can be probed when it is its turn. -/
def AllProbeable : List File → E → Prop
  | [], _ => True
  | f :: files, e => ¬ Unprobeable s pid answer e f ∧
      AllProbeable files ((probeOrKeep s pid f).run answer e).2

/-- The hashes can be read, up to a file that can be extracted. -/
def Scannable : List File → Prop
  | [] => True
  | f :: files => HashesReadable f ∧ (mayExtract s f = true ∨ Scannable files)

/-- The lifetime that is left to the body when it is looked up for a commit. -/
def boundLifetime : Program (Option ℤ) := do
  let (current, stale) ← cacheGetTwo (projectKey canonical (.body isJson))
    (projectKey canonical (.stale isJson))
  if current = some body then call (.ttl (projectKey canonical (.body isJson)))
  else if current = none ∧ stale = some body then call (.ttl (projectKey canonical (.stale isJson)))
  else return none

/-- The files can be advertised: the links beside them can be rewritten, and the digest of the
result can be computed if the body is still there. -/
structure Advertisable (files : List File) : Prop where
  links : ∀ link ∈ advertisedLinks s body isJson files, Readable s.U s.settings link
  digest : ∀ completedBody, advertiseMetadata s body isJson files = .ok completedBody →
    ((boundLifetime canonical body isJson).run answer
      (answer (.acquire (pid, fillLockKey canonical)) (answer .suspend e).2).2).1 ≠ none →
    encodable s.U completedBody = true

/-- No file of the project is a bad one. -/
structure NoBadFile : Prop where
  digest : encodable s.U body = true
  names : NamesReadable s project.files
  scanned : (discoveredIn canonical isJson answer e).1 = some (bodyDigest body) →
    Scannable s (wheels s project)
  probed : (discoveredIn canonical isJson answer e).1 ≠ some (bodyDigest body) →
    AllProbeable s pid answer (wheels s project) (discoveredIn canonical isJson answer e).2
  /-- What was found, if anything, can be advertised. -/
  advertised : (discoveredIn canonical isJson answer e).1 ≠ some (bodyDigest body) →
    let probed := (probeEach s pid (wheels s project)).run answer
      (discoveredIn canonical isJson answer e).2
    let newFiles := resolvedFiles s project probed.1
    filesChanged newFiles project.files = true →
      Advertisable s pid canonical body isJson answer probed.2 newFiles

end Environment

/-! ## One file -/

section Files

variable {s pid} {f : File} {E : Type} {answer : (o : Op) → E → Ret o × E} {e : E}

theorem hashesReadable_iff : HashesReadable f ↔ ∃ sha256, wheelSha256Of s f = .ok sha256 := by
  unfold wheelSha256Of HashesReadable
  constructor
  · rintro ⟨members, sha256, hhashes, hsha256⟩
    refine ⟨lower s.U sha256, ?_⟩
    rw [hhashes]
    simp only [Json.get, bind, Except.bind, hsha256, Json.asStr_str, pure, Except.pure]
  · rintro ⟨_, h⟩
    obtain ⟨value, hget, h⟩ := ok_of_bind h
    obtain ⟨sha256, hstr, -⟩ := ok_of_bind h
    cases hhashes : f.hashes with
    | dict members =>
      rw [hhashes] at hget
      obtain rfl := Except.ok.inj hget
      refine ⟨members, sha256, rfl, ?_⟩
      cases hvalue : (dictGet members ("sha256" : Str)).getD (.str []) with
      | str text =>
        rw [hvalue] at hstr
        exact congrArg Json.str (Except.ok.inj hstr)
      | _ =>
        rw [hvalue] at hstr
        cases hstr
    | _ =>
      rw [hhashes] at hget
      cases hget

/-- A wheel can be checked for extraction when its hashes can be read. -/
theorem canExtract_of_readable {name sha256 : Str} (hname : f.filename = .str name)
    (hsha256 : wheelSha256Of s f = .ok sha256) : canExtract s f = .ok (mayExtract s f) := by
  have hextract : canExtract s f =
      .ok ((".whl" : Str).isSuffixOf (lower s.U name) && isSha256 sha256) := by
    unfold canExtract
    rw [hsha256, isWheelName_of_str hname]
    rfl
  rw [mayExtract, hextract]
  rfl

/-- What is expected of stored metadata. -/
theorem expectedSha256_of_readable {sha256 : Str} (hsha256 : wheelSha256Of s f = .ok sha256) :
    expectedSha256 s f = if mayExtract s f then some sha256 else none := by
  rw [expectedSha256, hsha256]
  rfl

/-- The log line about a native URL can be written. -/
theorem exists_safeUrlForLog {link url : Str} (h : metadataHeadUrl s link = .ok (some url)) :
    ∃ text, safeUrlForLog s url = .ok text := by
  -- the native URL is put together from parts that `urlsplit` has accepted before
  suffices hsource : ∃ source parts, urlsplit s.U source [] = .ok parts ∧ parts.scheme ≠ [] ∧
      appendMetadataSuffix s source = .ok url by
    obtain ⟨source, parts, hsplit, hne, hsuffix⟩ := hsource
    rw [appendMetadataSuffix, hsplit] at hsuffix
    obtain rfl := Except.ok.inj hsuffix
    obtain ⟨parts', hagain⟩ := @exists_urlsplit_urlunsplit _ _ _ hsplit hne ".metadata".toList
      (by decide) (by decide)
    rw [safeUrlForLog, hagain]
    exact ⟨_, rfl⟩
  by_cases hlink : Allowlist.isArtifactLink link
  · obtain ⟨host, path, scheme, -, hscheme, hsuffix⟩ := Allowlist.metadataHeadUrl_link hlink h
    obtain ⟨target, hsplit, -⟩ := ok_of_bind hsuffix
    refine ⟨_, target, hsplit, ?_, hsuffix⟩
    have hvalid : IsScheme scheme := Allowlist.isScheme_of_schemeFor hscheme
    rw [List.append_assoc, List.append_assoc] at hsplit
    rw [hvalid.urlsplit_scheme hsplit]
    obtain ⟨c, cs, rfl, -⟩ := hvalid.head
    exact List.cons_ne_nil c cs
  · obtain ⟨hallowed, hsuffix⟩ := Allowlist.metadataHeadUrl_absolute hlink h
    obtain ⟨parts, hsplit, hparts⟩ := Allowlist.allowed_of_absoluteAllowed hallowed
    refine ⟨_, parts, hsplit, ?_, hsuffix⟩
    rcases Allowlist.eq_http_of_isHttpScheme hparts.http with hhttp | hhttp
    · rw [hhttp]
      decide
    · rw [hhttp]
      decide

/-- What is resolved under the lock, without extraction: only the URL to probe can be in the
way. -/
theorem run_checkNative (url : Str) (wheelSha256 : Option Str) (e : E) :
    (∀ raised, metadataHeadUrl s url = .error raised →
      ((checkNativeThenExtract s url wheelSha256 false).run answer e).1 = .error raised) ∧
    (∀ native, metadataHeadUrl s url = .ok native → ∃ resolved,
      ((checkNativeThenExtract s url wheelSha256 false).run answer e).1 = .ok resolved) := by
  unfold checkNativeThenExtract
  constructor
  · intro raised hraised
    rw [hraised]
    rfl
  · intro native hnative
    rw [hnative]
    cases native with
    | none => exact ⟨none, rfl⟩
    | some native =>
      dsimp only
      rw [Prog.op_bind, Prog.run_call]
      cases (answer (.httpHead native) e).1 with
      | some status =>
        dsimp only
        split
        · exact ⟨_, rfl⟩
        · exact ⟨none, rfl⟩
      | none =>
        obtain ⟨text, htext⟩ := exists_safeUrlForLog hnative
        dsimp only
        rw [htext]
        exact ⟨none, rfl⟩

/-- The resolution of a link, up to the step under the lock. -/
theorem run_resolve (url : Str) (expected : Option Str) :
    (∃ resolved,
      ((resolveMetadataForUrl s pid url expected false true).run answer e).1 = .ok resolved) ↔
      ¬ Unresolvable s pid answer e url expected := by
  cases hbefore : storedBefore s answer e url expected with
  | error raised =>
    refine iff_of_false ?_ (not_not_intro (.before hbefore))
    rintro ⟨resolved, hresolved⟩
    unfold resolveMetadataForUrl at hresolved
    rw [Prog.run_bind, show ((loadMetadataForUrl s url expected).run answer e).1 = _ from hbefore]
      at hresolved
    cases hresolved
  | ok stored =>
  cases stored with
  | some stored =>
    refine iff_of_true ⟨some (storedResolution stored), ?_⟩ ?_
    · unfold resolveMetadataForUrl
      rw [Prog.run_bind, show ((loadMetadataForUrl s url expected).run answer e).1 = _ from hbefore]
      rfl
    · rintro (hraised | hnone | hnone)
      · cases hbefore.symm.trans hraised
      · cases hbefore.symm.trans hnone
      · cases hbefore.symm.trans hnone
  | none =>
    generalize hlock : (answer (.acquire (pid, metadataFillLockKey url))
      ((loadMetadataForUrl s url expected).run answer e).2).2 = e'
    have hresolve : ((resolveMetadataForUrl s pid url expected false true).run answer e).1 =
        ((resolveMissing s url expected false true).run answer e').1 := by
      unfold resolveMetadataForUrl
      rw [Prog.run_bind, show ((loadMetadataForUrl s url expected).run answer e).1 = _ from hbefore,
        ← hlock]
      dsimp only [withLock]
      rw [Prog.op_bind, Prog.run_call, Prog.run_bind]
      rfl
    have hload : ((loadMetadataForUrl s url expected).run answer e').1 =
        storedLocked s pid answer e url expected := by
      rw [← hlock]
      rfl
    unfold resolveMissing at hresolve
    rw [Prog.run_bind, hload] at hresolve
    rw [hresolve]
    cases hlocked : storedLocked s pid answer e url expected with
    | error raised => exact iff_of_false nofun (not_not_intro (.locked hbefore hlocked))
    | ok again =>
    cases again with
    | some again =>
      refine iff_of_true ⟨_, rfl⟩ ?_
      rintro (hraised | ⟨-, hraised⟩ | ⟨-, hnone⟩)
      · cases hbefore.symm.trans hraised
      · cases hlocked.symm.trans hraised
      · cases hlocked.symm.trans hnone
    | none =>
      obtain ⟨hraises, hreturns⟩ := @run_checkNative s E answer url expected
        ((loadMetadataForUrl s url expected).run answer e').2
      cases hnative : metadataHeadUrl s url with
      | error raised =>
        refine iff_of_false ?_ (not_not_intro (.link hbefore hlocked hnative))
        rintro ⟨resolved, hresolved⟩
        cases (hraises raised hnative).symm.trans hresolved
      | ok native =>
        refine iff_of_true (hreturns native hnative) ?_
        rintro (hraised | ⟨-, hraised⟩ | ⟨-, -, hraised⟩)
        · cases hbefore.symm.trans hraised
        · cases hlocked.symm.trans hraised
        · cases hnative.symm.trans hraised

/-- **The probe of one file** raises exactly when the file cannot be probed. -/
theorem run_probe {name : Str} (hname : f.filename = .str name) (hneeds : needsProbe f = true)
    (e : E) :
    (Unprobeable s pid answer e f → ∃ raised,
      ((probe s pid f false true).run answer e).1 = .error raised) ∧
    (¬ Unprobeable s pid answer e f → HashesReadable f ∧ ∃ f',
      ((probe s pid f false true).run answer e).1 = .ok f') := by
  have hneeds : ¬ (!needsProbe f) = true := by simpa using hneeds
  by_cases hreadable : HashesReadable f
  swap
  · -- the first access to the hashes raises
    have hraises : ∃ raised, wheelSha256Of s f = .error raised := by
      cases hsha256 : wheelSha256Of s f with
      | error raised => exact ⟨raised, rfl⟩
      | ok sha256 => exact absurd (hashesReadable_iff.mpr ⟨sha256, hsha256⟩) hreadable
    obtain ⟨raised, hraised⟩ := hraises
    refine ⟨fun _ => ?_, fun hprobeable => absurd (.hashes hreadable) hprobeable⟩
    unfold probe
    rw [if_neg hneeds, hraised]
    exact ⟨raised, rfl⟩
  obtain ⟨sha256, hsha256⟩ := hashesReadable_iff.mp hreadable
  have hextract := canExtract_of_readable hname hsha256
  have hexpected := expectedSha256_of_readable hsha256
  cases hprobed : probedUrl s f with
  | error raised =>
    have hnot : ∀ url, f.url = .str url → encodable s.U (normaliseArtifactUrl url) = false := by
      intro url hurl
      by_contra henc
      rw [probedUrl_eq_ok.mpr ⟨hurl, by simpa using henc⟩] at hprobed
      cases hprobed
    refine ⟨fun _ => ?_, fun hprobeable => absurd (.url hnot) hprobeable⟩
    unfold probe
    rw [if_neg hneeds, hsha256, hextract, hprobed]
    exact ⟨raised, rfl⟩
  | ok url =>
  obtain ⟨hurl, hencodable⟩ := probedUrl_eq_ok.mp hprobed
  have hprobe : (probe s pid f false true).run answer e =
      (resolveMetadataForUrl s pid url (expectedSha256 s f) false true >>= fun resolved =>
        (.ret (resolved.map (applyResolution f)) : Program (Except Raised File))).run answer e := by
    unfold probe
    rw [if_neg hneeds, hsha256, hextract, hprobed, hexpected]
    cases mayExtract s f <;>
      refine congrArg (fun g => (Prog.bind _ g).run answer e) (funext fun resolved => ?_) <;>
      cases resolved <;> rfl
  have hresolve := @run_resolve s pid E answer e url (expectedSha256 s f)
  rw [hprobe, Prog.run_bind]
  constructor
  · intro hbad
    cases hresolved : ((resolveMetadataForUrl s pid url (expectedSha256 s f) false true).run answer
        e).1 with
    | error raised => exact ⟨raised, rfl⟩
    | ok resolved =>
      exfalso
      cases hbad with
      | hashes hnot => exact hnot hreadable
      | url hnot => exact absurd hencodable (by rw [hnot url hurl]; decide)
      | @link url' hurl' hbad =>
        obtain rfl : url = url' := Json.str.inj (hurl.symm.trans hurl')
        exact hresolve.mp ⟨resolved, hresolved⟩ hbad
  · intro hprobeable
    obtain ⟨resolved, hresolved⟩ := hresolve.mpr fun hbad => hprobeable (.link hurl hbad)
    rw [hresolved]
    exact ⟨hreadable, _, rfl⟩

end Files

/-! ## All files -/

section Projects

variable {s pid canonical body isJson project} {f : File} {files : List File} {E : Type}
  {answer : (o : Op) → E → Ret o × E} {e : E}

/-- A candidate, as far as its name and its metadata say. -/
def Candidate (f : File) : Prop := needsProbe f = true ∧ ∃ name, f.filename = .str name

/-- The probes make the same calls in one `gather` and each on its own. -/
theorem log_probeAll (files : List File) (e : E) :
    (probeAll s pid false true files).log answer e = (probeEach s pid files).log answer e ∧
      ((probeAll s pid false true files).run answer e).2 =
        ((probeEach s pid files).run answer e).2 := by
  induction files generalizing e with
  | nil => exact ⟨rfl, rfl⟩
  | cons f files ih =>
    obtain ⟨hlog, hstate⟩ := ih ((probe s pid f false true).run answer e).2
    simp only [probeAll, probeEach, probeOrKeep, Prog.pure_eq, Prog.log_bind, Prog.run_bind,
      Prog.log_ret, Prog.run_ret, List.append_nil]
    exact ⟨by rw [hlog], hstate⟩

/-- **The probes of a `gather`** raise when one file cannot be probed, and find what each finds on
its own when there is none. -/
theorem run_probeAll (hfiles : ∀ f ∈ files, Candidate f) (e : E) :
    (AllProbeable s pid answer files e → (∀ f ∈ files, HashesReadable f) ∧
      ((probeAll s pid false true files).run answer e).1 =
        .ok ((probeEach s pid files).run answer e).1) ∧
    (¬ AllProbeable s pid answer files e → ∃ raised,
      ((probeAll s pid false true files).run answer e).1 = .error raised) := by
  induction files generalizing e with
  | nil => exact ⟨fun _ => ⟨nofun, rfl⟩, fun h => absurd trivial h⟩
  | cons f files ih =>
    obtain ⟨⟨hneeds, name, hname⟩, hfiles⟩ := List.forall_mem_cons.mp hfiles
    obtain ⟨hraises, hreturns⟩ := @run_probe s pid f E answer name hname hneeds e
    have hstate : ((probeOrKeep s pid f).run answer e).2 =
        ((probe s pid f false true).run answer e).2 := by
      rw [probeOrKeep, Prog.run_bind]
      rfl
    obtain ⟨hall, hsome⟩ := ih hfiles ((probe s pid f false true).run answer e).2
    rw [AllProbeable, hstate]
    simp only [probeAll, probeEach, probeOrKeep, Prog.pure_eq, Prog.run_bind, Prog.run_ret]
    constructor
    · rintro ⟨hprobeable, hrest⟩
      obtain ⟨hreadable, f', hf'⟩ := hreturns hprobeable
      obtain ⟨hreadables, hprobed⟩ := hall hrest
      rw [hf', hprobed]
      exact ⟨List.forall_mem_cons.mpr ⟨hreadable, hreadables⟩, rfl⟩
    · intro hnot
      by_cases hprobeable : Unprobeable s pid answer e f
      · obtain ⟨raised, hraised⟩ := hraises hprobeable
        rw [hraised]
        exact ⟨raised, rfl⟩
      · obtain ⟨-, f', hf'⟩ := hreturns hprobeable
        obtain ⟨raised, hraised⟩ := hsome fun hrest => hnot ⟨hprobeable, hrest⟩
        rw [hf', hraised]
        exact ⟨raised, rfl⟩

/-- A probe leaves the name and the hashes alone. -/
theorem probeEach_returns (files : List File) : (probeEach s pid files).Returns fun probed =>
    ∀ f' ∈ probed, ∃ f ∈ files, f'.hashes = f.hashes ∧ f'.filename = f.filename := by
  have happly : ∀ f resolved, (applyResolution f resolved).hashes = f.hashes ∧
      (applyResolution f resolved).filename = f.filename := by
    intro f resolved
    unfold applyResolution
    split
    · exact ⟨rfl, rfl⟩
    · split
      · exact ⟨rfl, rfl⟩
      · split <;> exact ⟨rfl, rfl⟩
  have hprobe : ∀ f, (probeOrKeep s pid f).Returns fun f' =>
      f'.hashes = f.hashes ∧ f'.filename = f.filename := by
    intro f
    refine @Prog.Returns.bind _ _ _ _ (fun probed => ∀ f', probed = .ok f' →
      f'.hashes = f.hashes ∧ f'.filename = f.filename) _ _ _ ?_ fun probed hprobed => ?_
    · unfold probe
      split
      · rintro _ ⟨⟩
        exact ⟨rfl, rfl⟩
      split
      · exact nofun
      · exact nofun
      · exact nofun
      · refine Prog.Returns.bind_of_forall _ fun resolved => ?_
        cases resolved with
        | error raised => exact nofun
        | ok resolved =>
          rintro _ ⟨⟩
          exact happly f resolved
    · cases probed with
      | error raised => exact ⟨rfl, rfl⟩
      | ok f' => exact hprobed f' rfl
  induction files with
  | nil => exact nofun
  | cons f files ih =>
    refine (hprobe f).bind fun f' hf' => ih.bind fun rest hrest => ?_
    refine List.forall_mem_cons.mpr ⟨⟨f, List.mem_cons_self, hf'⟩, fun g hg => ?_⟩
    obtain ⟨f₀, hmem, hsame⟩ := hrest g hg
    exact ⟨f₀, List.mem_cons_of_mem _ hmem, hsame⟩

/-! ## The candidates -/

theorem candidates_of_names (hbody : encodable s.U body = true)
    (hnames : NamesReadable s project.files) :
    discoveryCandidates s body project.files = .ok (candidatesOf s project.files) := by
  refine discoveryCandidates_eq_ok.mpr ⟨?_, hbody⟩
  unfold extractionCandidateIndexes
  rw [rankedFiles_eq_ok_iff.mpr ⟨hnames, rfl⟩]
  rfl

theorem exists_error_of_names
    (hnot : ¬ (encodable s.U body = true ∧ NamesReadable s project.files)) :
    ∃ raised, discoveryCandidates s body project.files = .error raised := by
  cases hcandidates : discoveryCandidates s body project.files with
  | error raised => exact ⟨raised, rfl⟩
  | ok candidates =>
    obtain ⟨hselected, hbody⟩ := discoveryCandidates_eq_ok.mp hcandidates
    exact absurd ⟨hbody, ((candidates_eq_ok_iff s project.files candidates).mp hselected).1⟩ hnot

theorem candidate_of_mem (hf : f ∈ wheels s project) : Candidate f := by
  obtain ⟨i, hi, hfile⟩ := List.mem_filterMap.mp hf
  have htop := @stableTop_newestFirst s project.files
    s.settings.metadataMaxExtractFilesPerProject.toNat
  obtain ⟨⟨v, j⟩, hmem, rfl⟩ := List.mem_map.mp ((htop.selected i).mp hi)
  obtain ⟨g, hg, hversion⟩ := (htop.eligible v j).mp (List.mem_of_mem_take hmem)
  obtain rfl := Option.some.inj (hfile.symm.trans hg)
  unfold eligibleVersion at hversion
  split at hversion
  · next name hname =>
    split at hversion
    · next hcond => exact ⟨(Bool.and_eq_true_iff.mp hcond).1, name, hname⟩
    · cases hversion
  · cases hversion

/-- A file after the replacement is an old one or a new one. -/
theorem getElem?_replaceFiles {indexes : List ℕ} {probed : List File} {i : ℕ}
    (h : (replaceFiles files indexes probed)[i]? = some f) : files[i]? = some f ∨ f ∈ probed := by
  induction indexes generalizing files probed with
  | nil => exact .inl h
  | cons j indexes ih =>
    cases probed with
    | nil => exact .inl h
    | cons f' probed =>
      -- the other indexes are replaced in a list that has `f'` at `j` already
      rcases @ih (files.set j f') probed h with hset | hmem
      · rw [List.getElem?_set] at hset
        split at hset
        · split at hset
          · exact .inr (Option.some.inj hset ▸ List.mem_cons_self)
          · cases hset
        · exact .inl hset
      · exact .inr (List.mem_cons_of_mem _ hmem)

theorem canExtract_of_candidate (hreadable : HashesReadable f)
    (hname : ∃ name, f.filename = .str name) : canExtract s f = .ok (mayExtract s f) := by
  obtain ⟨name, hname⟩ := hname
  obtain ⟨sha256, hsha256⟩ := (@hashesReadable_iff s f).mp hreadable
  exact canExtract_of_readable hname hsha256

/-- The files can be checked for extraction. -/
theorem anyExtractable_eq {wanted : File → Bool}
    (hfiles : ∀ f ∈ files, canExtract s f = .ok (mayExtract s f)) :
    anyExtractable s wanted files = .ok (files.any fun f => wanted f && mayExtract s f) := by
  induction files with
  | nil => rfl
  | cons f files ih =>
    obtain ⟨hf, hfiles⟩ := List.forall_mem_cons.mp hfiles
    rw [anyExtractable, hf, List.any_cons, ih hfiles]
    cases wanted f <;> cases mayExtract s f <;> rfl

/-- What the check for extraction sees after the probes. -/
theorem canExtract_resolved {probed : List File}
    (hreadable : ∀ f ∈ wheels s project, HashesReadable f)
    (hprobed : ∀ f' ∈ probed, ∃ f ∈ wheels s project, f'.hashes = f.hashes ∧
      f'.filename = f.filename) :
    ∀ f ∈ filesAt (resolvedFiles s project probed) (candidatesOf s project.files),
      canExtract s f = .ok (mayExtract s f) := by
  intro f hf
  obtain ⟨i, hi, hfile⟩ := List.mem_filterMap.mp hf
  rcases getElem?_replaceFiles hfile with hold | hnew
  · have hmem : f ∈ wheels s project := List.mem_filterMap.mpr ⟨i, hi, hold⟩
    exact canExtract_of_candidate (hreadable f hmem) (candidate_of_mem hmem).2
  · -- a probe changes nothing but the metadata of a file
    obtain ⟨g, hg, hhashes, hfilename⟩ := hprobed f hnew
    refine canExtract_of_candidate ?_ ?_
    · unfold HashesReadable
      rw [hhashes]
      exact hreadable g hg
    · rw [hfilename]
      exact (candidate_of_mem hg).2

/-- The check of a body that is discovered already. -/
theorem anyExtractable_scan (hfiles : ∀ f ∈ files, Candidate f) :
    (Scannable s files →
      anyExtractable s (fun _ => true) files = .ok (files.any (mayExtract s))) ∧
    (¬ Scannable s files → ∃ raised, anyExtractable s (fun _ => true) files = .error raised) := by
  induction files with
  | nil => exact ⟨fun _ => rfl, fun h => absurd trivial h⟩
  | cons f files ih =>
    obtain ⟨⟨-, hname⟩, hfiles⟩ := List.forall_mem_cons.mp hfiles
    obtain ⟨hall, hsome⟩ := ih hfiles
    rw [anyExtractable, List.any_cons, if_pos rfl, Scannable]
    by_cases hreadable : HashesReadable f
    · rw [canExtract_of_candidate hreadable hname, and_iff_right hreadable]
      cases hextract : mayExtract s f with
      | true => exact ⟨fun _ => rfl, fun h => absurd (.inl rfl) h⟩
      | false =>
        simp only [Bool.false_eq_true, false_or, Bool.false_or]
        exact ⟨hall, hsome⟩
    · -- `any` has not stopped before this file
      refine ⟨fun h => absurd h.1 hreadable, fun _ => ?_⟩
      cases hcheck : canExtract s f with
      | error raised => exact ⟨raised, rfl⟩
      | ok extractable =>
        obtain ⟨sha256, hsha256, -⟩ := ok_of_bind hcheck
        exact absurd (hashesReadable_iff.mpr ⟨sha256, hsha256⟩) hreadable

/-! ## What is committed -/

theorem silent_withLock {α : Type} {key : Str} {p : Program α} (h : p.Calls (Prog.Silent mark)) :
    (withLock pid key p).Calls (Prog.Silent mark) := by
  simp only [withLock, Prog.op_bind, Prog.calls_call]
  exact ⟨fun _ => rfl, fun _ => h.bind fun _ => ⟨fun _ => rfl, fun _ => trivial⟩⟩

theorem emits_withLock {α : Type} {key : Str} {p : Program α} {Q : List Mark → α → Prop}
    (h : p.Emits mark Q) : (withLock pid key p).Emits mark Q := by
  intro _
  refine h.bind fun ms a hQ _ => ?_
  show Q (ms ++ []) a
  rwa [List.append_nil]

/-- The calls of a probe without extraction store nothing. -/
theorem silent_probeEach (files : List File) :
    (probeEach s pid files).Calls (Prog.Silent mark) := by
  have hload : ∀ url expected,
      (loadMetadataForUrl s url expected).Calls (Prog.Silent mark) := by
    intro url expected
    refine (StoredMetadata.loadMetadataForUrl_calls s url expected).mono ?_
    rintro _ ⟨key, rfl⟩ _
    rfl
  have hsilent : ∀ url expected, (checkNativeThenExtract s url expected false).Calls
      (Prog.Silent mark) := by
    intro url expected
    unfold checkNativeThenExtract
    split
    · trivial
    · trivial
    · refine ⟨fun _ => rfl, fun status => ?_⟩
      cases status with
      | none =>
        dsimp only
        split <;> trivial
      | some status =>
        show Prog.Calls _ (if status = 200 then _ else _)
        split <;> trivial
  have hprobe : ∀ f, (probeOrKeep s pid f).Calls (Prog.Silent mark) := by
    intro f
    refine Prog.Calls.bind ?_ fun _ => trivial
    unfold probe
    split
    · trivial
    split
    · trivial
    · trivial
    · trivial
    refine Prog.Calls.bind ?_ fun resolved => by cases resolved <;> trivial
    rw [Bool.and_false]
    unfold resolveMetadataForUrl
    refine (hload _ _).bind fun stored => ?_
    split
    · trivial
    · trivial
    refine silent_withLock ?_
    unfold resolveMissing
    refine (hload _ _).bind fun stored => ?_
    split
    · trivial
    · trivial
    · exact hsilent _ _
  induction files with
  | nil => trivial
  | cons f files ih => exact (hprobe f).bind fun _ => ih.bind fun _ => trivial

theorem emits_commitProjectEnrichment (files : List File) (changed ready : Bool) :
    (commitProjectEnrichment s pid canonical body isJson files changed ready).Emits mark
      fun ms result => (∃ outcome, result = .ok outcome) →
        Committed s canonical body isJson files changed ready ms result := by
  have hbound : ∀ completedBody boundPart expected,
      (if changed then advertiseMetadata s body isJson files = .ok completedBody
        else completedBody = body) →
      (commitBound s canonical isJson completedBody changed ready boundPart expected).Emits mark
        fun ms result => (∃ outcome, result = .ok outcome) →
          Committed s canonical body isJson files changed ready ms result := by
    intro completedBody boundPart expected hcompleted
    unfold commitBound
    rintro (_ | boundTtl)
    · exact fun _ => .nothing
    dsimp only
    split
    · exact nofun
    intro committed
    cases committed with
    | false => exact fun _ => .nothing
    | true => exact fun _ => .completed hcompleted
  have hlocked : ∀ completedBody,
      (if changed then advertiseMetadata s body isJson files = .ok completedBody
        else completedBody = body) →
      (withLock pid (fillLockKey canonical) (commitLocked s canonical body isJson completedBody
        changed ready)).Emits mark fun ms result => (∃ outcome, result = .ok outcome) →
          Committed s canonical body isJson files changed ready ms result := by
    intro completedBody hcompleted
    refine emits_withLock ?_
    unfold commitLocked
    refine Prog.emits_silent_bind ⟨fun _ => rfl, fun _ => trivial⟩ (Prog.returns_true _) ?_
    rintro ⟨current, stale⟩ -
    dsimp only
    split
    · exact hbound _ _ _ hcompleted
    split
    · exact hbound _ _ _ hcompleted
    · exact fun _ => .nothing
  unfold commitProjectEnrichment
  cases changed with
  | false => exact hlocked body rfl
  | true =>
    intro _
    dsimp only
    cases hadvertised : advertiseMetadata s body isJson files with
    | error raised => exact nofun
    | ok completedBody => exact hlocked completedBody hadvertised

/-! ## What stops a commit -/

theorem run_withLock {α : Type} {key : Str} {p : Program α} :
    ((withLock pid key p).run answer e).1 =
      (p.run answer (answer (.acquire (pid, key)) e).2).1 := by
  unfold withLock
  rw [Prog.op_bind, Prog.run_call, Prog.run_bind]
  rfl

theorem run_commitBound {completedBody : Str} {changed ready : Bool} {part : ProjectPart}
    {expected : List (Str × Option Str)} :
    (∃ outcome, ((commitBound s canonical isJson completedBody changed ready part expected).run
        answer e).1 = .ok outcome) ↔
      ((answer (.ttl (projectKey canonical part)) e).1 ≠ none →
        encodable s.U completedBody = true) := by
  unfold commitBound
  rw [Prog.op_bind, Prog.run_call]
  cases (answer (.ttl (projectKey canonical part)) e).1 with
  | none => exact iff_of_true ⟨none, rfl⟩ fun h => absurd rfl h
  | some boundTtl =>
    cases hencodable : encodable s.U completedBody with
    | true => exact iff_of_true ⟨_, rfl⟩ fun _ => rfl
    | false =>
      refine iff_of_false ?_ fun h => absurd (h nofun) (by decide)
      rintro ⟨outcome, ⟨⟩⟩

/-- Under the lock, only the digest of the completed body can raise. -/
theorem run_commitLocked {completedBody : Str} {changed ready : Bool} :
    (∃ outcome, ((commitLocked s canonical body isJson completedBody changed ready).run answer
        e).1 = .ok outcome) ↔
      (((boundLifetime canonical body isJson).run answer e).1 ≠ none →
        encodable s.U completedBody = true) := by
  unfold commitLocked boundLifetime
  rw [Prog.run_bind, Prog.run_bind]
  generalize Prog.run answer (cacheGetTwo _ _) e = values
  obtain ⟨⟨current, stale⟩, e'⟩ := values
  dsimp only
  split
  · exact run_commitBound
  split
  · exact run_commitBound
  · exact iff_of_true ⟨none, rfl⟩ fun h => absurd rfl h

/-- **A commit** returns exactly if what it commits can be advertised. -/
theorem run_commit (hparse : parseProjectBody s canonical body isJson = .ok project)
    (hbody : encodable s.U body = true) {changed ready : Bool} :
    (∃ outcome, ((commitProjectEnrichment s pid canonical body isJson files changed ready).run
        answer e).1 = .ok outcome) ↔
      (changed = true → Advertisable s pid canonical body isJson answer e files) := by
  unfold commitProjectEnrichment
  cases changed with
  | false =>
    rw [if_neg (by decide), run_withLock]
    exact iff_of_true (run_commitLocked.mpr fun _ => hbody) nofun
  | true =>
    rw [if_pos rfl, Prog.op_bind, Prog.run_call, imp_iff_right rfl]
    have hlinks := @advertiseMetadata_ok_iff s files body canonical isJson project hparse
    cases hadvertised : advertiseMetadata s body isJson files with
    | error raised =>
      refine iff_of_false ?_ fun h => ?_
      · rintro ⟨outcome, ⟨⟩⟩
      · obtain ⟨completedBody, hcompleted⟩ := hlinks.mpr h.links
        rw [hadvertised] at hcompleted
        cases hcompleted
    | ok completedBody =>
      dsimp only
      rw [run_withLock, run_commitLocked]
      constructor
      · intro hdigest
        refine ⟨hlinks.mp ⟨completedBody, hadvertised⟩, fun completedBody' hcompleted => ?_⟩
        obtain rfl := Except.ok.inj (hadvertised.symm.trans hcompleted)
        exact hdigest
      · exact fun h => h.digest completedBody hadvertised

/-- What is committed when no file is in the way: what was found for the others, and that the
body was discovered. -/
theorem committed_enrichEach (hparse : parseProjectBody s canonical body isJson = .ok project)
    (h : NoBadFile s pid canonical body isJson project answer e)
    (hnew : (discoveredIn canonical isJson answer e).1 ≠ some (bodyDigest body)) :
    let probed := (probeEach s pid (wheels s project)).run answer
      (discoveredIn canonical isJson answer e).2
    let newFiles := resolvedFiles s project probed.1
    let changed := filesChanged newFiles project.files
    let ready := !needsExtraction s project newFiles
    Committed s canonical body isJson newFiles changed ready
      (marks ((enrichEach s pid canonical body isJson project).log answer e))
      ((commitProjectEnrichment s pid canonical body isJson newFiles changed ready).run answer
        probed.2).1 := by
  intro probed newFiles changed ready
  let commit := commitProjectEnrichment s pid canonical body isJson newFiles changed ready
  have hcommit : Committed s canonical body isJson newFiles changed ready
      ((commit.log answer probed.2).flatMap fun c => mark c.1 c.2) (commit.run answer probed.2).1 :=
    (emits_commitProjectEnrichment newFiles changed ready).log probed.2
      ((run_commit hparse h.digest).mpr (h.advertised hnew))
  have hschedule : ∀ outcome : Except Raised (Option Str), Prog.Calls (Prog.Silent mark)
      (match outcome with
        | .ok (some completedBody) =>
          if needsExtraction s project newFiles then
            scheduleProjectExtraction canonical isJson completedBody
          else return ()
        | _ => return ()) := by
    intro outcome
    split
    · split
      · exact ⟨fun _ => rfl, fun _ => trivial⟩
      · trivial
    · trivial
  have hfound : (cacheGet (projectKey canonical (.metadataDiscovered isJson))).run answer
      (answer .suspend e).2 = discoveredIn canonical isJson answer e := rfl
  have hread : (cacheGet (projectKey canonical (.metadataDiscovered isJson))).Calls
    (Prog.Silent mark) := ⟨fun _ => rfl, fun _ => trivial⟩
  unfold enrichEach marks
  rw [Prog.op_bind, Prog.log_call, List.flatMap_cons, Prog.log_bind, List.flatMap_append,
    Prog.flatMap_log hread, hfound, if_neg hnew]
  show Committed s canonical body isJson newFiles changed ready (List.flatMap _ (Prog.log answer
    (discoverEach s pid canonical body isJson project) _)) _
  unfold discoverEach
  rw [Prog.log_bind, List.flatMap_append, Prog.flatMap_log (silent_probeEach _), List.nil_append]
  dsimp only
  rw [Prog.log_bind, List.flatMap_append, Prog.flatMap_log (hschedule _) _, List.append_nil]
  exact hcommit

/-! ## The task -/

/-- A commit makes calls. -/
theorem log_commit_ne_nil (files : List File) (changed ready : Bool) :
    (commitProjectEnrichment s pid canonical body isJson files changed ready).log answer e ≠
      [] := by
  unfold commitProjectEnrichment
  cases changed <;> exact List.cons_ne_nil _ _

/-- **The discovery** makes the calls of the probes on their own and goes on with the commit,
exactly when every candidate can be probed. -/
theorem log_discover_iff :
    (discover s pid canonical body isJson project (candidatesOf s project.files)).log answer e =
        (discoverEach s pid canonical body isJson project).log answer e ↔
      AllProbeable s pid answer (wheels s project) e := by
  obtain ⟨hall, hsome⟩ := @run_probeAll s pid (wheels s project) E answer
    (fun f => candidate_of_mem) e
  obtain ⟨hlog, hstate⟩ := @log_probeAll s pid E answer (wheels s project) e
  have hprobes : probeAll s pid false true (filesAt project.files (candidatesOf s project.files)) =
      probeAll s pid false true (wheels s project) := rfl
  unfold discover discoverEach
  rw [hprobes, Prog.log_bind, Prog.log_bind, hlog, hstate, List.append_cancel_left_eq]
  by_cases hprobeable : AllProbeable s pid answer (wheels s project) e
  · refine iff_of_true ?_ hprobeable
    obtain ⟨hreadable, hprobed⟩ := hall hprobeable
    have hsame : ∀ f' ∈ ((probeEach s pid (wheels s project)).run answer e).1,
        ∃ f ∈ wheels s project, f'.hashes = f.hashes ∧ f'.filename = f.filename :=
      (probeEach_returns (wheels s project)).run e
    rw [hprobed]
    generalize ((probeEach s pid (wheels s project)).run answer e).1 = probed at hsame
    have hcheck : anyExtractable s needsProbe (filesAt
        (replaceFiles project.files (candidatesOf s project.files) probed)
          (candidatesOf s project.files)) =
        .ok (needsExtraction s project (resolvedFiles s project probed)) :=
      anyExtractable_eq (canExtract_resolved hreadable hsame)
    dsimp only
    rw [hcheck]
    unfold resolvedFiles
    simp only [Prog.log_bind, List.append_cancel_left_eq]
    generalize Prog.run answer (commitProjectEnrichment s pid canonical body isJson _ _ _) _ =
      outcome
    -- what follows the commit is the same
    obtain ⟨_ | _ | completedBody, e'⟩ := outcome
    · rfl
    · rfl
    · dsimp only
      split <;> rfl
  · -- the other probes were made for nothing: only their own log is left
    refine iff_of_false ?_ hprobeable
    obtain ⟨raised, hraised⟩ := hsome hprobeable
    rw [hraised]
    simp only [Prog.pure_eq, Prog.log_ret, Prog.log_bind]
    intro hnil
    exact log_commit_ne_nil _ _ _ (List.append_eq_nil_iff.mp hnil.symm).1

/-- The pass goes on as if the files that cannot be probed had failed to resolve, exactly when there
is none. -/
theorem log_enrich_iff (hparse : parseProjectBody s canonical body isJson = .ok project) :
    (enrich s pid canonical body isJson).log answer e =
        (enrichEach s pid canonical body isJson project).log answer e ↔
      (encodable s.U body = true ∧ NamesReadable s project.files) ∧
      ((discoveredIn canonical isJson answer e).1 = some (bodyDigest body) →
        Scannable s (wheels s project)) ∧
      ((discoveredIn canonical isJson answer e).1 ≠ some (bodyDigest body) →
        AllProbeable s pid answer (wheels s project)
          (discoveredIn canonical isJson answer e).2) := by
  have hfound : (cacheGet (projectKey canonical (.metadataDiscovered isJson))).run answer
      (answer .suspend e).2 = discoveredIn canonical isJson answer e := rfl
  have hwheels : filesAt project.files (candidatesOf s project.files) = wheels s project := rfl
  unfold enrich enrichEach
  simp only [Prog.op_bind, Prog.log_call, List.cons.injEq, true_and, hparse]
  by_cases hready : encodable s.U body = true ∧ NamesReadable s project.files
  swap
  · -- the candidates are not even selected
    obtain ⟨raised, hraised⟩ := exists_error_of_names hready
    rw [hraised]
    refine iff_of_false ?_ fun h => hready h.1
    exact fun hnil => List.cons_ne_nil _ _ hnil.symm
  rw [candidates_of_names hready.1 hready.2, and_iff_right hready]
  dsimp only
  rw [Prog.log_bind, Prog.log_bind, List.append_cancel_left_eq, hfound, hwheels]
  by_cases hdiscovered : (discoveredIn canonical isJson answer e).1 = some (bodyDigest body)
  · rw [if_pos hdiscovered, if_pos hdiscovered, imp_iff_right hdiscovered,
      and_iff_left fun h => absurd hdiscovered h]
    obtain ⟨hall, hsome⟩ := @anyExtractable_scan s (wheels s project) fun f => candidate_of_mem
    by_cases hscan : Scannable s (wheels s project)
    · rw [hall hscan]
      refine iff_of_true ?_ hscan
      cases (wheels s project).any (mayExtract s) with
      | true => rfl
      | false =>
        dsimp only
        rw [if_neg (by decide), Prog.log_bind, Prog.log_bind]
        rfl
    · obtain ⟨raised, hraised⟩ := hsome hscan
      rw [hraised]
      refine iff_of_false ?_ hscan
      intro hnil
      cases hany : (wheels s project).any (mayExtract s) with
      | true =>
        rw [hany, if_pos rfl] at hnil
        cases hnil
      | false =>
        rw [hany, if_neg (by decide), Prog.log_bind] at hnil
        exact log_commit_ne_nil _ _ _ (List.append_eq_nil_iff.mp hnil.symm).1
  · rw [if_neg hdiscovered, if_neg hdiscovered, log_discover_iff, imp_iff_right hdiscovered,
      and_iff_right fun h => absurd h hdiscovered]

/-- **One bad file blocks the project.** In every environment, the pass over a body that is accepted
still commits what it finds of the others exactly when no file is a bad one. -/
theorem stillCommits_iff (hparse : parseProjectBody s canonical body isJson = .ok project) :
    StillCommits s pid canonical body isJson project answer e ↔
      NoBadFile s pid canonical body isJson project answer e := by
  constructor
  · intro h
    obtain ⟨⟨hbody, hnames⟩, hscanned, hprobed⟩ :=
      (log_enrich_iff hparse).mp h.asIfUnresolved
    refine ⟨hbody, hnames, hscanned, hprobed, fun hnew => ?_⟩
    -- a commit that stores something, or finds nothing to commit to, has returned
    exact (run_commit hparse hbody).mp (h.committed hnew).returns
  · intro h
    have hlog := (log_enrich_iff hparse).mpr ⟨⟨h.digest, h.names⟩, h.scanned, h.probed⟩
    refine ⟨hlog, fun hnew => ?_⟩
    rw [hlog]
    exact committed_enrichEach hparse h hnew

end Projects

/-! ## Two wheels -/

section Example

open ProxyCache.Python.JsonText ProxyCache.Theorems.JsonPassthrough
open ProxyCache.Theorems.Commits (one wheelName wheelSite)

/-- The proxy, with documents that are read as JSON. -/
def mixedSite : Site := jsonSite noFloat wheelSite

def newerName : Str := ("one-2.0-py3-none-any.whl" : Str)

/-- A wheel that can be probed. -/
def goodWheel : List (Str × Json) :=
  [(("filename" : Str), .str wheelName),
    (("url" : Str), .str (("/artifacts/files.pythonhosted.org/" : Str) ++ wheelName))]

/-- A wheel whose link has no port that can be read. -/
def badLink : List (Str × Json) :=
  [(("filename" : Str), .str newerName),
    (("url" : Str), .str (("https://files.pythonhosted.org:bad/" : Str) ++ newerName))]

/-- A wheel whose hashes are no mapping. -/
def badHashes : List (Str × Json) :=
  [(("filename" : Str), .str newerName),
    (("url" : Str), .str (("/artifacts/files.pythonhosted.org/" : Str) ++ newerName)),
    (("hashes" : Str), .str ("sha256=ab" : Str))]

variable (entries : List (List (Str × Json)))

def mixedDocument : List (Str × Json) :=
  [(("name" : Str), .str one), (("files" : Str), .list (entries.map .dict))]

def mixedBody : Str := dumps (.dict (mixedDocument entries))

def mixedProject : Project := projectOf (mixedDocument entries) (entries.map .dict)

instance (o : Op) : Inhabited (Ret o) := by cases o <;> exact ⟨default⟩

/-- The answers to a task that runs alone, when every HEAD finds native metadata. -/
def alone (o : Op) (w : World) : Ret o × World :=
  (respond .memory (fun _ _ => none) { head := some 200 } 0 o w).getD (default, w)

/-- The body is cached. -/
def cachedWorld : World := emptyWorld.write [⟨projectKey one (.body true), 600, mixedBody entries⟩]

variable {entries}

/-- The documents are what `json.loads` reads in the bodies. -/
theorem loads_mixed (hentries : ∀ entry ∈ entries, entry ∈ [goodWheel, badLink, badHashes]) :
    mixedSite.D.loads (mixedBody entries) = .ok (.dict (mixedDocument entries)) := by
  have hflat : ∀ entry ∈ [goodWheel, badLink, badHashes],
      (entry.map Prod.fst).Nodup ∧ ∀ kv ∈ entry, kv.2.isStr = true := by
    decide
  have hvalid : ∀ entry ∈ entries, Valid noFloat (.dict entry) := by
    intro entry hentry
    obtain ⟨hkeys, hstrings⟩ := hflat entry (hentries entry hentry)
    refine AdvertisedDocument.valid_flat hkeys fun kv hkv => .inl ?_
    have hstr := hstrings kv hkv
    cases hvalue : kv.2 with
    | str text => exact ⟨text, rfl⟩
    | _ =>
      rw [hvalue] at hstr
      cases hstr
  have hkeys : ((mixedDocument entries).map Prod.fst).Nodup := by
    show [("name" : Str), ("files" : Str)].Nodup
    decide
  refine loads_dumps (.dict _ hkeys fun kv hkv => ?_)
  simp only [mixedDocument, List.mem_cons, List.not_mem_nil, or_false] at hkv
  rcases hkv with rfl | rfl
  · exact .str one
  · refine .list _ fun entry hentry => ?_
    obtain ⟨members, hmembers, rfl⟩ := List.mem_map.mp hentry
    exact hvalid members hmembers

theorem parse_mixed (hentries : ∀ entry ∈ entries, entry ∈ [goodWheel, badLink, badHashes]) :
    parseProjectBody mixedSite one (mixedBody entries) true = .ok (mixedProject entries) := by
  have hparsed : parseSimpleJson (.dict (mixedDocument entries)) = .ok (mixedProject entries) := by
    refine parseSimpleJson_eq rfl fun entry hentry => ?_
    obtain ⟨members, -, rfl⟩ := List.mem_map.mp hentry
    exact ⟨members, rfl⟩
  rw [parseProjectBody, if_pos rfl, loads_mixed hentries]
  show (do
    let project ← parseSimpleJson (.dict (mixedDocument entries))
    if project.name.truthy then return project
    else return { project with name := .str one }) = _
  rw [hparsed]
  rfl

/-- One wheel that can be probed. -/
theorem stillCommits_wheel :
    StillCommits mixedSite 0 one (mixedBody [goodWheel]) true (mixedProject [goodWheel]) alone
      (cachedWorld [goodWheel]) := by
  have hparse : parseProjectBody mixedSite one (mixedBody [goodWheel]) true =
      .ok (mixedProject [goodWheel]) :=
    parse_mixed fun entry hentry => List.mem_singleton.mp hentry ▸ List.mem_cons_self
  have hcandidates : candidatesOf mixedSite (mixedProject [goodWheel]).files = [0] := by
    decide +kernel
  have hwheels : wheels mixedSite (mixedProject [goodWheel]) = [fileOf (.dict goodWheel)] := by
    rw [wheels, hcandidates]
    rfl
  have hreadable : HashesReadable (fileOf (.dict goodWheel)) := ⟨[], [], rfl, rfl⟩
  have hnew : (discoveredIn one true alone (cachedWorld [goodWheel])).1 = none := by
    decide +kernel
  have hadvertised : (advertiseMetadata mixedSite (mixedBody [goodWheel]) true
      (resolvedFiles mixedSite (mixedProject [goodWheel])
        ((probeEach mixedSite 0 (wheels mixedSite (mixedProject [goodWheel]))).run alone
          (discoveredIn one true alone (cachedWorld [goodWheel])).2).1)).isOk = true := by
    decide +kernel
  refine (stillCommits_iff hparse).mpr ⟨encodable_asciiOnly _, ?_, ?_, ?_, ?_⟩
  · intro f hf _
    rw [List.mem_singleton.mp hf]
    exact ⟨wheelName, rfl, fun _ => by decide +kernel⟩
  · intro h
    rw [hnew] at h
    cases h
  · intro _
    rw [hwheels]
    refine ⟨fun hbad => ?_, trivial⟩
    cases hbad with
    | hashes hnot => exact hnot hreadable
    | url hnot => cases hnot _ rfl
    | @link url hurl hbad =>
      obtain rfl := Json.str.inj hurl
      have hlink : (metadataHeadUrl mixedSite
          (("/artifacts/files.pythonhosted.org/" : Str) ++ wheelName)).isOk = true := by
        decide +kernel
      rcases hbad with hraised | ⟨-, hraised⟩ | ⟨-, -, hraised⟩
      · have hnone : storedBefore mixedSite alone (discoveredIn one true alone
            (cachedWorld [goodWheel])).2 (("/artifacts/files.pythonhosted.org/" : Str) ++ wheelName)
              (expectedSha256 mixedSite (fileOf (.dict goodWheel))) = .ok none := by
          decide +kernel
        cases hnone.symm.trans hraised
      · have hnone : storedLocked mixedSite 0 alone (discoveredIn one true alone
            (cachedWorld [goodWheel])).2 (("/artifacts/files.pythonhosted.org/" : Str) ++ wheelName)
              (expectedSha256 mixedSite (fileOf (.dict goodWheel))) = .ok none := by
          decide +kernel
        cases hnone.symm.trans hraised
      · rw [hraised] at hlink
        cases hlink
  · intro _ probed newFiles _
    refine ⟨(advertiseMetadata_ok_iff hparse).mp ?_, fun _ _ _ => encodable_asciiOnly _⟩
    cases hcompleted : advertiseMetadata mixedSite (mixedBody [goodWheel]) true newFiles with
    | ok completedBody => exact ⟨completedBody, rfl⟩
    | error raised =>
      rw [hcompleted] at hadvertised
      cases hadvertised

/-- Nothing is committed because of the second wheel, and if it just stayed unresolved, the metadata
of the first one would be. -/
def Blocked (bad : List (Str × Json)) : Prop :=
  let entries := [goodWheel, bad]
  let stored {α : Type} (p : Program α) := batches (marks (p.log alone (cachedWorld entries)))
  parseProjectBody mixedSite one (mixedBody entries) true = .ok (mixedProject entries) ∧
    stored (enrich mixedSite 0 one (mixedBody entries) true) = [] ∧
    stored (enrichEach mixedSite 0 one (mixedBody entries) true (mixedProject entries)) =
      [commitBatch mixedSite one true true true (.body true) 600 600
        (mixedBody [goodWheel ++ [(("core-metadata" : Str), .bool true)], bad])] ∧
    ¬ StillCommits mixedSite 0 one (mixedBody entries) true (mixedProject entries) alone
      (cachedWorld entries)

theorem blocked_of_stored {bad : List (Str × Json)} (hbad : bad ∈ [goodWheel, badLink, badHashes])
    (hnothing : batches (marks ((enrich mixedSite 0 one (mixedBody [goodWheel, bad]) true).log alone
      (cachedWorld [goodWheel, bad]))) = [])
    (hcommitted : batches (marks ((enrichEach mixedSite 0 one (mixedBody [goodWheel, bad]) true
        (mixedProject [goodWheel, bad])).log alone (cachedWorld [goodWheel, bad]))) =
      [commitBatch mixedSite one true true true (.body true) 600 600
        (mixedBody [goodWheel ++ [(("core-metadata" : Str), .bool true)], bad])]) :
    Blocked bad := by
  have hentries : ∀ entry ∈ [goodWheel, bad], entry ∈ [goodWheel, badLink, badHashes] :=
    List.forall_mem_cons.mpr ⟨List.mem_cons_self, fun entry hentry =>
      List.mem_singleton.mp hentry ▸ hbad⟩
  refine ⟨parse_mixed hentries, hnothing, hcommitted, fun h => ?_⟩
  rw [h.asIfUnresolved, hcommitted] at hnothing
  cases hnothing

/-- A port that cannot be read, and hashes that are no mapping. -/
theorem not_stillCommits_mixed : Blocked badLink ∧ Blocked badHashes := by
  constructor
  · exact blocked_of_stored (by simp) (by decide +kernel) (by decide +kernel)
  · exact blocked_of_stored (by simp) (by decide +kernel) (by decide +kernel)

end Example

end ProxyCache.Theorems.BadFiles
