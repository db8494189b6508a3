import ProxyCache.App.Effects
import ProxyCache.App.Packaging
import Mathlib.Data.List.Sort

/-!
# Metadata discovery and extraction (`app/metadata.py`)

The links that may be probed, the stored metadata records, the resolution of one
artifact URL, and the two background phases that advertise what they find in a
project body. The probes of one `gather` are run one after the other. Metrics,
semaphores and the idle gate appear as suspensions only.
-/

namespace ProxyCache.App

open ProxyCache.Lib ProxyCache.Python

/-- What the handlers read that does not change while the service runs. -/
structure Site where
  U : Unicode
  D : Documents
  float : Str → Option ℚ
  packaging : Packaging
  settings : Settings

variable (s : Site)

/-! ## Links that may be fetched -/

/-- `_scheme_for`. -/
def schemeFor (host : Str) : Except Raised Str := do
  let files ← urlparse s.U s.settings.upstreamFilesUrl []
  if (hostnameOf s.U files.netloc).isSome then
    if lower s.U host = (← authorityOf s.U files) then
      return if files.scheme = [] then ("https" : Str) else files.scheme
  return s.settings.artifactHostScheme.text

/-- `_append_metadata_suffix`. -/
def appendMetadataSuffix (url : Str) : Except Raised Str := do
  let parts ← urlsplit s.U url []
  return urlunsplit { parts with path := parts.path ++ (".metadata" : Str), fragment := [] }

/-- The host and the rest of a `/artifacts/` link, when the host is allowed. -/
def artifactHostPath (rest : Str) : Except Raised (Option (Str × Str)) :=
  match cut '/' rest with
  | (_, none) => return none
  | (host, some path) => do
    if host = [] then return none
    if !(← hostAllowed s.U s.settings host) then return none
    return some (host, path)

/-- An absolute link is on an allowed host. -/
def absoluteAllowed (base : Str) : Except Raised Bool := do
  let parsed ← urlparse s.U base []
  if !isHttpScheme parsed.scheme || (hostnameOf s.U parsed.netloc).isNone then return false
  hostAllowed s.U s.settings (← authorityOf s.U parsed)

/-- `metadata_head_url`. -/
def metadataHeadUrl (fileUrl : Str) : Except Raised (Option Str) := do
  let base := (cut '#' fileUrl).1
  if ("/artifacts/" : Str).isPrefixOf fileUrl then
    match ← artifactHostPath s (base.drop 11) with
    | none => return none
    | some (host, pathAndQuery) =>
      return some (← appendMetadataSuffix s
        ((← schemeFor s host) ++ ("://" : Str) ++ host ++ '/' :: pathAndQuery))
  else
    if !(← absoluteAllowed s base) then return none
    return some (← appendMetadataSuffix s base)

/-- `_artifact_upstream_url`. -/
def artifactUpstreamUrl (fileUrl : Str) : Except Raised (Option Str) := do
  let base := (cut '#' fileUrl).1
  if ("/artifacts/" : Str).isPrefixOf base then
    match ← artifactHostPath s (base.drop 11) with
    | none => return none
    | some (host, path) =>
      if s.settings.metadataArtifactBaseUrl ≠ [] then
        return some (rstripChar '/' s.settings.metadataArtifactBaseUrl ++ base)
      return some ((← schemeFor s host) ++ ("://" : Str) ++ host ++ '/' :: path)
  else
    if !(← absoluteAllowed s base) then return none
    return some base

/-- `_safe_url_for_log`. -/
def safeUrlForLog (url : Str) : Except Raised Str := do
  let parts ← urlsplit s.U url []
  let host := (hostnameOf s.U parts.netloc).getD []
  let host := if host.contains ':' then '[' :: (host ++ [']']) else host
  let authority := match portOf parts.netloc with
    | .ok (some port) => host ++ ':' :: str port
    | _ => host
  return urlunsplit ⟨parts.scheme, authority, parts.path, [], []⟩

/-! ## Readiness of a body -/

/-- `metadata_response_cache_ttl`. -/
def metadataResponseCacheTtl (canonical body : Str) (isJson : Bool) : Program (Option ℤ) :=
  let canonical := s.packaging.canonicalizeName canonical
  call (.ttlIfValues (projectKey canonical (.metadataReady isJson)) (bodyDigest body)
    (projectKey canonical (.body isJson)) body)

/-- `refresh_metadata_response_readiness`. -/
def refreshMetadataResponseReadiness (canonical body : Str) (isJson : Bool) (ttl : ℤ) :
    Program Bool :=
  let canonical := s.packaging.canonicalizeName canonical
  let markerKey := projectKey canonical (.metadataReady isJson)
  let digest := bodyDigest body
  call (.setexManyIfUnchanged
    [(projectKey canonical (.body isJson), some body), (markerKey, some digest)]
    [⟨markerKey, max s.settings.cacheStaleTtlSeconds ttl, digest⟩])

/-! ## Stored metadata -/

/-- `_SHA256_RE.fullmatch`. -/
def isSha256 (digest : Str) : Bool := digest.length == 64 && digest.all isHexDigit

/-- The record that points a URL to its metadata. -/
def metadataRecord (metadataSha256 : Str) (wheelSha256 : Option Str) : Json :=
  .dict ([(("schema" : Str), .int 2), (("metadata-sha256" : Str), .str metadataSha256)]
    ++ match wheelSha256 with
      | some digest => [(("wheel-sha256" : Str), .str digest)]
      | none => [])

/-- `_store_metadata_content`, of the text that the content decodes to. -/
def storeMetadataContent (fileUrl text : Str) (wheelSha256 : Option Str) :
    Program (Except Raised (Str × Str)) :=
  let metadataSha256 := sha256Hex (utf8 text)
  let wheelSha256 := wheelSha256.map (lower s.U)
  if wheelSha256.any fun digest => !isSha256 digest then return .error .valueError
  else do
    let ttl := s.settings.metadataCacheTtlSeconds
    -- the URL record comes last: a reader never sees a pointer before its content
    cacheSetex (metadataContentKey s.U metadataSha256) ttl text
    match wheelSha256 with
    | some digest => cacheSetex (metadataBlobKey s.U fileUrl digest) ttl text
    | none => pure ()
    cacheSetex (metadataUrlKey fileUrl) ttl
      (s.D.dumpsCompact (metadataRecord metadataSha256 wheelSha256))
    return .ok (text, metadataSha256)

/-- `store_extracted_metadata`, up to the digest that it advertises. -/
def storeExtractedMetadata (fileUrl wheelSha256 : Str) (content : Bytes) :
    Program (Except Raised Str) :=
  match decodeUtf8Strict content with
  | none => return .error .valueError
  | some text => do
    let stored ← storeMetadataContent s fileUrl text (some wheelSha256)
    return stored.map Prod.snd

/-- `store_recovered_metadata`. -/
def storeRecoveredMetadata (fileUrl : Str) (content : Bytes) :
    Program (Except Raised (Str × Str)) :=
  match decodeUtf8Strict content with
  | none => return .error .valueError
  | some text => storeMetadataContent s fileUrl text none

/-- Where the content of a record is looked up: its wheel digest and whether the
content key is tried first. `none` when the record is not to be used. -/
def recordSource (record : List (Str × Json)) (expectedWheelSha256 : Option Str) :
    Option (Option Str × Bool) :=
  let schema2 := match dictGet record ("schema" : Str) with
    | some (.int n) => n == 2
    | some (.float repr) => repr == ("2.0" : Str)
    | _ => false
  match (dictGet record ("wheel-sha256" : Str)).getD .null with
  | .null => if schema2 && expectedWheelSha256.isNone then some (none, true) else none
  | .str wheel =>
    if isSha256 wheel && expectedWheelSha256.all (· == wheel) then some (some wheel, schema2)
    else none
  | _ => none

/-- The exceptions that are caught where a document is read. -/
def isCaught : Raised → Bool
  | .valueError | .typeError | .keyError => true
  | .attributeError | .other => false

/-- `record["metadata-sha256"]`, for a record that is a dict and a digest that
is one; the rest is caught. -/
def recordDigest (raw : Except Raised Json) : Except Raised (Option (List (Str × Json) × Str)) :=
  match raw with
  | .error e => if isCaught e then .ok none else .error e
  | .ok (.dict record) =>
    match dictGet record ("metadata-sha256" : Str) with
    | some (.str expected) => .ok (if isSha256 expected then some (record, expected) else none)
    | _ => .ok none
  | .ok _ => .ok none

/-- The stored content behind a record. -/
def loadContent (fileUrl expected : Str) (wheelSha256 : Option Str) (contentFirst : Bool) :
    Program (Option Str) := do
  let body ← if contentFirst then cacheGet (metadataContentKey s.U expected) else pure none
  match body, wheelSha256 with
  | none, some wheel => cacheGet (metadataBlobKey s.U fileUrl wheel)
  | body, _ => return body

/-- `load_metadata_for_url`. -/
def loadMetadataForUrl (fileUrl : Str) (expectedWheelSha256 : Option Str) :
    Program (Except Raised (Option (Str × Str))) := do
  match ← cacheGet (metadataUrlKey fileUrl) with
  | none => return .ok none
  | some rawRecord =>
    match recordDigest (s.D.loads rawRecord) with
    | .error e => return .error e
    | .ok none => return .ok none
    | .ok (some (record, expected)) =>
      match recordSource record expectedWheelSha256 with
      | none => return .ok none
      | some (wheelSha256, contentFirst) =>
        match ← loadContent s fileUrl expected wheelSha256 contentFirst with
        | none => return .ok none
        | some body =>
          return .ok (if sha256Hex (utf8 body) = expected then some (body, expected) else none)

/-! ## Resolving one artifact -/

/-- `_MetadataResolution`. -/
structure MetadataResolution where
  body : Option Str := none
  metadataSha256 : Option Str := none
  native : Bool := false

abbrev Resolved := Except Raised (Option MetadataResolution)

/-- The failure branch of an extraction: it is remembered for a while. -/
def extractionFailed (artifactUrl failureKey : Str) : Program Resolved :=
  match safeUrlForLog s artifactUrl with
  | .error e => return .error e
  | .ok _ => do
    cacheSetex failureKey s.settings.metadataFailureTtlSeconds ("1" : Str)
    return .ok none

/-- Extract and store what neither the cache nor the upstream has. -/
def extractMissing (fileUrl : Str) (wheelSha256 : Option Str) (allowExtraction : Bool) :
    Program Resolved :=
  if !allowExtraction then return .ok none
  else do
    let failureKey := metadataFailureKey s.U fileUrl wheelSha256
    match ← cacheGet failureKey with
    | some _ => return .ok none
    | none =>
      match artifactUpstreamUrl s fileUrl with
      | .error e => return .error e
      | .ok none => return .ok none
      | .ok (some artifactUrl) =>
        match ← call (.extractWheelMetadata artifactUrl) with
        | none => extractionFailed s artifactUrl failureKey
        | some text =>
          match ← storeMetadataContent s fileUrl text wheelSha256 with
          | .error _ => extractionFailed s artifactUrl failureKey
          | .ok (body, metadataSha256) =>
            return .ok (some { body := some body, metadataSha256 := some metadataSha256 })

/-- Ask the upstream for native metadata first. -/
def checkNativeThenExtract (fileUrl : Str) (wheelSha256 : Option Str) (allowExtraction : Bool) :
    Program Resolved :=
  match metadataHeadUrl s fileUrl with
  | .error e => return .error e
  | .ok none => return .ok none
  | .ok (some nativeUrl) => do
    match ← call (.httpHead nativeUrl) with
    | some status =>
      if status = 200 then return .ok (some { native := true })
      else extractMissing s fileUrl wheelSha256 allowExtraction
    | none =>
      match safeUrlForLog s nativeUrl with
      | .error e => return .error e
      | .ok _ => extractMissing s fileUrl wheelSha256 allowExtraction

def storedResolution (stored : Str × Str) : MetadataResolution :=
  { body := some stored.1, metadataSha256 := some stored.2 }

/-- The part of `_resolve_metadata_for_url` under the URL's lock. -/
def resolveMissing (fileUrl : Str) (wheelSha256 : Option Str)
    (allowExtraction checkNative : Bool) : Program Resolved := do
  match ← loadMetadataForUrl s fileUrl wheelSha256 with
  | .error e => return .error e
  | .ok (some stored) => return .ok (some (storedResolution stored))
  | .ok none =>
    if checkNative then checkNativeThenExtract s fileUrl wheelSha256 allowExtraction
    else extractMissing s fileUrl wheelSha256 allowExtraction

/-- `_resolve_metadata_for_url`. -/
def resolveMetadataForUrl (pid : ℕ) (fileUrl : Str) (wheelSha256 : Option Str)
    (allowExtraction checkNative : Bool) : Program Resolved := do
  match ← loadMetadataForUrl s fileUrl wheelSha256 with
  | .error e => return .error e
  | .ok (some stored) => return .ok (some (storedResolution stored))
  | .ok none =>
    withLock pid (metadataFillLockKey fileUrl)
      (resolveMissing s fileUrl wheelSha256 allowExtraction checkNative)

/-- `load_or_recover_metadata_for_url`. -/
def loadOrRecoverMetadataForUrl (pid : ℕ) (fileUrl : Str) :
    Program (Except Raised (Option (Str × Str))) := do
  if !s.settings.enableBackgroundMetadata then loadMetadataForUrl s fileUrl none
  else
    match ← resolveMetadataForUrl s pid fileUrl none true true with
    | .error e => return .error e
    | .ok none => return .ok none
    | .ok (some resolved) =>
      if resolved.native then return .ok none
      else
        match resolved.body, resolved.metadataSha256 with
        | some body, some digest => return .ok (some (body, digest))
        | _, _ => return .ok none

/-! ## Probing the files of a project -/

/-- `_needs_probe`. -/
def needsProbe (f : File) : Bool :=
  !(metadataValueAdvertised f.coreMetadata || metadataValueAdvertised f.distInfoMetadata)

/-- `f.hashes.get("sha256", "").lower()`. -/
def wheelSha256Of (f : File) : Except Raised Str := do
  return lower s.U (← (← f.hashes.get ("sha256" : Str) (.str [])).asStr)

/-- `f.filename.lower().endswith(".whl")`. -/
def isWheelName (f : File) : Except Raised Bool := do
  return (".whl" : Str).isSuffixOf (lower s.U (← f.filename.asStr))

/-- `_can_extract`. -/
def canExtract (f : File) : Except Raised Bool := do
  let wheelSha256 ← wheelSha256Of s f
  return (← isWheelName s f) && isSha256 wheelSha256

/-- `_with_core_metadata`. -/
def withCoreMetadata (f : File) (coreMetadata : Json) : File := { f with coreMetadata }

/-- What a resolution makes of a file. -/
def applyResolution (f : File) : Option MetadataResolution → File
  | none => f
  | some resolved =>
    if resolved.native then withCoreMetadata f (.bool true)
    else
      match resolved.metadataSha256 with
      | some digest => withCoreMetadata f (.dict [(("sha256" : Str), .str digest)])
      | none => f

/-- The link that is resolved; its digest is the first thing that is computed. -/
def probedUrl (f : File) : Except Raised Str := do
  let url ← f.url.asStr
  if encodable s.U (normaliseArtifactUrl url) then return url else throw .valueError

variable {s} in
theorem probedUrl_eq_ok {f : File} {url : Str} :
    probedUrl s f = .ok url ↔
      f.url = .str url ∧ encodable s.U (normaliseArtifactUrl url) = true := by
  unfold probedUrl
  cases hurl : f.url with
  | str url' =>
    simp only [Json.asStr_str, bind, Except.bind]
    split
    · next henc => exact ⟨fun h => Except.ok.inj h ▸ ⟨rfl, henc⟩, fun h => Json.str.inj h.1 ▸ rfl⟩
    · next henc => exact ⟨nofun, fun h => absurd (Json.str.inj h.1 ▸ h.2) henc⟩
  | _ => exact ⟨nofun, nofun⟩

/-- `_probe`. -/
def probe (pid : ℕ) (f : File) (allowExtraction checkNative : Bool) :
    Program (Except Raised File) :=
  if !needsProbe f then return .ok f
  else
    match wheelSha256Of s f, canExtract s f, probedUrl s f with
    | .error e, _, _ | .ok _, .error e, _ | .ok _, .ok _, .error e => return .error e
    | .ok wheelSha256, .ok extractable, .ok fileUrl => do
      match ← resolveMetadataForUrl s pid fileUrl (if extractable then some wheelSha256 else none)
        (extractable && allowExtraction) checkNative with
      | .error e => return .error e
      | .ok resolved => return .ok (applyResolution f resolved)

/-- `asyncio.gather` of the probes; an exception is raised once they are done. -/
def probeAll (pid : ℕ) (allowExtraction checkNative : Bool) :
    List File → Program (Except Raised (List File))
  | [] => return .ok []
  | f :: files => do
    let probed ← probe s pid f allowExtraction checkNative
    let rest ← probeAll pid allowExtraction checkNative files
    return do
      let f ← probed
      return f :: (← rest)

/-- The eligible files with their versions: wheels with a valid name that miss
metadata. -/
def rankedFiles : ℕ → List File → Except Raised (List (s.packaging.Version × ℕ))
  | _, [] => return []
  | index, f :: files => do
    if !needsProbe f then rankedFiles (index + 1) files
    else
      if !(← isWheelName s f) then rankedFiles (index + 1) files
      else
        match s.packaging.parseWheelFilename (← f.filename.asStr) with
        | .error .invalid => rankedFiles (index + 1) files
        -- only `InvalidWheelFilename` is caught
        | .error .valueError => throw .valueError
        | .ok (_, version) => return (version, index) :: (← rankedFiles (index + 1) files)

/-- `ranked.sort(key=lambda item: item[0], reverse=True)`: stable, newest first. -/
def newestFirst (ranked : List (s.packaging.Version × ℕ)) : List (s.packaging.Version × ℕ) :=
  ranked.insertionSort fun a b => b.1 ≤ a.1

/-- `sorted(_extraction_candidate_indexes(files))`. -/
def extractionCandidateIndexes (files : List File) : Except Raised (List ℕ) := do
  let limit := s.settings.metadataMaxExtractFilesPerProject.toNat
  let ranked ← rankedFiles s 0 files
  return (((newestFirst s ranked).take limit).map (·.2)).insertionSort (· ≤ ·)

/-- The candidates of a discovery, which computes the digest of the body next. -/
def discoveryCandidates (body : Str) (files : List File) : Except Raised (List ℕ) := do
  let candidates ← extractionCandidateIndexes s files
  if encodable s.U body then return candidates else throw .valueError

variable {s} in
theorem discoveryCandidates_eq_ok {body : Str} {files : List File} {candidates : List ℕ} :
    discoveryCandidates s body files = .ok candidates ↔
      extractionCandidateIndexes s files = .ok candidates ∧ encodable s.U body = true := by
  unfold discoveryCandidates
  cases extractionCandidateIndexes s files with
  | error e => exact ⟨nofun, nofun⟩
  | ok selected =>
    simp only [bind, Except.bind]
    split
    · next henc => exact ⟨fun h => ⟨h, henc⟩, fun h => h.1⟩
    · next henc => exact ⟨nofun, fun h => absurd h.2 henc⟩

/-! ## Advertising in a body -/

/-- One entry of a document, with the file that was resolved for it. -/
def advertiseEntry (entry : Json) (f : File) : Except Raised Json :=
  match entry with
  | .dict members =>
    if needsProbe f then return entry
    else do
      let members := dictSet members ("core-metadata" : Str) f.coreMetadata
      match dictGet members ("url" : Str) with
      | some (.str url) =>
        return .dict (dictSet members ("url" : Str) (.str (← rewriteFileUrl s.U s.settings url)))
      | _ => return .dict members
  | _ => return entry

/-- Entries and files side by side; entries without a file stay. -/
def advertiseEntries : List Json → List File → Except Raised (List Json)
  | entry :: entries, f :: files => do
    let entry ← advertiseEntry s entry f
    return entry :: (← advertiseEntries entries files)
  | entries, _ => return entries

/-- One anchor, with the file that was resolved for it. -/
def advertiseAnchor (a : Anchor) (f : File) : Except Raised Anchor :=
  if needsProbe f then return a
  else
    match metadataValueToHtml s.D f.coreMetadata with
    | none => return a
    | some value => do
      let attrs := dictSet a.attrs ("data-core-metadata" : Str) value
      let href := (dictGet attrs ("href" : Str)).getD []
      return { a with
        attrs := dictSet attrs ("href" : Str) (← rewriteFileUrl s.U s.settings href) }

/-- The anchors with a link and the files side by side. -/
def advertiseAnchors : List Anchor → List File → Except Raised (List Anchor)
  | a :: anchors, f :: files =>
    if ((a.get ("href" : Str)).getD []) = [] then do
      return a :: (← advertiseAnchors anchors (f :: files))
    else do
      let a ← advertiseAnchor s a f
      return a :: (← advertiseAnchors anchors files)
  | anchors, _ => return anchors

/-- `_advertise_metadata`. -/
def advertiseMetadata (body : Str) (isJson : Bool) (files : List File) : Except Raised Str :=
  if isJson then do
    let document ← s.D.loads body
    match document, ← document.get ("files" : Str) (.list []) with
    | .dict members, .list entries =>
      let entries ← advertiseEntries s entries files
      return s.D.dumps (if (dictGet members ("files" : Str)).isSome then
        .dict (dictSet members ("files" : Str) (.list entries)) else document)
    | document, entries => do
      let _ ← entries.elements
      return s.D.dumps document
  else do
    return s.D.withAnchors body (← advertiseAnchors s (← s.D.anchors body) files)

/-! ## The two phases -/

/-- `_parse_project_body`. -/
def parseProjectBody (canonical body : Str) (isJson : Bool) : Except Raised Project := do
  let project ← if isJson then parseSimpleJson (← s.D.loads body)
    else parseSimpleHtml s.U s.D canonical body
  if project.name.truthy then return project
  else return { project with name := .str canonical }

/-- The markers of a commit: the body was discovered, and needs nothing more. -/
def commitMarkers (canonical : Str) (isJson ready : Bool) (ttl : ℤ) (digest : Str) : List Write :=
  ⟨projectKey canonical (.metadataDiscovered isJson), ttl, digest⟩ ::
    (if ready then [⟨projectKey canonical (.metadataReady isJson), ttl, digest⟩] else [])

/-- The bodies of a commit: a current body is also kept as the stale one. -/
def commitBodies (canonical : Str) (isJson : Bool) (boundPart : ProjectPart) (boundTtl : ℤ)
    (completedBody : Str) : List Write :=
  ⟨projectKey canonical boundPart, boundTtl, completedBody⟩ ::
    (if boundPart = .body isJson then
      [⟨projectKey canonical (.stale isJson), s.settings.cacheStaleTtlSeconds, completedBody⟩]
    else [])

/-- The conditional write of a commit, once its key and lifetime are known. -/
def commitBound (canonical : Str) (isJson : Bool) (completedBody : Str) (changed ready : Bool)
    (boundPart : ProjectPart) (expected : List (Str × Option Str)) :
    Program (Except Raised (Option Str)) := do
  match ← call (.ttl (projectKey canonical boundPart)) with
  | none => return .ok none
  | some boundTtl =>
    if !encodable s.U completedBody then return .error .valueError
    else
      let bodies := if changed then
          commitBodies s canonical isJson boundPart boundTtl completedBody
        else []
      let markers := commitMarkers canonical isJson ready
        (max s.settings.cacheStaleTtlSeconds boundTtl) (bodyDigest completedBody)
      let committed ← call (.setexManyIfUnchanged expected (bodies ++ markers))
      return .ok (if committed then some completedBody else none)

/-- The part of a commit under the fill lock. -/
def commitLocked (canonical body : Str) (isJson : Bool) (completedBody : Str)
    (changed ready : Bool) : Program (Except Raised (Option Str)) := do
  let sourceKey := projectKey canonical (.body isJson)
  let staleKey := projectKey canonical (.stale isJson)
  let (current, staleBody) ← cacheGetTwo sourceKey staleKey
  if current = some body then
    commitBound s canonical isJson completedBody changed ready (.body isJson)
      [(sourceKey, some body)]
  else if current = none ∧ staleBody = some body then
    commitBound s canonical isJson completedBody changed ready (.stale isJson)
      [(sourceKey, none), (staleKey, some body)]
  else return .ok none

/-- `_commit_project_enrichment`. -/
def commitProjectEnrichment (pid : ℕ) (canonical body : Str) (isJson : Bool) (files : List File)
    (changed ready : Bool) : Program (Except Raised (Option Str)) := do
  if changed then
    -- the advertised body is rendered in another thread
    call .suspend
    match advertiseMetadata s body isJson files with
    | .error e => return .error e
    | .ok completedBody =>
      withLock pid (fillLockKey canonical)
        (commitLocked s canonical body isJson completedBody changed ready)
  else
    withLock pid (fillLockKey canonical)
      (commitLocked s canonical body isJson body changed ready)

/-- Some file got metadata that had none. -/
def filesChanged (newFiles oldFiles : List File) : Bool :=
  (newFiles.zip oldFiles).any fun (new, old) => !needsProbe new && needsProbe old

/-- `new_files[index] = probed_file`, for each index. -/
def replaceFiles (files : List File) (indexes : List ℕ) (probed : List File) : List File :=
  (indexes.zip probed).foldl (fun files (index, f) => files.set index f) files

/-- The files at the given indexes. -/
def filesAt (files : List File) (indexes : List ℕ) : List File :=
  indexes.filterMap fun index => files[index]?

/-- `any(_can_extract(files[index]) for index in indexes)` over the files that
satisfy `wanted`. -/
def anyExtractable (wanted : File → Bool) : List File → Except Raised Bool
  | [] => return false
  | f :: files =>
    if wanted f then do
      if ← canExtract s f then return true else anyExtractable wanted files
    else anyExtractable wanted files

/-- `_schedule_project_extraction`; the queue decides what becomes of it. -/
def scheduleProjectExtraction (canonical : Str) (isJson : Bool) (body : Str) : Program Unit :=
  call (.schedule (.extract canonical isJson (bodyDigest body)))

/-- The discovery pass over a parsed project. -/
def discover (pid : ℕ) (canonical body : Str) (isJson : Bool) (project : Project)
    (candidates : List ℕ) : Program (Except Raised Unit) := do
  match ← probeAll s pid false true (filesAt project.files candidates) with
  | .error e => return .error e
  | .ok probed =>
    let newFiles := replaceFiles project.files candidates probed
    match anyExtractable s needsProbe (filesAt newFiles candidates) with
    | .error e => return .error e
    | .ok needsExtraction =>
      match ← commitProjectEnrichment s pid canonical body isJson newFiles
        (filesChanged newFiles project.files) (!needsExtraction) with
      | .error e => return .error e
      | .ok none => return .ok ()
      | .ok (some completedBody) => do
        if needsExtraction then scheduleProjectExtraction canonical isJson completedBody
        return .ok ()

/-- `_enrich`. What it raises is logged. -/
def enrich (pid : ℕ) (canonical body : Str) (isJson : Bool) : Program (Except Raised Unit) := do
  call .suspend
  match parseProjectBody s canonical body isJson with
  | .error e => return .error e
  | .ok project =>
    match discoveryCandidates s body project.files with
    | .error e => return .error e
    | .ok candidates =>
      let discovered ← cacheGet (projectKey canonical (.metadataDiscovered isJson))
      if discovered = some (bodyDigest body) then
        match anyExtractable s (fun _ => true) (filesAt project.files candidates) with
        | .error e => return .error e
        | .ok true => do
          scheduleProjectExtraction canonical isJson body
          return .ok ()
        | .ok false => do
          let committed ← commitProjectEnrichment s pid canonical body isJson project.files
            false true
          return committed.map fun _ => ()
      else discover s pid canonical body isJson project candidates

/-- The batches of an extraction, each after an idle period. -/
def extractBatches (pid : ℕ) (files : List File) :
    List (List ℕ) → List File → Program (Except Raised (List File))
  | [], newFiles => return .ok newFiles
  | batch :: batches, newFiles => do
    call .suspend
    match ← probeAll s pid true false (filesAt files batch) with
    | .error e => return .error e
    | .ok probed => extractBatches pid files batches (replaceFiles newFiles batch probed)

/-- The extraction pass over the body that still has the scheduled digest. -/
def extractBody (pid : ℕ) (canonical body : Str) (isJson : Bool) :
    Program (Except Raised Unit) := do
  call .suspend
  match parseProjectBody s canonical body isJson with
  | .error e => return .error e
  | .ok project =>
    match extractionCandidateIndexes s project.files with
    | .error e => return .error e
    | .ok candidates =>
      let batchSize := max 1 s.settings.metadataExtractConcurrency.toNat
      match ← extractBatches s pid project.files (pieces batchSize candidates.length candidates)
        project.files with
      | .error e => return .error e
      | .ok newFiles =>
        let committed ← commitProjectEnrichment s pid canonical body isJson newFiles
          (filesChanged newFiles project.files) true
        return committed.map fun _ => ()

/-- `_extract_project_after_idle`. What it raises is logged. -/
def extractProjectAfterIdle (pid : ℕ) (canonical : Str) (isJson : Bool) (digest : Str) :
    Program (Except Raised Unit) := do
  call .suspend
  let (current, stale) ← cacheGetTwo (projectKey canonical (.body isJson))
    (projectKey canonical (.stale isJson))
  match current.filter (bodyDigest · = digest), stale.filter (bodyDigest · = digest) with
  | some body, _ => extractBody s pid canonical body isJson
  | none, some body => extractBody s pid canonical body isJson
  | none, none => return .ok ()

/-! ## Starting the phases -/

/-- `schedule_metadata_enrichment`; the queue decides what becomes of it. -/
def scheduleMetadataEnrichment (canonical body : Str) (isJson : Bool) : Program Unit :=
  if s.settings.enableBackgroundMetadata then
    call (.schedule (.enrich (s.packaging.canonicalizeName canonical) body isJson))
  else return ()

/-- `ensure_metadata_background_work`. -/
def ensureMetadataBackgroundWork (canonical body : Str) (isJson : Bool) : Program Unit :=
  if !s.settings.enableBackgroundMetadata then return ()
  else do
    let canonical := s.packaging.canonicalizeName canonical
    let digest := bodyDigest body
    if ← call (.unfinished canonical isJson digest) then return ()
    else
      let discovered ← cacheGet (projectKey canonical (.metadataDiscovered isJson))
      if discovered = some digest then scheduleProjectExtraction canonical isJson body
      else
        match ← call (.ttl (projectKey canonical (.body isJson))) with
        | some _ => scheduleMetadataEnrichment s canonical body isJson
        | none => return ()

end ProxyCache.App
