import ProxyCache.App.Metadata

/-!
# The project route (`app/simple_project.py`)

`simpleProject` answers one request: from the cache, by converting the other
format, or under the fill lock from the upstream, whose 304 revalidates the
stale copies and whose 200 refills the cache. Timing headers are left out.
-/

namespace ProxyCache.App

open ProxyCache.Lib ProxyCache.Python

variable (s : Site)

/-- What a request ends with when it does not end with a response. -/
inductive Failure where
  | http (status : ℕ) (detail : Str) (headers : List (Str × Str))
  | raised (e : Raised)
  deriving DecidableEq

structure Reply where
  body : Str
  mediaType : Str
  headers : List (Str × Str)
  deriving DecidableEq

abbrev Outcome := Except Failure Reply

/-- What a request needs to know: the project, and the formats that the client
wants and accepts. -/
structure ProjectRequest where
  canonical : Str
  wantsJson : Bool
  allowHtmlPassthrough : Bool
  clientAccept : Str

namespace ProjectRequest

variable (r : ProjectRequest)

def cacheKey : Str := projectKey r.canonical (.body r.wantsJson)

def otherKey : Str := projectKey r.canonical (.body !r.wantsJson)

def staleKey : Str := projectKey r.canonical (.stale r.wantsJson)

def otherStaleKey : Str := projectKey r.canonical (.stale !r.wantsJson)

def notFoundKey : Str := projectKey r.canonical .notFound

def etagKey : Str := projectKey r.canonical .etag

def lastmodKey : Str := projectKey r.canonical .lastmod

end ProjectRequest

def mediaTypeOf (isJson : Bool) : Str := if isJson then contentTypeJson else contentTypeHtml

/-- The headers of a response, by name. -/
def xCache (value : Str) : Str × Str := (("X-Cache" : Str), value)

def xSynthesis (value : Str) : Str × Str := (("X-Synthesis" : Str), value)

/-- The 404 of a project that does not exist. -/
def projectNotFound (canonical xCacheValue : Str) : Failure :=
  .http 404 (("project " : Str) ++ canonical ++ (" not found" : Str))
    [xCache xCacheValue, (("X-Cache-Key" : Str), canonical)]

/-- `_cached_response`. -/
def cachedResponse (canonical body : Str) (wantsJson : Bool) : Program Reply :=
  let headers := [xCache ("HIT" : Str), (("X-Cache-Key" : Str), canonical), xSynthesis ("0" : Str)]
  let reply : Reply := { body, mediaType := mediaTypeOf wantsJson, headers }
  if s.settings.enableBackgroundMetadata then do
    match ← metadataResponseCacheTtl s canonical body wantsJson with
    | some ttl =>
      return { reply with
        headers := headers ++ [(("Cache-Control" : Str), ("public, max-age=" : Str) ++ str ttl)] }
    | none => do
      ensureMetadataBackgroundWork s canonical body wantsJson
      return reply
  else return reply

/-! ## Converting between the formats -/

/-- A body of the other format in the wanted one. -/
def convertBody (canonical : Str) (toJson : Bool) (other : Str) : Except Raised Str :=
  if toJson then do
    let project ← parseSimpleHtml s.U s.D canonical other
    return s.D.dumps (modelToJson (← rewriteProjectUrls s.U s.settings project))
  else do
    let project ← parseSimpleJson (← s.D.loads other)
    modelToHtml s.D (← rewriteProjectUrls s.U s.settings project)

/-- What a lazy conversion stores: the converted body for as long as its source
lives, and as a stale copy if the source has one. -/
def conversionValues (r : ProjectRequest) (otherTtl : ℤ) (otherStaleTtl : Option ℤ) (body : Str) :
    List Write :=
  ⟨r.cacheKey, otherTtl, body⟩ ::
    (match otherStaleTtl with
      | some ttl => [⟨r.staleKey, ttl, body⟩]
      | none => [])

/-- The end of a lazy conversion: the converted body is stored if its source is
still the same. -/
def storeConversion (r : ProjectRequest) (other body : Str) :
    Program (Except Failure (Option Reply)) := do
  match ← call (.ttl r.otherKey) with
  | none => return .ok none
  | some otherTtl =>
    let otherStaleTtl ← call (.ttl r.otherStaleKey)
    let committed ← call (.setexManyIfUnchanged [(r.otherKey, some other)]
      (conversionValues r otherTtl otherStaleTtl body))
    if committed then do
      scheduleMetadataEnrichment s r.canonical body r.wantsJson
      return .ok (some { body, mediaType := mediaTypeOf r.wantsJson,
                         headers := [xCache ("HIT-synthesized" : Str), xSynthesis ("1" : Str)] })
    else return .ok none

/-- Serve from the cached body of the other format. -/
def serveOther (r : ProjectRequest) (other : Str) : Program (Except Failure (Option Reply)) :=
  if r.wantsJson && r.allowHtmlPassthrough then do
    let reply ← cachedResponse s r.canonical other false
    return .ok (some reply)
  else do
    call .elapse
    match convertBody s r.canonical r.wantsJson other with
    | .ok body => storeConversion s r other body
    | .error e => return if isCaught e then .ok none else .error (.raised e)

/-- `_try_serve_from_cache`. -/
def tryServeFromCache (r : ProjectRequest) : Program (Except Failure (Option Reply)) := do
  let (notFound, cached) ← cacheGetTwo r.notFoundKey r.cacheKey
  if notFound.isSome then return .error (projectNotFound r.canonical ("HIT" : Str))
  else
    match cached.filter (· ≠ []) with
    | some cached => do
      let reply ← cachedResponse s r.canonical cached r.wantsJson
      return .ok (some reply)
    | none =>
      match (← cacheGet r.otherKey).filter (· ≠ []) with
      | some other => serveOther s r other
      | none => return .ok none

/-! ## Filling from a 200 -/

/-- The validators of a response, to be stored for the next conditional GET. -/
def validatorValues (r : ProjectRequest) (etag lastMod : Option Str) : List Write :=
  let ttl := s.settings.cacheStaleTtlSeconds
  ((etag.filter (· ≠ [])).map fun v => (⟨r.etagKey, ttl, v⟩ : Write)).toList
    ++ ((lastMod.filter (· ≠ [])).map fun v => (⟨r.lastmodKey, ttl, v⟩ : Write)).toList

/-- A body of one format, as current and as stale copy. -/
def bodyValues (canonical : Str) (isJson : Bool) (ttl : ℤ) (body : Str) : List Write :=
  [⟨projectKey canonical (.body isJson), ttl, body⟩,
    ⟨projectKey canonical (.stale isJson), s.settings.cacheStaleTtlSeconds, body⟩]

/-- The response is JSON. -/
def isUpstreamJson (response : UpstreamResponse) : Bool :=
  contains ("json" : Str) (response.contentType.getD [])

/-- The headers of a response that was fetched. -/
def missHeaders (response : UpstreamResponse) (synthesis : Str) : List (Str × Str) :=
  [xCache ("MISS" : Str), xSynthesis synthesis,
    (("X-Upstream-Content-Type" : Str), response.contentType.getD [])]

/-- `r.json()`, or `json.loads(r.text)` if that raises a `ValueError`. -/
def responseJson (content : Bytes) (text : Str) : Except Raised Json :=
  match s.D.loadsBytes content with
  | .error .valueError => s.D.loads text
  | loaded => loaded

/-- The bodies that a 200 of the other format than the wanted one is stored as:
the JSON one and the HTML one. -/
def synthesizeBodies (canonical : Str) (isJson : Bool) (content : Bytes) (text : Str) :
    Except Raised (Str × Str) :=
  if isJson then do
    let project ← parseSimpleJson (← responseJson s content text)
    let project := if project.name.truthy then project else { project with name := .str canonical }
    let jsonBody ← rewriteSimpleBody s.U s.D s.settings text true
    let htmlBody ← modelToHtml s.D (← rewriteProjectUrls s.U s.settings project)
    return (jsonBody, htmlBody)
  else do
    let project ← parseSimpleHtml s.U s.D canonical text
    let project := if project.name.truthy then project else { project with name := .str canonical }
    let htmlBody ← rewriteSimpleBody s.U s.D s.settings text false
    return (s.D.dumps (modelToJson (← rewriteProjectUrls s.U s.settings project)), htmlBody)

/-- The passthrough path: the upstream has what the client wants. -/
def storePassthrough (r : ProjectRequest) (response : UpstreamResponse) (body : Str) :
    Program Outcome := do
  let isJson := isUpstreamJson response
  let ttl := effectiveProjectTtl s.settings response.cacheControl
  call (.setexMany (validatorValues s r response.etag response.lastModified
    ++ bodyValues s r.canonical isJson ttl body))
  scheduleMetadataEnrichment s r.canonical body isJson
  return .ok { body, mediaType := mediaTypeOf isJson,
               headers := missHeaders response ("0" : Str) }

/-- The synthesis path: both formats are stored. -/
def storeSynthesis (r : ProjectRequest) (response : UpstreamResponse) (jsonBody htmlBody : Str) :
    Program Outcome := do
  let isJson := isUpstreamJson response
  let ttl := effectiveProjectTtl s.settings response.cacheControl
  let json := bodyValues s r.canonical true ttl jsonBody
  let html := bodyValues s r.canonical false ttl htmlBody
  call (.setexMany (validatorValues s r response.etag response.lastModified
    ++ if isJson then json ++ html else html ++ json))
  let body := if isJson then htmlBody else jsonBody
  scheduleMetadataEnrichment s r.canonical body (!isJson)
  return .ok { body, mediaType := mediaTypeOf (!isJson),
               headers := missHeaders response ("1" : Str) }

/-- A 200 of the upstream. -/
def storeFill (r : ProjectRequest) (response : UpstreamResponse) : Program Outcome :=
  let isJson := isUpstreamJson response
  if isJson == r.wantsJson || (!isJson && r.allowHtmlPassthrough) then
    match rewriteSimpleBody s.U s.D s.settings response.text isJson with
    | .error e => return .error (.raised e)
    | .ok body => storePassthrough s r response body
  else
    match synthesizeBodies s r.canonical isJson response.content response.text with
    | .error e => return .error (.raised e)
    | .ok (jsonBody, htmlBody) => storeSynthesis s r response jsonBody htmlBody

/-- Any other answer than a 304. -/
def answer (r : ProjectRequest) (response : UpstreamResponse) : Program Outcome :=
  if response.status = 404 then do
    cacheSetex r.notFoundKey s.settings.cache404Ttl ("1" : Str)
    return .error (projectNotFound r.canonical ("MISS" : Str))
  else if response.status ≠ 200 then
    return .error (.http response.status (response.text.take 500) [])
  else storeFill s r response

/-! ## Revalidating with a 304 -/

/-- The GET for a project. -/
def upstreamRequest (r : ProjectRequest) (etag lastMod : Option Str) : UpstreamRequest where
  url := rstripChar '/' s.settings.upstreamSimpleUrl ++ '/' :: r.canonical ++ ['/']
  accept := if r.clientAccept ≠ [] then r.clientAccept
    else ("application/vnd.pypi.simple.v1+json, text/html;q=0.9" : Str)
  ifNoneMatch := etag.filter (· ≠ [])
  ifModifiedSince := lastMod.filter (· ≠ [])

def upstreamError : Failure := .http 502 ("upstream error: " : Str) []

/-- A 304 without a stale body: the GET is repeated without validators. -/
def refetch (r : ProjectRequest) : Program Outcome := do
  match ← call (.httpGet (upstreamRequest s r none none)) with
  | none => return .error upstreamError
  | some response =>
    if response.status = 304 then
      return .error (.http 502 ("upstream 304 but no stale cache" : Str) [])
    else answer s r response

/-- What a 304 stores: the body of one format as current again, the validators
that were sent, and the stale body of the other format, unless it is the one. -/
def refreshedValues (r : ProjectRequest) (etag lastMod : Option Str) (ttl : ℤ)
    (responseJson : Bool) (body : Str) (otherStale : Option Str) : List Write :=
  ⟨projectKey r.canonical (.body responseJson), ttl, body⟩ ::
    (validatorValues s r etag lastMod
      ++ (match otherStale.filter (· ≠ []) with
        | some otherStale =>
          if responseJson = r.wantsJson then [⟨r.otherKey, ttl, otherStale⟩] else []
        | none => []))

/-- A 304 with a body to serve. -/
def refresh (r : ProjectRequest) (etag lastMod : Option Str) (response : UpstreamResponse)
    (responseJson : Bool) (body : Str) (otherStale : Option Str) : Program Outcome := do
  let ttl := effectiveProjectTtl s.settings response.cacheControl
  call (.setexMany (refreshedValues s r etag lastMod ttl responseJson body otherStale))
  if s.settings.enableBackgroundMetadata then do
    let _ ← refreshMetadataResponseReadiness s r.canonical body responseJson ttl
    let reply ← cachedResponse s r.canonical body responseJson
    return .ok { reply with
      headers := dictSet reply.headers ("X-Cache" : Str) ("REVALIDATED" : Str) }
  else do
    let reply ← cachedResponse s r.canonical body responseJson
    return .ok { reply with
      headers := dictSet reply.headers ("X-Cache" : Str) ("REVALIDATED" : Str) }

/-- A 304 when only the other format has a stale copy. -/
def synthesizeStale (r : ProjectRequest) (etag lastMod : Option Str)
    (response : UpstreamResponse) (otherStale : Str) : Program Outcome :=
  if r.wantsJson && r.allowHtmlPassthrough then
    refresh s r etag lastMod response false otherStale (some otherStale)
  else
    match convertBody s r.canonical r.wantsJson otherStale with
    | .error e => if isCaught e then refetch s r else return .error (.raised e)
    | .ok body => do
      cacheSetex r.otherStaleKey s.settings.cacheStaleTtlSeconds otherStale
      refresh s r etag lastMod response r.wantsJson body (some otherStale)

/-- The 304 branch. -/
def notModified (r : ProjectRequest) (etag lastMod : Option Str)
    (response : UpstreamResponse) : Program Outcome := do
  let (staleBody, otherStale) ← cacheGetTwo r.staleKey r.otherStaleKey
  match staleBody, otherStale with
  | some body, otherStale => refresh s r etag lastMod response r.wantsJson body otherStale
  | none, some otherStale => synthesizeStale s r etag lastMod response otherStale
  | none, none => refetch s r

/-! ## The request -/

/-- The GET with the validators that were read. -/
def conditionalGet (r : ProjectRequest) (etag lastMod : Option Str) : Program Outcome := do
  match ← call (.httpGet (upstreamRequest s r etag lastMod)) with
  | none => return .error upstreamError
  | some response =>
    if response.status = 304 then notModified s r etag lastMod response
    else answer s r response

/-- A miss: validators are only sent while a stale body survives. -/
def fetchUpstream (r : ProjectRequest) : Program Outcome := do
  if ← call (.existsAny [r.staleKey, r.otherStaleKey]) then do
    let (etag, lastMod) ← cacheGetTwo r.etagKey r.lastmodKey
    conditionalGet s r etag lastMod
  else conditionalGet s r none none

/-- What runs under the fill lock. -/
def fill (r : ProjectRequest) : Program Outcome := do
  match ← tryServeFromCache s r with
  | .error e => return .error e
  | .ok (some hit) => return .ok hit
  | .ok none => fetchUpstream s r

/-- The request behind `project` and the `Accept` header. -/
def projectRequest (project : Str) (accept : Option Str) : ProjectRequest where
  canonical := s.packaging.canonicalizeName project
  wantsJson := wantJson s.U s.float accept
  allowHtmlPassthrough := acceptsHtml s.U s.float accept
  clientAccept := accept.getD []

/-- `simple_project`, once the request has been read. -/
def serveProject (pid : ℕ) (r : ProjectRequest) : Program Outcome := do
  match ← tryServeFromCache s r with
  | .error e => return .error e
  | .ok (some hit) => return .ok hit
  | .ok none => withLock pid (fillLockKey r.canonical) (fill s r)

/-- `simple_project`. -/
def simpleProject (pid : ℕ) (project : Str) (accept : Option Str) : Program Outcome :=
  serveProject s pid (projectRequest s project accept)

end ProxyCache.App
