import ProxyCache.App.Config
import ProxyCache.App.Models

/-!
# Artifact links (`app/artifacts.py`)

Which hosts may be proxied, how a link is rewritten to `/artifacts/<host>/`, and
how the links of a project and of a Simple API body are rewritten.
-/

namespace ProxyCache.App

open ProxyCache.Lib ProxyCache.Python

variable (U : Unicode) (D : Documents) (settings : Settings)

/-- `authority_of`: the host, with the port unless it is the default one. -/
def authorityOf (parsed : ParseResult) : Except Raised Str := do
  let host := lower U ((hostnameOf U parsed.netloc).getD [])
  match ← portOf parsed.netloc with
  | some port =>
    if some port ≠ defaultPort parsed.scheme then return host ++ ':' :: str port
    else return host
  | none => return host

/-- `host_allowed`. -/
def hostAllowed (host : Str) : Except Raised Bool := do
  return (← settings.artifactHosts U).contains (lower U host)

/-- `parsed.scheme in ("http", "https")`. -/
def isHttpScheme (scheme : Str) : Bool := scheme == ("http" : Str) || scheme == ("https" : Str)

/-- The rewritten link for a resolved URL on an allowed host. -/
def artifactLink (host : Str) (parsed : ParseResult) : Str :=
  let path := if parsed.path = [] then ['/'] else parsed.path
  let path := if path.head? = some '/' then path else '/' :: path
  ("/artifacts/" : Str) ++ host ++ path
    ++ (if parsed.query = [] then [] else '?' :: parsed.query)
    ++ (if parsed.fragment = [] then [] else '#' :: parsed.fragment)

/-- `rewrite_file_url`. -/
def rewriteFileUrl (url : Str) : Except Raised Str := do
  if url = [] then return url
  if ("/artifacts/" : Str).isPrefixOf url then return url
  let resolved ← urljoin U (rstripChar '/' settings.upstreamFilesUrl ++ ['/']) url
  let parsed ← urlparse U resolved []
  if !isHttpScheme parsed.scheme || (hostnameOf U parsed.netloc).isNone then return url
  let host ← authorityOf U parsed
  if !(← hostAllowed U settings host) then return url
  return artifactLink host parsed

/-- `rewrite_file_url` of a value of any type. -/
def rewriteUrlValue (url : Json) : Except Raised Json := do
  if url.truthy then return .str (← rewriteFileUrl U settings (← url.asStr)) else return url

/-! ## Which files advertise metadata -/

/-- `_metadata_value_advertised`. -/
def metadataValueAdvertised (value : Json) : Bool := value.isTrue || value.isStr || value.isDict

/-- `_file_advertises_metadata`. -/
def fileAdvertisesMetadata (f : File) : Bool :=
  metadataValueAdvertised f.coreMetadata || metadataValueAdvertised f.distInfoMetadata

/-- `_json_entry_advertises_metadata`. -/
def jsonEntryAdvertisesMetadata (entry : List (Str × Json)) : Bool :=
  metadataValueAdvertised ((dictGet entry ("core-metadata" : Str)).getD .null) ||
    metadataValueAdvertised ((dictGet entry ("dist-info-metadata" : Str)).getD .null)

/-! ## Projects and documents -/

/-- `rewrite_project_urls`. -/
def rewriteProjectUrls (project : Project) : Except Raised Project := do
  let files ← project.files.mapM fun f => do
    let url ← if settings.rewriteArtifactUrls || fileAdvertisesMetadata f then
        rewriteUrlValue U settings f.url
      else pure f.url
    return { f with url }
  return { project with files }

/-- One entry of the `files` of a document. -/
def rewriteEntry (entry : Json) : Except Raised Json :=
  match entry with
  | .dict members =>
    match dictGet members ("url" : Str) with
    | some (.str url) =>
      if settings.rewriteArtifactUrls || jsonEntryAdvertisesMetadata members then do
        return .dict (dictSet members ("url" : Str) (.str (← rewriteFileUrl U settings url)))
      else return entry
    | _ => return entry
  | _ => return entry

/-- `rewrite_json_body`. -/
def rewriteJsonBody (body : Str) : Except Raised Str := do
  if !settings.rewriteArtifactUrls && !contains ("\"core-metadata\"" : Str) body &&
      !contains ("\"dist-info-metadata\"" : Str) body then
    return body
  let data ← D.loads body
  match data, ← data.get ("files" : Str) .null with
  | .dict members, .list files =>
    let files ← files.mapM (rewriteEntry U settings)
    return D.dumps (.dict (dictSet members ("files" : Str) (.list files)))
  | data, _ => return D.dumps data

/-! ## Pages -/

/-- The value of a quoted attribute behind its name: `\s*=\s*`, a quote, the
value without quotes, the same quote. What was matched, the quote, the value and
the rest are returned. -/
def matchQuotedValue (s : Str) : Option (Str × Char × Str × Str) :=
  match s.dropWhile isSpace with
  | '=' :: s' =>
    match s'.dropWhile isSpace with
    | quote :: rest =>
      if quote = '"' ∨ quote = '\'' then
        let value := rest.takeWhile fun c => !(c = '"' || c = '\'')
        match rest.drop value.length with
        | close :: after =>
          if close = quote then
            some (s.takeWhile isSpace ++ '=' :: s'.takeWhile isSpace ++ quote :: (value ++ [close]),
              quote, value, after)
          else none
        | [] => none
      else none
    | [] => none
  | _ => none

/-- `_ANCHOR_RE` at the start of `s`: the tag and what follows it. -/
def matchAnchorTag (s : Str) : Option (Str × Str) :=
  match s with
  | '<' :: a :: s' =>
    if matchesChar 'a' a && !s'.head?.any (isWordChar U) then
      match cut '>' s' with
      | (inside, some after) => some ('<' :: a :: (inside ++ ['>']), after)
      | (_, none) => none
    else none
  | _ => none

/-- `_METADATA_ATTR_RE` at the start of `s`: the value and what follows. -/
def matchMetadataAttr (s : Str) : Option (Str × Str) :=
  [("data-core-metadata" : Str), ("data-dist-info-metadata" : Str)].findSome? fun name => do
    let (_, rest) ← matchWord name s
    let (_, _, value, after) ← matchQuotedValue rest
    return (value, after)

/-- The values of the matches of `_METADATA_ATTR_RE`, from left to right. -/
def metadataAttrValues : ℕ → Str → List Str
  | 0, _ => []
  | _ + 1, [] => []
  | fuel + 1, c :: s =>
    match matchMetadataAttr (c :: s) with
    | some (value, after) => value :: metadataAttrValues fuel after
    | none => metadataAttrValues fuel s

/-- `_ATTR_RE.sub(_rewrite_href, tag, count=1)`. -/
def rewriteHref (tag : Str) : Except Raised Str :=
  match tag with
  | [] => return []
  | c :: rest =>
    match matchWord ("href" : Str) tag with
    | none => return c :: (← rewriteHref rest)
    | some (name, behind) =>
      match matchQuotedValue behind with
      | none => return c :: (← rewriteHref rest)
      | some (matched, quote, url, after) => do
        let rewritten ← rewriteFileUrl U settings url
        if rewritten = url then return name ++ matched ++ after
        else return name ++ '=' :: quote :: (rewritten ++ quote :: after)

/-- `_rewrite_anchor`. -/
def rewriteAnchor (tag : Str) : Except Raised Str :=
  let advertised := (metadataAttrValues tag.length tag).any fun value =>
    lower U (strip value) != [] && lower U (strip value) != ("false" : Str)
  if !settings.rewriteArtifactUrls && !advertised then return tag else rewriteHref U settings tag

/-- `_ANCHOR_RE.sub(_rewrite_anchor, body)`. -/
def rewriteAnchors : ℕ → Str → Except Raised Str
  | 0, s => return s
  | _ + 1, [] => return []
  | fuel + 1, c :: s =>
    match matchAnchorTag U (c :: s) with
    | some (tag, after) => do
      let tag ← rewriteAnchor U settings tag
      return tag ++ (← rewriteAnchors fuel after)
    | none => do return c :: (← rewriteAnchors fuel s)

/-- `rewrite_html_body`. -/
def rewriteHtmlBody (body : Str) : Except Raised Str :=
  if !settings.rewriteArtifactUrls && (metadataAttrValues body.length body).isEmpty then return body
  else rewriteAnchors U settings body.length body

/-- `rewrite_simple_body`. -/
def rewriteSimpleBody (body : Str) (isJson : Bool) : Except Raised Str :=
  if isJson then rewriteJsonBody U D settings body else rewriteHtmlBody U settings body

end ProxyCache.App
