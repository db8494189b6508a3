import ProxyCache.Python.Url

/-!
# Settings (`app/config.py`)

The settings that the modelled code reads, with their defaults, and the
artifact hosts that they allow.
-/

namespace ProxyCache.App

open ProxyCache.Lib ProxyCache.Python

/-- `Literal["https", "http"]`. -/
inductive HttpScheme where
  | https
  | http
  deriving DecidableEq, Repr

def HttpScheme.text : HttpScheme → Str
  | .https => ("https" : Str)
  | .http => ("http" : Str)

structure Settings where
  upstreamSimpleUrl : Str := ("https://pypi.org/simple" : Str)
  upstreamFilesUrl : Str := ("https://files.pythonhosted.org" : Str)
  artifactHostAllowlist : Str := []
  rewriteArtifactUrls : Bool := true
  cacheTtlSeconds : ℤ := 300
  cacheProjectTtlSeconds : ℤ := 60
  cache404Ttl : ℤ := 60
  cacheStaleTtlSeconds : ℤ := 600
  enableBackgroundMetadata : Bool := false
  metadataMaxPendingProjects : ℤ := 16
  metadataMaxPendingExtractionProjects : ℤ := 64
  metadataExtractConcurrency : ℤ := 2
  metadataMaxExtractFilesPerProject : ℤ := 32
  metadataCacheTtlSeconds : ℤ := 365 * 24 * 60 * 60
  metadataFailureTtlSeconds : ℤ := 60 * 60
  metadataArtifactBaseUrl : Str := []
  artifactHostScheme : HttpScheme := .https

/-- The default port of a scheme. -/
def defaultPort (scheme : Str) : Option ℕ :=
  if scheme = ("http" : Str) then some 80
  else if scheme = ("https" : Str) then some 443
  else none

/-- The host that `upstream_files_url` contributes to the allowlist. -/
def upstreamFilesHost (U : Unicode) (upstreamFilesUrl : Str) : Except Raised (List Str) := do
  let parsed ← urlparse U upstreamFilesUrl []
  match hostnameOf U parsed.netloc with
  | none => return []
  | some hostname =>
    match ← portOf parsed.netloc with
    | some port =>
      if some port ≠ defaultPort parsed.scheme then
        return [lower U hostname ++ ':' :: str port]
      else return [lower U hostname]
    | none => return [lower U hostname]

/-- The hosts of the comma-separated allowlist. -/
def allowlistHosts (U : Unicode) (allowlist : Str) : List Str :=
  ((allowlist.splitOn ',').map fun part => lower U (strip part)).filter (· ≠ [])

/-- `Settings.artifact_hosts`. -/
def Settings.artifactHosts (U : Unicode) (settings : Settings) : Except Raised (List Str) := do
  return (← upstreamFilesHost U settings.upstreamFilesUrl)
    ++ allowlistHosts U settings.artifactHostAllowlist

end ProxyCache.App
