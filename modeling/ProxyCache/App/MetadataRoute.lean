import ProxyCache.App.SimpleProject

/-!
# The metadata route (`app/metadata_route.py`)

`host`, `path` and `query` are what the route's pattern finds in the percent-decoded path
of the request, which has no lone surrogates.
-/

namespace ProxyCache.App

open ProxyCache.Lib ProxyCache.Python

variable (s : Site)

def metadataNotFound : Failure := .http 404 ("metadata not found" : Str) []

/-- The link that the route looks up. -/
def routeArtifactUrl (host path query : Str) : Str :=
  ("/artifacts/" : Str) ++ host ++ '/' :: path ++ (if query = [] then [] else '?' :: query)

/-- A segment that the route refuses. -/
def isBadSegment (part : Str) : Bool := part == [] || part == ("." : Str) || part == (".." : Str)

/-- `wheel_metadata`. -/
def wheelMetadata (pid : ℕ) (host path query : Str) : Program Outcome :=
  match hostAllowed s.U s.settings host with
  | .error e => return .error (.raised e)
  | .ok allowed =>
    if !allowed || !(".whl" : Str).isSuffixOf path then return .error metadataNotFound
    else if (path.splitOn '/').any isBadSegment then return .error metadataNotFound
    else do
      match ← loadOrRecoverMetadataForUrl s pid (routeArtifactUrl host path query) with
      | .error e => return .error (.raised e)
      | .ok none => return .error metadataNotFound
      | .ok (some (body, metadataSha256)) =>
        return .ok {
          body, mediaType := ("text/plain; charset=UTF-8" : Str)
          headers := [
            (("Cache-Control" : Str), ("public, max-age=" : Str)
              ++ str s.settings.metadataCacheTtlSeconds ++ (", immutable" : Str)),
            (("ETag" : Str), ("\"sha256:" : Str) ++ metadataSha256 ++ ['"']),
            (("X-Content-Type-Options" : Str), ("nosniff" : Str))] }

end ProxyCache.App
