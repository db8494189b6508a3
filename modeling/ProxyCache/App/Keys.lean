import ProxyCache.Python.Sha256
import Mathlib.Data.List.Infix

/-!
# Cache keys

Every key that the application puts together, and which of them are equal. A
project's keys are its canonical name between `simple:` and a suffix; the
metadata keys carry the digest of the artifact URL up to query and fragment.
-/

namespace ProxyCache.App

open ProxyCache.Lib ProxyCache.Python

/-! ## Project keys -/

/-- `'json' if is_json else 'html'`. -/
def formatName (isJson : Bool) : Str := if isJson then ("json" : Str) else ("html" : Str)

/-- What is cached for a project. -/
inductive ProjectPart where
  | body (isJson : Bool)
  | stale (isJson : Bool)
  | notFound
  | etag
  | lastmod
  | metadataReady (isJson : Bool)
  | metadataDiscovered (isJson : Bool)
  deriving DecidableEq, Repr

/-- What follows the canonical name in a key. -/
def ProjectPart.suffix : ProjectPart → Str
  | .body isJson => ':' :: formatName isJson
  | .stale isJson => ':' :: formatName isJson ++ (":stale" : Str)
  | .notFound => (":404" : Str)
  | .etag => (":etag" : Str)
  | .lastmod => (":lastmod" : Str)
  | .metadataReady isJson => ':' :: formatName isJson ++ (":metadata-ready" : Str)
  | .metadataDiscovered isJson => ':' :: formatName isJson ++ (":metadata-discovered" : Str)

def projectKey (canonical : Str) (part : ProjectPart) : Str :=
  ("simple:" : Str) ++ (canonical ++ part.suffix)

/-- The key of the root index in one format. -/
def indexKey (wantsJson : Bool) : Str := ("simple:index:" : Str) ++ formatName wantsJson

/-- The name of the lock around the upstream fill of a project. -/
def fillLockKey (canonical : Str) : Str := ("simple:" : Str) ++ (canonical ++ (":fill" : Str))

/-! ## Metadata keys -/

/-- `_normalise_artifact_url`: the URL up to its fragment and its query. -/
def normaliseArtifactUrl (fileUrl : Str) : Str := (cut '?' (cut '#' fileUrl).1).1

/-- `_artifact_url_digest`. -/
def artifactUrlDigest (fileUrl : Str) : Str := sha256Hex (utf8 (normaliseArtifactUrl fileUrl))

/-- `_metadata_blob_key`. -/
def metadataBlobKey (U : Unicode) (fileUrl wheelSha256 : Str) : Str :=
  ("metadata:url:" : Str) ++
  (artifactUrlDigest fileUrl ++ ((":sha256:" : Str) ++ lower U wheelSha256))

/-- `_metadata_content_key`. -/
def metadataContentKey (U : Unicode) (metadataSha256 : Str) : Str :=
  ("metadata:content:sha256:" : Str) ++ lower U metadataSha256

/-- `_metadata_url_key`. -/
def metadataUrlKey (fileUrl : Str) : Str :=
  ("metadata:url:" : Str) ++ (artifactUrlDigest fileUrl ++ (":current" : Str))

/-- `_metadata_failure_key`. -/
def metadataFailureKey (U : Unicode) (fileUrl : Str) (wheelSha256 : Option Str) : Str :=
  ("metadata:failure:url:" : Str) ++ (artifactUrlDigest fileUrl ++
    match wheelSha256 with
    | some wheelSha256 => (":wheel-sha256:" : Str) ++ lower U wheelSha256
    | none => (":recovery" : Str))

/-- `_metadata_fill_lock_key`. -/
def metadataFillLockKey (fileUrl : Str) : Str :=
  ("metadata:url:" : Str) ++ (artifactUrlDigest fileUrl ++ (":fill" : Str))

/-- `_body_digest`. That it raises on a body with a lone surrogate counts in a discovery and in a
commit; a reply with such a body cannot be sent anyway. -/
def bodyDigest (body : Str) : Str := sha256Hex (utf8 body)

/-! ## Telling project keys apart -/

/-- No suffix of a project key ends in another one. -/
theorem ProjectPart.suffix_inj_of_suffix {p p' : ProjectPart} (h : p.suffix <:+ p'.suffix) :
    p = p' := by
  have hall : ∀ p p' : ProjectPart, p.suffix.isSuffixOf p'.suffix = true → p = p' := by
    rintro (_ | _ | _ | _ | _ | _ | _) (_ | _ | _ | _ | _ | _ | _) <;> decide +revert
  exact hall p p' (List.isSuffixOf_iff_suffix.mpr h)

/-- **Project keys.** A project key tells its project and its part, whatever
characters the canonical name has. -/
@[simp] theorem projectKey_inj {c c' : Str} {p p' : ProjectPart} :
    projectKey c p = projectKey c' p' ↔ c = c' ∧ p = p' := by
  refine ⟨fun h => ?_, fun ⟨hc, hp⟩ => by rw [hc, hp]⟩
  have h := List.append_cancel_left h
  have hpart : p = p' := by
    rcases List.suffix_or_suffix_of_suffix (List.suffix_append c p.suffix)
      (h ▸ List.suffix_append c' p'.suffix) with hs | hs
    · exact ProjectPart.suffix_inj_of_suffix hs
    · exact (ProjectPart.suffix_inj_of_suffix hs).symm
  subst hpart
  exact ⟨List.append_cancel_right h, rfl⟩

end ProxyCache.App
