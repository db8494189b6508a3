import ProxyCache.App.MetadataRoute
import ProxyCache.App.SimpleIndex
import ProxyCache.App.Systems

/-!
# The whole service

All routes that use the cache, for any projects, together with the background tasks.
Without Redis there is one process; the store of several would not be shared.
-/

namespace ProxyCache.App

open ProxyCache.Lib ProxyCache.Python

variable (s : Site)

/-- A request on one of the routes, or a background task. -/
inductive ServiceTask where
  | project (name : Str) (accept : Option Str)
  | index (render : Bool → UpstreamResponse → Except Raised Str) (accept : Option Str)
  | metadata (host path query : Str)
  | background (job : Job)

/-- The coroutine of a background task. -/
def Job.prog (pid : ℕ) : Job → Program (Except Raised Unit)
  | .enrich canonical body isJson => App.enrich s pid canonical body isJson
  | .extract canonical isJson bodyDigest =>
    extractProjectAfterIdle s pid canonical isJson bodyDigest

def ServiceTask.prog (pid : ℕ) : ServiceTask → Program TaskResult
  | .project name accept => do
    let outcome ← simpleProject s pid name accept
    return outcome.map some
  | .index render accept => do
    let outcome ← simpleIndex s render accept
    return outcome.map some
  | .metadata host path query => do
    let outcome ← wheelMetadata s pid host path query
    return outcome.map some
  | .background job => do
    let result ← job.prog s pid
    return logged result

/-- The processes over one store, with all that they run. -/
def deployment (B : Backend) (upstream : Upstream) :
    System Op Ret World (ℕ × ServiceTask) TaskResult where
  toEffects := effects B upstream
  prog e := e.2.prog s e.1
  init := Fresh
  env := Drift

end ProxyCache.App
