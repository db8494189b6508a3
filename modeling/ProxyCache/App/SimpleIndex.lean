import ProxyCache.App.SimpleProject

/-!
# The index route (`app/simple_index.py`)

What is made of the names in the upstream's index is a parameter: the cache and
its keys do not depend on it.
-/

namespace ProxyCache.App

open ProxyCache.Lib ProxyCache.Python

variable (s : Site)

/-- The GET for the root index. -/
def indexRequest : UpstreamRequest where
  url := rstripChar '/' s.settings.upstreamSimpleUrl ++ ['/']
  accept := ("application/vnd.pypi.simple.v1+json, text/html;q=0.9" : Str)

/-- The upstream's index is rendered, stored and served. -/
def storeIndex (render : Bool → UpstreamResponse → Except Raised Str) (wantsJson : Bool)
    (response : UpstreamResponse) : Program Outcome :=
  match render wantsJson response with
  | .error e => return .error (.raised e)
  | .ok body => do
    cacheSetex (indexKey wantsJson) s.settings.cacheTtlSeconds body
    return .ok { body, mediaType := mediaTypeOf wantsJson, headers := [xCache ("MISS" : Str)] }

/-- `simple_index`. -/
def simpleIndex (render : Bool → UpstreamResponse → Except Raised Str) (accept : Option Str) :
    Program Outcome := do
  let wantsJson := wantJson s.U s.float accept
  match (← cacheGet (indexKey wantsJson)).filter (· ≠ []) with
  | some body =>
    return .ok { body, mediaType := mediaTypeOf wantsJson,
                 headers := [xCache ("HIT" : Str), xSynthesis ("0" : Str)] }
  | none =>
    match ← call (.httpGet (indexRequest s)) with
    | none => return .error upstreamError
    | some response =>
      -- raise_for_status
      if response.status / 100 ≠ 2 then return .error upstreamError
      else storeIndex s render wantsJson response

end ProxyCache.App
