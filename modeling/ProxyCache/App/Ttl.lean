import ProxyCache.App.Config

/-!
# Lifetimes from the upstream (`app/ttl.py`)
-/

namespace ProxyCache.App

open ProxyCache.Python

/-- The digits of the first `max-age\s*=\s*(\d+)`. -/
def searchMaxAge : Str → Option Str
  | [] => none
  | c :: s =>
    let here := do
      let (_, behind) ← matchWord ("max-age" : Str) (c :: s)
      match behind.dropWhile isSpace with
      | '=' :: rest =>
        let digits := (rest.dropWhile isSpace).takeWhile isDecimal
        if digits = [] then none else some digits
      | _ => none
    here.or (searchMaxAge s)

/-- `parse_max_age`. -/
def parseMaxAge (cacheControl : Option Str) : Option ℕ :=
  cacheControl.bind fun value => (searchMaxAge value).bind intOfDigits

/-- `MIN_UPSTREAM_TTL_SECONDS`. -/
def minUpstreamTtlSeconds : ℤ := 5

/-- `effective_project_ttl`, of the `Cache-Control` among the headers. -/
def effectiveProjectTtl (settings : Settings) (cacheControl : Option Str) : ℤ :=
  match parseMaxAge cacheControl with
  | some maxAge =>
    if (maxAge : ℤ) < settings.cacheProjectTtlSeconds then max (maxAge : ℤ) minUpstreamTtlSeconds
    else settings.cacheProjectTtlSeconds
  | none => settings.cacheProjectTtlSeconds

example : effectiveProjectTtl {} (some ("public, Max-Age = 7" : Str)) = 7 := by decide

end ProxyCache.App
