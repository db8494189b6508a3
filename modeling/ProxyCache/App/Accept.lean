import ProxyCache.Python.Text
import Mathlib.Algebra.Order.Ring.Rat

/-!
# Accept headers (`app/accept.py`)

What `float` makes of a `q` parameter is a parameter here; `none` is its
`ValueError`.
-/

namespace ProxyCache.App

open ProxyCache.Lib ProxyCache.Python

variable (U : Unicode) (float : Str → Option ℚ)

def contentTypeJson : Str := ("application/vnd.pypi.simple.v1+json" : Str)

def contentTypeHtml : Str := ("text/html" : Str)

/-- A media range of an `Accept` header: its type and its parameters. -/
def mediaRange (part : Str) : Str × List Str :=
  let (candidate, params) := cut ';' (strip part)
  (lower U (strip candidate), (params.getD []).splitOn ';')

/-- The value of a parameter called `q`. -/
def qParam (param : Str) : Option Str :=
  let (key, value) := cut '=' param
  if lower U (strip key) = ("q" : Str) then some (strip (value.getD [])) else none

/-- How specifically a media range names `mediaType`. -/
def specificity (candidate mediaType : Str) : Option ℕ :=
  if candidate = mediaType then some 2
  else if candidate = (cut '/' mediaType).1 ++ ("/*" : Str) then some 1
  else if candidate = ("*/*" : Str) then some 0
  else none

/-- The quality that the parameters of a range give: the last `q` wins. -/
def rangeQuality (params : List Str) : ℚ :=
  params.foldl (fun quality param =>
    match qParam U param with
    | some value => (float value).getD 1
    | none => quality) 1

/-- `_quality`. -/
def quality (accept mediaType : Str) : Option ℚ :=
  ((accept.splitOn ',').foldl (fun best part =>
    let (candidate, params) := mediaRange U part
    match specificity candidate mediaType, best with
    | none, best => best
    | some s, none => some (s, rangeQuality U float params)
    | some s, some (s', q') =>
      if s > s' then some (s, rangeQuality U float params)
      else if s = s' then some (s', max q' (rangeQuality U float params))
      else some (s', q')) (none : Option (ℕ × ℚ))).map (·.2)

/-- `accepts_html`. -/
def acceptsHtml (accept : Option Str) : Bool :=
  match accept with
  | none => true
  | some accept => accept = [] || (quality U float accept contentTypeHtml).getD 0 > 0

/-- What the first `q` of a JSON range says. -/
def jsonAcceptable (params : List Str) : Bool :=
  match params.findSome? (qParam U) with
  | some value => (float value).elim true (· > 0)
  | none => true

/-- `want_json`. -/
def wantJson (accept : Option Str) : Bool :=
  match accept with
  | none => false
  | some accept =>
    accept != [] &&
      match ((accept.splitOn ',').map (mediaRange U)).find? (·.1 == contentTypeJson) with
      | some (_, params) => jsonAcceptable U float params
      | none => false

end ProxyCache.App
