import ProxyCache.Python.Text
import Mathlib.Data.List.Basic

/-!
# Range reads (`app/wheel_metadata.py`)

`_range_response` and its two callers. An origin answers a request for a range
with any status, headers and body chunks; a read is described by what it
returned or raised and by the body bytes it had kept by then.
-/

namespace ProxyCache.App.WheelMetadata

open ProxyCache.Lib ProxyCache.Python

def maxArchiveSize : ℕ := 32 * 1024 * 1024 * 1024

def eocdSize : ℕ := 22

/-- `_MAX_EOCD_SEARCH`: the length of the suffix that extraction asks for. -/
def maxEocdSearch : ℕ := eocdSize + 65535

/-- What a read can raise. A `ValueError` comes out of `int` when a number of the
`Content-Range` is too long. -/
inductive FetchError where
  | wheelMetadata (message : Str)
  | rangeNotSupported (message : Str)
  | valueError
  deriving DecidableEq

/-- A streamed response; a header that is not sent is `none`. -/
structure OriginResponse where
  status : ℕ
  contentEncoding : Option Str
  contentLength : Option Str
  contentRange : Option Str
  chunks : List Bytes

/-- What answers a request for a URL with a `Range` header. -/
abbrev Origin := Str → Str → OriginResponse

/-- The value of `_range_response`. -/
structure RangeData where
  data : Bytes
  start : ℕ
  stop : ℕ
  total : ℕ
  isFullResponse : Bool

/-- What a read returned or raised, and the body bytes it had kept by then. -/
structure Read (α : Type) where
  kept : Bytes
  result : Except FetchError α

/-- Raised before the body was touched. -/
def Read.refused {α : Type} (e : FetchError) : Read α := ⟨[], .error e⟩

/-! ## The headers of a partial response -/

/-- `bytes` as the regular expression matches it without regard to case. -/
def isBytesUnit (unit : Str) : Bool :=
  match matchWord ("bytes" : Str) unit with
  | some (_, []) => true
  | _ => false

/-- The groups of `_CONTENT_RANGE_RE.fullmatch`. -/
def matchContentRange (value : Str) : Option (Str × Str × Str) :=
  match cut ' ' value with
  | (unit, some ranges) =>
    match cut '-' ranges with
    | (start, some rest) =>
      match cut '/' rest with
      | (stop, some total) =>
        if isBytesUnit unit && [start, stop, total].all fun ds => ds != [] && ds.all isDecimal
        then some (start, stop, total) else none
      | _ => none
    | _ => none
  | _ => none

/-- The declared `(start, end, total)`, once it has passed the checks. -/
def contentRange (response : OriginResponse) : Except FetchError (ℕ × ℕ × ℕ) :=
  match matchContentRange (strip (response.contentRange.getD [])) with
  | none => .error (.wheelMetadata ("missing or invalid Content-Range" : Str))
  | some (start, stop, total) =>
    match intOfDigits start, intOfDigits stop, intOfDigits total with
    | some start, some stop, some total =>
      if total = 0 ∨ total > maxArchiveSize ∨ start > stop ∨ stop ≥ total then
        .error (.wheelMetadata ("invalid Content-Range bounds" : Str))
      else .ok (start, stop, total)
    | _, _, _ => .error .valueError

/-- `Content-Length`, when it is sent, agrees with the declared range. -/
def checkContentLength (response : OriginResponse) (expectedLength : ℕ) :
    Except FetchError Unit :=
  match response.contentLength with
  | none => .ok ()
  | some value =>
    match int value with
    | none => .error (.wheelMetadata ("invalid Content-Length" : Str))
    | some n =>
      if n ≠ expectedLength then
        .error (.wheelMetadata ("Content-Length does not match Content-Range" : Str))
      else .ok ()

/-- The headers of a 206 have been accepted with this declared range. -/
def partialRange (response : OriginResponse) : Except FetchError (ℕ × ℕ × ℕ) := do
  let (start, stop, total) ← contentRange response
  checkContentLength response (stop - start + 1)
  return (start, stop, total)

/-! ## The body -/

/-- The body loop: a chunk is kept unless it takes the body past `limit`, and
then the loop raises (`false`). -/
def keepUpTo (limit : ℕ) : Bytes → List Bytes → Bytes × Bool
  | kept, [] => (kept, true)
  | kept, chunk :: chunks =>
    if kept.length + chunk.length > limit then (kept, false)
    else keepUpTo limit (kept ++ chunk) chunks

/-- The body of a 206, read against the declared range. -/
def partialBody (response : OriginResponse) (start stop total : ℕ) : Read RangeData :=
  let expectedLength := stop - start + 1
  match keepUpTo expectedLength [] response.chunks with
  | (kept, false) =>
    ⟨kept, .error (.wheelMetadata ("range response exceeded declared length" : Str))⟩
  | (kept, true) =>
    if kept.length ≠ expectedLength then
      ⟨kept, .error (.wheelMetadata ("truncated range response" : Str))⟩
    else ⟨kept, .ok ⟨kept, start, stop, total, false⟩⟩

/-- The declared length of a 200, once it has passed the check against the limit. -/
def fullLength (response : OriginResponse) (limit : ℕ) : Except FetchError (Option ℤ) :=
  match response.contentLength with
  | none => .ok none
  | some value =>
    match int value with
    | none => .error (.wheelMetadata ("invalid Content-Length" : Str))
    | some n =>
      if n > limit then
        .error (.rangeNotSupported
          ("server ignored the Range request and response exceeds safe limit" : Str))
      else .ok (some n)

/-- `aiter_bytes(chunk_size=n)`: the body in chunks of `n` bytes. -/
def rechunk (n : ℕ) (chunks : List Bytes) : List Bytes :=
  pieces n chunks.flatten.length chunks.flatten

/-- The body of a 200 that is taken for the whole archive. -/
def fullBody (response : OriginResponse) (limit : ℕ) (declaredLength : Option ℤ) :
    Read RangeData :=
  match keepUpTo limit [] (rechunk (limit + 1) response.chunks) with
  | (kept, false) =>
    ⟨kept, .error (.rangeNotSupported
      ("server ignored the Range request and response exceeds safe limit" : Str))⟩
  | (kept, true) =>
    if declaredLength.any fun n : ℤ => n ≠ kept.length then
      ⟨kept, .error (.wheelMetadata ("Content-Length does not match response body" : Str))⟩
    else if kept.length = 0 ∨ kept.length > maxArchiveSize then
      ⟨kept, .error (.wheelMetadata ("invalid archive size" : Str))⟩
    else ⟨kept, .ok ⟨kept, 0, kept.length - 1, kept.length, true⟩⟩

/-- The response is not compressed. -/
def identityEncoded (U : Unicode) (response : OriginResponse) : Bool :=
  let contentEncoding := lower U (response.contentEncoding.getD ("identity" : Str))
  contentEncoding == [] || contentEncoding == ("identity" : Str)

/-- `_range_response`. -/
def rangeResponse (U : Unicode) (origin : Origin) (url rangeValue : Str)
    (allowFullResponseUpTo : Option ℕ) : Read RangeData :=
  let response := origin url rangeValue
  if !identityEncoded U response then
    .refused (.wheelMetadata ("range response used content encoding" : Str))
  else if response.status = 200 then
    match allowFullResponseUpTo with
    | none => .refused (.rangeNotSupported ("server ignored the Range request" : Str))
    | some limit =>
      match fullLength response limit with
      | .error e => .refused e
      | .ok declaredLength => fullBody response limit declaredLength
  else if response.status ≠ 206 then
    .refused (.wheelMetadata (("range request returned HTTP " : Str) ++ str response.status))
  else
    match partialRange response with
    | .error e => .refused e
    | .ok (start, stop, total) => partialBody response start stop total

/-! ### What the body loop keeps -/

/-- A chunk that was kept stays kept. -/
theorem prefix_keepUpTo (limit : ℕ) (kept : Bytes) (chunks : List Bytes) :
    kept <+: (keepUpTo limit kept chunks).1 := by
  induction chunks generalizing kept with
  | nil => exact List.prefix_rfl
  | cons chunk chunks ih =>
    rw [keepUpTo]
    split
    · exact List.prefix_rfl
    · exact (List.prefix_append kept chunk).trans (ih (kept ++ chunk))

/-- The loop never holds more than its limit. -/
theorem keepUpTo_length_le {limit : ℕ} {kept : Bytes} (chunks : List Bytes)
    (h : kept.length ≤ limit) : (keepUpTo limit kept chunks).1.length ≤ limit := by
  induction chunks generalizing kept with
  | nil => exact h
  | cons chunk chunks ih =>
    rw [keepUpTo]
    split
    · exact h
    · exact ih (by rw [List.length_append]; omega)

/-- What is kept is what the first few chunks hold. -/
theorem exists_take_keepUpTo (limit : ℕ) (kept : Bytes) (chunks : List Bytes) :
    ∃ n, (keepUpTo limit kept chunks).1 = kept ++ (chunks.take n).flatten := by
  induction chunks generalizing kept with
  | nil => exact ⟨0, by simp [keepUpTo]⟩
  | cons chunk chunks ih =>
    rw [keepUpTo]
    split
    · exact ⟨0, by simp⟩
    · obtain ⟨n, hn⟩ := ih (kept ++ chunk)
      exact ⟨n + 1, by rw [hn]; simp⟩

/-- As many chunks are kept as fit the limit. -/
theorem take_length_le_keepUpTo {limit n : ℕ} {kept : Bytes} {chunks : List Bytes}
    (h : kept.length + (chunks.take n).flatten.length ≤ limit) :
    kept.length + (chunks.take n).flatten.length ≤ (keepUpTo limit kept chunks).1.length := by
  induction chunks generalizing kept n with
  | nil => simp [keepUpTo]
  | cons chunk chunks ih =>
    cases n with
    | zero => simpa using (prefix_keepUpTo limit kept (chunk :: chunks)).length_le
    | succ n =>
      simp only [List.take_succ_cons, List.flatten_cons, List.length_append] at h ⊢
      rw [keepUpTo, if_neg (by omega)]
      have hlen : (kept ++ chunk).length = kept.length + chunk.length := List.length_append
      have := @ih n (kept ++ chunk) (by omega)
      omega

/-- A loop that runs to its end has kept every chunk. -/
theorem keepUpTo_of_done {limit : ℕ} {kept : Bytes} {chunks : List Bytes}
    (h : (keepUpTo limit kept chunks).2 = true) :
    (keepUpTo limit kept chunks).1 = kept ++ chunks.flatten := by
  induction chunks generalizing kept with
  | nil => simp [keepUpTo]
  | cons chunk chunks ih =>
    rw [keepUpTo] at h ⊢
    split
    · next hover => simp [hover] at h
    · next hfits =>
      rw [if_neg hfits] at h
      rw [ih h]
      simp

/-- Chunking a body anew does not change it. -/
theorem flatten_rechunk {n : ℕ} (hn : 0 < n) (chunks : List Bytes) :
    (rechunk n chunks).flatten = chunks.flatten :=
  flatten_pieces hn (Nat.le_refl _)

/-! ### What a read returns -/

/-- An accepted range is not empty and ends within the archive. -/
theorem contentRange_bounds {response : OriginResponse} {start stop total : ℕ}
    (h : contentRange response = .ok (start, stop, total)) :
    start ≤ stop ∧ stop < total := by
  unfold contentRange at h
  split at h
  · cases h
  · split at h
    · split at h
      · cases h
      · next hbounds =>
        simp only [Except.ok.injEq, Prod.mk.injEq] at h
        obtain ⟨rfl, rfl, rfl⟩ := h
        omega
    · cases h

/-- The headers of a 206 are accepted with the range they declare. -/
theorem contentRange_of_partialRange {response : OriginResponse} {range : ℕ × ℕ × ℕ}
    (h : partialRange response = .ok range) : contentRange response = .ok range := by
  unfold partialRange at h
  cases hrange : contentRange response with
  | error e => rw [hrange] at h; cases h
  | ok declared =>
    rw [hrange] at h
    simp only [bind, Except.bind] at h
    split at h
    · cases h
    · exact h

/-- The body of a 206 that is returned has the declared length. -/
theorem partialBody_ok {response : OriginResponse} {start stop total : ℕ} {r : RangeData}
    (h : (partialBody response start stop total).result = .ok r) :
    r = ⟨r.data, start, stop, total, false⟩ ∧ r.data.length = stop - start + 1 := by
  unfold partialBody at h
  dsimp only at h
  split at h
  · cases h
  · split at h
    · cases h
    · next hlen =>
      obtain rfl := Except.ok.inj h
      exact ⟨rfl, not_not.mp hlen⟩

/-- The body of a 200 that is returned is all there is, and within the limit. -/
theorem fullBody_ok {response : OriginResponse} {limit : ℕ} {declaredLength : Option ℤ}
    {r : RangeData} (h : (fullBody response limit declaredLength).result = .ok r) :
    r = ⟨response.chunks.flatten, 0, r.total - 1, r.total, true⟩ ∧
      r.data.length = r.total ∧ 0 < r.total ∧ r.total ≤ limit := by
  have hle := keepUpTo_length_le (rechunk (limit + 1) response.chunks)
    (show ([] : Bytes).length ≤ limit from Nat.zero_le _)
  unfold fullBody at h
  split at h
  · cases h
  · next kept hkeep =>
    have hall := keepUpTo_of_done (congrArg Prod.snd hkeep)
    rw [hkeep] at hle hall
    rw [List.nil_append, flatten_rechunk (Nat.succ_pos limit)] at hall
    split at h
    · cases h
    · split at h
      · cases h
      · next hsize =>
        obtain rfl := Except.ok.inj h
        exact ⟨by rw [show kept = response.chunks.flatten from hall], rfl, by simp only; omega, hle⟩

/-- What `_range_response` returns is a whole short archive or the declared
range. -/
theorem rangeResponse_ok {U : Unicode} {origin : Origin} {url rangeValue : Str}
    {allow : Option ℕ} {r : RangeData}
    (h : (rangeResponse U origin url rangeValue allow).result = .ok r) :
    (∃ limit, allow = some limit ∧
      r = ⟨(origin url rangeValue).chunks.flatten, 0, r.total - 1, r.total, true⟩ ∧
      r.data.length = r.total ∧ 0 < r.total ∧ r.total ≤ limit) ∨
    (r.isFullResponse = false ∧
      contentRange (origin url rangeValue) = .ok (r.start, r.stop, r.total) ∧
      r.data.length = r.stop - r.start + 1) := by
  unfold rangeResponse at h
  simp only at h
  split at h
  · cases h
  split at h
  · split at h
    · cases h
    · split at h
      · cases h
      · exact .inl ⟨_, rfl, fullBody_ok h⟩
  split at h
  · cases h
  split at h
  · cases h
  · next range start stop total hrange =>
    obtain ⟨hr, hlen⟩ := partialBody_ok h
    refine .inr ?_
    rw [hr]
    exact ⟨rfl, contentRange_of_partialRange hrange, hlen⟩

/-! ## The two requests -/

/-- The `Range` header of a suffix request. -/
def suffixRange (length : ℕ) : Str := ("bytes=-" : Str) ++ str length

/-- `_fetch_suffix`: the data, the archive size and whether it is all of it. -/
def fetchSuffix (U : Unicode) (origin : Origin) (url : Str) (length : ℕ) :
    Read (Bytes × ℕ × Bool) :=
  let read := rangeResponse U origin url (suffixRange length) (some length)
  ⟨read.kept, do
    let r ← read.result
    let expectedStart := r.total - length
    if r.start ≠ expectedStart ∨ r.stop ≠ r.total - 1 then
      throw (.wheelMetadata ("server returned the wrong suffix range" : Str))
    return (r.data, r.total, r.isFullResponse)⟩

/-- The `Range` header of an exact request. -/
def exactRange (start length : ℤ) : Str :=
  ("bytes=" : Str) ++ str start ++ '-' :: str (start + length - 1)

/-- `_fetch_exact`. -/
def fetchExact (U : Unicode) (origin : Origin) (url : Str) (start length archiveSize : ℤ) :
    Read Bytes :=
  if length ≤ 0 ∨ start < 0 ∨ start + length > archiveSize then
    .refused (.wheelMetadata ("invalid ZIP byte range" : Str))
  else
    let read := rangeResponse U origin url (exactRange start length) none
    ⟨read.kept, do
      let r ← read.result
      if (r.total : ℤ) ≠ archiveSize ∨ (r.start : ℤ) ≠ start ∨ (r.stop : ℤ) ≠ start + length - 1
      then throw (.wheelMetadata ("server returned the wrong byte range" : Str))
      return r.data⟩

end ProxyCache.App.WheelMetadata
