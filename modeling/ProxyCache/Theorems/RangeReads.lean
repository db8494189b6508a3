import ProxyCache.App.WheelMetadata

/-!
# Bounded range reads

What `_range_response` keeps of a body, and what the two fetch helpers hand on.
A helper that returns has exactly the extent it asked for. The bytes kept on the
way there are bounded by the request on a 200, but on a 206 only by the extent
that the origin declares, which the helpers compare with the request after the
body has been read.
-/

namespace ProxyCache.Theorems.RangeReads

open ProxyCache.Python ProxyCache.App.WheelMetadata

variable {U : Unicode} {origin : Origin} {url : Str}

/-- `_fetch_suffix` keeps its promise for a suffix of `length` bytes: it never
holds more of the body, and what it returns is the last `min length total`
bytes, as declared, or the whole of a short archive. -/
def SuffixBounded (U : Unicode) (origin : Origin) (url : Str) (length : ℕ) : Prop :=
  let response := origin url (suffixRange length)
  let read := fetchSuffix U origin url length
  read.kept.length ≤ length ∧
    ∀ data total isFull, read.result = .ok (data, total, isFull) →
      data.length = min length total ∧
        if isFull then data = response.chunks.flatten ∧ data.length = total
        else contentRange response = .ok (total - min length total, total - 1, total)

/-- `_fetch_exact` keeps its promise for `length` bytes from `start` of an
archive of `archiveSize` bytes. -/
def ExactBounded (U : Unicode) (origin : Origin) (url : Str) (start length archiveSize : ℤ) :
    Prop :=
  let response := origin url (exactRange start length)
  let read := fetchExact U origin url start length archiveSize
  read.kept.length ≤ length.toNat ∧
    ∀ data, read.result = .ok data →
      (data.length : ℤ) = length ∧
        ∃ a b n : ℕ, contentRange response = .ok (a, b, n) ∧
          (a : ℤ) = start ∧ (b : ℤ) = start + length - 1 ∧ (n : ℤ) = archiveSize

/-- The response is an accepted 206 that declares more than `length` bytes, and
some of its chunks together hold more than `length` bytes without leaving the
declared extent. -/
def Overruns (U : Unicode) (response : OriginResponse) (length : ℕ) : Prop :=
  identityEncoded U response = true ∧ response.status = 206 ∧
    ∃ start stop total, partialRange response = .ok (start, stop, total) ∧
      ∃ n, length < (response.chunks.take n).flatten.length ∧
        (response.chunks.take n).flatten.length ≤ stop - start + 1

/-- What a 206 keeps of its body exceeds `length` exactly when some first chunks
do so within the declared extent. -/
theorem partialBody_kept_le_iff {response : OriginResponse} {start stop total length : ℕ} :
    (partialBody response start stop total).kept.length ≤ length ↔
      ∀ n, (response.chunks.take n).flatten.length ≤ stop - start + 1 →
        (response.chunks.take n).flatten.length ≤ length := by
  have hkept : (partialBody response start stop total).kept =
      (keepUpTo (stop - start + 1) [] response.chunks).1 := by
    unfold partialBody
    dsimp only
    split
    · next h => rw [h]
    · next h => split <;> rw [h]
  rw [hkept]
  constructor
  · intro h n hn
    have hnil : ([] : Bytes).length + (response.chunks.take n).flatten.length ≤ stop
      - start + 1 := by
      simpa using hn
    have := take_length_le_keepUpTo hnil
    simp only [List.length_nil, Nat.zero_add] at this
    omega
  · intro h
    obtain ⟨n, hn⟩ := exists_take_keepUpTo (stop - start + 1) [] response.chunks
    rw [List.nil_append] at hn
    have hle := keepUpTo_length_le response.chunks
      (show ([] : Bytes).length ≤ stop - start + 1 from Nat.zero_le _)
    rw [hn] at hle ⊢
    exact h n hle

/-- A 200 keeps no more of its body than it is allowed to. -/
theorem fullBody_kept_le (response : OriginResponse) (limit : ℕ) (declaredLength : Option ℤ) :
    (fullBody response limit declaredLength).kept.length ≤ limit := by
  have hle := keepUpTo_length_le (rechunk (limit + 1) response.chunks)
    (show ([] : Bytes).length ≤ limit from Nat.zero_le _)
  unfold fullBody
  split
  · next h => rw [h] at hle; exact hle
  · next h =>
    rw [h] at hle
    split
    · exact hle
    · split <;> exact hle

/-- `_range_response` keeps more of the body than `length` exactly when the
origin makes it overrun. -/
theorem kept_le_iff_not_overruns {rangeValue : Str} {allow : Option ℕ} {length : ℕ}
    (hallow : ∀ limit, allow = some limit → limit ≤ length) :
    (rangeResponse U origin url rangeValue allow).kept.length ≤ length ↔
      ¬ Overruns U (origin url rangeValue) length := by
  have hnone : ∀ {e : FetchError}, (Read.refused e : Read RangeData).kept.length ≤ length :=
    Nat.zero_le _
  unfold rangeResponse
  dsimp only
  split
  · next hencoded =>
    refine iff_of_true hnone fun h => ?_
    simp [h.1] at hencoded
  split
  · next hstatus =>
    refine iff_of_true ?_ fun h => absurd (hstatus.symm.trans h.2.1) (by decide)
    split
    · exact hnone
    · next limit =>
      split
      · exact hnone
      · exact Nat.le_trans (fullBody_kept_le _ limit _) (hallow limit rfl)
  split
  · next hstatus => exact iff_of_true hnone fun h => hstatus h.2.1
  next hencoded _ hstatus =>
  simp only [Bool.not_eq_true', Bool.not_eq_false] at hencoded
  split
  · next e hrange =>
    refine iff_of_true hnone fun h => ?_
    obtain ⟨start, stop, total, hok, -⟩ := h.2.2
    rw [hrange] at hok
    cases hok
  · next start stop total hrange =>
    rw [partialBody_kept_le_iff]
    constructor
    · rintro h ⟨-, -, start', stop', total', hok, n, hlong, hwithin⟩
      rw [hrange] at hok
      obtain ⟨rfl, rfl, rfl⟩ : start = start' ∧ stop = stop' ∧ total = total' := by
        simpa using hok
      exact absurd (h n hwithin) (Nat.not_le.mpr hlong)
    · intro h n hwithin
      refine Nat.not_lt.mp fun hlong => h ?_
      exact ⟨by simpa using hencoded, not_not.mp hstatus, start, stop, total, hrange, n, hlong,
        hwithin⟩

/-! ## The extent of what is returned -/

/-- A suffix that is returned is the last `min length total` bytes. -/
theorem fetchSuffix_extent {length total : ℕ} {data : Bytes} {isFull : Bool}
    (h : (fetchSuffix U origin url length).result = .ok (data, total, isFull)) :
    data.length = min length total ∧
      if isFull then data = (origin url (suffixRange length)).chunks.flatten ∧ data.length = total
      else contentRange (origin url (suffixRange length)) =
        .ok (total - min length total, total - 1, total) := by
  unfold fetchSuffix at h
  cases hread : (rangeResponse U origin url (suffixRange length) (some length)).result with
  | error e => simp [hread, bind, Except.bind] at h
  | ok r =>
    simp only [hread, bind, Except.bind] at h
    split at h
    · cases h
    next hexpected =>
    obtain ⟨hstart, hstop⟩ : r.start = r.total - length ∧ r.stop = r.total - 1 := by
      simpa using hexpected
    obtain ⟨rfl, rfl, rfl⟩ : r.data = data ∧ r.total = total ∧ r.isFullResponse = isFull := by
      simpa [pure, Except.pure] using h
    rcases rangeResponse_ok hread with ⟨limit, hlimit, hr, hlen, -, hle⟩ | ⟨hfull, hrange, hlen⟩
    · obtain rfl := Option.some.inj hlimit
      rw [hr] at hlen ⊢
      simp only at hlen hle ⊢
      exact ⟨by omega, by simpa using hlen⟩
    · have hbounds := contentRange_bounds hrange
      have hfrom : r.start = r.total - min length r.total := by omega
      rw [hfull]
      refine ⟨by omega, ?_⟩
      simpa only [Bool.false_eq_true, if_false, ← hfrom, ← hstop] using hrange

/-- An exact range that is returned is the one that was asked for. -/
theorem fetchExact_extent {start length archiveSize : ℤ} {data : Bytes}
    (h : (fetchExact U origin url start length archiveSize).result = .ok data) :
    (data.length : ℤ) = length ∧
      ∃ a b n : ℕ, contentRange (origin url (exactRange start length)) = .ok (a, b, n) ∧
        (a : ℤ) = start ∧ (b : ℤ) = start + length - 1 ∧ (n : ℤ) = archiveSize := by
  unfold fetchExact at h
  split at h
  · cases h
  next hvalid =>
  cases hread : (rangeResponse U origin url (exactRange start length) none).result with
  | error e => simp [hread, bind, Except.bind] at h
  | ok r =>
    simp only [hread, bind, Except.bind] at h
    split at h
    · cases h
    next hexpected =>
    obtain ⟨htotal, hstart, hstop⟩ :
        (r.total : ℤ) = archiveSize ∧ (r.start : ℤ) = start ∧
          (r.stop : ℤ) = start + length - 1 := by
      simpa using hexpected
    obtain rfl : r.data = data := by simpa [pure, Except.pure] using h
    rcases rangeResponse_ok hread with ⟨limit, hlimit, -⟩ | ⟨-, hrange, hlen⟩
    · cases hlimit
    · have hbounds := contentRange_bounds hrange
      exact ⟨by omega, r.start, r.stop, r.total, hrange, hstart, hstop, htotal⟩

/-- **Bounded range reads.** The suffix request keeps its promise exactly when
the origin does not make it overrun, and so does every exact request that is
sent at all. -/
theorem rangeReads_bounded_iff (U : Unicode) (origin : Origin) (url : Str) :
    (∀ length, SuffixBounded U origin url length ↔
      ¬ Overruns U (origin url (suffixRange length)) length) ∧
    ∀ start length archiveSize, ExactBounded U origin url start length archiveSize ↔
      (length ≤ 0 ∨ start < 0 ∨ start + length > archiveSize) ∨
        ¬ Overruns U (origin url (exactRange start length)) length.toNat := by
  constructor
  · intro length
    have hkept := @kept_le_iff_not_overruns U origin url (suffixRange length) (some length) length
      (by simp)
    rw [← hkept]
    exact ⟨And.left, fun h => ⟨h, fun _ _ _ => fetchSuffix_extent⟩⟩
  · intro start length archiveSize
    by_cases hrefused : length ≤ 0 ∨ start < 0 ∨ start + length > archiveSize
    · refine iff_of_true ⟨?_, fun _ => fetchExact_extent⟩ (.inl hrefused)
      rw [fetchExact, if_pos hrefused]
      exact Nat.zero_le _
    · have hkept : (fetchExact U origin url start length archiveSize).kept =
          (rangeResponse U origin url (exactRange start length) none).kept := by
        rw [fetchExact, if_neg hrefused]
      have hkeeps := @kept_le_iff_not_overruns U origin url (exactRange start length) none
        length.toNat (by simp)
      rw [or_iff_right hrefused, ← hkeeps, ← hkept]
      exact ⟨And.left, fun h => ⟨h, fun _ => fetchExact_extent⟩⟩

/-- An origin that answers a request for four bytes with a range of ten. -/
def generousOrigin : Origin := fun _ _ =>
  { status := 206, contentEncoding := none, contentLength := none,
    contentRange := some ("bytes 0-9/10" : Str), chunks := [List.replicate 10 0] }

/-- Asked for the first four bytes of an archive of ten, the read holds ten. -/
theorem not_bounded_generousOrigin :
    ¬ ∀ (U : Unicode) (origin : Origin) (url : Str) (start length archiveSize : ℤ),
      ExactBounded U origin url start length archiveSize := by
  intro h
  have := (h asciiOnly generousOrigin [] 0 4 10).1
  exact absurd this (by decide)

end ProxyCache.Theorems.RangeReads
