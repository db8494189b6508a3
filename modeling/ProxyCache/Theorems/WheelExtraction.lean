import ProxyCache.Theorems.RangeServer
import ProxyCache.Theorems.WheelFormat

/-!
# Extraction is sound and fails closed

What extraction returns from an archive is the metadata that the archive holds
under the name of the wheel, and whatever else the bytes are, it refuses them
with a `WheelMetadataError`. What `urlparse` and `packaging` raise on the names is
not always turned into one.
-/

namespace ProxyCache.Theorems.WheelExtraction

open ProxyCache.Lib ProxyCache.Python ProxyCache.App.WheelMetadata
open ProxyCache.App (Packaging plainReleases)

/-! ## What is read from the origin -/

section Reads

variable {U : Unicode} {origin : Origin} {url : Str} {A : Bytes}

/-- A body loop that is given no more than its limit keeps it all. -/
theorem keepUpTo_all {limit : ℕ} {chunks : List Bytes} :
    ∀ {kept : Bytes}, kept.length + chunks.flatten.length ≤ limit →
      keepUpTo limit kept chunks = (kept ++ chunks.flatten, true) := by
  induction chunks with
  | nil =>
    intro kept _
    simp [keepUpTo]
  | cons chunk chunks ih =>
    intro kept h
    rw [List.flatten_cons, List.length_append] at h
    rw [keepUpTo, if_neg (by omega), ih (by rw [List.length_append]; omega), List.flatten_cons,
      List.append_assoc]

theorem contentRange_of_answers {response : OriginResponse} {start stop : ℕ}
    (h : AnswersPart response A start stop) (hstart : start ≤ stop) (hstop : stop < A.length) :
    contentRange response = if A.length > maxArchiveSize then
        .error (.wheelMetadata ("invalid Content-Range bounds" : Str))
      else .ok (start, stop, A.length) := by
  obtain ⟨first, last, total, hmatch, hfirst, hlast, htotal⟩ := h.range
  unfold contentRange
  rw [hmatch]
  dsimp only
  rw [hfirst, hlast, htotal]
  dsimp only
  split_ifs with hbounds hsize hsize
  · rfl
  · omega
  · omega
  · rfl

/-- A 206 is read as the part that it carries. -/
theorem rangeResponse_part {rangeValue : Str} {start stop : ℕ} (allow : Option ℕ)
    (hidentity : identityEncoded U (origin url rangeValue) = true)
    (h : AnswersPart (origin url rangeValue) A start stop) (hstart : start ≤ stop)
    (hstop : stop < A.length) :
    (rangeResponse U origin url rangeValue allow).result = if A.length > maxArchiveSize then
        .error (.wheelMetadata ("invalid Content-Range bounds" : Str))
      else .ok ⟨part A start (stop - start + 1), start, stop, A.length, false⟩ := by
  have hrange := contentRange_of_answers h hstart hstop
  have hlength : checkContentLength (origin url rangeValue) (stop - start + 1) = .ok () := by
    unfold checkContentLength
    cases hvalue : (origin url rangeValue).contentLength with
    | none => rfl
    | some value =>
      dsimp only
      rw [h.length value (by rw [hvalue]; rfl)]
      exact if_neg (by simp)
  have hbody : (part A start (stop - start + 1)).length = stop - start + 1 :=
    length_part (by omega)
  have hkeep : keepUpTo (stop - start + 1) [] (origin url rangeValue).chunks =
      (part A start (stop - start + 1), true) := by
    rw [keepUpTo_all (by rw [h.body, hbody]; simp), h.body, List.nil_append]
  unfold rangeResponse partialRange
  simp only [hidentity, h.status, hrange, Bool.not_true, Bool.false_eq_true, if_false]
  by_cases hsize : A.length > maxArchiveSize
  · simp only [if_pos hsize]
    rfl
  · simp only [if_neg hsize, bind, Except.bind, hlength, pure, Except.pure,
      partialBody, hkeep, hbody]
    rw [if_neg (by decide), if_neg (by simp), if_neg (by simp)]

/-- A 200 is read as the whole archive. -/
theorem rangeResponse_whole {rangeValue : Str} {limit : ℕ}
    (hidentity : identityEncoded U (origin url rangeValue) = true)
    (h : AnswersWhole (origin url rangeValue) A) (hne : A ≠ []) (hlimit : A.length ≤ limit)
    (hsize : A.length ≤ maxArchiveSize) :
    (rangeResponse U origin url rangeValue (some limit)).result =
      .ok ⟨A, 0, A.length - 1, A.length, true⟩ := by
  have hpos : 0 < A.length := List.length_pos_iff.mpr hne
  have hkeep : keepUpTo limit [] (rechunk (limit + 1) (origin url rangeValue).chunks) =
    (A, true) := by
    have hflatten := flatten_rechunk (Nat.succ_pos limit) (origin url rangeValue).chunks
    rw [h.body] at hflatten
    rw [keepUpTo_all (by rw [hflatten]; simpa using hlimit), hflatten, List.nil_append]
  obtain ⟨declared, hfull, hdeclared⟩ : ∃ declared : Option ℤ,
      fullLength (origin url rangeValue) limit = .ok declared ∧
        declared.any (fun n : ℤ => n ≠ A.length) = false := by
    unfold fullLength
    cases hvalue : (origin url rangeValue).contentLength with
    | none => exact ⟨none, rfl, rfl⟩
    | some value =>
      dsimp only
      rw [h.length value (by rw [hvalue]; rfl)]
      exact ⟨some A.length, if_neg (by omega), by simp⟩
  unfold rangeResponse
  simp only [hidentity, h.status, Bool.not_true, Bool.false_eq_true, if_false, if_true, hfull,
    fullBody, hkeep, hdeclared]
  rw [if_neg (by omega)]

/-- The archive is of a size that can be extracted from. -/
def Sized (A : Bytes) : Prop := A ≠ [] ∧ A.length ≤ maxArchiveSize

/-- A suffix that is answered with everything. -/
theorem fetchSuffix_whole {n : ℕ}
    (hidentity : identityEncoded U (origin url (suffixRange n)) = true)
    (hwhole : AnswersWhole (origin url (suffixRange n)) A) (hsized : Sized A) (hle : A.length ≤ n) :
    (fetchSuffix U origin url n).result = .ok (A.drop (A.length - n), A.length, true) := by
  have hread := rangeResponse_whole hidentity hwhole hsized.1 hle hsized.2
  have hzero : A.length - n = 0 := by omega
  unfold fetchSuffix
  simp only [hread, bind, Except.bind, hzero, ne_eq, not_true_eq_false, or_false, if_false,
    List.drop_zero]
  rfl

theorem fetchSuffix_of_serves (h : Serves U origin url A) (hsized : Sized A) {n : ℕ} (hn : 0 < n) :
    ∃ isFull, (fetchSuffix U origin url n).result = .ok (A.drop (A.length - n), A.length, isFull) ∧
      (isFull = true → A.length ≤ n) := by
  have hpos : 0 < A.length := List.length_pos_iff.mpr hsized.1
  rcases h.suffix n hn hsized.1 with hpart | ⟨hle, hwhole⟩
  · have hread := rangeResponse_part (some n) (h.identity _) hpart (by omega) (by omega)
    rw [if_neg (by have := hsized.2; omega)] at hread
    refine ⟨false, ?_, nofun⟩
    unfold fetchSuffix
    simp only [hread, bind, Except.bind, ne_eq, not_true_eq_false, or_false, if_false]
    rw [part_eq_drop (by omega)]
    rfl
  · exact ⟨true, fetchSuffix_whole (h.identity _) hwhole hsized hle, fun _ => hle⟩

/-- An archive that is empty or too large is refused. -/
theorem fetchSuffix_refuses (h : Serves U origin url A) (hsized : ¬ Sized A) {n : ℕ} (hn : 0 < n)
    (hmax : n ≤ maxArchiveSize) :
    ∃ message, (fetchSuffix U origin url n).result = .error (.wheelMetadata message) := by
  have hread : ∀ {e}, (rangeResponse U origin url (suffixRange n) (some n)).result = .error e →
      (fetchSuffix U origin url n).result = .error e := by
    intro e he
    unfold fetchSuffix
    simp only [he]
    rfl
  by_cases hempty : A = []
  · subst hempty
    obtain ⟨hsome, hwhole⟩ := h.empty n rfl
    by_cases hstatus : (origin url (suffixRange n)).status = 200
    · obtain ⟨-, hlength, hbody⟩ := hwhole hstatus
      have hkeep : keepUpTo n [] (rechunk (n + 1) (origin url (suffixRange n)).chunks) =
        ([], true) := by
        rw [rechunk, hbody]
        rfl
      refine ⟨("invalid archive size" : Str), hread ?_⟩
      unfold rangeResponse fullLength
      cases hvalue : (origin url (suffixRange n)).contentLength with
      | none =>
        simp only [h.identity, hstatus, hvalue, fullBody, hkeep]
        rfl
      | some value =>
        have hint : int value = some 0 := hlength value (by rw [hvalue]; rfl)
        simp only [h.identity, hstatus, hvalue, hint, fullBody, hkeep]
        rw [if_neg (show ¬ (0 : ℤ) > n by omega)]
        rfl
    · refine ⟨("range request returned HTTP " : Str) ++ str (origin url (suffixRange n)).status,
        hread ?_⟩
      unfold rangeResponse
      simp only [h.identity, hstatus, hsome, Bool.not_true, Bool.false_eq_true, if_false, ne_eq,
        not_false_eq_true, if_true]
      rfl
  · have hlarge : A.length > maxArchiveSize := by
      by_contra hsmall
      exact hsized ⟨hempty, by omega⟩
    have hpos : 0 < A.length := List.length_pos_iff.mpr hempty
    rcases h.suffix n hn hempty with hpart | ⟨hle, -⟩
    · have hpart := rangeResponse_part (some n) (h.identity _) hpart (by omega) (by omega)
      rw [if_pos hlarge] at hpart
      exact ⟨_, hread hpart⟩
    · omega

theorem fetchExact_of_serves (h : Serves U origin url A) (hsized : Sized A) {start length : ℕ}
    (hlength : 0 < length) (hend : start + length ≤ A.length) :
    (fetchExact U origin url start length A.length).result = .ok (part A start length) := by
  have hanswers := h.exact start (start + length - 1) (by omega) (by omega)
  have hcount : start + length - 1 - start + 1 = length := by omega
  rw [hcount] at hanswers
  have hread := rangeResponse_part none (h.identity _) hanswers (by omega) (by omega)
  rw [if_neg (by have := hsized.2; omega), hcount] at hread
  unfold fetchExact
  rw [if_neg (by omega)]
  simp only [hread, bind, Except.bind]
  rw [if_neg (by omega)]
  rfl

end Reads

/-! ## What is requested -/

/-- The bytes that a `Range` header is about in an archive of this size. -/
inductive Designates (size : ℕ) : Str → ℕ → ℕ → Prop
  | suffix (n : ℕ) : Designates size (suffixRange n) (size - n) size
  | exact (start length : ℕ) : Designates size (exactRange start length) start (start + length)

/-- The header is about bytes that the archive has. -/
def InRange (size : ℕ) (rangeValue : Str) : Prop :=
  ∃ start stop, Designates size rangeValue start stop ∧ start < stop ∧ stop ≤ size

/-- All that has been requested is in range. -/
def Within {α : Type} (size : ℕ) (x : Extraction α) : Prop :=
  ∀ rangeValue ∈ x.requested, InRange size rangeValue

section Requests

variable {α β : Type} {size : ℕ} {x : Extraction α} {f : α → Extraction β}

theorem result_bind (x : Extraction α) (f : α → Extraction β) :
    (x >>= f).result = x.result >>= fun a => (f a).result := by
  cases h : x.result with
  | ok a =>
    simp only [bind, h]
    rfl
  | error e =>
    simp only [bind, h]
    rfl

theorem refuses_result_bind (hx : Refuses x.result)
    (hf : ∀ a, x.result = .ok a → Refuses (f a).result) : Refuses (x >>= f).result := by
  rw [result_bind]
  exact refuses_bind hx hf

theorem ok_of_result_bind {b : β} (h : (x >>= f).result = .ok b) :
    ∃ a, x.result = .ok a ∧ (f a).result = .ok b := by
  rw [result_bind] at h
  exact ok_of_bind h

/-- Steps with the same results, whatever they request. -/
theorem result_bind_congr {y : Extraction α} {g : α → Extraction β} (hx : x.result = y.result)
    (hf : ∀ a, (f a).result = (g a).result) : (x >>= f).result = (y >>= g).result := by
  refine (result_bind x f).trans (Eq.trans ?_ (result_bind y g).symm)
  rw [hx]
  exact bind_congr hf

@[simp] theorem result_lift (r : Except Raise α) : (Extraction.lift r).result = r := rfl

theorem within_lift (r : Except Raise α) : Within size (Extraction.lift r) := nofun

theorem within_bind (hx : Within size x) (hf : ∀ a, x.result = .ok a → Within size (f a)) :
    Within size (x >>= f) := by
  intro rangeValue hmem
  cases h : x.result with
  | ok a =>
    simp only [bind, h] at hmem
    rcases List.mem_append.mp hmem with hmem | hmem
    · exact hx rangeValue hmem
    · exact hf a h rangeValue hmem
  | error e =>
    simp only [bind, h] at hmem
    exact hx rangeValue hmem

end Requests

/-! ## The archive behind the requests -/

/-- A part of an archive that is at hand. -/
def held (A : Bytes) (start length : ℕ) : Extraction Bytes :=
  .lift (if length = 0 ∨ start + length > A.length then
    .error (.wheelMetadata ("invalid ZIP byte range" : Str)) else .ok (part A start length))

/-- The tail that the end record is searched in. -/
def tailOf (A : Bytes) : Bytes := A.drop (A.length - maxEocdSearch)

/-- The member that the archive names for its metadata. -/
def archiveMember (A : Bytes) : Except Raise Member := do
  refuseIf (A.length = 0 ∨ A.length > maxArchiveSize) ("invalid archive size" : Str)
  (locateMember (held A) (tailOf A) A.length).result

theorem held_ok {A : Bytes} {start length : ℕ} {bytes : Bytes}
    (h : (held A start length).result = .ok bytes) :
    bytes = part A start length ∧ 0 < length ∧ start + length ≤ A.length := by
  unfold held at h
  rw [result_lift] at h
  split at h
  · cases h
  · obtain rfl := Except.ok.inj h
    exact ⟨rfl, by omega, by omega⟩

theorem refuses_held (A : Bytes) (start length : ℕ) : Refuses (held A start length).result := by
  unfold held
  rw [result_lift]
  split
  · exact refuses_wheelMetadata _
  · exact refuses_ok _

section Behind

variable {U : Unicode} {origin : Origin} {url : Str} {A : Bytes}

/-- On an origin that serves the archive a part is what the archive holds there,
requested or at hand. -/
theorem fetchPart_of_serves (h : Serves U origin url A) (hsized : Sized A)
    {fullArchive : Option Bytes} (hfull : ∀ archive ∈ fullArchive, archive = A) (start length : ℕ) :
    (fetchPart U origin url fullArchive A.length start length).result =
        (held A start length).result ∧
      Within A.length (fetchPart U origin url fullArchive A.length start length) := by
  unfold fetchPart held
  by_cases hrange : length = 0 ∨ start + length > A.length
  · rw [if_pos hrange, if_pos hrange]
    exact ⟨rfl, within_lift _⟩
  · rw [if_neg hrange, if_neg hrange]
    cases fullArchive with
    | none =>
      have hfetch : (fetchExact U origin url start length A.length).result =
          .ok (part A start length) := fetchExact_of_serves h hsized (by omega) (by omega)
      refine ⟨?_, ?_⟩
      · simp only [Extraction.request, hfetch]
        rfl
      · intro rangeValue hmem
        obtain rfl := List.mem_singleton.mp hmem
        exact ⟨start, start + length, .exact start length, by omega, by omega⟩
    | some archive =>
      obtain rfl := hfull archive rfl
      exact ⟨rfl, within_lift _⟩

/-- Extraction with other ways to the same parts has the same results. -/
theorem result_locateMember {fetch : ℕ → ℕ → Extraction Bytes} {tail : Bytes} {size : ℕ}
    (hfetch : ∀ start length, (fetch start length).result = (held A start length).result) :
    (locateMember fetch tail size).result = (locateMember (held A) tail size).result := by
  refine result_bind_congr rfl fun directory => ?_
  exact result_bind_congr (hfetch directory.1 directory.2.1) fun _ => rfl

theorem within_locateMember {fetch : ℕ → ℕ → Extraction Bytes} {tail : Bytes} {size : ℕ}
    (hfetch : ∀ start length, Within A.length (fetch start length)) :
    Within A.length (locateMember fetch tail size) :=
  within_bind (within_lift _) fun _ _ => within_bind (hfetch _ _) fun _ _ => within_lift _

variable {Z : Zlib} {crc32 : Bytes → ℕ} {member : Member}

theorem result_readMember {fetch : ℕ → ℕ → Extraction Bytes}
    (hfetch : ∀ start length, (fetch start length).result = (held A start length).result) :
    (readMember Z crc32 fetch member).result = (readMember Z crc32 (held A) member).result := by
  refine result_bind_congr rfl fun _ => ?_
  refine result_bind_congr (hfetch _ _) fun localHeader => ?_
  refine result_bind_congr rfl fun lengths => ?_
  refine result_bind_congr (hfetch _ _) fun variablePart => ?_
  refine result_bind_congr rfl fun _ => ?_
  exact result_bind_congr (hfetch _ _) fun _ => rfl

theorem within_readMember {fetch : ℕ → ℕ → Extraction Bytes}
    (hfetch : ∀ start length, Within A.length (fetch start length)) :
    Within A.length (readMember Z crc32 fetch member) :=
  within_bind (within_lift _) fun _ _ => within_bind (hfetch _ _) fun _ _ =>
    within_bind (within_lift _) fun _ _ => within_bind (hfetch _ _) fun _ _ =>
      within_bind (within_lift _) fun _ _ => within_bind (hfetch _ _) fun _ _ => within_lift _

variable {P : Packaging}

theorem maxEocdSearch_le : 0 < maxEocdSearch ∧ maxEocdSearch ≤ maxArchiveSize := by
  unfold maxEocdSearch maxArchiveSize eocdSize
  omega

/-- The first request: the tail of the archive, or all of it. -/
theorem tail_of_serves (h : Serves U origin url A) (hsized : Sized A) :
    ∃ isFull, (Extraction.request (suffixRange maxEocdSearch)
        (fetchSuffix U origin url maxEocdSearch)).result = .ok (tailOf A, A.length, isFull) ∧
      ∀ archive ∈ (if isFull then some (tailOf A) else none), archive = A := by
  obtain ⟨isFull, hsuffix, hfull⟩ := fetchSuffix_of_serves h hsized maxEocdSearch_le.1
  refine ⟨isFull, ?_, ?_⟩
  · rw [Extraction.request, hsuffix, tailOf]
    rfl
  · intro archive harchive
    split at harchive
    · next hisFull =>
      obtain rfl := Option.mem_some.mp harchive
      rw [tailOf, Nat.sub_eq_zero_of_le (hfull hisFull), List.drop_zero]
    · cases harchive

theorem within_tail (hsized : Sized A) : Within A.length (Extraction.request
    (suffixRange maxEocdSearch) (fetchSuffix U origin url maxEocdSearch)) := by
  have hpos : 0 < A.length := List.length_pos_iff.mpr hsized.1
  have hsearch := maxEocdSearch_le.1
  intro rangeValue hmem
  obtain rfl := List.mem_singleton.mp hmem
  exact ⟨A.length - maxEocdSearch, A.length, .suffix maxEocdSearch, by omega, le_refl _⟩

variable (Z crc32 P)

/-- The rest of extraction, from a tail and a way to parts. -/
theorem extract_of_tail {tail : Bytes} {size : ℕ} {isFull : Bool}
    (htail : (Extraction.request (suffixRange maxEocdSearch)
      (fetchSuffix U origin url maxEocdSearch)).result = .ok (tail, size, isFull))
    (hfetch : ∀ start length,
      (fetchPart U origin url (if isFull then some tail else none) size start length).result =
        (held A start length).result ∧
      Within A.length (fetchPart U origin url (if isFull then some tail else none) size
        start length))
    (hwithin : Within A.length (Extraction.request (suffixRange maxEocdSearch)
      (fetchSuffix U origin url maxEocdSearch))) :
    (extractWheelMetadata U P Z crc32 origin url).result =
        ((locateMember (held A) tail size).result >>= fun member =>
          validateMetadataMember U P member.name url >>= fun _ =>
            (readMember Z crc32 (held A) member).result) ∧
      Within A.length (extractWheelMetadata U P Z crc32 origin url) := by
  refine ⟨?_, ?_⟩
  · refine (result_bind _ _).trans ?_
    rw [htail, ok_bind]
    refine (result_bind _ _).trans ?_
    rw [result_locateMember fun start length => (hfetch start length).1]
    refine bind_congr fun member => (result_bind _ _).trans ?_
    exact bind_congr fun _ => result_readMember fun start length => (hfetch start length).1
  · refine within_bind hwithin fun found hfound => ?_
    obtain rfl := Except.ok.inj (htail.symm.trans hfound)
    exact within_bind (within_locateMember fun start length => (hfetch start length).2)
      fun _ _ => within_bind (within_lift _) fun _ _ =>
        within_readMember fun start length => (hfetch start length).2

/-- Extraction through an origin that serves the archive is extraction from the
archive, and stays within it. -/
theorem extract_of_serves (h : Serves U origin url A) (hsized : Sized A) :
    (extractWheelMetadata U P Z crc32 origin url).result =
        (archiveMember A >>= fun member => validateMetadataMember U P member.name url >>= fun _ =>
          (readMember Z crc32 (held A) member).result) ∧
      Within A.length (extractWheelMetadata U P Z crc32 origin url) := by
  obtain ⟨isFull, htail, hall⟩ := tail_of_serves h hsized
  have hsize : ¬ (A.length = 0 ∨ A.length > maxArchiveSize) := by
    have hpos : 0 < A.length := List.length_pos_iff.mpr hsized.1
    have hmax := hsized.2
    omega
  rw [archiveMember, refuseIf, if_neg hsize, ok_bind]
  exact extract_of_tail Z crc32 P htail (fetchPart_of_serves h hsized hall) (within_tail hsized)

/-- An archive of no such size is refused. -/
theorem extract_of_not_sized (h : Serves U origin url A) (hsized : ¬ Sized A) :
    ∃ message, (extractWheelMetadata U P Z crc32 origin url).result =
      .error (.wheelMetadata message) := by
  obtain ⟨message, hsuffix⟩ := fetchSuffix_refuses h hsized maxEocdSearch_le.1 maxEocdSearch_le.2
  refine ⟨message, ?_⟩
  rw [extractWheelMetadata, result_bind]
  simp only [Extraction.request, hsuffix]
  rfl

end Behind

/-! ## Refusals of the rest -/

section Rest

variable {A : Bytes} {member : Member}

theorem refuses_locateMember (tail : Bytes) (size : ℕ) :
    Refuses (locateMember (held A) tail size).result := by
  refine refuses_result_bind (refuses_parseEocd _ _ _) fun _ _ => ?_
  exact refuses_result_bind (refuses_held A _ _) fun _ _ => refuses_parseCentralDirectory _ _

theorem refuses_archiveMember (A : Bytes) : Refuses (archiveMember A) :=
  refuses_bind (refuses_refuseIf _ _) fun _ _ => refuses_locateMember (tailOf A) A.length

/-- What is checked of the 30 bytes of a local header. -/
theorem parseLocalHeader_of_length {localHeader : Bytes} (h : localHeader.length = 30) :
    parseLocalHeader localHeader member = (do
      refuseIf (part localHeader 0 4 ≠ localSignature) ("invalid local file header" : Str)
      refuseIf (number 2 localHeader 6 ≠ member.flags ∨ number 2 localHeader 8 ≠ member.method)
        ("local and central ZIP headers disagree" : Str)
      refuseIf (number 2 localHeader 6 &&& 0x41 ≠ 0) ("encrypted ZIP members are unsupported" : Str)
      return (number 2 localHeader 26, number 2 localHeader 28)) := by
  rw [parseLocalHeader, unpackH_of_le (by omega), unpackH_of_le (by omega),
    unpackH_of_le (by omega), unpackH_of_le (by omega)]
  rfl

theorem refuses_parseLocalHeader {localHeader : Bytes} (h : localHeader.length = 30) :
    Refuses (parseLocalHeader localHeader member) := by
  rw [parseLocalHeader_of_length h]
  iterate 3 refine refuses_bind (refuses_refuseIf _ _) fun _ _ => ?_
  exact refuses_ok _

theorem refuses_checkLocalName (variablePart : Bytes) (nameLength : ℕ) :
    Refuses (checkLocalName variablePart nameLength member) :=
  refuses_bind (refuses_decodeName _ _) fun _ _ => refuses_bind (refuses_refuseIf _ _) fun _ _ =>
    refuses_bind (refuses_hasZip64Extra _) fun _ _ => refuses_refuseIf _ _

theorem refuses_checkMember : Refuses (checkMember member) :=
  refuses_bind (refuses_refuseIf _ _) fun _ _ => refuses_bind (refuses_refuseIf _ _) fun _ _ =>
    refuses_refuseIf _ _

variable {Z : Zlib} {crc32 : Bytes → ℕ}

theorem refuses_decompressMetadata (data : Bytes) (method expectedSize : ℕ) :
    Refuses (decompressMetadata Z data method expectedSize) := by
  unfold decompressMetadata
  split
  · exact refuses_bind (refuses_refuseIf _ _) fun _ _ => refuses_ok _
  split
  · exact refuses_wheelMetadata _
  split
  · exact refuses_wheelMetadata _
  refine refuses_bind (refuses_refuseIf _ _) fun _ _ => ?_
  split
  · exact refuses_wheelMetadata _
  · exact refuses_bind (refuses_refuseIf _ _) fun _ _ => refuses_ok _

theorem refuses_readMember : Refuses (readMember Z crc32 (held A) member).result := by
  refine refuses_result_bind refuses_checkMember fun _ _ => ?_
  refine refuses_result_bind (refuses_held A _ _) fun localHeader hlocal => ?_
  have hlength : localHeader.length = 30 := by
    obtain ⟨rfl, -, hend⟩ := held_ok hlocal
    exact length_part hend
  refine refuses_result_bind (refuses_parseLocalHeader hlength) fun lengths _ => ?_
  refine refuses_result_bind (refuses_held A _ _) fun variablePart _ => ?_
  refine refuses_result_bind (refuses_checkLocalName _ _) fun _ _ => ?_
  refine refuses_result_bind (refuses_held A _ _) fun compressed _ => ?_
  exact refuses_bind (refuses_decompressMetadata _ _ _) fun _ _ =>
    refuses_bind (refuses_refuseIf _ _) fun _ _ => refuses_ok _

/-! ## The metadata of an archive -/

/-- A local header with a name, before the data of a member. -/
structure LocalHeader (A : Bytes) (record : Record) (name : Str) (dataOffset : ℕ) : Prop where
  signature : part A record.localOffset 4 = localSignature
  flags : number 2 A (record.localOffset + 6) = record.flags
  method : number 2 A (record.localOffset + 8) = record.method
  data : dataOffset = record.localOffset + 30 + number 2 A (record.localOffset + 26) +
    number 2 A (record.localOffset + 28)
  rawName : decodeName (part A (record.localOffset + 30) (number 2 A (record.localOffset + 26)))
    (number 2 A (record.localOffset + 6)) = .ok name
  extra : Zip64Free (part A
    (record.localOffset + 30 + number 2 A (record.localOffset + 26))
    (number 2 A (record.localOffset + 28)))
  inside : dataOffset + record.compressedSize ≤ A.length

/-- The one metadata member of an archive, from the end record to the local header. -/
structure MetadataEntry (A : Bytes) where
  eocd : ℕ
  centralOffset : ℕ
  centralSize : ℕ
  entries : ℕ
  records : List Record
  record : Record
  stem : Str
  dataOffset : ℕ
  endRecord : EndRecord A eocd centralOffset centralSize entries
  directory : Directory (part A centralOffset centralSize) entries records record
  stem_ne : stem ≠ [] ∧ '/' ∉ stem
  named : record.Named (metadataName stem)
  unencrypted : record.flags &&& 0x41 = 0
  header : LocalHeader A record (metadataName stem) dataOffset

/-- The bytes of the member, as they are stored. -/
def MetadataEntry.data {A : Bytes} (entry : MetadataEntry A) : Bytes :=
  part A entry.dataOffset entry.record.compressedSize

/-- The bytes are what the entry holds, stored or deflated. -/
structure Extracted (U : Unicode) (P : Packaging) (Z : Zlib) (crc32 : Bytes → ℕ) (url : Str)
    {A : Bytes} (entry : MetadataEntry A) (r : Bytes) : Prop where
  names : ∃ filename distribution version release,
    MatchesFilename U P url entry.stem filename distribution version release
  data : entry.record.method = 0 ∧ r = entry.data ∨
    entry.record.method = 8 ∧ Z.inflate entry.data = some (r, [])
  size : r.length = entry.record.uncompressedSize
  limit : r.length ≤ maxMetadataSize
  crc : crc32 r &&& 0xFFFFFFFF = entry.record.crc32

/-- The data is stored, or deflated with nothing behind the stream. -/
theorem decompressMetadata_ok {data r : Bytes} {method expectedSize : ℕ}
    (h : decompressMetadata Z data method expectedSize = .ok r) :
    (method = 0 ∧ r = data ∨ method = 8 ∧ Z.inflate data = some (r, [])) ∧
      r.length = expectedSize := by
  unfold decompressMetadata at h
  split at h
  · next hstored =>
    obtain ⟨hsize, h⟩ := ok_of_refuseIf h
    obtain rfl := Except.ok.inj h
    exact ⟨.inl ⟨hstored, rfl⟩, not_not.mp hsize⟩
  split at h
  · cases h
  · next hdeflated =>
    split at h
    · cases h
    · next result object hdecompress =>
      obtain ⟨hlimit, h⟩ := ok_of_refuseIf h
      split at h
      · cases h
      · next rest object' hflush =>
        obtain ⟨hchecks, h⟩ := ok_of_refuseIf h
        obtain rfl := Except.ok.inj h
        simp only [not_or, not_not, Bool.not_eq_false] at hlimit hchecks
        obtain ⟨-, hsize, heof, hunused, htail⟩ := hchecks
        refine ⟨.inr ⟨not_not.mp hdeflated, ?_⟩, hsize⟩
        rw [Z.inflate_eq hdecompress hlimit.2 hflush heof htail, hunused]

/-- A member that is accepted stands in the central directory. -/
theorem locateMember_ok {tailStart : ℕ} (hstart : tailStart ≤ A.length)
    (h : (locateMember (held A) (A.drop tailStart) A.length).result = .ok member) :
    ∃ eocd centralOffset centralSize entries records record,
      EndRecord A eocd centralOffset centralSize entries ∧
      Directory (part A centralOffset centralSize) entries records record ∧
      record.Describes member := by
  obtain ⟨⟨centralOffset, centralSize, entries⟩, heocd, h⟩ := ok_of_result_bind h
  obtain ⟨central, hcentral, h⟩ := ok_of_result_bind h
  obtain ⟨rfl, -, -⟩ := held_ok hcentral
  have htail : A.length - (A.drop tailStart).length = tailStart := by
    rw [List.length_drop]
    omega
  rw [result_lift, htail] at heocd
  obtain ⟨eocd, heocd⟩ := endRecord_of_parseEocd heocd
  obtain ⟨records, record, hdirectory, hdescribes⟩ := directory_of_parseCentralDirectory h
  exact ⟨eocd, centralOffset, centralSize, entries, records, record, heocd, hdirectory, hdescribes⟩

/-- The record of the metadata is named `X.dist-info/METADATA`. -/
theorem Directory.isMetadata {data : Bytes} {entries : ℕ} {records : List Record} {record : Record}
    (h : Directory data entries records record) : record.isMetadata = true := by
  have hmem : record ∈ records.filter Record.isMetadata := by
    rw [h.metadata]
    exact List.mem_singleton_self record
  exact (List.mem_filter.mp hmem).2

theorem parseLocalHeader_ok {offset nameLength extraLength : ℕ} (hend : offset + 30 ≤ A.length)
    (h : parseLocalHeader (part A offset 30) member = .ok (nameLength, extraLength)) :
    part A offset 4 = localSignature ∧ number 2 A (offset + 6) = member.flags ∧
      number 2 A (offset + 8) = member.method ∧ nameLength = number 2 A (offset + 26) ∧
      extraLength = number 2 A (offset + 28) := by
  have hnumber : ∀ n, n + 2 ≤ 30 → number 2 (part A offset 30) n = number 2 A (offset + n) :=
    fun _ hn => number_part hn
  rw [parseLocalHeader_of_length (length_part hend), hnumber 6 (by omega), hnumber 8 (by omega),
    hnumber 26 (by omega), hnumber 28 (by omega), part_part (by omega)] at h
  obtain ⟨hsignature, h⟩ := ok_of_refuseIf h
  obtain ⟨hagree, h⟩ := ok_of_refuseIf h
  obtain ⟨-, h⟩ := ok_of_refuseIf h
  obtain ⟨rfl, rfl⟩ : _ ∧ _ := by simpa [pure, Except.pure] using h
  rw [not_or, not_not, not_not] at hagree
  exact ⟨not_not.mp hsignature, hagree.1, hagree.2, rfl, rfl⟩

theorem checkLocalName_ok {offset nameLength extraLength : ℕ} {u : Unit}
    (h : checkLocalName (part A offset (nameLength + extraLength)) nameLength member = .ok u) :
    decodeName (part A offset nameLength) member.flags = .ok member.name ∧
      Zip64Free (part A (offset + nameLength) extraLength) := by
  obtain ⟨name, hname, h⟩ := ok_of_bind h
  obtain ⟨hsame, h⟩ := ok_of_refuseIf h
  obtain ⟨zip64, hzip64, h⟩ := ok_of_bind h
  obtain rfl : zip64 = false := by simpa using not_of_refuseIf h
  obtain rfl := not_not.mp hsame
  have hdrop : (part A offset (nameLength + extraLength)).drop nameLength =
      part A (offset + nameLength) extraLength := by
    rw [part, part, List.drop_take, List.drop_drop, Nat.add_sub_cancel_left]
  rw [part_part (by omega), Nat.add_zero] at hname
  rw [hdrop] at hzip64
  exact ⟨hname, zip64Free_of_hasZip64Extra hzip64⟩

/-- What is read of the member is what its local header leads to. -/
theorem localHeader_of_readMember
    {record : Record} {r : Bytes} (hdescribes : record.Describes member)
    (h : (readMember Z crc32 (held A) member).result = .ok r) :
    ∃ dataOffset, LocalHeader A record member.name dataOffset ∧ record.flags &&& 0x41 = 0 ∧
      record.uncompressedSize ≤ maxMetadataSize ∧
      decodeMember Z crc32 (part A dataOffset record.compressedSize) member = .ok r := by
  obtain ⟨-, hflags, hmethod, -, hcompressed, huncompressed, hoffset⟩ := hdescribes
  obtain ⟨_, hmember, h⟩ := ok_of_result_bind h
  obtain ⟨localHeader, hlocal, h⟩ := ok_of_result_bind h
  obtain ⟨⟨nameLength, extraLength⟩, hlengths, h⟩ := ok_of_result_bind h
  obtain ⟨variablePart, hvariable, h⟩ := ok_of_result_bind h
  obtain ⟨_, hname, h⟩ := ok_of_result_bind h
  obtain ⟨compressed, hdata, h⟩ := ok_of_result_bind h
  obtain ⟨rfl, -, hlocalEnd⟩ := held_ok hlocal
  obtain ⟨rfl, -, -⟩ := held_ok hvariable
  obtain ⟨rfl, -, hdataEnd⟩ := held_ok hdata
  -- the checks on the central directory, on the local header, and on what follows it
  obtain ⟨hencrypted, hmember⟩ := ok_of_refuseIf hmember
  obtain ⟨hlimits, -⟩ := ok_of_refuseIf hmember
  rw [not_or] at hlimits
  obtain ⟨hsignature, hlocalFlags, hlocalMethod, rfl, rfl⟩ := parseLocalHeader_ok hlocalEnd hlengths
  obtain ⟨hlocalName, hfree⟩ := checkLocalName_ok hname
  rw [hoffset] at *
  rw [hcompressed] at hdataEnd h
  exact ⟨_,
    { signature := hsignature
      flags := hlocalFlags.trans hflags
      method := hlocalMethod.trans hmethod
      data := rfl
      rawName := by rw [hlocalFlags]; exact hlocalName
      extra := hfree
      inside := hdataEnd }, by rw [← hflags]; exact not_not.mp hencrypted, by omega, h⟩

/-- What is decoded is the data of the member, of the recorded size and CRC. -/
theorem decodeMember_ok {compressed r : Bytes}
    (h : decodeMember Z crc32 compressed member = .ok r) :
    (member.method = 0 ∧ r = compressed ∨ member.method = 8 ∧ Z.inflate compressed = some (r, [])) ∧
      r.length = member.uncompressedSize ∧ crc32 r &&& 0xFFFFFFFF = member.crc32 := by
  obtain ⟨result, hresult, h⟩ := ok_of_bind h
  obtain ⟨hcrc, h⟩ := ok_of_refuseIf h
  obtain rfl := Except.ok.inj h
  obtain ⟨hdata, hsize⟩ := decompressMetadata_ok hresult
  exact ⟨hdata, hsize, not_not.mp hcrc⟩

end Rest

/-! ## Extraction as a whole -/

section Whole

variable (U : Unicode) (P : Packaging) (Z : Zlib) (crc32 : Bytes → ℕ)

/-- Extraction raises a `WheelMetadataError`, or returns the metadata of the archive
and has requested nothing outside of it. -/
def FailsClosed (A : Bytes) (url : Str) (x : Extraction Bytes) : Prop :=
  (∃ e, x.result = .error e ∧ IsRefusal e) ∨
    ∃ r, x.result = .ok r ∧ Within A.length x ∧
      ∃ entry : MetadataEntry A, Extracted U P Z crc32 url entry r

variable {U P Z crc32} {origin : Origin} {A : Bytes} {url : Str} {member : Member}

/-- What is read of a member that was checked is the metadata of the archive. -/
theorem extracted_of_readMember {r : Bytes} (hmember : archiveMember A = .ok member)
    (hname : validateMetadataMember U P member.name url = .ok ())
    (hread : (readMember Z crc32 (held A) member).result = .ok r) :
    ∃ entry : MetadataEntry A, Extracted U P Z crc32 url entry r := by
  obtain ⟨-, hlocate⟩ := ok_of_refuseIf hmember
  obtain ⟨eocd, centralOffset, centralSize, entries, records, record, heocd, hdirectory,
    hdescribes⟩ :=
    locateMember_ok (Nat.sub_le _ _) hlocate
  have hmetadata := hdirectory.isMetadata
  rw [Record.isMetadata, hdescribes.name] at hmetadata
  obtain ⟨stem, hne, hslash, hstem, hdistInfo⟩ := metadataName_of_isMetadataName hmetadata
  obtain ⟨dataOffset, hheader, hunencrypted, hlimit, hdecode⟩ :=
    localHeader_of_readMember hdescribes hread
  obtain ⟨hdata, hsize, hcrc⟩ := decodeMember_ok hdecode
  have hnames := matchesFilename_of_validate hname
  rw [hdistInfo] at hnames
  rw [hdescribes.method] at hdata
  rw [hdescribes.uncompressedSize] at hsize
  refine ⟨⟨eocd, centralOffset, centralSize, entries, records, record, stem, dataOffset, heocd,
    hdirectory, ⟨hne, hslash⟩, hstem ▸ hdescribes.name, hunencrypted, hstem ▸ hheader⟩,
    hnames, hdata,
    hsize, by omega, hcrc.trans hdescribes.crc32⟩

theorem failsClosed_of_refuses {x : Extraction Bytes} (h : Refuses x.result)
    (hwithin : Within A.length x)
    (hok : ∀ r, x.result = .ok r → ∃ entry : MetadataEntry A, Extracted U P Z crc32 url entry r) :
    x.result ≠ .error .structError ∧ FailsClosed U P Z crc32 A url x := by
  refine ⟨fun hstruct => h _ hstruct, ?_⟩
  cases hresult : x.result with
  | ok r => exact .inr ⟨r, hresult, hwithin, hok r hresult⟩
  | error e => exact .inl ⟨e, hresult, h e hresult⟩

/-- **Extraction fails closed**, exactly when the names of the member and of the wheel
parse; no `struct` read is out of bounds in any case. -/
theorem failsClosed_iff (hserves : Serves U origin url A) :
    (extractWheelMetadata U P Z crc32 origin url).result ≠ .error .structError ∧
      (FailsClosed U P Z crc32 A url (extractWheelMetadata U P Z crc32 origin url) ↔
        ∀ member, archiveMember A = .ok member → NamesParse U P member.name url) := by
  by_cases hsized : Sized A
  · obtain ⟨hresult, hwithin⟩ := extract_of_serves Z crc32 P hserves hsized
    by_cases hnames : ∀ member, archiveMember A = .ok member → NamesParse U P member.name url
    · have hrefuses : Refuses (extractWheelMetadata U P Z crc32 origin url).result := by
        rw [hresult]
        exact refuses_bind (refuses_archiveMember A) fun member hmember =>
          refuses_bind (refuses_validate (hnames member hmember)) fun _ _ => refuses_readMember
      have hclosed := failsClosed_of_refuses hrefuses hwithin fun r hr => by
        rw [hresult] at hr
        obtain ⟨member, hmember, hr⟩ := ok_of_bind hr
        obtain ⟨_, hname, hr⟩ := ok_of_bind hr
        exact extracted_of_readMember hmember hname hr
      exact ⟨hclosed.1, iff_of_true hclosed.2 hnames⟩
    · -- the check of the name lets the other error out
      have hvalue : (extractWheelMetadata U P Z crc32 origin url).result = .error .valueError := by
        push Not at hnames
        obtain ⟨member, hmember, hparse⟩ := hnames
        rw [hresult, hmember, ok_bind, validate_of_not_namesParse hparse]
        rfl
      rw [hvalue]
      refine ⟨nofun, iff_of_false ?_ hnames⟩
      rintro (⟨e, he, hrefusal⟩ | ⟨r, hr, -⟩)
      · obtain rfl := Except.error.inj (hvalue.symm.trans he)
        exact hrefusal
      · cases hvalue.symm.trans hr
  · obtain ⟨message, hresult⟩ := extract_of_not_sized Z crc32 P hserves hsized
    rw [hresult]
    refine ⟨nofun, iff_of_true (.inl ⟨_, hresult, trivial⟩) ?_⟩
    intro member hmember
    have hsize := (ok_of_refuseIf hmember).1
    rw [not_or] at hsize
    exact absurd ⟨List.length_pos_iff.mp (by omega), by omega⟩ hsized

end Whole

/-! ## A small wheel -/

def demoName : Str := ("demo-1.0.dist-info/METADATA" : Str)

/-- A wheel with one stored member, of the one byte `a`. -/
def demoWheel : Bytes :=
  let rawName : Bytes := demoName.map fun c => UInt8.ofNat c.toNat
  [0x50, 0x4b, 3, 4, 20, 0, 0, 0, 0, 0, 0, 0, 0, 0, 0x43, 0xbe, 0xb7, 0xe8, 1, 0, 0, 0, 1, 0, 0, 0,
    27, 0, 0, 0] ++ rawName ++ [0x61] ++
  [0x50, 0x4b, 1, 2, 20, 0, 20, 0, 0, 0, 0, 0, 0, 0, 0, 0, 0x43, 0xbe, 0xb7, 0xe8, 1, 0, 0, 0,
    1, 0, 0, 0, 27, 0, 0, 0, 0, 0, 0, 0, 0, 0, 0, 0, 0, 0, 0, 0, 0, 0] ++ rawName ++
  [0x50, 0x4b, 5, 6, 0, 0, 0, 0, 1, 0, 1, 0, 73, 0, 0, 0, 58, 0, 0, 0, 0, 0]

def demoMember : Member := ⟨demoName, 0, 0, 0xe8b7be43, 1, 1, 0⟩

/-- No stream is deflated here. -/
def noZlib : Zlib where
  Object := Unit
  decompressobj := ()
  decompress _ _ _ := none
  flush _ _ := none
  eof _ := false
  unusedData _ := []
  unconsumedTail _ := []
  inflate _ := none
  inflate_eq h := nomatch h

/-- The CRC of the byte `a`. -/
def demoCrc (bytes : Bytes) : ℕ := if bytes = [0x61] then 0xe8b7be43 else 0

/-- `archiveMember`, as far as it can be compared. -/
def memberOf (A : Bytes) : Option Member :=
  match archiveMember A with
  | .ok member => some member
  | .error _ => none

theorem archiveMember_demoWheel : archiveMember demoWheel = .ok demoMember := by
  have hmember : memberOf demoWheel = some demoMember := by decide +kernel
  unfold memberOf at hmember
  split at hmember
  · next heq =>
    obtain rfl := Option.some.inj hmember
    exact heq
  · cases hmember

theorem length_demoWheel : demoWheel.length = 153 := by decide +kernel

theorem size_demoWheel : demoWheel.length ≤ maxArchiveSize := by
  rw [length_demoWheel, maxArchiveSize]
  omega

def demoFilename : Str := ("demo-1.0-py3-none-any.whl" : Str)

theorem wheelFilename_of_check {url filename : Str}
    (h : (wheelFilename asciiOnly url).toOption = some filename) :
    wheelFilename asciiOnly url = .ok filename := by
  cases hfilename : wheelFilename asciiOnly url with
  | ok filename' =>
    rw [hfilename] at h
    rw [Option.some.inj h]
  | error e =>
    rw [hfilename] at h
    cases h

/-- Neither the name of the small wheel nor the version of its directory is too long. -/
theorem namesParse_demo {url : Str} (hpath : wheelFilename asciiOnly url = .ok demoFilename) :
    NamesParse asciiOnly plainReleases demoName url where
  path := ⟨_, hpath⟩
  wheel := by
    intro filename hfilename
    obtain rfl := Except.ok.inj (hpath.symm.trans hfilename)
    decide
  parsed := by
    intro filename names distribution version _ _ hcut _ _
    have hversion : (rcut '-' (distInfoOf demoName)).2 = ("1.0" : Str) := by decide
    rw [hcut] at hversion
    obtain rfl : version = ("1.0" : Str) := hversion
    decide

/-- The metadata of the small wheel is extracted. -/
theorem failsClosed_demoWheel :
    let url : Str := ("https://packages.test/demo-1.0-py3-none-any.whl" : Str)
    FailsClosed asciiOnly plainReleases noZlib demoCrc demoWheel url
      (extractWheelMetadata asciiOnly plainReleases noZlib demoCrc (serving demoWheel) url) := by
  intro url
  refine (failsClosed_iff (serves_serving asciiOnly url size_demoWheel)).2.mpr ?_
  intro member hmember
  obtain rfl := Except.ok.inj (archiveMember_demoWheel.symm.trans hmember)
  exact namesParse_demo (wheelFilename_of_check (by decide +kernel))

/-- A URL with a bracket in its user information. -/
def bracketUrl : Str := ("http://[@packages.test/demo-1.0-py3-none-any.whl" : Str)

theorem not_namesParse_bracketUrl (memberName : Str) :
    ¬ NamesParse asciiOnly plainReleases memberName bracketUrl := by
  intro hnames
  obtain ⟨filename, hfilename⟩ := hnames.path
  have hraises : (wheelFilename asciiOnly bracketUrl).isOk = false := by decide +kernel
  rw [hfilename] at hraises
  cases hraises

/-- A bracket in the user information of the URL: `urlparse` raises, and extraction
lets the `ValueError` out. -/
theorem not_failsClosed_bracketUrl :
    ¬ ∀ (U : Unicode) (P : Packaging) (Z : Zlib) (crc32 : Bytes → ℕ) (origin : Origin) (A : Bytes)
      (url : Str), Serves U origin url A →
        FailsClosed U P Z crc32 A url (extractWheelMetadata U P Z crc32 origin url) := by
  intro h
  have hserves := serves_serving asciiOnly bracketUrl size_demoWheel
  have hsized : Sized demoWheel := ⟨by decide, size_demoWheel⟩
  have hresult := (extract_of_serves noZlib demoCrc plainReleases hserves hsized).1
  rw [archiveMember_demoWheel, ok_bind, validate_of_not_namesParse
    (not_namesParse_bracketUrl _)] at hresult
  rcases h asciiOnly plainReleases noZlib demoCrc (serving demoWheel) demoWheel bracketUrl
      hserves with
    ⟨e, he, hrefusal⟩ | ⟨r, hr, -⟩
  · obtain rfl := Except.error.inj (hresult.symm.trans he)
    exact hrefusal
  · cases hresult.symm.trans hr

end ProxyCache.Theorems.WheelExtraction
