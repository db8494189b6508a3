import ProxyCache.Theorems.WheelExtraction

/-!
# The suffix window

Extraction looks for the end record in the last bytes of an archive only. It finds
there what it would find in the whole archive, and judges it alike, except that a
ZIP64 locator in front of the record is not seen where it lies outside the window.
-/

namespace ProxyCache.Theorems.WheelExtraction

open ProxyCache.Lib ProxyCache.Python ProxyCache.App.WheelMetadata
open ProxyCache.App (Packaging plainReleases)

/-! ## The last end record -/

/-- An end record stands at the offset, and its comment reaches exactly to the end. -/
def EndsAt (A : Bytes) (offset : ℕ) : Prop :=
  part A offset 4 = eocdSignature ∧ offset + eocdSize + number 2 A (offset + 20) = A.length

/-- The last such record. -/
def LastEnd (A : Bytes) (offset : ℕ) : Prop :=
  EndsAt A offset ∧ ∀ later, offset < later → ¬ EndsAt A later

section Search

variable {A : Bytes} {offset : ℕ}

theorem number_two_lt (data : Bytes) (offset : ℕ) : number 2 data offset < 65536 := by
  have hlt := littleEndian_lt (part data offset 2)
  have hlength : (part data offset 2).length ≤ 2 := List.length_take_le ..
  have hpow : 256 ^ (part data offset 2).length ≤ 256 ^ 2 :=
    Nat.pow_le_pow_right (by decide) hlength
  rw [number]
  omega

/-- Such a record lies within the last bytes of the archive. -/
theorem EndsAt.near_end (h : EndsAt A offset) : A.length - maxEocdSearch ≤ offset := by
  have hlt := number_two_lt A (offset + 20)
  have hstop := h.2
  unfold maxEocdSearch
  omega

theorem LastEnd.unique {offset' : ℕ} (h : LastEnd A offset) (h' : LastEnd A offset') :
    offset = offset' := by
  rcases lt_trichotomy offset offset' with hlt | heq | hlt
  · exact absurd h'.1 (h.2 offset' hlt)
  · exact heq
  · exact absurd h.1 (h'.2 offset hlt)

/-- The search goes down to the last record below the candidate. -/
theorem findEocd_latest (A : Bytes) : ∀ candidate, candidate + eocdSize ≤ A.length + 1 →
    (findEocd A candidate = .ok none ∧ ∀ offset < candidate, ¬ EndsAt A offset) ∨
      ∃ offset < candidate, findEocd A candidate = .ok (some offset) ∧ EndsAt A offset ∧
        ∀ later, offset < later → later < candidate → ¬ EndsAt A later := by
  intro candidate
  induction candidate with
  | zero =>
    intro _
    exact .inl ⟨rfl, nofun⟩
  | succ candidate ih =>
    intro hcandidate
    have hread : unpackH A (candidate + 20) = .ok (number 2 A (candidate + 20)) :=
      unpackH_of_le (by unfold eocdSize at hcandidate; omega)
    rw [findEocd, hread]
    simp only [bind, Except.bind]
    by_cases hends : EndsAt A candidate
    · refine .inr ⟨candidate, Nat.lt_succ_self candidate, ?_, hends, ?_⟩
      · rw [if_neg (not_not.mpr hends.1), if_pos hends.2]
        rfl
      · intro later hlater hlast
        omega
    · have hskip : (if part A candidate 4 ≠ eocdSignature then findEocd A candidate
          else if candidate + eocdSize + number 2 A (candidate + 20) = A.length then
            Except.ok (some candidate) else findEocd A candidate) = findEocd A candidate := by
        split_ifs with hsignature hstop
        · rfl
        · exact absurd ⟨not_not.mp hsignature, hstop⟩ hends
        · rfl
      have hbelow : ∀ offset < candidate + 1, EndsAt A offset → offset < candidate := by
        intro offset hoffset hrecord
        have hne : offset ≠ candidate := fun heq => hends (heq ▸ hrecord)
        omega
      simp only [pure, Except.pure]
      rw [hskip]
      rcases ih (by omega) with ⟨hnone, hno⟩ | ⟨offset, hoffset, hfound, hrecord, hlast⟩
      · exact .inl ⟨hnone, fun offset hoffset hrecord =>
          hno offset (hbelow offset hoffset hrecord) hrecord⟩
      · exact .inr ⟨offset, by omega, hfound, hrecord, fun later hlater hle hrecord =>
          hlast later hlater (hbelow later hle hrecord) hrecord⟩

theorem EndsAt.length_le (h : EndsAt A offset) : offset + eocdSize ≤ A.length := by
  have hstop := h.2
  omega

/-- What the search finds. -/
theorem findEocd_cases_last (A : Bytes) :
    (findEocd A (A.length + 1 - eocdSize) = .ok none ∧ ∀ offset, ¬ EndsAt A offset) ∨
      ∃ offset, findEocd A (A.length + 1 - eocdSize) = .ok (some offset) ∧ LastEnd A offset := by
  have hbelow : ∀ offset, EndsAt A offset → offset < A.length + 1 - eocdSize := by
    intro offset hrecord
    have hle := hrecord.length_le
    omega
  by_cases hshort : A.length + 1 < eocdSize
  · have hzero : A.length + 1 - eocdSize = 0 := by omega
    refine .inl ⟨by rw [hzero]; rfl, fun offset hrecord => ?_⟩
    have hle := hrecord.length_le
    omega
  · rcases findEocd_latest A (A.length + 1 - eocdSize) (by omega) with
      ⟨hnone, hno⟩ | ⟨offset, -, hfound, hrecord, hlast⟩
    · exact .inl ⟨hnone, fun offset hrecord => hno offset (hbelow offset hrecord) hrecord⟩
    · exact .inr ⟨offset, hfound, hrecord, fun later hlater hlaterRecord =>
        hlast later hlater (hbelow later hlaterRecord) hlaterRecord⟩

/-! ## The window -/

/-- Where the window starts. -/
abbrev windowStart (A : Bytes) : ℕ := A.length - maxEocdSearch

theorem endsAt_window : EndsAt (A.drop (windowStart A)) offset ↔
    EndsAt A (windowStart A + offset) := by
  have hle : windowStart A ≤ A.length := Nat.sub_le _ _
  rw [EndsAt, EndsAt, part_drop, number_drop, List.length_drop,
    ← Nat.add_assoc (windowStart A) offset 20]
  constructor
  · rintro ⟨hsignature, hstop⟩
    exact ⟨hsignature, by omega⟩
  · rintro ⟨hsignature, hstop⟩
    exact ⟨hsignature, by omega⟩

/-- The last record of the window is the last record of the archive. -/
theorem lastEnd_window :
    LastEnd (A.drop (windowStart A)) offset ↔ LastEnd A (windowStart A + offset) := by
  rw [LastEnd, LastEnd, endsAt_window]
  constructor
  · rintro ⟨hends, hlast⟩
    refine ⟨hends, fun later hlater hrecord => ?_⟩
    have hnear := hrecord.near_end
    refine hlast (later - windowStart A) (by omega) (endsAt_window.mpr ?_)
    rwa [Nat.add_sub_cancel' hnear]
  · rintro ⟨hends, hlast⟩
    exact ⟨hends, fun later hlater hrecord => hlast _ (by omega) (endsAt_window.mp hrecord)⟩

end Search

/-! ## What is judged -/

/-- Both return the same, or both raise a `WheelMetadataError`. -/
def SameOutcome {α : Type} (r r' : Except Raise α) : Prop :=
  (∃ a, r = .ok a ∧ r' = .ok a) ∨
    ∃ e e', r = .error e ∧ r' = .error e' ∧ IsRefusal e ∧ IsRefusal e'

theorem sameOutcome_iff {α : Type} {r r' : Except Raise α} (h : Refuses r) (h' : Refuses r') :
    SameOutcome r r' ↔ ∀ a, r = .ok a ↔ r' = .ok a := by
  constructor
  · rintro (⟨a, rfl, rfl⟩ | ⟨e, e', rfl, rfl, -, -⟩) b
    · rfl
    · exact iff_of_false nofun nofun
  · intro hok
    cases r with
    | ok a => exact .inl ⟨a, rfl, (hok a).mp rfl⟩
    | error e =>
      cases r' with
      | ok a => cases (hok a).mpr rfl
      | error e' => exact .inr ⟨e, e', rfl, rfl, h e rfl, h' e' rfl⟩

/-- The sizes are within the limits. -/
def WithinLimits (centralSize entries : ℕ) : Prop :=
  (0 < entries ∧ entries ≤ maxEntries) ∧ 0 < centralSize ∧ centralSize ≤ maxCentralDirectorySize

/-- A ZIP64 locator stands in front of the offset. -/
def LocatorBefore (A : Bytes) (offset : ℕ) : Prop :=
  20 ≤ offset ∧ part A (offset - 20) 4 = zip64LocatorSignature

section Judge

variable {A : Bytes} {start offset centralOffset centralSize entries : ℕ}

/-- What is accepted, of the record that ends the last bytes of an archive. -/
theorem parseEocd_iff (hlast : LastEnd (A.drop start) offset) :
    parseEocd (A.drop start) start A.length = .ok (centralOffset, centralSize, entries) ↔
      EndRecord A (start + offset) centralOffset centralSize entries ∧
        WithinLimits centralSize entries ∧ ¬ LocatorBefore (A.drop start) offset := by
  obtain ⟨hsignature, hend⟩ := hlast.1
  have hfound : findEocd (A.drop start) ((A.drop start).length + 1 - eocdSize) =
      .ok (some offset) := by
    rcases findEocd_cases_last (A.drop start) with ⟨-, hno⟩ | ⟨offset', hfound, hlast'⟩
    · exact absurd hlast.1 (hno offset)
    · rw [hfound, hlast'.unique hlast]
  rw [parseEocd_of_found hfound (by omega)]
  simp only [number_drop, part_drop, ← Nat.add_assoc] at hsignature hend ⊢
  constructor
  · intro h
    obtain ⟨hstop, h⟩ := ok_of_refuseIf h
    obtain ⟨hdisks, h⟩ := ok_of_refuseIf h
    obtain ⟨hplain, h⟩ := ok_of_refuseIf h
    obtain ⟨hcount, h⟩ := ok_of_refuseIf h
    obtain ⟨hsize, h⟩ := ok_of_refuseIf h
    obtain ⟨hbounds, h⟩ := ok_of_refuseIf h
    obtain ⟨rfl, rfl, rfl⟩ : _ ∧ _ ∧ _ := by simpa [pure, Except.pure] using h
    simp only [not_or, not_not] at hstop hdisks hplain hbounds
    refine ⟨⟨hsignature, hdisks, rfl, rfl, rfl, hstop, ⟨hplain.1, hplain.2.1, hplain.2.2.1⟩,
      hbounds⟩, ⟨⟨by omega, by omega⟩, by omega, by omega⟩, ?_⟩
    rw [LocatorBefore, part_drop]
    exact hplain.2.2.2
  · rintro ⟨⟨-, hdisks, rfl, rfl, rfl, hstop, hplain, hbounds⟩, ⟨hcount, hsize⟩, hlocator⟩
    rw [LocatorBefore, part_drop] at hlocator
    rw [refuseIf, if_neg (not_not.mpr hstop), ok_bind, refuseIf, if_neg (by tauto), ok_bind,
      refuseIf, if_neg (by tauto), ok_bind, refuseIf, if_neg (by omega), ok_bind, refuseIf,
      if_neg (by omega), ok_bind, refuseIf, if_neg (not_not.mpr hbounds), ok_bind]
    rfl

/-- What the record in the window is judged by, and in the whole archive. -/
theorem parseEocd_window (hlast : LastEnd A offset) :
    (parseEocd (A.drop (windowStart A)) (windowStart A) A.length =
        .ok (centralOffset, centralSize, entries) ↔
      EndRecord A offset centralOffset centralSize entries ∧ WithinLimits centralSize entries ∧
        ¬ (windowStart A + 20 ≤ offset ∧ LocatorBefore A offset)) ∧
    (parseEocd A 0 A.length = .ok (centralOffset, centralSize, entries) ↔
      EndRecord A offset centralOffset centralSize entries ∧ WithinLimits centralSize entries ∧
        ¬ LocatorBefore A offset) := by
  obtain ⟨inside, rfl⟩ := Nat.exists_eq_add_of_le hlast.1.near_end
  refine ⟨?_, ?_⟩
  · rw [parseEocd_iff (lastEnd_window.mpr hlast)]
    have hlocator : LocatorBefore (A.drop (windowStart A)) inside ↔
        windowStart A + 20 ≤ windowStart A + inside ∧ LocatorBefore A (windowStart A + inside) := by
      rw [LocatorBefore, LocatorBefore, part_drop, Nat.add_le_add_iff_left]
      constructor
      · rintro ⟨hinside, hpart⟩
        exact ⟨hinside, by omega, by rwa [Nat.add_sub_assoc hinside]⟩
      · rintro ⟨hinside, -, hpart⟩
        exact ⟨hinside, by rwa [Nat.add_sub_assoc hinside] at hpart⟩
    rw [hlocator]
  · have hwhole := @parseEocd_iff A 0 (windowStart A + inside) centralOffset centralSize entries
      (by rwa [List.drop_zero])
    rwa [List.drop_zero, Nat.zero_add] at hwhole

/-- A record that would be accepted but for a ZIP64 locator, which begins in front of the
window. -/
def LocatorHidden (A : Bytes) : Prop :=
  ∃ offset centralOffset centralSize entries, LastEnd A offset ∧
    EndRecord A offset centralOffset centralSize entries ∧ WithinLimits centralSize entries ∧
    LocatorBefore A offset ∧ offset < windowStart A + 20

theorem length_sub_tailOf (A : Bytes) : A.length - (tailOf A).length = windowStart A := by
  have hle : windowStart A ≤ A.length := Nat.sub_le _ _
  rw [tailOf, List.length_drop, Nat.sub_sub_self hle]

theorem not_sameOutcome_of_hidden (h : LocatorHidden A) :
    ¬ SameOutcome (parseEocd (tailOf A) (A.length - (tailOf A).length) A.length)
      (parseEocd A 0 A.length) := by
  obtain ⟨offset, centralOffset, centralSize, entries, hlast, hrecord, hlimits, hlocator,
    hhidden⟩ := h
  obtain ⟨hwindow, hwhole⟩ :=
    @parseEocd_window A offset centralOffset centralSize entries hlast
  rw [length_sub_tailOf, tailOf, sameOutcome_iff (refuses_parseEocd _ _ _)
    (refuses_parseEocd _ _ _)]
  intro hsame
  have haccepted := hwindow.mpr ⟨hrecord, hlimits, fun h => absurd h.1 (by omega)⟩
  exact (hwhole.mp ((hsame _).mp haccepted)).2.2 hlocator

/-- **The suffix window.** Looking at the last bytes only has the same outcome as looking
at the whole archive, exactly when no ZIP64 locator in front of an acceptable record is
hidden. -/
theorem sameOutcome_window_iff (A : Bytes) :
    SameOutcome (parseEocd (tailOf A) (A.length - (tailOf A).length) A.length)
      (parseEocd A 0 A.length) ↔ ¬ LocatorHidden A := by
  refine ⟨fun hsame hhidden => not_sameOutcome_of_hidden hhidden hsame, fun hseen => ?_⟩
  rw [length_sub_tailOf, tailOf, sameOutcome_iff (refuses_parseEocd _ _ _)
    (refuses_parseEocd _ _ _)]
  rintro ⟨centralOffset, centralSize, entries⟩
  rcases findEocd_cases_last A with ⟨hnone, hno⟩ | ⟨offset, -, hlast⟩
  · -- there is no record at all
    refine iff_of_false ?_ ?_
    · intro h
      obtain ⟨offset, hrecord⟩ := endRecord_of_parseEocd h
      exact hno offset ⟨hrecord.signature, hrecord.stop⟩
    · rw [parseEocd, hnone]
      intro h
      cases h
  · obtain ⟨hwindow, hwhole⟩ :=
      @parseEocd_window A offset centralOffset centralSize entries hlast
    rw [hwindow, hwhole]
    constructor
    · rintro ⟨hrecord, hlimits, hlocator⟩
      refine ⟨hrecord, hlimits, fun hbefore => ?_⟩
      by_cases hinside : windowStart A + 20 ≤ offset
      · exact hlocator ⟨hinside, hbefore⟩
      · exact hseen ⟨offset, centralOffset, centralSize, entries, hlast, hrecord, hlimits, hbefore,
          by omega⟩
    · rintro ⟨hrecord, hlimits, hlocator⟩
      exact ⟨hrecord, hlimits, fun hbefore => hlocator hbefore.2⟩

end Judge

/-! ### A hidden locator -/

/-- A locator, and an end record right behind it that announces the longest comment. -/
def hiddenHead : Bytes :=
  [0x50, 0x4b, 6, 7, 0, 0, 0, 0, 0, 0, 0, 0, 0, 0, 0, 0, 0, 0, 0, 0,
    0x50, 0x4b, 5, 6, 0, 0, 0, 0, 1, 0, 1, 0, 20, 0, 0, 0, 0, 0, 0, 0, 0xff, 0xff]

def hiddenArchive : Bytes := hiddenHead ++ List.replicate 65535 0

theorem length_hiddenArchive : hiddenArchive.length = 65577 := by
  rw [hiddenArchive, List.length_append, List.length_replicate]
  rfl

/-- Without the first byte of the signature there is no record. -/
theorem not_endsAt_of_drop {A : Bytes} {offset : ℕ} (h : ∀ b ∈ A.drop offset, b ≠ 0x50) :
    ¬ EndsAt A offset := by
  rintro ⟨hsignature, -⟩
  have hfirst : (0x50 : UInt8) ∈ part A offset 4 := by
    rw [hsignature]
    exact List.mem_cons_self
  exact h 0x50 (List.mem_of_mem_take hfirst) rfl

theorem locatorHidden_hiddenArchive : LocatorHidden hiddenArchive := by
  have hread : ∀ n offset, offset + n ≤ 42 →
      number n hiddenArchive offset = number n hiddenHead offset := by
    intro n offset hle
    rw [number, number, hiddenArchive, part_append_left hle]
  have hpart : ∀ offset, offset + 4 ≤ 42 → part hiddenArchive offset 4 =
    part hiddenHead offset 4 := by
    intro offset hle
    rw [hiddenArchive, part_append_left hle]
  have hsignature : part hiddenArchive 20 4 = eocdSignature := (hpart 20 (by decide)).trans rfl
  have hstop : 20 + eocdSize + number 2 hiddenArchive (20 + 20) = hiddenArchive.length := by
    rw [hread 2 (20 + 20) (by decide), length_hiddenArchive]
    decide
  have hlast : LastEnd hiddenArchive 20 := by
    refine ⟨⟨hsignature, hstop⟩, fun later hlater => not_endsAt_of_drop fun b hb => ?_⟩
    -- what follows has no byte of a signature
    have hrest : b ∈ hiddenHead.drop 21 ++ List.replicate 65535 0 := by
      rw [← List.drop_append_of_le_length (by decide)]
      exact List.drop_subset_drop_left _ (Nat.succ_le_of_lt hlater) hb
    rcases List.mem_append.mp hrest with hb | hb
    · have hall : (hiddenHead.drop 21).all (· != 0x50) = true := by decide
      exact bne_iff_ne.mp (List.all_eq_true.mp hall b hb)
    · rw [List.eq_of_mem_replicate hb]
      decide
  refine ⟨20, 0, 20, 1, hlast, ?_,
    ⟨by decide, by decide⟩, ⟨le_refl _, (hpart 0 (by decide)).trans rfl⟩, ?_⟩
  · refine
      { signature := hsignature
        disks := ?_
        count := (hread 2 (20 + 10) (by decide)).trans (by decide)
        size := (hread 4 (20 + 12) (by decide)).trans (by decide)
        start := (hread 4 (20 + 16) (by decide)).trans (by decide)
        stop := hstop
        plain := by decide
        directory := rfl }
    rw [hread 2 (20 + 4) (by decide), hread 2 (20 + 6) (by decide), hread 2 (20 + 8) (by decide)]
    decide
  · rw [windowStart, length_hiddenArchive]
    decide

/-- An archive with a ZIP64 locator that its suffix window hides. -/
theorem not_sameOutcome_hiddenArchive : ¬ ∀ A : Bytes, A.length ≤ maxArchiveSize →
    SameOutcome (parseEocd (tailOf A) (A.length - (tailOf A).length) A.length)
      (parseEocd A 0 A.length) := by
  intro h
  have hsize : hiddenArchive.length ≤ maxArchiveSize := by
    rw [length_hiddenArchive, maxArchiveSize]
    omega
  exact not_sameOutcome_of_hidden locatorHidden_hiddenArchive (h hiddenArchive hsize)

/-! ## The two ways to the parts -/

/-- The origin answers every range of the archive with a 206. -/
structure HonoursRanges (U : Unicode) (origin : Origin) (url : Str) (A : Bytes) : Prop where
  identity : ∀ rangeValue, identityEncoded U (origin url rangeValue) = true
  suffix : ∀ n, 0 < n →
    AnswersPart (origin url (suffixRange n)) A (A.length - n) (A.length - 1)
  exact : ∀ start stop, start ≤ stop → stop < A.length →
    AnswersPart (origin url (exactRange start (stop - start + 1 : ℕ))) A start stop

/-- The origin ignores ranges: it answers with a 200 and the whole archive. -/
structure IgnoresRanges (U : Unicode) (origin : Origin) (url : Str) (A : Bytes) : Prop where
  identity : ∀ rangeValue, identityEncoded U (origin url rangeValue) = true
  whole : ∀ rangeValue, AnswersWhole (origin url rangeValue) A

section Paths

variable {U : Unicode} {P : Packaging} {Z : Zlib} {crc32 : Bytes → ℕ} {origin : Origin}
  {url : Str} {A : Bytes}

theorem HonoursRanges.serves (h : HonoursRanges U origin url A) (hne : A ≠ []) :
    Serves U origin url A where
  identity := h.identity
  suffix n hn _ := .inl (h.suffix n hn)
  empty _ hempty := absurd hempty hne
  exact := h.exact

/-- What extraction makes of an archive that is at hand. -/
def extracted (U : Unicode) (P : Packaging) (Z : Zlib) (crc32 : Bytes → ℕ) (A : Bytes)
    (url : Str) : Except Raise Bytes := do
  let member ← archiveMember A
  validateMetadataMember U P member.name url
  (readMember Z crc32 (held A) member).result

/-- The 200 path reads the parts from memory. -/
theorem extract_of_ignoresRanges (h : IgnoresRanges U origin url A) (hsized : Sized A)
    (hle : A.length ≤ maxEocdSearch) :
    (extractWheelMetadata U P Z crc32 origin url).result = extracted U P Z crc32 A url := by
  have hsuffix := fetchSuffix_whole (h.identity _) (h.whole _) hsized hle
  have htail : tailOf A = A := by rw [tailOf, Nat.sub_eq_zero_of_le hle, List.drop_zero]
  have hfirst : (Extraction.request (suffixRange maxEocdSearch)
      (fetchSuffix U origin url maxEocdSearch)).result = .ok (tailOf A, A.length, true) := by
    rw [Extraction.request, hsuffix, tailOf]
    rfl
  have hfetch : ∀ start length,
      (fetchPart U origin url (some (tailOf A)) A.length start length).result =
        (held A start length).result ∧
      Within A.length (fetchPart U origin url (some (tailOf A)) A.length start length) := by
    intro start length
    unfold fetchPart held
    rw [htail]
    split
    · exact ⟨rfl, within_lift _⟩
    · exact ⟨rfl, within_lift _⟩
  have hsize : ¬ (A.length = 0 ∨ A.length > maxArchiveSize) := by
    have hpos : 0 < A.length := List.length_pos_iff.mpr hsized.1
    have hmax := hsized.2
    omega
  rw [extracted, archiveMember, refuseIf, if_neg hsize, ok_bind]
  exact (extract_of_tail Z crc32 P hfirst hfetch (within_tail hsized)).1

/-- **Two paths.** Extraction through ranges and from a full response has the same
result, and a result other than the bytes is a `WheelMetadataError` exactly when the names
parse. -/
theorem sameOutcome_paths_iff {ranged full : Origin} (hne : 1 ≤ A.length)
    (hle : A.length ≤ maxEocdSearch) (hranged : HonoursRanges U ranged url A)
    (hfull : IgnoresRanges U full url A) :
    SameOutcome (extractWheelMetadata U P Z crc32 ranged url).result
        (extractWheelMetadata U P Z crc32 full url).result ↔
      ∀ member, archiveMember A = .ok member → NamesParse U P member.name url := by
  have hsized : Sized A :=
    ⟨List.length_pos_iff.mp hne, Nat.le_trans hle maxEocdSearch_le.2⟩
  have hserves := hranged.serves hsized.1
  have hone : (extractWheelMetadata U P Z crc32 ranged url).result = extracted U P Z crc32 A url :=
    (extract_of_serves Z crc32 P hserves hsized).1
  rw [extract_of_ignoresRanges hfull hsized hle, hone]
  by_cases hnames : ∀ member, archiveMember A = .ok member → NamesParse U P member.name url
  · have hrefuses : Refuses (extracted U P Z crc32 A url) :=
      refuses_bind (refuses_archiveMember A) fun member hmember =>
        refuses_bind (refuses_validate (hnames member hmember)) fun _ _ => refuses_readMember
    exact iff_of_true ((sameOutcome_iff hrefuses hrefuses).mpr fun _ => Iff.rfl) hnames
  · refine iff_of_false ?_ hnames
    push Not at hnames
    obtain ⟨member, hmember, hparse⟩ := hnames
    have hvalue : extracted U P Z crc32 A url = .error .valueError := by
      rw [extracted, hmember, ok_bind, validate_of_not_namesParse hparse]
      rfl
    rw [hvalue]
    rintro (⟨a, ha, -⟩ | ⟨e, e', he, -, hrefusal, -⟩)
    · cases ha
    · obtain rfl := Except.error.inj he
      exact hrefusal

end Paths

/-! ### Two servers -/

/-- A server that sends parts only. -/
def ranging (A : Bytes) : Origin := fun url rangeValue =>
  match cut '-' (rangeValue.drop 6) with
  | ([], some last) => partOf A (A.length - Nat.ofDigitChars 10 last 0) (A.length - 1)
  | _ => serving A url rangeValue

/-- A server that sends everything, whatever it is asked for. -/
def ignoring (A : Bytes) : Origin := fun _ _ => wholeOf A

theorem ignoresRanges_ignoring (U : Unicode) (url : Str) (A : Bytes)
    (hidentity : identityEncoded U (wholeOf A) = true) : IgnoresRanges U (ignoring A) url A where
  identity _ := hidentity
  whole _ := answersWhole_wholeOf A

theorem honoursRanges_ranging (U : Unicode) (url : Str) {A : Bytes} (hne : A ≠ [])
    (hsize : A.length ≤ maxArchiveSize) : HonoursRanges U (ranging A) url A where
  identity rangeValue := by
    unfold ranging
    split
    · exact identityEncoded_of_none rfl
    · exact (serves_serving U url hsize).identity rangeValue
  suffix n hn := by
    have hpos : 0 < A.length := List.length_pos_iff.mpr hne
    have hcut : cut '-' ((suffixRange n).drop 6) = ([], some (str n)) := rfl
    rw [ranging, hcut]
    dsimp only
    rw [str_natCast, Nat.ofDigitChars_ten_toDigits]
    exact answersPart_partOf hsize (by omega) (by omega)
  exact start stop hstart hstop := by
    have hserving := (serves_serving U url hsize).exact start stop hstart hstop
    have hranging : ranging A url (exactRange start (stop - start + 1 : ℕ)) =
        serving A url (exactRange start (stop - start + 1 : ℕ)) := by
      unfold ranging
      split
      · next last hcut =>
        have hfirst : cut '-' ((exactRange start (stop - start + 1 : ℕ)).drop 6) =
            (str start, some (str (start + (stop - start + 1 : ℕ) - 1 : ℤ))) :=
          cut_append (not_mem_str rfl) _
        rw [hfirst] at hcut
        exact absurd (Prod.mk.inj hcut).1 str_ne_nil
      · rfl
    rwa [hranging]

/-- Both ways extract the small wheel alike. -/
theorem sameOutcome_paths_demoWheel :
    let url : Str := ("https://packages.test/demo-1.0-py3-none-any.whl" : Str)
    SameOutcome
      (extractWheelMetadata asciiOnly plainReleases noZlib demoCrc (ranging demoWheel) url).result
      (extractWheelMetadata asciiOnly plainReleases noZlib demoCrc (ignoring demoWheel)
        url).result := by
  intro url
  have hranged := honoursRanges_ranging asciiOnly url (by decide) size_demoWheel
  have hfull := ignoresRanges_ignoring asciiOnly url demoWheel (by decide)
  have hlength : 1 ≤ demoWheel.length ∧ demoWheel.length ≤ maxEocdSearch := by
    rw [length_demoWheel]
    decide
  refine (sameOutcome_paths_iff hlength.1 hlength.2 hranged hfull).mpr fun member hmember => ?_
  obtain rfl := Except.ok.inj (archiveMember_demoWheel.symm.trans hmember)
  exact namesParse_demo (wheelFilename_of_check (by decide +kernel))

/-- A bracket in the user information of the URL: both ways let the `ValueError` out. -/
theorem not_sameOutcome_bracketUrl :
    ¬ ∀ (U : Unicode) (P : Packaging) (Z : Zlib) (crc32 : Bytes → ℕ) (A : Bytes) (url : Str)
      (ranged full : Origin), 1 ≤ A.length → A.length ≤ maxEocdSearch →
      HonoursRanges U ranged url A → IgnoresRanges U full url A →
        SameOutcome (extractWheelMetadata U P Z crc32 ranged url).result
          (extractWheelMetadata U P Z crc32 full url).result := by
  intro h
  have hranged := honoursRanges_ranging asciiOnly bracketUrl (by decide) size_demoWheel
  have hfull := ignoresRanges_ignoring asciiOnly bracketUrl demoWheel (by decide)
  have hlength : 1 ≤ demoWheel.length ∧ demoWheel.length ≤ maxEocdSearch := by
    rw [length_demoWheel]
    decide
  have hresult : (extractWheelMetadata asciiOnly plainReleases noZlib demoCrc (ignoring demoWheel)
      bracketUrl).result = .error .valueError := by
    rw [extract_of_ignoresRanges hfull ⟨by decide, size_demoWheel⟩ hlength.2, extracted,
      archiveMember_demoWheel, ok_bind, validate_of_not_namesParse (not_namesParse_bracketUrl _)]
    rfl
  have hsame := h asciiOnly plainReleases noZlib demoCrc demoWheel bracketUrl (ranging demoWheel)
    (ignoring demoWheel) hlength.1 hlength.2 hranged hfull
  rw [hresult] at hsame
  rcases hsame with ⟨a, -, ha⟩ | ⟨e, e', -, he, -, hrefusal⟩
  · cases ha
  · obtain rfl := Except.error.inj he
    exact hrefusal

end ProxyCache.Theorems.WheelExtraction
