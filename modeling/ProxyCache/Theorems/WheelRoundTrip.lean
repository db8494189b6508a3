import ProxyCache.Lib.Zip
import ProxyCache.Theorems.SuffixWindow
import ProxyCache.Theorems.WheelDirectory

/-!
# Extraction undoes ZIP writing

From an archive that a ZIP writer has written, extraction returns the metadata that
was written into it, wherever the end record lies in the suffix window and whatever
else the archive holds.
-/

namespace ProxyCache.Theorems.WheelExtraction

open ProxyCache.Lib ProxyCache.Lib.Zip ProxyCache.Python ProxyCache.App.WheelMetadata
open ProxyCache.App (Packaging plainReleases)

/-! ## Written numbers -/

section Numbers

variable {A rest : Bytes} {start i offset width value : ℕ} {fields : List (ℕ × ℕ)}
  {widths : List ℕ}

/-- A field of what is written at `start`. -/
theorem number_of_fields (hdrop : A.drop start = encodeFields fields ++ rest)
    (hwidths : fields.map Prod.fst = widths) (hfield : fields[i]? = some (width, value))
    (hoffset : (widths.take i).sum = offset) (hvalue : value < 256 ^ width) :
    number width A (start + offset) = value := by
  rw [number, ← part_drop, hdrop, part_encodeFields rest hwidths hfield hoffset,
    littleEndian_toLittleEndian, Nat.mod_eq_of_lt hvalue]

/-- A field of what is written alone. -/
theorem number_encodeFields (hwidths : fields.map Prod.fst = widths)
    (hfield : fields[i]? = some (width, value)) (hoffset : (widths.take i).sum = offset)
    (hvalue : value < 256 ^ width) : number width (encodeFields fields) offset = value := by
  have hdrop : (encodeFields fields).drop 0 = encodeFields fields ++ [] := by
    rw [List.drop_zero, List.append_nil]
  rw [← Nat.zero_add offset]
  exact number_of_fields hdrop hwidths hfield hoffset hvalue

theorem part_encodeFields_zero (hwidths : fields.map Prod.fst = widths)
    (hfield : fields[0]? = some (width, value)) :
    part (encodeFields fields) 0 width = toLittleEndian width value := by
  have hpart := part_encodeFields [] hwidths hfield List.sum_nil
  rwa [List.append_nil] at hpart

/-- What is written at `start` can be read there. -/
theorem held_of_drop {bytes : Bytes} (h : A.drop start = bytes ++ rest) (hne : bytes ≠ []) :
    (held A start bytes.length).result = .ok bytes := by
  have hpos : 0 < bytes.length := List.length_pos_iff.mpr hne
  have hlength : A.length - start = bytes.length + rest.length := by
    rw [← List.length_drop, h, List.length_append]
  have hpart : part A start bytes.length = bytes := by
    rw [part, h]
    exact List.take_left' rfl
  rw [held, result_lift, if_neg (by omega), hpart]

end Numbers

/-! ## What is written -/

/-- A member that a writer can write without ZIP64, under a name that decodes. -/
structure Writable (e : Entry) : Prop where
  flags : e.flags < 256 ^ 2
  method : e.method < 256 ^ 2
  crc32 : e.crc32 < 256 ^ 4
  compressed : e.compressed.length < 0xFFFFFFFF
  uncompressed : e.uncompressedSize < 0xFFFFFFFF
  rawName : e.rawName.length < 256 ^ 2
  localExtra : e.localExtra.length < 256 ^ 2 ∧ Zip64Free e.localExtra
  centralExtra : e.centralExtra.length < 256 ^ 2 ∧ Zip64Free e.centralExtra
  comment : e.comment.length < 256 ^ 2
  name : ∃ name, decodeName e.rawName e.flags = .ok name

/-- Inflating the data gives the content. -/
def Inflates (Z : Zlib) (compressed content : Bytes) : Prop :=
  ∀ n, content.length < n → ∃ result object rest object',
    Z.decompress Z.decompressobj compressed n = some (result, object) ∧
    Z.unconsumedTail object = [] ∧ Z.flush object (n - result.length) = some (rest, object') ∧
    result ++ rest = content ∧ Z.eof object' = true ∧ Z.unusedData object' = [] ∧
    Z.unconsumedTail object' = []

/-- The member holds the content, stored or deflated, unencrypted and within the limits. -/
structure Holds (Z : Zlib) (crc32 : Bytes → ℕ) (e : Entry) (content : Bytes) : Prop where
  data : (e.method = 0 ∧ e.compressed = content) ∨ (e.method = 8 ∧ Inflates Z e.compressed content)
  size : e.uncompressedSize = content.length
  crc32 : e.crc32 = crc32 content &&& 0xFFFFFFFF
  plain : e.flags &&& 0x41 = 0
  nonempty : e.compressed ≠ []
  limits : e.compressed.length ≤ maxCompressedMetadataSize ∧ content.length ≤ maxMetadataSize

/-- An archive of which the member `e` is the metadata of the wheel, and no other member has a
name like `other`. No record but the one written reaches to the end from `clear` bytes behind its
start on, and no ZIP64 locator stands in front of it. -/
structure WheelArchive (U : Unicode) (P : Packaging) (url distribution version : Str)
    (other : Str → Prop) (clear : ℕ) (before after : List Entry) (e : Entry) (comment : Bytes) :
    Prop where
  writable : ∀ x ∈ before ++ e :: after, Writable x
  count : (before ++ e :: after).length ≤ 65534
  directory : (central (before ++ e :: after)).length ≤ maxCentralDirectorySize
  start : (locals (before ++ e :: after)).length < 0xFFFFFFFF
  commentLength : comment.length ≤ 65535
  last : ∀ later, endOffset (before ++ e :: after) + clear ≤ later →
    ¬ EndsAt (archive (before ++ e :: after) comment) later
  locator : ¬ LocatorBefore (archive (before ++ e :: after) comment)
    (endOffset (before ++ e :: after))
  name : decodeName e.rawName e.flags = .ok (metadataName (distribution ++ '-' :: version))
  slash : '/' ∉ distribution ++ '-' :: version
  others : ∀ x ∈ before ++ after, ∀ name, decodeName x.rawName x.flags = .ok name → ¬ other name
  url : ∃ filename release, MatchesFilename U P url (distribution ++ '-' :: version) filename
    distribution version release

section Written

variable {U : Unicode} {P : Packaging} {Z : Zlib} {crc32 : Bytes → ℕ} {origin : Origin}
  {url distribution version : Str} {other : Str → Prop} {clear : ℕ} {before after : List Entry}
  {entries : List Entry} {e : Entry} {comment content : Bytes} {x : Entry × ℕ}

/-! ### The central directory -/

/-- The record of a member that is located. -/
def recordOf (x : Entry × ℕ) : Record :=
  ⟨encodeFields (x.1.centralFields x.2), x.1.rawName, x.1.centralExtra, x.1.comment⟩

theorem number_recordOf {i offset width value : ℕ}
    (hfield : (x.1.centralFields x.2)[i]? = some (width, value))
    (hoffset : (centralWidths.take i).sum = offset) (hvalue : value < 256 ^ width) :
    number width (recordOf x).fixed offset = value :=
  number_encodeFields (widths_centralFields x.1 x.2) hfield hoffset hvalue

theorem wellFormed_recordOf (h : Writable x.1) : (recordOf x).WellFormed where
  fixed := length_encodeFields (widths_centralFields x.1 x.2)
  signature := (part_encodeFields_zero (widths_centralFields x.1 x.2) rfl).trans (by decide)
  rawName := number_recordOf (i := 10) rfl (by decide) h.rawName
  extra := number_recordOf (i := 11) rfl (by decide) h.centralExtra.1
  comment := number_recordOf (i := 12) rfl (by decide) h.comment

theorem flags_recordOf (h : Writable x.1) : (recordOf x).flags = x.1.flags :=
  number_recordOf (i := 3) rfl (by decide) h.flags

theorem compressedSize_recordOf (h : Writable x.1) :
    (recordOf x).compressedSize = x.1.compressed.length :=
  number_recordOf (i := 8) rfl (by decide) (Nat.lt_trans h.compressed (by decide))

theorem uncompressedSize_recordOf (h : Writable x.1) :
    (recordOf x).uncompressedSize = x.1.uncompressedSize :=
  number_recordOf (i := 9) rfl (by decide) (Nat.lt_trans h.uncompressed (by decide))

theorem localOffset_recordOf (hoffset : x.2 < 0xFFFFFFFF) : (recordOf x).localOffset = x.2 :=
  number_recordOf (i := 16) rfl (by decide) (Nat.lt_trans hoffset (by decide))

theorem plain_recordOf (h : Writable x.1) (hoffset : x.2 < 0xFFFFFFFF) : (recordOf x).Plain where
  disk := number_recordOf (i := 13) rfl (by decide) (by decide)
  sizes := by
    rw [compressedSize_recordOf h, uncompressedSize_recordOf h, localOffset_recordOf hoffset]
    exact ⟨h.compressed.ne, h.uncompressed.ne, hoffset.ne⟩
  extra := h.centralExtra.2

theorem central_eq (entries : List Entry) : central entries =
    (((located 0 entries).map recordOf).map Record.bytes).flatten := by
  rw [central, List.map_map, ← List.flatMap_def]
  rfl

/-- The central directory that is written is one, and describes the metadata. -/
theorem isDirectory_central
    (h : WheelArchive U P url distribution version IsMetadataName clear before after e comment) :
    IsDirectory (central (before ++ e :: after)) (before ++ e :: after).length
      ((recordOf (e, (locals before).length)).member
        (metadataName (distribution ++ '-' :: version))) := by
  have hsplit : (located 0 (before ++ e :: after)).map recordOf =
      (located 0 before).map recordOf ++ recordOf (e, (locals before).length) ::
        (located ((locals before).length + e.localBytes.length) after).map recordOf := by
    rw [located_append, located, List.map_append, List.map_cons, Nat.zero_add]
  have hwritable : ∀ x ∈ located 0 (before ++ e :: after), Writable x.1 ∧ x.2 < 0xFFFFFFFF := by
    intro x hx
    obtain ⟨hmem, hle⟩ := mem_located hx
    have hstart := h.start
    exact ⟨h.writable x.1 hmem, by omega⟩
  have hstem : distribution ++ '-' :: version ≠ [] := by simp
  have he := h.writable e (List.mem_append_right _ List.mem_cons_self)
  refine ⟨(located 0 before).map recordOf, recordOf (e, (locals before).length),
    (located ((locals before).length + e.localBytes.length) after).map recordOf, ?_, ?_, ?_,
    ⟨⟨?_, rfl, rfl, rfl, rfl, rfl, rfl⟩, ⟨_, hstem, h.slash, rfl⟩⟩, ?_⟩
  · rw [← hsplit, List.length_map, length_located]
  · rw [← hsplit, central_eq]
  · intro r hr
    rw [← hsplit] at hr
    obtain ⟨x, hx, rfl⟩ := List.mem_map.mp hr
    obtain ⟨hx, hoffset⟩ := hwritable x hx
    obtain ⟨name, hname⟩ := hx.name
    refine ⟨wellFormed_recordOf hx, plain_recordOf hx hoffset, name, ?_⟩
    rw [Record.Named, flags_recordOf hx]
    exact hname
  · rw [Record.member, Record.Named, flags_recordOf he]
    exact h.name
  · intro r hr name hname
    -- the records beside it are of the other members
    obtain ⟨x, hx, hmem, rfl⟩ : ∃ x : Entry × ℕ, x.1 ∈ before ++ after ∧
        x ∈ located 0 (before ++ e :: after) ∧ recordOf x = r := by
      rw [located_append, located]
      rcases List.mem_append.mp hr with hr | hr
      · obtain ⟨x, hx, rfl⟩ := List.mem_map.mp hr
        exact ⟨x, List.mem_append_left _ (mem_located hx).1, List.mem_append_left _ hx, rfl⟩
      · obtain ⟨x, hx, rfl⟩ := List.mem_map.mp hr
        rw [Nat.zero_add]
        exact ⟨x, List.mem_append_right _ (mem_located hx).1,
          List.mem_append_right _ (List.mem_cons_of_mem _ hx), rfl⟩
    rw [Record.Named, flags_recordOf (hwritable x hmem).1] at hname
    exact h.others x.1 hx name hname

/-! ### The end record -/

theorem length_central_pos (h : entries ≠ []) : 0 < (central entries).length := by
  cases entries with
  | nil => exact absurd rfl h
  | cons e entries =>
    have hfields : (encodeFields (e.centralFields 0)).length = 46 :=
      length_encodeFields (widths_centralFields e 0)
    rw [central, located, List.flatMap_cons, centralBytes]
    simp only [List.length_append, hfields]
    omega

/-- The end record that is written. -/
theorem endRecord_archive (hcount : entries.length < 0xFFFF)
    (hdirectory : (central entries).length ≤ maxCentralDirectorySize)
    (hstart : (locals entries).length < 0xFFFFFFFF) (hcomment : comment.length ≤ 65535) :
    EndRecord (archive entries comment) (endOffset entries) (locals entries).length
      (central entries).length entries.length := by
  have hnumber : ∀ {i offset width value : ℕ},
      (endFields entries comment)[i]? = some (width, value) → (endWidths.take i).sum = offset →
      value < 256 ^ width → number width (archive entries comment) (endOffset entries + offset) =
      value :=
    fun hfield hoffset hvalue =>
      number_of_fields drop_end (widths_endFields entries comment) hfield hoffset hvalue
  have hsmall : (central entries).length < 0xFFFFFFFF := Nat.lt_of_le_of_lt hdirectory (by decide)
  have hentries : entries.length < 256 ^ 2 := Nat.lt_trans hcount (by decide)
  have hlength : number 2 (archive entries comment) (endOffset entries + 20) = comment.length :=
    hnumber (i := 7) rfl (by decide) (Nat.lt_of_le_of_lt hcomment (by decide))
  refine
    { signature := ?_
      disks := ⟨hnumber (i := 1) rfl (by decide) (by decide),
        hnumber (i := 2) rfl (by decide) (by decide), hnumber (i := 3) rfl (by decide) hentries⟩
      count := hnumber (i := 4) rfl (by decide) hentries
      size := hnumber (i := 5) rfl (by decide) (Nat.lt_trans hsmall (by decide))
      start := hnumber (i := 6) rfl (by decide) (Nat.lt_trans hstart (by decide))
      stop := ?_
      plain := ⟨hcount.ne, hsmall.ne, hstart.ne⟩
      directory := rfl }
  · have hpart : part (encodeFields (endFields entries comment) ++ comment) 0 4 = _ :=
      part_encodeFields (i := 0) comment (widths_endFields entries comment) rfl rfl
    rw [← drop_end, part_drop, Nat.add_zero] at hpart
    exact hpart.trans (by decide)
  · rw [hlength, length_archive]
    rfl

/-! ### The member -/

theorem endRecord_wheel
    (h : WheelArchive U P url distribution version other clear before after e comment) :
    EndRecord (archive (before ++ e :: after) comment) (endOffset (before ++ e :: after))
      (locals (before ++ e :: after)).length (central (before ++ e :: after)).length
      (before ++ e :: after).length :=
  endRecord_archive (Nat.lt_of_le_of_lt h.count (by decide)) h.directory h.start h.commentLength

theorem sized_archive (h : WheelArchive U P url distribution version other clear before after e
      comment) : Sized (archive (before ++ e :: after) comment) := by
  have hlength : (archive (before ++ e :: after) comment).length =
      endOffset (before ++ e :: after) + 22 + comment.length := length_archive
  have hstart := h.start
  have hdirectory := h.directory
  have hcomment := h.commentLength
  refine ⟨List.length_pos_iff.mp (by omega), ?_⟩
  rw [hlength, endOffset]
  unfold maxCentralDirectorySize at hdirectory
  unfold maxArchiveSize
  omega

/-- The member is located by the parts of the archive. -/
theorem locateMember_of_parts {A tail directory : Bytes} {size centralOffset centralSize n : ℕ}
    {member : Member}
    (hend : parseEocd tail (size - tail.length) size = .ok (centralOffset, centralSize, n))
    (hheld : (held A centralOffset centralSize).result = .ok directory)
    (hdirectory : parseCentralDirectory directory n = .ok member) :
    (locateMember (held A) tail size).result = .ok member := by
  refine (result_bind _ _).trans ?_
  rw [result_lift, hend, ok_bind]
  refine (result_bind _ _).trans ?_
  rw [hheld, ok_bind, result_lift, hdirectory]

/-- The metadata member is found. -/
theorem archiveMember_archive
    (h : WheelArchive U P url distribution version IsMetadataName 1 before after e comment) :
    archiveMember (archive (before ++ e :: after) comment) =
      .ok ((recordOf (e, (locals before).length)).member
        (metadataName (distribution ++ '-' :: version))) := by
  have hsize : ¬ ((archive (before ++ e :: after) comment).length = 0 ∨
      (archive (before ++ e :: after) comment).length > maxArchiveSize) := by
    obtain ⟨hne, hmax⟩ := sized_archive h
    rw [not_or, not_lt]
    exact ⟨fun hzero => hne (List.length_eq_zero_iff.mp hzero), hmax⟩
  have hrecord := endRecord_wheel h
  have hlast : LastEnd (archive (before ++ e :: after) comment)
      (endOffset (before ++ e :: after)) :=
    ⟨⟨hrecord.signature, hrecord.stop⟩, fun later hlater => h.last later hlater⟩
  have hne : before ++ e :: after ≠ [] := by simp
  have hlimits : WithinLimits (central (before ++ e :: after)).length
      (before ++ e :: after).length := by
    have hcount := h.count
    refine ⟨⟨List.length_pos_iff.mpr hne, ?_⟩, length_central_pos hne, h.directory⟩
    unfold maxEntries
    omega
  have hparse := (parseEocd_window hlast).1.mpr
    ⟨hrecord, hlimits, fun hlocator => h.locator hlocator.2⟩
  have hcentral : (held (archive (before ++ e :: after) comment)
      (locals (before ++ e :: after)).length (central (before ++ e :: after)).length).result =
        .ok (central (before ++ e :: after)) :=
    held_of_drop drop_central (List.length_pos_iff.mp hlimits.2.1)
  rw [archiveMember, refuseIf, if_neg hsize, ok_bind]
  refine locateMember_of_parts ?_ hcentral
    (parseCentralDirectory_of_isDirectory (isDirectory_central h))
  rw [length_sub_tailOf]
  exact hparse

theorem distInfoOf_metadataName {stem : Str} (hne : stem ≠ []) (hslash : '/' ∉ stem) :
    distInfoOf (metadataName stem) = stem := by
  obtain ⟨stem', -, -, hname, hdistInfo⟩ :=
    metadataName_of_isMetadataName (isMetadataName_iff.mpr ⟨stem, hne, hslash, rfl⟩)
  rw [hdistInfo]
  exact (List.append_cancel_right (List.append_cancel_right hname)).symm

/-- A member whose directory names the wheel is accepted. -/
theorem validate_of_matches {filename : Str} {release : P.Version}
    (h : MatchesFilename U P url (distribution ++ '-' :: version) filename distribution version
      release) (hslash : '/' ∉ distribution ++ '-' :: version) :
    validateMetadataMember U P (metadataName (distribution ++ '-' :: version)) url = .ok () := by
  obtain ⟨hdistribution, hversion, hdash⟩ := h.nonempty
  rw [validateMetadataMember, h.path, ok_bind, h.wheel]
  simp only [ofPackaging, bind, Except.bind]
  rw [distInfoOf_metadataName (by simp) hslash, rcut_append hdash]
  dsimp only
  rw [refuseIf, if_neg (by simp [hdistribution, hversion]), h.parsed]
  dsimp only
  rw [refuseIf, if_neg (by simp)]

theorem decompressMetadata_of_holds (h : Holds Z crc32 e content) :
    decompressMetadata Z e.compressed e.method content.length = .ok content := by
  rcases h.data with ⟨hmethod, hstored⟩ | ⟨hmethod, hinflates⟩
  · rw [decompressMetadata, hmethod, if_pos rfl, hstored, refuseIf, if_neg (by simp)]
    rfl
  · have hlimit := h.limits.2
    obtain ⟨result, object, rest, object', hdecompress, htail, hflush, hcontent, heof, hunused,
      htail'⟩ := hinflates (maxMetadataSize + 1) (by omega)
    have hlength : result.length ≤ content.length := by
      rw [← hcontent, List.length_append]
      omega
    rw [decompressMetadata, hmethod, if_neg (by decide), if_neg (by decide), hdecompress]
    dsimp only
    rw [refuseIf, if_neg (by rw [not_or, not_not]; exact ⟨by omega, htail⟩), ok_bind, hflush]
    dsimp only
    rw [hcontent, refuseIf, if_neg (by simp [heof, hunused, htail']; omega)]
    rfl

theorem checkMember_of_holds {name : Str} {offset : ℕ} (he : Writable e)
    (h : Holds Z crc32 e content) : checkMember ((recordOf (e, offset)).member name) = .ok () := by
  obtain ⟨hcompressed, hcontent⟩ := h.limits
  have hpos : 0 < e.compressed.length := List.length_pos_iff.mpr h.nonempty
  have hsize := h.size
  have hflags := flags_recordOf (x := (e, offset)) he
  have hcompressedSize := compressedSize_recordOf (x := (e, offset)) he
  have huncompressedSize := uncompressedSize_recordOf (x := (e, offset)) he
  rw [checkMember, Record.member]
  dsimp only
  rw [hflags, hcompressedSize, huncompressedSize]
  dsimp only
  rw [refuseIf, if_neg (not_not.mpr h.plain), ok_bind, refuseIf, if_neg (by omega), ok_bind,
    refuseIf, if_neg (by omega)]

/-- The local header that is written agrees with the record. -/
theorem parseLocalHeader_localFields {name : Str} {offset : ℕ} (he : Writable e)
    (h : Holds Z crc32 e content) :
    parseLocalHeader (encodeFields e.localFields) ((recordOf (e, offset)).member name) =
      .ok (e.rawName.length, e.localExtra.length) := by
  have hlength : (encodeFields e.localFields).length = 30 :=
    length_encodeFields (widths_localFields e)
  have hnumber : ∀ {i offset width value : ℕ}, e.localFields[i]? = some (width, value) →
      (localWidths.take i).sum = offset → value < 256 ^ width →
        number width (encodeFields e.localFields) offset = value :=
    fun hfield hoffset hvalue => number_encodeFields (widths_localFields e) hfield hoffset hvalue
  have hsignature : part (encodeFields e.localFields) 0 4 = localSignature :=
    (part_encodeFields_zero (widths_localFields e) rfl).trans (by decide)
  have hflags : number 2 (encodeFields e.localFields) 6 = e.flags :=
    hnumber (i := 2) rfl (by decide) he.flags
  have hmethod : number 2 (encodeFields e.localFields) 8 = e.method :=
    hnumber (i := 3) rfl (by decide) he.method
  have hname : number 2 (encodeFields e.localFields) 26 = e.rawName.length :=
    hnumber (i := 9) rfl (by decide) he.rawName
  have hextra : number 2 (encodeFields e.localFields) 28 = e.localExtra.length :=
    hnumber (i := 10) rfl (by decide) he.localExtra.1
  have hagree : ¬ (e.flags ≠ ((recordOf (e, offset)).member name).flags ∨
      e.method ≠ ((recordOf (e, offset)).member name).method) := by
    have hrecord : (recordOf (e, offset)).method = e.method :=
      number_recordOf (x := (e, offset)) (i := 4) rfl (by decide) he.method
    rw [not_or, not_not, not_not]
    exact ⟨(flags_recordOf (x := (e, offset)) he).symm, hrecord.symm⟩
  rw [parseLocalHeader_of_length hlength, hsignature, hflags, hmethod, hname, hextra, refuseIf,
    if_neg (by simp), ok_bind, refuseIf, if_neg hagree, ok_bind, refuseIf,
    if_neg (not_not.mpr h.plain), ok_bind]
  rfl

theorem checkLocalName_written {name : Str} {offset : ℕ} (he : Writable e)
    (hname : decodeName e.rawName e.flags = .ok name) :
    checkLocalName (e.rawName ++ e.localExtra) e.rawName.length
      ((recordOf (e, offset)).member name) = .ok () := by
  have hpart : part (e.rawName ++ e.localExtra) 0 e.rawName.length = e.rawName := by
    rw [part, List.drop_zero]
    exact List.take_left' rfl
  have hflags : ((recordOf (e, offset)).member name).flags = e.flags :=
    flags_recordOf (x := (e, offset)) he
  rw [checkLocalName, hpart, hflags, hname, ok_bind, Record.member, refuseIf, if_neg (by simp),
    ok_bind, List.drop_left, hasZip64Extra_of_free he.localExtra.2, ok_bind, refuseIf,
    if_neg (by decide)]

theorem decodeMember_of_holds {name : Str} {offset : ℕ} (he : Writable e)
    (h : Holds Z crc32 e content) :
    decodeMember Z crc32 e.compressed ((recordOf (e, offset)).member name) = .ok content := by
  have hmethod : (recordOf (e, offset)).method = e.method :=
    number_recordOf (x := (e, offset)) (i := 4) rfl (by decide) he.method
  have hcrc : (recordOf (e, offset)).crc32 = e.crc32 :=
    number_recordOf (x := (e, offset)) (i := 7) rfl (by decide) he.crc32
  rw [decodeMember, Record.member]
  dsimp only
  rw [hmethod, uncompressedSize_recordOf (x := (e, offset)) he]
  dsimp only
  rw [h.size, decompressMetadata_of_holds h, ok_bind, hcrc, h.crc32, refuseIf, if_neg (by simp),
    ok_bind]
  rfl

/-- The content is read from wherever the member stands. -/
theorem readMember_written {A rest : Bytes} {name : Str} {offset : ℕ} (he : Writable e)
    (hoffset : offset < 0xFFFFFFFF) (hdrop : A.drop offset = e.localBytes ++ rest)
    (hname : decodeName e.rawName e.flags = .ok name) (hne : e.rawName ≠ [])
    (h : Holds Z crc32 e content) :
    (readMember Z crc32 (held A) ((recordOf (e, offset)).member name)).result = .ok content := by
  have hlength : (encodeFields e.localFields).length = 30 :=
    length_encodeFields (widths_localFields e)
  have hheader : (held A offset 30).result = .ok (encodeFields e.localFields) := by
    rw [Entry.localBytes, List.append_assoc] at hdrop
    rw [← hlength]
    exact held_of_drop hdrop (List.length_pos_iff.mp (by omega))
  have hnext : A.drop (offset + 30) = e.rawName ++ e.localExtra ++
      (e.compressed ++ (e.descriptor ++ rest)) := by
    rw [← List.drop_drop, hdrop, Entry.localBytes, List.append_assoc, List.drop_left' hlength]
    simp only [List.append_assoc]
  have hvariable : (held A (offset + 30) (e.rawName.length + e.localExtra.length)).result =
      .ok (e.rawName ++ e.localExtra) := by
    rw [← List.length_append]
    exact held_of_drop hnext (by simp [hne])
  have hdata : A.drop (offset + 30 + e.rawName.length + e.localExtra.length) =
      e.compressed ++ (e.descriptor ++ rest) := by
    rw [Nat.add_assoc (offset + 30), ← List.drop_drop, hnext,
      List.drop_left' List.length_append]
  have hcompressed : (held A (offset + 30 + e.rawName.length + e.localExtra.length)
      e.compressed.length).result = .ok e.compressed := held_of_drop hdata h.nonempty
  have hlocal : ((recordOf (e, offset)).member name).localOffset = offset :=
    localOffset_recordOf (x := (e, offset)) hoffset
  have hsize : ((recordOf (e, offset)).member name).compressedSize = e.compressed.length :=
    compressedSize_recordOf (x := (e, offset)) he
  rw [readMember, hlocal, hsize]
  refine (result_bind _ _).trans ?_
  rw [result_lift, checkMember_of_holds he h, ok_bind]
  refine (result_bind _ _).trans ?_
  rw [hheader, ok_bind]
  refine (result_bind _ _).trans ?_
  rw [result_lift, parseLocalHeader_localFields he h, ok_bind]
  refine (result_bind _ _).trans ?_
  rw [hvariable, ok_bind]
  refine (result_bind _ _).trans ?_
  rw [result_lift, checkLocalName_written he hname, ok_bind]
  refine (result_bind _ _).trans ?_
  rw [hcompressed, ok_bind, result_lift, decodeMember_of_holds he h]

/-- A name that is not empty has bytes. -/
theorem rawName_ne_nil {rawName : Bytes} {flags : ℕ} {name : Str}
    (h : decodeName rawName flags = .ok name) (hne : name ≠ []) : rawName ≠ [] := by
  rintro rfl
  have hdecode : decodeName [] flags = .ok [] := by
    unfold decodeName
    split
    · rfl
    · rfl
  exact hne (Except.ok.inj (h.symm.trans hdecode))

/-- **Extraction undoes ZIP writing.** From an archive with one member `X.dist-info/METADATA`,
that of the wheel, and with no further record that reaches to its end behind the start of its end
record, extraction returns the content of that member. -/
theorem extract_archive (hserves : Serves U origin url (archive (before ++ e :: after) comment))
    (h : WheelArchive U P url distribution version IsMetadataName 1 before after e comment)
    (hholds : Holds Z crc32 e content) :
    (extractWheelMetadata U P Z crc32 origin url).result = .ok content := by
  have he := h.writable e (List.mem_append_right _ List.mem_cons_self)
  have hoffset : (locals before).length < 0xFFFFFFFF := by
    have hstart := h.start
    rw [locals_append, List.length_append] at hstart
    omega
  have hne : e.rawName ≠ [] := rawName_ne_nil h.name (by simp [metadataName])
  obtain ⟨filename, release, hmatches⟩ := h.url
  have hextract := (extract_of_serves Z crc32 P hserves (sized_archive h)).1
  rw [hextract, archiveMember_archive h, ok_bind, Record.member, validate_of_matches
    hmatches h.slash,
    ok_bind]
  exact readMember_written he hoffset drop_locals h.name hne hholds

end Written

/-! ## Written wheels -/

/-- A stored member of the one byte `a`. -/
def storedEntry (name : Str) : Entry where
  rawName := name.map fun c => UInt8.ofNat c.toNat
  flags := 0
  method := 0
  crc32 := 0xe8b7be43
  compressed := [0x61]
  uncompressedSize := 1
  localExtra := []
  centralExtra := []
  comment := []
  needed := 20
  time := 0
  date := 0
  localCrc32 := 0xe8b7be43
  localCompressed := 1
  localUncompressed := 1
  descriptor := []
  made := 20
  internal := 0
  external := 0

def demoEntry : Entry := storedEntry demoName

/-- The URL of the small wheel. -/
def demoUrl : Str := ("https://packages.test/demo-1.0-py3-none-any.whl" : Str)

/-- The URL of the small wheel names the member that is stored in it. -/
theorem matches_demoUrl : ∃ filename release, MatchesFilename asciiOnly plainReleases demoUrl
    (("demo" : Str) ++ '-' :: ("1.0" : Str)) filename ("demo" : Str) ("1.0" : Str) release := by
  have hpath : wheelFilename asciiOnly demoUrl = .ok demoFilename :=
    wheelFilename_of_check (by decide +kernel)
  exact ⟨demoFilename, [1], rfl, by decide, hpath, by decide, by decide⟩

theorem writable_storedEntry {name : Str} (hlength : (storedEntry name).rawName.length < 256 ^ 2) :
    Writable (storedEntry name) where
  flags := show 0 < 256 ^ 2 by decide
  method := show 0 < 256 ^ 2 by decide
  crc32 := show 0xe8b7be43 < 256 ^ 4 by decide
  compressed := show 1 < 0xFFFFFFFF by decide
  uncompressed := show 1 < 0xFFFFFFFF by decide
  rawName := hlength
  localExtra := ⟨show 0 < 256 ^ 2 by decide, [], .nil, List.not_mem_nil⟩
  centralExtra := ⟨show 0 < 256 ^ 2 by decide, [], .nil, List.not_mem_nil⟩
  comment := show 0 < 256 ^ 2 by decide
  name := ⟨decodeCp437 (storedEntry name).rawName, if_neg (by show ¬ 0 &&& 0x800 ≠ 0; decide)⟩

theorem holds_demoEntry : Holds noZlib demoCrc demoEntry [0x61] where
  data := .inl ⟨rfl, rfl⟩
  size := rfl
  crc32 := by decide
  plain := rfl
  nonempty := List.cons_ne_nil _ _
  limits := by decide

/-- Behind the end record that is written there is no other without a comment. -/
theorem not_endsAt_of_no_comment {later : ℕ} (h : endOffset entries + 1 ≤ later) :
    ¬ EndsAt (archive entries []) later := by
  intro hends
  have hle := hends.length_le
  rw [length_archive, List.length_nil] at hle
  unfold eocdSize at hle
  omega

/-- An archive of stored members only, the metadata of the small wheel first. -/
theorem wheelArchive_demo {other : Str → Prop} {clear : ℕ} {after : List Entry} {comment : Bytes}
    (hafter : ∀ x ∈ after, Writable x ∧ ∀ name, decodeName x.rawName x.flags =
      .ok name → ¬ other name)
    (hsizes : after.length ≤ 65533 ∧
      (central (demoEntry :: after)).length ≤ maxCentralDirectorySize ∧
      (locals (demoEntry :: after)).length < 0xFFFFFFFF ∧ comment.length ≤ 65535)
    (hlast : ∀ later, endOffset (demoEntry :: after) + clear ≤ later →
      ¬ EndsAt (archive (demoEntry :: after) comment) later)
    (hlocator : ¬ LocatorBefore (archive (demoEntry :: after) comment)
      (endOffset (demoEntry :: after))) :
    WheelArchive asciiOnly plainReleases demoUrl ("demo" : Str) ("1.0" : Str) other clear [] after
      demoEntry comment where
  writable := by
    intro x hx
    rcases List.mem_cons.mp hx with rfl | hx
    · exact writable_storedEntry (by decide)
    · exact (hafter x hx).1
  count := by
    rw [List.nil_append, List.length_cons]
    omega
  directory := hsizes.2.1
  start := hsizes.2.2.1
  commentLength := hsizes.2.2.2
  last := hlast
  locator := hlocator
  name := rfl
  slash := by decide
  others x hx := (hafter x hx).2
  url := matches_demoUrl

/-- A raw stream of one stored block, with what lies behind it. -/
def storedBlock : Bytes → Option (Bytes × Bytes)
  | 1 :: low :: high :: low' :: high' :: rest =>
    let length := littleEndian [low, high]
    if low' = ~~~low ∧ high' = ~~~high ∧ length ≤ rest.length then
      some (rest.take length, rest.drop length)
    else none
  | _ => none

/-- `zlib`, as far as streams of one stored block go. An object has whether its stream is at the
end, the unused data, and the unconsumed tail. -/
def oneBlock : Zlib where
  Object := Bool × Bytes × Bytes
  decompressobj := (false, [], [])
  decompress _ data n := (storedBlock data).map fun (content, unused) =>
    if content.length ≤ n then (content, true, unused, [])
    else (content.take n, false, [], data.drop (5 + n))
  flush object _ := some ([], object)
  eof object := object.1
  unusedData object := object.2.1
  unconsumedTail object := object.2.2
  inflate := storedBlock
  inflate_eq := by
    intro data n result object m rest object' hdecompress _ hflush heof _
    obtain ⟨rfl, rfl⟩ : [] = rest ∧ object = object' :=
      Prod.mk.inj (Option.some.inj hflush)
    obtain ⟨⟨content, unused⟩, hblock, hobject⟩ := Option.map_eq_some_iff.mp hdecompress
    dsimp only at hobject
    split at hobject
    · cases hobject
      rw [hblock, List.append_nil]
    · cases hobject
      cases heof

/-- A member of the package, in front of the metadata. -/
def packageEntry : Entry := storedEntry ("demo/__init__.py" : Str)

/-- The time of a change, as an extra field. -/
def timestamp : Bytes := [0x55, 0x54, 5, 0, 1, 0, 0, 0, 0]

/-- The metadata, deflated, with an extra field in both headers and a comment. -/
def deflatedEntry : Entry :=
  { demoEntry with
    method := 8
    compressed := [1, 1, 0, 0xfe, 0xff, 0x61]
    localExtra := timestamp
    centralExtra := timestamp
    comment := [0x63]
    localCompressed := 6 }

theorem zip64Free_timestamp : Zip64Free timestamp :=
  zip64Free_of_hasZip64Extra (by decide)

theorem writable_deflatedEntry : Writable deflatedEntry where
  flags := show 0 < 256 ^ 2 by decide
  method := show 8 < 256 ^ 2 by decide
  crc32 := show 0xe8b7be43 < 256 ^ 4 by decide
  compressed := show 6 < 0xFFFFFFFF by decide
  uncompressed := show 1 < 0xFFFFFFFF by decide
  rawName := by decide
  localExtra := ⟨show 9 < 256 ^ 2 by decide, zip64Free_timestamp⟩
  centralExtra := ⟨show 9 < 256 ^ 2 by decide, zip64Free_timestamp⟩
  comment := show 1 < 256 ^ 2 by decide
  name := ⟨demoName, rfl⟩

theorem holds_deflatedEntry : Holds oneBlock demoCrc deflatedEntry [0x61] where
  data := by
    refine .inr ⟨rfl, fun n hn => ?_⟩
    have hle : [(0x61 : UInt8)].length ≤ n := Nat.le_of_lt hn
    refine ⟨[0x61], (true, [], []), [], (true, [], []), ?_, rfl, rfl, rfl, rfl, rfl, rfl⟩
    show some (if [(0x61 : UInt8)].length ≤ n then _ else _) = _
    rw [if_pos hle]
    rfl
  size := rfl
  crc32 := by decide
  plain := rfl
  nonempty := List.cons_ne_nil _ _
  limits := by decide

/-- The comment of the archive. -/
def demoComment : Bytes := [0x64, 0x65, 0x6d, 0x6f]

theorem wheelArchive_deflated : WheelArchive asciiOnly plainReleases demoUrl ("demo" : Str)
    ("1.0" : Str) IsMetadataName 1 [packageEntry] [] deflatedEntry demoComment where
  writable := by
    intro x hx
    rcases List.mem_cons.mp hx with rfl | hx
    · exact writable_storedEntry (by decide)
    · rw [List.mem_singleton.mp hx]
      exact writable_deflatedEntry
  count := by decide
  directory := by decide +kernel
  start := by decide +kernel
  commentLength := by decide
  last := by
    -- no byte behind the first one of the end record starts a signature
    have hbytes : ∀ b ∈ (archive [packageEntry, deflatedEntry] demoComment).drop
        (endOffset [packageEntry, deflatedEntry] + 1), b ≠ 0x50 := by
      decide +kernel
    exact fun later hlater => not_endsAt_of_drop fun b hb =>
      hbytes b (List.drop_subset_drop_left _ hlater hb)
  locator := by
    unfold LocatorBefore
    decide +kernel
  name := rfl
  slash := by decide
  others := by
    intro x hx name hname
    obtain rfl := List.mem_singleton.mp hx
    obtain rfl : ("demo/__init__.py" : Str) = name := Except.ok.inj hname
    rintro ⟨stem, -, -, hstem⟩
    have hlast : (metadataName stem).getLast? = some 'A' := by
      rw [metadataName, List.append_assoc, List.getLast?_append]
      rfl
    rw [← hstem] at hlast
    exact absurd hlast (by decide)
  url := matches_demoUrl

/-- A wheel of two members, the metadata deflated, with an extra field and comments. -/
theorem extract_archive_demo :
    (extractWheelMetadata asciiOnly plainReleases oneBlock demoCrc
      (serving (archive [packageEntry, deflatedEntry] demoComment)) demoUrl).result =
        .ok [0x61] := by
  have hlength : (archive [packageEntry, deflatedEntry] demoComment).length = 290 := by
    decide +kernel
  have hsize : (archive [packageEntry, deflatedEntry] demoComment).length ≤ maxArchiveSize := by
    rw [hlength, maxArchiveSize]
    omega
  have hserves := serves_serving asciiOnly demoUrl hsize
  exact @extract_archive _ _ _ _ _ _ _ _ [packageEntry] [] _ _ _ hserves wheelArchive_deflated
    holds_deflatedEntry

/-! ### Archives that are refused -/

/-- Extraction undoes writing, where no other member has a name like `other`, and no further
record reaches to the end from `clear` bytes behind the start of the end record on. -/
def UndoesWriting (other : Str → Str → Prop) (clear : ℕ) : Prop :=
  ∀ (U : Unicode) (P : Packaging) (Z : Zlib) (crc32 : Bytes → ℕ) (origin : Origin)
    (url distribution version : Str) (before after : List Entry) (e : Entry)
    (comment content : Bytes),
    Serves U origin url (archive (before ++ e :: after) comment) →
    WheelArchive U P url distribution version
    (other (metadataName (distribution ++ '-' :: version)))
      clear before after e comment →
    Holds Z crc32 e content →
      (extractWheelMetadata U P Z crc32 origin url).result = .ok content

theorem parseEocd_of_locateMember {A tail : Bytes} {size : ℕ} {member : Member}
    (h : (locateMember (held A) tail size).result = .ok member) :
    ∃ centralOffset centralSize count,
      parseEocd tail (size - tail.length) size = .ok (centralOffset, centralSize, count) := by
  obtain ⟨⟨centralOffset, centralSize, count⟩, hparse, -⟩ := ok_of_result_bind h
  rw [result_lift] at hparse
  exact ⟨centralOffset, centralSize, count, hparse⟩

/-- Where a member is found, the last record is accepted. -/
theorem endRecord_of_archiveMember {A : Bytes} {member : Member} {offset : ℕ}
    (hlast : LastEnd A offset) (h : archiveMember A = .ok member) :
    ∃ centralOffset centralSize count, EndRecord A offset centralOffset centralSize count ∧
      WithinLimits centralSize count := by
  obtain ⟨-, hlocate⟩ := ok_of_refuseIf h
  obtain ⟨centralOffset, centralSize, count, hparse⟩ := parseEocd_of_locateMember hlocate
  rw [length_sub_tailOf] at hparse
  obtain ⟨hrecord, hlimits, -⟩ := (parseEocd_window hlast).1.mp hparse
  exact ⟨centralOffset, centralSize, count, hrecord, hlimits⟩

/-- What is undone has a member that is found. -/
theorem exists_member_of_undoes {A : Bytes} {content : Bytes} (hsized : Sized A)
    (h : (extractWheelMetadata asciiOnly plainReleases noZlib demoCrc (serving A) demoUrl).result =
      .ok content) :
    ∃ member, archiveMember A = .ok member := by
  have hresult := (extract_of_serves noZlib demoCrc plainReleases
    (serves_serving asciiOnly demoUrl hsized.2) hsized).1
  rw [h] at hresult
  obtain ⟨member, hmember, -⟩ := ok_of_bind hresult.symm
  exact ⟨member, hmember⟩

/-- The metadata of another distribution in the same wheel. -/
def otherEntry : Entry := storedEntry ("other-1.0.dist-info/METADATA" : Str)

/-- Two members `X.dist-info/METADATA` are refused, though one only is that of the wheel. -/
theorem not_undoesWriting_otherEntry : ¬ UndoesWriting (fun own name => name = own) 1 := by
  intro h
  have hlength : (archive [demoEntry, otherEntry] []).length = 286 := by decide +kernel
  have hsized : Sized (archive [demoEntry, otherEntry] []) := by
    refine ⟨List.length_pos_iff.mp (by omega), ?_⟩
    rw [hlength, maxArchiveSize]
    omega
  have hwheel : WheelArchive asciiOnly plainReleases demoUrl ("demo" : Str) ("1.0" : Str)
      (fun name => name = metadataName (("demo" : Str) ++ '-' :: ("1.0" : Str))) 1 [] [otherEntry]
      demoEntry [] := by
    refine wheelArchive_demo ?_ (by decide +kernel) (fun later => not_endsAt_of_no_comment) ?_
    · intro x hx
      obtain rfl := List.mem_singleton.mp hx
      refine ⟨writable_storedEntry (by decide), fun name hname => ?_⟩
      obtain rfl : ("other-1.0.dist-info/METADATA" : Str) = name := Except.ok.inj hname
      decide
    · unfold LocatorBefore
      decide +kernel
  have hnone : memberOf (archive [demoEntry, otherEntry] []) = none := by decide +kernel
  obtain ⟨member, hmember⟩ := exists_member_of_undoes hsized
    (h asciiOnly plainReleases noZlib demoCrc _ demoUrl _ _ [] [otherEntry] demoEntry [] [0x61]
      (serves_serving asciiOnly demoUrl hsized.2) hwheel holds_demoEntry)
  rw [memberOf, hmember] at hnone
  cases hnone

/-- An end record without entries, from the length of the comment in front of it on. -/
def straddlingHead : Bytes :=
  [0x50, 0x4b, 5, 6, 0, 0, 0, 0, 0, 0, 0, 0, 0, 0, 0, 0, 0, 0, 0, 0, 0x3c, 0x4b]

/-- A comment whose length reads as the start of a signature, of which the comment has the rest. -/
def straddling : Bytes := straddlingHead.drop 2 ++ List.replicate 19260 0

theorem length_straddling : straddling.length = 19280 := by
  rw [straddling, List.length_append, List.length_replicate]
  rfl

theorem not_mem_straddling : ∀ b ∈ straddling, b ≠ 0x50 := by
  intro b hb
  rcases List.mem_append.mp hb with hb | hb
  · have hall : (straddlingHead.drop 2).all (· != 0x50) = true := by decide
    exact bne_iff_ne.mp (List.all_eq_true.mp hall b hb)
  · rw [List.eq_of_mem_replicate hb]
    decide

/-- The two bytes in front of the comment, and the comment. -/
theorem drop_straddling (entries : List Entry) :
    (archive entries straddling).drop (endOffset entries + 20) =
      straddlingHead ++ List.replicate 19260 0 := by
  have hend : (encodeFields (endFields entries straddling)).length = 22 :=
    length_encodeFields (widths_endFields entries straddling)
  have hlength : part (encodeFields (endFields entries straddling) ++ straddling) 20 2 =
    [0x50, 0x4b] := by
    rw [part_encodeFields (i := 7) straddling (widths_endFields entries straddling) rfl (by decide),
      length_straddling]
    decide
  have hrest : (encodeFields (endFields entries straddling) ++ straddling).drop 22 = straddling :=
    List.drop_left' hend
  rw [← List.drop_drop, drop_end, ← List.take_append_drop 2 (List.drop 20 _), List.drop_drop, hrest]
  exact congrArg (· ++ straddling) hlength

/-- A number of the record in the comment. -/
theorem number_straddling (entries : List Entry) {offset width : ℕ} (h : offset + width ≤ 22) :
    number width (archive entries straddling) (endOffset entries + 20 + offset) =
      number width straddlingHead offset := by
  rw [← number_drop, drop_straddling, number, number, part_append_left h]

/-- The record that is found begins in the end record that was written. -/
theorem lastEnd_straddling (entries : List Entry) :
    LastEnd (archive entries straddling) (endOffset entries + 20) := by
  have hdrop := drop_straddling entries
  refine ⟨⟨?_, ?_⟩, fun later hlater => not_endsAt_of_drop fun b hb => ?_⟩
  · have hpart : part straddlingHead 0 4 = eocdSignature := by decide
    rw [← Nat.add_zero (endOffset entries + 20), ← part_drop, hdrop, part_append_left
      (by decide), hpart]
  · have hlength : number 2 straddlingHead 20 = 19260 := by decide
    rw [number_straddling entries (by decide), hlength, length_archive, length_straddling]
    unfold eocdSize
    omega
  · have htail : (archive entries straddling).drop (endOffset entries + 21) =
      0x4b :: straddling := by
      have hhead : straddlingHead.drop 1 = 0x4b :: straddlingHead.drop 2 := by decide
      rw [← Nat.add_assoc (endOffset entries) 20 1, ← List.drop_drop, hdrop,
        List.drop_append_of_le_length (by decide), hhead, List.cons_append, straddling]
    have hmem := List.drop_subset_drop_left (archive entries straddling)
      (Nat.succ_le_of_lt hlater) hb
    rw [show (endOffset entries + 20).succ = endOffset entries + 21 from rfl, htail] at hmem
    rcases List.mem_cons.mp hmem with rfl | hmem
    · decide
    · exact not_mem_straddling b hmem

/-- No position in the comment forms a record, but one in front of it does, and is refused. -/
theorem not_undoesWriting_straddling : ¬ UndoesWriting (fun _ => IsMetadataName) 22 := by
  intro h
  have hlast := lastEnd_straddling [demoEntry]
  have hsized : Sized (archive [demoEntry] straddling) := by
    refine ⟨List.length_pos_iff.mp ?_, ?_⟩
    · rw [length_archive, length_straddling]
      omega
    · rw [length_archive, length_straddling, maxArchiveSize]
      have hoffset : endOffset [demoEntry] = 131 := by decide +kernel
      omega
  have hwheel : WheelArchive asciiOnly plainReleases demoUrl ("demo" : Str) ("1.0" : Str)
      IsMetadataName 22 [] [] demoEntry straddling := by
    refine wheelArchive_demo (by simp) ⟨by decide, by decide +kernel, by decide +kernel, ?_⟩
      (fun later hlater => hlast.2 later (by omega)) ?_
    · rw [length_straddling]
      omega
    · -- the locator would stand in the central directory
      rintro ⟨-, hlocator⟩
      have hpart : part (archive [demoEntry] straddling) (endOffset [demoEntry] - 20) 4 =
          part (locals [demoEntry] ++ central [demoEntry]) (endOffset [demoEntry] - 20) 4 := by
        rw [archive, ← List.append_assoc]
        exact part_append_left (by decide +kernel)
      rw [hpart] at hlocator
      exact absurd hlocator (by decide +kernel)
  obtain ⟨member, hmember⟩ := exists_member_of_undoes hsized
    (h asciiOnly plainReleases noZlib demoCrc _ demoUrl _ _ [] [] demoEntry straddling [0x61]
      (serves_serving asciiOnly demoUrl hsized.2) hwheel holds_demoEntry)
  obtain ⟨centralOffset, centralSize, count, hrecord, ⟨hpos, -⟩, -⟩ :=
    endRecord_of_archiveMember hlast hmember
  have hcount : number 2 (archive [demoEntry] straddling) (endOffset [demoEntry] + 20 + 10) =
    0 := by
    rw [number_straddling [demoEntry] (by decide)]
    decide
  have hentries := hrecord.count
  omega

/-- Neither is it enough that one member has the name of this wheel's metadata, nor that no
further record begins in the comment. -/
theorem not_undoesWriting :
    ¬ UndoesWriting (fun own name => name = own) 22 ∧
    ¬ UndoesWriting (fun own name => name = own) 1 ∧
      ¬ UndoesWriting (fun _ => IsMetadataName) 22 := by
  refine ⟨fun h => not_undoesWriting_otherEntry ?_, not_undoesWriting_otherEntry,
    not_undoesWriting_straddling⟩
  intro U P Z crc32 origin url distribution version before after e comment content hserves hwheel
  exact h U P Z crc32 origin url distribution version before after e comment content hserves
    { hwheel with last := fun later hlater => hwheel.last later (by omega) }

end ProxyCache.Theorems.WheelExtraction
