import ProxyCache.App.WheelArchive
import Mathlib.Data.List.TakeDrop

/-!
# What the ZIP code accepts

The end record, the central directory and the local header as byte grammars. No
`struct` read is out of bounds, every rejection is a `WheelMetadataError`, and what
is accepted has the form that the grammars give.
-/

namespace ProxyCache.Theorems.WheelExtraction

open ProxyCache.Lib ProxyCache.Python ProxyCache.App.WheelMetadata
open ProxyCache.App (Packaging PackagingError)

/-! ## Refusals -/

/-- A `WheelMetadataError`. -/
def IsRefusal : Raise → Prop
  | .wheelMetadata _ | .rangeNotSupported _ => True
  | .valueError | .structError => False

/-- Nothing but a `WheelMetadataError` is raised. -/
def Refuses {α : Type} (r : Except Raise α) : Prop := ∀ e, r = .error e → IsRefusal e

section Refusals

variable {α β : Type} {r : Except Raise α} {f : α → Except Raise β}

theorem refuses_ok (a : α) : Refuses (.ok a : Except Raise α) := nofun

theorem refuses_wheelMetadata (message : Str) :
    Refuses (.error (.wheelMetadata message) : Except Raise α) := by
  intro e he
  obtain rfl := Except.error.inj he
  trivial

theorem refuses_refuseIf (condition : Prop) [Decidable condition] (message : Str) :
    Refuses (refuseIf condition message) := by
  unfold refuseIf
  split
  · exact refuses_wheelMetadata message
  · exact refuses_ok ()

theorem refuses_bind (h : Refuses r) (hf : ∀ a, r = .ok a → Refuses (f a)) : Refuses (r >>= f) := by
  cases r with
  | ok a => exact hf a rfl
  | error e =>
    intro e' he
    obtain rfl := Except.error.inj he
    exact h e rfl

theorem ok_bind (a : α) (f : α → Except Raise β) : Except.ok a >>= f = f a := rfl

theorem not_of_refuseIf {condition : Prop} [Decidable condition] {message : Str} {u : Unit}
    (h : refuseIf condition message = .ok u) : ¬ condition := by
  intro hcondition
  rw [refuseIf, if_pos hcondition] at h
  cases h

/-- What follows a check that has passed. -/
theorem ok_of_refuseIf {condition : Prop} [Decidable condition] {message : Str}
    {k : Unit → Except Raise β} {b : β} (h : refuseIf condition message >>= k = .ok b) :
    ¬ condition ∧ k () = .ok b := by
  by_cases hcondition : condition
  · rw [refuseIf, if_pos hcondition] at h
    cases h
  · rw [refuseIf, if_neg hcondition] at h
    exact ⟨hcondition, h⟩

end Refusals

/-! ## Reads in bounds -/

section Bounds

variable {data : Bytes} {offset : ℕ}

/-- The number in the `n` bytes at `offset`. -/
def number (n : ℕ) (data : Bytes) (offset : ℕ) : ℕ := littleEndian (part data offset n)

theorem unpackH_of_le (h : offset + 2 ≤ data.length) :
    unpackH data offset = .ok (number 2 data offset) := by
  rw [unpackH, readNumber_of_le h]
  rfl

theorem unpackI_of_le (h : offset + 4 ≤ data.length) :
    unpackI data offset = .ok (number 4 data offset) := by
  rw [unpackI, readNumber_of_le h]
  rfl

/-- A number of the data behind `start` is a number of the data. -/
theorem number_drop (n start : ℕ) :
    number n (data.drop start) offset = number n data (start + offset) := by
  rw [number, number, part, part, List.drop_drop]

theorem part_drop (start length : ℕ) :
    part (data.drop start) offset length = part data (start + offset) length := by
  rw [part, part, List.drop_drop]

theorem number_part {n start length : ℕ} (h : offset + n ≤ length) :
    number n (part data start length) offset = number n data (start + offset) := by
  rw [number, part_part h, number]

end Bounds

/-! ## The end record -/

/-- An end record of a single archive without ZIP64, with the central directory
before it and its comment up to the end. -/
structure EndRecord (A : Bytes) (offset centralOffset centralSize entries : ℕ) : Prop where
  signature : part A offset 4 = eocdSignature
  disks : number 2 A (offset + 4) = 0 ∧ number 2 A (offset + 6) = 0 ∧
    number 2 A (offset + 8) = entries
  count : number 2 A (offset + 10) = entries
  size : number 4 A (offset + 12) = centralSize
  start : number 4 A (offset + 16) = centralOffset
  stop : offset + eocdSize + number 2 A (offset + 20) = A.length
  plain : entries ≠ 0xFFFF ∧ centralSize ≠ 0xFFFFFFFF ∧ centralOffset ≠ 0xFFFFFFFF
  directory : centralOffset + centralSize = offset

/-- The search reads within the tail, and finds a record that ends with it. -/
theorem findEocd_spec (tail : Bytes) : ∀ candidate, candidate + eocdSize ≤ tail.length + 1 →
    ∃ found, findEocd tail candidate = .ok found ∧ ∀ offset, found = some offset →
      part tail offset 4 = eocdSignature ∧
        offset + eocdSize + number 2 tail (offset + 20) = tail.length := by
  intro candidate
  induction candidate with
  | zero =>
    intro _
    exact ⟨none, rfl, nofun⟩
  | succ candidate ih =>
    intro hcandidate
    have hrest := ih (by omega)
    rw [findEocd]
    by_cases hsignature : part tail candidate 4 ≠ eocdSignature
    · rw [if_pos hsignature]
      exact hrest
    · have hread : unpackH tail (candidate + 20) = .ok (number 2 tail (candidate + 20)) :=
        unpackH_of_le (by unfold eocdSize at hcandidate; omega)
      rw [if_neg hsignature, hread]
      simp only [bind, Except.bind]
      by_cases hend : candidate + eocdSize + number 2 tail (candidate + 20) = tail.length
      · rw [if_pos hend]
        refine ⟨some candidate, rfl, ?_⟩
        intro offset hoffset
        obtain rfl := Option.some.inj hoffset
        exact ⟨not_not.mp hsignature, hend⟩
      · rw [if_neg hend]
        exact hrest

/-- What is checked of a record that was found. -/
theorem parseEocd_of_found {tail : Bytes} {tailStart archiveSize offset : ℕ}
    (h : findEocd tail (tail.length + 1 - eocdSize) = .ok (some offset))
    (hend : offset + eocdSize ≤ tail.length) :
    parseEocd tail tailStart archiveSize = (do
      refuseIf (tailStart + offset + eocdSize + number 2 tail (offset + 20) ≠ archiveSize)
        ("invalid ZIP end record or trailing data" : Str)
      refuseIf (number 2 tail (offset + 4) ≠ 0 ∨ number 2 tail (offset + 6) ≠ 0 ∨
          number 2 tail (offset + 8) ≠ number 2 tail (offset + 10))
        ("multi-disk ZIP archives are unsupported" : Str)
      refuseIf (number 2 tail (offset + 10) = 0xFFFF ∨ number 4 tail (offset + 12) = 0xFFFFFFFF ∨
          number 4 tail (offset + 16) = 0xFFFFFFFF ∨
          (offset ≥ 20 ∧ part tail (offset - 20) 4 = zip64LocatorSignature))
        ("ZIP64 archives are unsupported" : Str)
      refuseIf (number 2 tail (offset + 10) = 0 ∨ number 2 tail (offset + 10) > maxEntries)
        ("invalid ZIP entry count" : Str)
      refuseIf (number 4 tail (offset + 12) = 0 ∨
        number 4 tail (offset + 12) > maxCentralDirectorySize)
        ("central directory exceeds size limit" : Str)
      refuseIf (number 4 tail (offset + 16) + number 4 tail (offset + 12) ≠ tailStart + offset)
        ("invalid central directory bounds" : Str)
      return (number 4 tail (offset + 16), number 4 tail (offset + 12), number 2 tail
        (offset + 10))) := by
  unfold eocdSize at hend
  have hH : ∀ n, n + 2 ≤ 22 → unpackH tail (offset + n) = .ok (number 2 tail (offset + n)) :=
    fun n hn => unpackH_of_le (by omega)
  have hI : ∀ n, n + 4 ≤ 22 → unpackI tail (offset + n) = .ok (number 4 tail (offset + n)) :=
    fun n hn => unpackI_of_le (by omega)
  rw [parseEocd, h]
  simp only [bind, Except.bind]
  rw [hH 4 (by omega), hH 6 (by omega), hH 8 (by omega), hH 10 (by omega), hH 20 (by omega),
    hI 12 (by omega), hI 16 (by omega)]

/-- A search either finds nothing or a record inside the tail. -/
theorem findEocd_cases (tail : Bytes) :
    findEocd tail (tail.length + 1 - eocdSize) = .ok none ∨
      ∃ offset, findEocd tail (tail.length + 1 - eocdSize) = .ok (some offset) ∧
        part tail offset 4 = eocdSignature ∧
          offset + eocdSize + number 2 tail (offset + 20) = tail.length := by
  by_cases hshort : tail.length + 1 < eocdSize
  · have hzero : tail.length + 1 - eocdSize = 0 := by omega
    rw [hzero]
    exact .inl rfl
  · obtain ⟨found, hfound, hspec⟩ :=
      findEocd_spec tail (tail.length + 1 - eocdSize) (by omega)
    cases found with
    | none => exact .inl hfound
    | some offset => exact .inr ⟨offset, hfound, hspec offset rfl⟩

theorem refuses_parseEocd (tail : Bytes) (tailStart archiveSize : ℕ) :
    Refuses (parseEocd tail tailStart archiveSize) := by
  rcases findEocd_cases tail with hnone | ⟨offset, hfound, -, hend⟩
  · rw [parseEocd, hnone]
    exact refuses_wheelMetadata _
  · rw [parseEocd_of_found hfound (by omega)]
    iterate 6 refine refuses_bind (refuses_refuseIf _ _) fun _ _ => ?_
    exact refuses_ok _

/-- What is accepted is an end record of the archive. -/
theorem endRecord_of_parseEocd {A : Bytes} {tailStart centralOffset centralSize entries : ℕ}
    (h : parseEocd (A.drop tailStart) tailStart A.length =
      .ok (centralOffset, centralSize, entries)) :
    ∃ offset, EndRecord A offset centralOffset centralSize entries := by
  rcases findEocd_cases (A.drop tailStart) with hnone | ⟨offset, hfound, hsignature, hend⟩
  · rw [parseEocd, hnone] at h
    cases h
  · rw [parseEocd_of_found hfound (by omega)] at h
    simp only [number_drop, part_drop] at h hsignature
    obtain ⟨hstop, h⟩ := ok_of_refuseIf h
    obtain ⟨hdisks, h⟩ := ok_of_refuseIf h
    obtain ⟨hplain, h⟩ := ok_of_refuseIf h
    obtain ⟨-, h⟩ := ok_of_refuseIf h
    obtain ⟨-, h⟩ := ok_of_refuseIf h
    obtain ⟨hbounds, h⟩ := ok_of_refuseIf h
    obtain ⟨rfl, rfl, rfl⟩ : _ ∧ _ ∧ _ := by simpa [pure, Except.pure] using h
    simp only [not_or, not_not] at hstop hdisks hplain hbounds
    simp only [← Nat.add_assoc] at hdisks hplain hbounds hstop ⊢
    exact ⟨tailStart + offset,
      { signature := hsignature
        disks := hdisks
        count := rfl
        size := rfl
        start := rfl
        stop := hstop
        plain := ⟨hplain.1, hplain.2.1, hplain.2.2.1⟩
        directory := hbounds }⟩

/-! ## Extra fields -/

/-- An extra field: fields with an id, a size and as many bytes. -/
inductive ExtraFields : Bytes → List ℕ → Prop
  | nil : ExtraFields [] []
  | cons {head data rest : Bytes} {ids : List ℕ} : head.length = 4 →
      number 2 head 2 = data.length → ExtraFields rest ids →
      ExtraFields (head ++ data ++ rest) (number 2 head 0 :: ids)

/-- A well-formed extra field without the ZIP64 field. -/
def Zip64Free (extra : Bytes) : Prop := ∃ ids, ExtraFields extra ids ∧ 0x0001 ∉ ids

/-- The scan reads within the extra field; when it finds nothing the rest is free of
the ZIP64 field. -/
theorem hasZip64ExtraFrom_spec (extra : Bytes) : ∀ rounds offset, offset ≤ extra.length →
    extra.length - offset ≤ rounds → Refuses (hasZip64ExtraFrom extra rounds offset) ∧
      (hasZip64ExtraFrom extra rounds offset = .ok false → Zip64Free (extra.drop offset)) := by
  intro rounds
  induction rounds with
  | zero =>
    intro offset hle hrounds
    rw [List.drop_of_length_le (by omega)]
    exact ⟨refuses_ok false, fun _ => ⟨[], .nil, List.not_mem_nil⟩⟩
  | succ rounds ih =>
    intro offset hle hrounds
    rw [hasZip64ExtraFrom]
    by_cases hoffset : offset < extra.length
    · rw [if_pos hoffset]
      by_cases hshort : extra.length - offset < 4
      · rw [refuseIf, if_pos hshort]
        exact ⟨refuses_wheelMetadata _, nofun⟩
      · rw [refuseIf, if_neg hshort, unpackH_of_le (by omega), unpackH_of_le (by omega)]
        simp only [bind, Except.bind]
        by_cases hsize : offset + 4 + number 2 extra (offset + 2) > extra.length
        · rw [refuseIf, if_pos hsize]
          exact ⟨refuses_wheelMetadata _, nofun⟩
        · rw [refuseIf, if_neg hsize]
          by_cases hid : number 2 extra offset = 0x0001
          · rw [if_pos hid]
            exact ⟨refuses_ok true, nofun⟩
          · rw [if_neg hid]
            obtain ⟨hrefuses, hfree⟩ :=
              ih (offset + 4 + number 2 extra (offset + 2)) (by omega) (by omega)
            refine ⟨hrefuses, fun hfalse => ?_⟩
            obtain ⟨ids, hfields, hids⟩ := hfree hfalse
            -- the field just read, then the others
            have hhead : (part extra offset 4).length = 4 := length_part (by omega)
            have hsplit : extra.drop offset = part extra offset 4 ++
                part extra (offset + 4) (number 2 extra (offset + 2)) ++
                  extra.drop (offset + 4 + number 2 extra (offset + 2)) := by
              rw [← part_add, part, ← List.drop_drop, ← List.drop_drop, List.drop_drop,
                List.take_append_drop]
            have hlength : number 2 (part extra offset 4) 2 =
                (part extra (offset + 4) (number 2 extra (offset + 2))).length := by
              rw [number_part (by omega), length_part (by omega)]
            rw [hsplit]
            refine ⟨_, .cons hhead hlength hfields, ?_⟩
            rw [number_part (by omega)]
            exact fun hmem => (List.mem_cons.mp hmem).elim (fun heq => hid heq.symm) hids
    · rw [if_neg hoffset, List.drop_of_length_le (by omega)]
      exact ⟨refuses_ok false, fun _ => ⟨[], .nil, List.not_mem_nil⟩⟩

theorem refuses_hasZip64Extra (extra : Bytes) : Refuses (hasZip64Extra extra) :=
  (hasZip64ExtraFrom_spec extra _ 0 (Nat.zero_le _) (Nat.le_refl _)).1

theorem zip64Free_of_hasZip64Extra {extra : Bytes} (h : hasZip64Extra extra = .ok false) :
    Zip64Free extra := by
  have hspec := hasZip64ExtraFrom_spec extra extra.length 0 (Nat.zero_le _) (Nat.le_refl _)
  exact hspec.2 h

theorem refuses_decodeName (rawName : Bytes) (flags : ℕ) : Refuses (decodeName rawName flags) := by
  unfold decodeName
  split
  · split
    · exact refuses_ok _
    · exact refuses_wheelMetadata _
  · exact refuses_ok _

/-! ## The central directory -/

/-- A record of the central directory: 46 bytes, and three parts behind them. -/
structure Record where
  fixed : Bytes
  rawName : Bytes
  extra : Bytes
  comment : Bytes

namespace Record

def bytes (record : Record) : Bytes :=
  record.fixed ++ record.rawName ++ record.extra ++ record.comment

def flags (record : Record) : ℕ := number 2 record.fixed 8

def method (record : Record) : ℕ := number 2 record.fixed 10

def crc32 (record : Record) : ℕ := number 4 record.fixed 16

def compressedSize (record : Record) : ℕ := number 4 record.fixed 20

def uncompressedSize (record : Record) : ℕ := number 4 record.fixed 24

def localOffset (record : Record) : ℕ := number 4 record.fixed 42

/-- The lengths that the record declares are those of its parts. -/
structure WellFormed (record : Record) : Prop where
  fixed : record.fixed.length = 46
  signature : part record.fixed 0 4 = centralSignature
  rawName : number 2 record.fixed 28 = record.rawName.length
  extra : number 2 record.fixed 30 = record.extra.length
  comment : number 2 record.fixed 32 = record.comment.length

/-- A record of a member on the one disk, without ZIP64. -/
structure Plain (record : Record) : Prop where
  disk : number 2 record.fixed 34 = 0
  sizes : record.compressedSize ≠ 0xFFFFFFFF ∧ record.uncompressedSize ≠ 0xFFFFFFFF ∧
    record.localOffset ≠ 0xFFFFFFFF
  extra : Zip64Free record.extra

/-- The record is of a member with this name. -/
def Named (record : Record) (name : Str) : Prop :=
  decodeName record.rawName record.flags = .ok name

/-- The record is of a member `X.dist-info/METADATA`. -/
def isMetadata (record : Record) : Bool :=
  match decodeName record.rawName record.flags with
  | .ok name => isMetadataName name
  | .error _ => false

/-- What the code keeps of the record. -/
structure Describes (record : Record) (member : Member) : Prop where
  name : record.Named member.name
  flags : member.flags = record.flags
  method : member.method = record.method
  crc32 : member.crc32 = record.crc32
  compressedSize : member.compressedSize = record.compressedSize
  uncompressedSize : member.uncompressedSize = record.uncompressedSize
  localOffset : member.localOffset = record.localOffset

end Record

/-- The record whose 46 bytes stand at `offset`. -/
def recordAt (data : Bytes) (offset : ℕ) : Record where
  fixed := part data offset 46
  rawName := part data (offset + 46) (number 2 data (offset + 28))
  extra := part data (offset + 46 + number 2 data (offset + 28)) (number 2 data (offset + 30))
  comment := part data (offset + 46 + number 2 data (offset + 28) + number 2 data (offset + 30))
    (number 2 data (offset + 32))

/-- Where it ends. -/
def recordEnd (data : Bytes) (offset : ℕ) : ℕ :=
  offset + 46 + number 2 data (offset + 28) + number 2 data (offset + 30) +
    number 2 data (offset + 32)

section Record

variable {data : Bytes} {offset : ℕ}

theorem wellFormed_recordAt (hsignature : part data offset 4 = centralSignature)
    (hend : recordEnd data offset ≤ data.length) : (recordAt data offset).WellFormed := by
  unfold recordEnd at hend
  exact
    { fixed := length_part (by omega)
      signature := (part_part (by omega)).trans hsignature
      rawName := (number_part (by omega)).trans (length_part (by omega)).symm
      extra := (number_part (by omega)).trans (length_part (by omega)).symm
      comment := (number_part (by omega)).trans (length_part (by omega)).symm }

/-- The record stands at `offset`, and ends where the next one begins. -/
theorem drop_recordAt (data : Bytes) (offset : ℕ) :
    data.drop offset = (recordAt data offset).bytes ++ data.drop (recordEnd data offset) := by
  have hbytes : (recordAt data offset).bytes = part data offset (46 + number 2 data (offset + 28) +
      number 2 data (offset + 30) + number 2 data (offset + 32)) := by
    rw [part_add, part_add, part_add]
    simp only [Record.bytes, recordAt, Nat.add_assoc]
  have hend : recordEnd data offset = offset + (46 + number 2 data (offset + 28) +
      number 2 data (offset + 30) + number 2 data (offset + 32)) := by
    unfold recordEnd
    omega
  rw [hbytes, hend, part, ← List.drop_drop, List.take_append_drop]

/-- The member that the record at `offset` describes, under a name. -/
def memberAt (data : Bytes) (offset : ℕ) (name : Str) : Member where
  name := name
  flags := number 2 data (offset + 8)
  method := number 2 data (offset + 10)
  crc32 := number 4 data (offset + 16)
  compressedSize := number 4 data (offset + 20)
  uncompressedSize := number 4 data (offset + 24)
  localOffset := number 4 data (offset + 42)

theorem describes_memberAt {name : Str} (h : (recordAt data offset).Named name) :
    (recordAt data offset).Describes (memberAt data offset name) where
  name := h
  flags := (number_part (by omega)).symm
  method := (number_part (by omega)).symm
  crc32 := (number_part (by omega)).symm
  compressedSize := (number_part (by omega)).symm
  uncompressedSize := (number_part (by omega)).symm
  localOffset := (number_part (by omega)).symm

/-- What is checked of 46 bytes with the signature. -/
theorem parseRecord_of_signature (hend : offset + 46 ≤ data.length)
    (hsignature : part data offset 4 = centralSignature) :
    parseRecord data offset = (do
      refuseIf (recordEnd data offset > data.length) ("truncated central directory" : Str)
      let zip64 ← (if number 4 data (offset + 20) = 0xFFFFFFFF ∨
          number 4 data (offset + 24) = 0xFFFFFFFF ∨ number 4 data (offset + 42) = 0xFFFFFFFF ∨
          number 2 data (offset + 34) = 0xFFFF then .ok true
        else hasZip64Extra (recordAt data offset).extra)
      refuseIf (zip64 = true) ("ZIP64 archives are unsupported" : Str)
      refuseIf (number 2 data (offset + 34) ≠ 0) ("multi-disk ZIP archives are unsupported" : Str)
      let name ← decodeName (recordAt data offset).rawName (number 2 data (offset + 8))
      return (if isMetadataName name then some (memberAt data offset name) else none,
        recordEnd data offset)) := by
  have hH : ∀ n, n + 2 ≤ 46 → unpackH data (offset + n) = .ok (number 2 data (offset + n)) :=
    fun n hn => unpackH_of_le (by omega)
  have hI : ∀ n, n + 4 ≤ 46 → unpackI data (offset + n) = .ok (number 4 data (offset + n)) :=
    fun n hn => unpackI_of_le (by omega)
  have hpass : ¬ (offset + 46 > data.length ∨ part data offset 4 ≠ centralSignature) := by
    rw [not_or, not_not]
    exact ⟨by omega, hsignature⟩
  rw [parseRecord, refuseIf, if_neg hpass]
  simp only [bind, Except.bind]
  rw [hH 8 (by omega), hH 10 (by omega), hH 28 (by omega), hH 30 (by omega), hH 32 (by omega),
    hH 34 (by omega), hI 16 (by omega), hI 20 (by omega), hI 24 (by omega), hI 42 (by omega)]
  rfl

theorem refuses_parseRecord (data : Bytes) (offset : ℕ) : Refuses (parseRecord data offset) := by
  by_cases hpass : offset + 46 > data.length ∨ part data offset 4 ≠ centralSignature
  · rw [parseRecord, refuseIf, if_pos hpass]
    exact refuses_wheelMetadata _
  · rw [not_or, not_not] at hpass
    rw [parseRecord_of_signature (by omega) hpass.2]
    refine refuses_bind (refuses_refuseIf _ _) fun _ _ => refuses_bind ?_ fun _ _ =>
      refuses_bind (refuses_refuseIf _ _) fun _ _ => refuses_bind (refuses_refuseIf _ _) fun _ _ =>
        refuses_bind (refuses_decodeName _ _) fun _ _ => refuses_ok _
    split
    · exact refuses_ok _
    · exact refuses_hasZip64Extra _

/-- A record that is accepted stands in the directory, and its member is kept when it
carries the metadata. -/
theorem parseRecord_ok {member : Option Member} {stop : ℕ}
    (h : parseRecord data offset = .ok (member, stop)) :
    stop = recordEnd data offset ∧ stop ≤ data.length ∧ (recordAt data offset).WellFormed ∧
      (recordAt data offset).Plain ∧ (∃ name, (recordAt data offset).Named name) ∧
      List.Forall₂ Record.Describes ([recordAt data offset].filter Record.isMetadata)
      member.toList := by
  by_cases hpass : offset + 46 > data.length ∨ part data offset 4 ≠ centralSignature
  · rw [parseRecord, refuseIf, if_pos hpass] at h
    cases h
  rw [not_or, not_not] at hpass
  rw [parseRecord_of_signature (by omega) hpass.2] at h
  obtain ⟨hend, h⟩ := ok_of_refuseIf h
  obtain ⟨zip64, hzip64, h⟩ := ok_of_bind h
  obtain ⟨hfree, h⟩ := ok_of_refuseIf h
  obtain ⟨hdisk, h⟩ := ok_of_refuseIf h
  obtain ⟨name, hname, h⟩ := ok_of_bind h
  obtain ⟨rfl, rfl⟩ : _ ∧ _ := by simpa [pure, Except.pure] using h
  have hplain : (recordAt data offset).Plain := by
    split at hzip64
    · obtain rfl := Except.ok.inj hzip64
      exact absurd rfl hfree
    · next hsizes =>
      simp only [not_or] at hsizes
      obtain rfl : zip64 = false := by simpa using hfree
      exact
        { disk := (number_part (by omega)).trans (not_not.mp hdisk)
          sizes := ⟨fun heq => hsizes.1 ((number_part (by omega)).symm.trans heq),
            fun heq => hsizes.2.1 ((number_part (by omega)).symm.trans heq),
            fun heq => hsizes.2.2.1 ((number_part (by omega)).symm.trans heq)⟩
          extra := zip64Free_of_hasZip64Extra hzip64 }
  have hnamed : (recordAt data offset).Named name := by
    have hflags : (recordAt data offset).flags = number 2 data (offset + 8) :=
      number_part (by omega)
    rw [Record.Named, hflags]
    exact hname
  refine ⟨rfl, by omega, wellFormed_recordAt hpass.2 (by omega), hplain, ⟨name, hnamed⟩, ?_⟩
  have hmetadata : (recordAt data offset).isMetadata = isMetadataName name := by
    rw [Record.isMetadata, hnamed]
  rw [List.filter_singleton, hmetadata]
  by_cases hname : isMetadataName name = true
  · rw [if_pos hname, hname]
    exact .cons (describes_memberAt hnamed) .nil
  · rw [if_neg hname, Bool.eq_false_iff.mpr hname]
    exact .nil

end Record

theorem refuses_parseRecords (data : Bytes) :
    ∀ count offset, Refuses (parseRecords data count offset) := by
  intro count
  induction count with
  | zero =>
    intro offset
    exact refuses_ok _
  | succ count ih =>
    intro offset
    exact refuses_bind (refuses_parseRecord data offset) fun _ _ =>
      refuses_bind (ih _) fun _ _ => refuses_ok _

/-- As many records as were read stand one behind the other. -/
theorem parseRecords_ok {data : Bytes} : ∀ {count offset : ℕ} {members : List Member} {stop : ℕ},
    parseRecords data count offset = .ok (members, stop) → ∃ records : List Record,
      records.length = count ∧
      data.drop offset = (records.map Record.bytes).flatten ++ data.drop stop ∧
      (∀ record ∈ records, record.WellFormed ∧ record.Plain) ∧
      List.Forall₂ Record.Describes (records.filter Record.isMetadata) members := by
  intro count
  induction count with
  | zero =>
    intro offset members stop h
    obtain ⟨rfl, rfl⟩ : _ ∧ _ := by simpa [parseRecords] using h
    exact ⟨[], rfl, rfl, by simp, .nil⟩
  | succ count ih =>
    intro offset members stop h
    obtain ⟨⟨member, next⟩, hrecord, h⟩ := ok_of_bind h
    obtain ⟨⟨others, last⟩, hrecords, h⟩ := ok_of_bind h
    obtain ⟨rfl, rfl⟩ : _ ∧ _ := by simpa [pure, Except.pure] using h
    obtain ⟨rfl, -, hformed, hplain, -, hdescribes⟩ := parseRecord_ok hrecord
    obtain ⟨records, hlength, hbytes, hall, hothers⟩ := ih hrecords
    refine ⟨recordAt data offset :: records, by rw [List.length_cons, hlength], ?_, ?_, ?_⟩
    · rw [drop_recordAt, hbytes, List.map_cons, List.flatten_cons, List.append_assoc]
    · intro record hrecord
      rcases List.mem_cons.mp hrecord with rfl | hrecord
      · exact ⟨hformed, hplain⟩
      · exact hall record hrecord
    · rw [← List.singleton_append, List.filter_append]
      exact List.rel_append hdescribes hothers

/-- A central directory: its records, of which one is of the metadata. -/
structure Directory (directory : Bytes) (entries : ℕ) (records : List Record) (record : Record) :
    Prop where
  count : records.length = entries
  bytes : directory = (records.map Record.bytes).flatten
  formed : ∀ record ∈ records, record.WellFormed ∧ record.Plain
  metadata : records.filter Record.isMetadata = [record]

theorem refuses_parseCentralDirectory (data : Bytes) (entries : ℕ) :
    Refuses (parseCentralDirectory data entries) := by
  refine refuses_bind (refuses_parseRecords data entries 0) fun _ _ =>
    refuses_bind (refuses_refuseIf _ _) fun _ _ => ?_
  split
  · exact refuses_ok _
  · exact refuses_wheelMetadata _

/-- What is accepted is a central directory, and the member is the one that its
metadata record describes. -/
theorem directory_of_parseCentralDirectory {data : Bytes} {entries : ℕ} {member : Member}
    (h : parseCentralDirectory data entries = .ok member) :
    ∃ records record, Directory data entries records record ∧ record.Describes member := by
  obtain ⟨⟨members, stop⟩, hrecords, h⟩ := ok_of_bind h
  obtain ⟨hstop, h⟩ := ok_of_refuseIf h
  obtain ⟨records, hlength, hbytes, hall, hdescribes⟩ := parseRecords_ok hrecords
  split at h
  · next only =>
    obtain rfl := Except.ok.inj h
    obtain ⟨record, rest, hrecord, hrest, hfilter⟩ := List.forall₂_cons_right_iff.mp hdescribes
    obtain rfl := List.forall₂_nil_right_iff.mp hrest
    refine ⟨records, record, ⟨hlength, ?_, hall, hfilter⟩, hrecord⟩
    rw [List.drop_zero, not_not.mp hstop, List.drop_length, List.append_nil] at hbytes
    exact hbytes
  · cases h

/-! ## The name of the member -/

/-- The name `X.dist-info/METADATA`. -/
def metadataName (stem : Str) : Str := stem ++ distInfoSuffix ++ '/' :: ("METADATA" : Str)

theorem metadataName_of_isMetadataName {name : Str} (h : isMetadataName name = true) :
    ∃ stem, stem ≠ [] ∧ '/' ∉ stem ∧ name = metadataName stem ∧ distInfoOf name = stem := by
  obtain ⟨directory, file, hsplit⟩ : ∃ directory file, name.splitOn '/' = [directory, file] := by
    unfold isMetadataName at h
    split at h
    · next directory file hsplit => exact ⟨directory, file, hsplit⟩
    · cases h
  rw [isMetadataName, hsplit] at h
  simp only [Bool.and_eq_true, bne_iff_ne, beq_iff_eq, List.isSuffixOf_iff_suffix] at h
  obtain ⟨⟨⟨stem, hstem⟩, hne⟩, hfile⟩ := h
  -- the one separator of the name is the first one
  have hcut : cut '/' name = (directory, some file) := by
    cases hcut : cut '/' name with
    | mk before after =>
      cases after with
      | none =>
        rw [List.splitOn_eq_singleton (cut_eq_none hcut).2] at hsplit
        cases hsplit
      | some after =>
        have hbefore := not_mem_cut_fst '/' name
        rw [hcut] at hbefore
        rw [cut_eq_some hcut, List.splitOn_append_cons_self_of_not_mem hbefore] at hsplit
        obtain ⟨rfl, hafter⟩ := List.cons.inj hsplit
        have hjoin : (['/'] : Str).intercalate (after.splitOn '/') = after :=
          List.intercalate_splitOn '/'
        rw [hafter] at hjoin
        have hfile : file = after := by
          rw [← hjoin, List.intercalate_singleton]
        rw [hfile]
  have hslash := not_mem_cut_fst '/' name
  rw [hcut] at hslash
  subst hstem
  refine ⟨stem, ?_, fun hmem => hslash (List.mem_append_left _ hmem), ?_, ?_⟩
  · rintro rfl
    exact hne rfl
  · rw [cut_eq_some hcut, hfile]
    rfl
  · have hsuffix : distInfoSuffix.isSuffixOf (stem ++ distInfoSuffix) = true :=
      List.isSuffixOf_iff_suffix.mpr (List.suffix_append ..)
    rw [distInfoOf, hcut]
    dsimp only
    rw [if_pos hsuffix, List.length_append, Nat.add_sub_cancel, List.take_left']
    rfl

section Names

variable (U : Unicode) (P : Packaging)

/-- The distribution and the version in the name of the directory are those of the
wheel. -/
structure MatchesFilename (url stem filename distribution version : Str) (release : P.Version) :
    Prop where
  parts : stem = distribution ++ '-' :: version
  nonempty : distribution ≠ [] ∧ version ≠ [] ∧ '-' ∉ version
  path : wheelFilename U url = .ok filename
  wheel : P.parseWheelFilename filename = .ok (P.canonicalizeName distribution, release)
  parsed : P.version version = .ok release

/-- Neither `urlparse` nor `packaging` fails with an error of its own on the name of
the wheel or on the version of the directory. -/
structure NamesParse (memberName url : Str) : Prop where
  path : ∃ filename, wheelFilename U url = .ok filename
  wheel : ∀ filename, wheelFilename U url = .ok filename →
    P.parseWheelFilename filename ≠ .error .valueError
  parsed : ∀ filename names distribution version, wheelFilename U url = .ok filename →
    P.parseWheelFilename filename = .ok names →
    rcut '-' (distInfoOf memberName) = (some distribution, version) → distribution ≠ [] →
    version ≠ [] → P.version version ≠ .error .valueError

variable {U P} {memberName url : Str}

theorem refuses_ofPackaging {α : Type} {message : Str} {r : Except PackagingError α}
    (h : r ≠ .error .valueError) : Refuses (ofPackaging message r) := by
  cases r with
  | ok a => exact refuses_ok a
  | error e =>
    cases e with
    | invalid => exact refuses_wheelMetadata message
    | valueError => exact absurd rfl h

theorem ofPackaging_eq_ok {α : Type} {message : Str} {r : Except PackagingError α} {a : α}
    (h : ofPackaging message r = .ok a) : r = .ok a := by
  cases r with
  | ok b => exact congrArg _ (Except.ok.inj h)
  | error e => cases e <;> cases h

/-- Names that parse are checked without another error. -/
theorem refuses_validate (h : NamesParse U P memberName url) :
    Refuses (validateMetadataMember U P memberName url) := by
  obtain ⟨filename, hfilename⟩ := h.path
  rw [validateMetadataMember, hfilename]
  refine refuses_bind (refuses_ok _) fun _ hname => ?_
  obtain rfl := Except.ok.inj hname
  refine refuses_bind (refuses_ofPackaging (h.wheel filename hfilename)) fun names hnames => ?_
  have hwheel := ofPackaging_eq_ok hnames
  obtain ⟨wheelDistribution, wheelVersion⟩ := names
  dsimp only
  split
  · next distribution version hcut =>
    refine refuses_bind (refuses_refuseIf _ _) fun _ hpass => ?_
    obtain ⟨hdistribution, hversion⟩ := not_or.mp (not_of_refuseIf hpass)
    exact refuses_bind (refuses_ofPackaging
      (h.parsed filename _ distribution version hfilename hwheel hcut hdistribution hversion))
      fun _ _ => refuses_refuseIf _ _
  · exact refuses_wheelMetadata _

/-- Names that do not parse let another error out. -/
theorem validate_of_not_namesParse (h : ¬ NamesParse U P memberName url) :
    validateMetadataMember U P memberName url = .error .valueError := by
  by_contra hne
  refine h ⟨?_, ?_, ?_⟩
  · cases hfilename : wheelFilename U url with
    | ok filename => exact ⟨filename, rfl⟩
    | error e =>
      have he : e = .valueError := by
        unfold wheelFilename at hfilename
        split at hfilename
        · cases hfilename
        · exact (Except.error.inj hfilename).symm
      exact absurd (by rw [validateMetadataMember, hfilename, he]; rfl) hne
  · intro filename hfilename hparse
    refine hne ?_
    rw [validateMetadataMember, hfilename]
    simp only [bind, Except.bind, hparse]
    rfl
  · intro filename names distribution version hfilename hwheel hcut hdistribution hversion hparse
    refine hne ?_
    rw [validateMetadataMember, hfilename]
    simp only [bind, Except.bind, hwheel, ofPackaging, hcut, hparse]
    rw [refuseIf, if_neg (not_or.mpr ⟨hdistribution, hversion⟩)]

/-- A member that is accepted is of the wheel. -/
theorem matchesFilename_of_validate (h : validateMetadataMember U P memberName url = .ok ()) :
    ∃ filename distribution version release,
      MatchesFilename U P url (distInfoOf memberName) filename distribution version release := by
  obtain ⟨filename, hfilename, h⟩ := ok_of_bind h
  obtain ⟨⟨wheelDistribution, wheelVersion⟩, hwheel, h⟩ := ok_of_bind h
  have hwheel := ofPackaging_eq_ok hwheel
  dsimp only at h
  split at h
  · next distribution version hcut =>
    obtain ⟨hnonempty, h⟩ := ok_of_refuseIf h
    obtain ⟨release, hversion, h⟩ := ok_of_bind h
    have hversion := ofPackaging_eq_ok hversion
    have hmatches := not_of_refuseIf h
    rw [not_or, not_not, not_not] at hmatches
    rw [not_or] at hnonempty
    obtain ⟨hstem, hdash⟩ := rcut_eq_some hcut
    obtain ⟨rfl, rfl⟩ := hmatches
    exact ⟨filename, distribution, version, _, hstem, ⟨hnonempty.1, hnonempty.2, hdash⟩, hfilename,
      hwheel, hversion⟩
  · cases h

end Names

end ProxyCache.Theorems.WheelExtraction
