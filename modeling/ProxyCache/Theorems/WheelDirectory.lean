import ProxyCache.Theorems.WheelFormat

/-!
# The grammar of the central directory

What `_parse_central_directory` accepts is exactly a central directory: as many
records as are announced, one behind the other, with nothing left over, of which one
is of the metadata. What is not one is refused with a `WheelMetadataError`.
-/

namespace ProxyCache.Theorems.WheelExtraction

open ProxyCache.Lib ProxyCache.Python ProxyCache.App.WheelMetadata

/-! ## Names -/

/-- The name is `X.dist-info/METADATA`, at depth two. -/
def IsMetadataName (name : Str) : Prop :=
  ∃ stem, stem ≠ [] ∧ '/' ∉ stem ∧ name = metadataName stem

theorem isMetadataName_iff {name : Str} : isMetadataName name = true ↔ IsMetadataName name := by
  constructor
  · intro h
    obtain ⟨stem, hne, hslash, hname, -⟩ := metadataName_of_isMetadataName h
    exact ⟨stem, hne, hslash, hname⟩
  · rintro ⟨stem, hne, hslash, rfl⟩
    have hdirectory : '/' ∉ stem ++ distInfoSuffix := by
      intro hmem
      rcases List.mem_append.mp hmem with hmem | hmem
      · exact hslash hmem
      · exact absurd hmem (by decide +kernel)
    have hfile : '/' ∉ ("METADATA" : Str) := by decide +kernel
    have hsplit : (metadataName stem).splitOn '/' =
      [stem ++ distInfoSuffix, ("METADATA" : Str)] := by
      rw [metadataName, List.splitOn_append_cons_self_of_not_mem hdirectory,
        List.splitOn_eq_singleton hfile]
    have hproper : stem ++ distInfoSuffix ≠ distInfoSuffix := by
      intro heq
      exact hne (List.append_left_eq_self.mp heq)
    rw [isMetadataName, hsplit]
    simp only [Bool.and_eq_true, bne_iff_ne, beq_iff_eq, List.isSuffixOf_iff_suffix]
    exact ⟨⟨List.suffix_append .., hproper⟩, trivial⟩

/-! ## Extra fields that are accepted -/

/-- A number in front of what follows. -/
theorem number_append {n offset : ℕ} {bytes rest : Bytes} (h : offset + n ≤ bytes.length) :
    number n (bytes ++ rest) offset = number n bytes offset := by
  rw [number, number, part_append_left h]

/-- The scan runs through the fields that are left. -/
theorem hasZip64ExtraFrom_of_fields {extra fields : Bytes} {ids : List ℕ}
    (h : ExtraFields fields ids) (hids : 0x0001 ∉ ids) : ∀ {offset rounds : ℕ},
    extra.drop offset = fields → extra.length - offset ≤ rounds →
      hasZip64ExtraFrom extra rounds offset = .ok false := by
  induction h with
  | nil =>
    intro offset rounds hdrop hrounds
    have hle : extra.length ≤ offset := List.drop_eq_nil_iff.mp hdrop
    cases rounds with
    | zero => rfl
    | succ rounds => rw [hasZip64ExtraFrom, if_neg (by omega)]
  | @cons head data rest ids hhead hsize hrest ih =>
    intro offset rounds hdrop hrounds
    rw [List.mem_cons, not_or] at hids
    have hlength : extra.length - offset = 4 + data.length + rest.length := by
      rw [← List.length_drop, hdrop, List.length_append, List.length_append, hhead]
    cases rounds with
    | zero => omega
    | succ rounds =>
      have hid : number 2 extra offset = number 2 head 0 := by
        rw [← Nat.add_zero offset, ← number_drop, hdrop, List.append_assoc,
          number_append (by omega)]
      have hdata : number 2 extra (offset + 2) = data.length := by
        rw [← number_drop, hdrop, List.append_assoc, number_append (by omega), hsize]
      have hnext : extra.drop (offset + 4 + data.length) = rest := by
        rw [Nat.add_assoc, ← List.drop_drop, hdrop]
        exact List.drop_left' (by rw [List.length_append, hhead])
      rw [hasZip64ExtraFrom, if_pos (by omega), refuseIf, if_neg (by omega),
        unpackH_of_le (by omega), unpackH_of_le (by omega)]
      simp only [bind, Except.bind]
      rw [hdata, refuseIf, if_neg (by omega), hid]
      dsimp only
      rw [if_neg fun heq => hids.1 heq.symm]
      exact ih hids.2 hnext (by omega)

theorem hasZip64Extra_of_free {extra : Bytes} (h : Zip64Free extra) :
    hasZip64Extra extra = .ok false := by
  obtain ⟨ids, hfields, hids⟩ := h
  exact hasZip64ExtraFrom_of_fields hfields hids List.drop_zero (Nat.sub_le _ _)

/-! ## Records that are accepted -/

section Record

variable {data rest : Bytes} {offset : ℕ} {record : Record}

theorem Record.WellFormed.length_bytes (h : record.WellFormed) : record.bytes.length =
    46 + record.rawName.length + record.extra.length + record.comment.length := by
  rw [Record.bytes, List.length_append, List.length_append, List.length_append, h.fixed]

/-- The record that stands at an offset is the one that is read there. -/
theorem recordAt_of_bytes (h : record.WellFormed)
    (hdata : data.drop offset = record.bytes ++ rest) :
    recordAt data offset = record ∧ recordEnd data offset = offset + record.bytes.length := by
  have hpart : ∀ start length, part data (offset + start) length =
      part (record.bytes ++ rest) start length := by
    intro start length
    rw [← hdata, part_drop]
  have hfixed : part data offset 46 = record.fixed := by
    rw [← Nat.add_zero offset, hpart, part_append_left (by rw [h.length_bytes]; omega), part,
      List.drop_zero, Record.bytes, List.append_assoc, List.append_assoc]
    exact List.take_left' h.fixed
  have hnumber : ∀ n, n + 2 ≤ 46 → number 2 data (offset + n) = number 2 record.fixed n := by
    intro n hn
    rw [← hfixed, number_part hn]
  have hname := (hnumber 28 (by omega)).trans h.rawName
  have hextra := (hnumber 30 (by omega)).trans h.extra
  have hcomment := (hnumber 32 (by omega)).trans h.comment
  refine ⟨?_, ?_⟩
  · have hrawName : part data (offset + 46) record.rawName.length = record.rawName := by
      rw [hpart, Record.bytes, List.append_assoc, List.append_assoc, List.append_assoc, part,
        List.drop_left' h.fixed]
      exact List.take_left' rfl
    have hrawExtra : part data (offset + 46 + record.rawName.length) record.extra.length =
        record.extra := by
      rw [Nat.add_assoc, hpart, Record.bytes, List.append_assoc, List.append_assoc, part,
        List.drop_left' (by rw [List.length_append, h.fixed])]
      exact List.take_left' rfl
    have hrawComment : part data (offset + 46 + record.rawName.length + record.extra.length)
        record.comment.length = record.comment := by
      rw [Nat.add_assoc, Nat.add_assoc, hpart, Record.bytes, List.append_assoc, part,
        List.drop_left' (by rw [List.length_append, List.length_append, h.fixed]; omega)]
      exact List.take_left' rfl
    rw [recordAt, hname, hextra, hcomment, hfixed, hrawName, hrawExtra, hrawComment]
  · rw [recordEnd, hname, hextra, hcomment, h.length_bytes]
    omega

/-- The member that a record describes. -/
def Record.member (record : Record) (name : Str) : Member :=
  ⟨name, record.flags, record.method, record.crc32, record.compressedSize,
    record.uncompressedSize, record.localOffset⟩

theorem Record.Describes.eq_member {member : Member} (h : record.Describes member) :
    member = record.member member.name := by
  obtain ⟨name, flags, method, crc32, compressedSize, uncompressedSize, localOffset⟩ := member
  rw [Record.member, ← h.flags, ← h.method, ← h.crc32, ← h.compressedSize, ← h.uncompressedSize,
    ← h.localOffset]

/-- A record of the grammar is read to its end. -/
theorem parseRecord_of_bytes {name : Str} (hformed : record.WellFormed) (hplain : record.Plain)
    (hname : record.Named name) (hdata : data.drop offset = record.bytes ++ rest) :
    parseRecord data offset = .ok
      (if isMetadataName name then some (record.member name) else none,
        offset + record.bytes.length) := by
  obtain ⟨hrecord, hend⟩ := recordAt_of_bytes hformed hdata
  have hlength : data.length - offset = record.bytes.length + rest.length := by
    rw [← List.length_drop, hdata, List.length_append]
  have hbytes := hformed.length_bytes
  have hfixed : part data offset 46 = record.fixed := congrArg Record.fixed hrecord
  have hH : ∀ n, n + 2 ≤ 46 → number 2 data (offset + n) = number 2 record.fixed n := by
    intro n hn
    rw [← hfixed, number_part hn]
  have hI : ∀ n, n + 4 ≤ 46 → number 4 data (offset + n) = number 4 record.fixed n := by
    intro n hn
    rw [← hfixed, number_part hn]
  have hsignature : part data offset 4 = centralSignature := by
    rw [← hformed.signature, ← hfixed, part_part (by omega), Nat.add_zero]
  have hmember : memberAt data offset name = record.member name := by
    rw [memberAt, hH 8 (by omega), hH 10 (by omega), hI 16 (by omega), hI 20 (by omega),
      hI 24 (by omega), hI 42 (by omega)]
    rfl
  have hsizes : ¬ (number 4 data (offset + 20) = 0xFFFFFFFF ∨
      number 4 data (offset + 24) = 0xFFFFFFFF ∨ number 4 data (offset + 42) = 0xFFFFFFFF ∨
      number 2 data (offset + 34) = 0xFFFF) := by
    rw [hI 20 (by omega), hI 24 (by omega), hI 42 (by omega), hH 34 (by omega), hplain.disk]
    obtain ⟨hcompressed, huncompressed, hoffset⟩ := hplain.sizes
    rintro (h | h | h | h)
    · exact hcompressed h
    · exact huncompressed h
    · exact hoffset h
    · cases h
  rw [parseRecord_of_signature (by omega) hsignature, hend, refuseIf, if_neg (by omega),
    if_neg hsizes, hrecord, hasZip64Extra_of_free hplain.extra]
  simp only [bind, Except.bind]
  rw [refuseIf, if_neg (by decide), hH 34 (by omega), hplain.disk, refuseIf, if_neg (by decide),
    hH 8 (by omega)]
  have hdecode : decodeName record.rawName (number 2 record.fixed 8) = .ok name := hname
  rw [hdecode]
  dsimp only
  rw [hmember]
  rfl

end Record

/-! ## The directory -/

/-- Records of the grammar, with their names. -/
structure Records (records : List Record) (names : List Str) : Prop where
  formed : ∀ record ∈ records, record.WellFormed ∧ record.Plain
  named : List.Forall₂ Record.Named records names

/-- Records one behind the other are read to the end of the last one. -/
theorem parseRecords_of_bytes {data rest : Bytes} : ∀ {records : List Record} {names : List Str}
    {offset : ℕ}, Records records names →
    data.drop offset = (records.map Record.bytes).flatten ++ rest →
    parseRecords data records.length offset = .ok
      (((records.zip names).filter fun x => isMetadataName x.2).map fun x => x.1.member x.2,
        offset + (records.map Record.bytes).flatten.length) := by
  intro records
  induction records with
  | nil =>
    rintro names offset ⟨-, hnamed⟩ hdata
    obtain rfl := List.forall₂_nil_left_iff.mp hnamed
    rfl
  | cons record records ih =>
    rintro names offset ⟨hformed, hnamed⟩ hdata
    obtain ⟨name, names, hname, hnames, rfl⟩ := List.forall₂_cons_left_iff.mp hnamed
    obtain ⟨hwell, hplain⟩ := hformed record List.mem_cons_self
    rw [List.map_cons, List.flatten_cons, List.append_assoc] at hdata
    have hnext : data.drop (offset + record.bytes.length) =
        (records.map Record.bytes).flatten ++ rest := by
      rw [← List.drop_drop, hdata, List.drop_left]
    have hrest := @ih names (offset + record.bytes.length)
      ⟨fun r hr => hformed r (List.mem_cons_of_mem _ hr), hnames⟩ hnext
    rw [List.length_cons, parseRecords, parseRecord_of_bytes hwell hplain hname hdata, ok_bind]
    dsimp only
    rw [hrest, ok_bind, List.zip_cons_cons, List.filter_cons, List.map_cons, List.flatten_cons,
      List.length_append, ← Nat.add_assoc]
    cases isMetadataName name <;> rfl

/-- The grammar: `entries` records and nothing else, with names that decode, of which one is
`X.dist-info/METADATA`; that record describes the member. -/
def IsDirectory (data : Bytes) (entries : ℕ) (member : Member) : Prop :=
  ∃ before record after,
    (before ++ record :: after).length = entries ∧
    data = ((before ++ record :: after).map Record.bytes).flatten ∧
    (∀ r ∈ before ++ record :: after, r.WellFormed ∧ r.Plain ∧ ∃ name, r.Named name) ∧
    (record.Describes member ∧ IsMetadataName member.name) ∧
    ∀ other ∈ before ++ after, ∀ name, other.Named name → ¬ IsMetadataName name

section Directory

variable {data : Bytes} {entries : ℕ} {member : Member}

/-- Every record that is read has a name. -/
theorem named_of_parseRecords : ∀ {count offset stop : ℕ} {members : List Member},
    parseRecords data count offset = .ok (members, stop) → ∃ records names,
      Records records names ∧ records.length = count ∧
      data.drop offset = (records.map Record.bytes).flatten ++ data.drop stop ∧
      stop = offset + (records.map Record.bytes).flatten.length := by
  intro count
  induction count with
  | zero =>
    intro offset stop members h
    obtain ⟨-, rfl⟩ : _ ∧ _ := by simpa [parseRecords] using h
    exact ⟨[], [], ⟨by simp, .nil⟩, rfl, rfl, rfl⟩
  | succ count ih =>
    intro offset stop members h
    obtain ⟨⟨found, next⟩, hrecord, h⟩ := ok_of_bind h
    obtain ⟨⟨others, last⟩, hrecords, h⟩ := ok_of_bind h
    obtain ⟨-, rfl⟩ : _ ∧ _ := by simpa [pure, Except.pure] using h
    obtain ⟨rfl, hstop, hformed, hplain, ⟨name, hname⟩, -⟩ := parseRecord_ok hrecord
    obtain ⟨records, names, ⟨hall, hnames⟩, hcount, hbytes, hlast⟩ := ih hrecords
    have hend := (recordAt_of_bytes hformed (drop_recordAt data offset)).2
    refine ⟨recordAt data offset :: records, name :: names, ⟨?_, .cons hname hnames⟩, ?_, ?_, ?_⟩
    · intro record hmem
      rcases List.mem_cons.mp hmem with rfl | hmem
      · exact ⟨hformed, hplain⟩
      · exact hall record hmem
    · rw [List.length_cons, hcount]
    · rw [drop_recordAt, hbytes, List.map_cons, List.flatten_cons, List.append_assoc]
    · rw [hlast, hend, List.map_cons, List.flatten_cons, List.length_append, Nat.add_assoc]

theorem Record.Named.unique {record : Record} {name name' : Str} (h : record.Named name)
    (h' : record.Named name') : name = name' :=
  Except.ok.inj (h.symm.trans h')

/-- Records that have names have a list of names. -/
theorem exists_names {records : List Record} (h : ∀ r ∈ records, ∃ name, r.Named name) :
    ∃ names, List.Forall₂ Record.Named records names := by
  induction records with
  | nil => exact ⟨[], .nil⟩
  | cons record records ih =>
    obtain ⟨name, hname⟩ := h record List.mem_cons_self
    obtain ⟨names, hnames⟩ := ih fun r hr => h r (List.mem_cons_of_mem _ hr)
    exact ⟨name :: names, .cons hname hnames⟩

theorem exists_name {records : List Record} {names : List Str} {r : Record}
    (h : List.Forall₂ Record.Named records names) (hr : r ∈ records) : ∃ name, r.Named name := by
  induction h with
  | nil => cases hr
  | cons hname _ ih =>
    rcases List.mem_cons.mp hr with rfl | hr
    · exact ⟨_, hname⟩
    · exact ih hr

/-- Named records of which one is of the metadata. -/
theorem exists_split {records : List Record} {names : List Str} {x : Record × Str}
    (hnamed : List.Forall₂ Record.Named records names)
    (h : (records.zip names).filter (fun x => isMetadataName x.2) = [x]) :
    ∃ before after, records = before ++ x.1 :: after ∧ x.1.Named x.2 ∧ IsMetadataName x.2 ∧
      ∀ other ∈ before ++ after, ∀ name, other.Named name → ¬ IsMetadataName name := by
  obtain ⟨hlength, hzip⟩ := List.forall₂_iff_zip.mp hnamed
  obtain ⟨before, after, hsplit, hbefore, hx, hafter⟩ := List.filter_eq_cons_iff.mp h
  have hrecords : records = (records.zip names).map Prod.fst := by
    rw [List.map_fst_zip (Nat.le_of_eq hlength)]
  have hmem : ∀ y ∈ before ++ after, y ∈ records.zip names := by
    intro y hy
    rw [hsplit]
    rcases List.mem_append.mp hy with hy | hy
    · exact List.mem_append_left _ hy
    · exact List.mem_append_right _ (List.mem_cons_of_mem _ hy)
  refine ⟨before.map Prod.fst, after.map Prod.fst, ?_, ?_, isMetadataName_iff.mp hx, ?_⟩
  · rw [hsplit, List.map_append, List.map_cons] at hrecords
    exact hrecords
  · exact hzip (hsplit ▸ List.mem_append_right _ List.mem_cons_self)
  · intro other hother name hname
    rw [← List.map_append] at hother
    obtain ⟨y, hy, rfl⟩ := List.mem_map.mp hother
    obtain rfl := hname.unique (hzip (hmem y hy))
    rw [← isMetadataName_iff]
    rcases List.mem_append.mp hy with hy | hy
    · exact hbefore y hy
    · exact List.filter_eq_nil_iff.mp hafter y hy

/-- No metadata is found among records of other members. -/
theorem filter_zip_eq_nil {records : List Record} {names : List Str}
    (hnamed : List.Forall₂ Record.Named records names)
    (h : ∀ r ∈ records, ∀ name, r.Named name → ¬ IsMetadataName name) :
    (records.zip names).filter (fun x => isMetadataName x.2) = [] := by
  obtain ⟨-, hzip⟩ := List.forall₂_iff_zip.mp hnamed
  refine List.filter_eq_nil_iff.mpr ?_
  rintro ⟨r, name⟩ hmem hmetadata
  exact h r (List.of_mem_zip hmem).1 name (hzip hmem) (isMetadataName_iff.mp hmetadata)

/-- A central directory is read to its end. -/
theorem parseCentralDirectory_of_isDirectory (h : IsDirectory data entries member) :
    parseCentralDirectory data entries = .ok member := by
  obtain ⟨before, record, after, hcount, hdata, hall, ⟨hdescribes, hname⟩, hothers⟩ := h
  obtain ⟨namesBefore, hbefore⟩ := @exists_names before fun r hr =>
    (hall r (List.mem_append_left _ hr)).2.2
  obtain ⟨namesAfter, hafter⟩ := @exists_names after fun r hr =>
    (hall r (List.mem_append_right _ (List.mem_cons_of_mem _ hr))).2.2
  have hnames : Records (before ++ record :: after)
      (namesBefore ++ member.name :: namesAfter) :=
    ⟨fun r hr => ⟨(hall r hr).1, (hall r hr).2.1⟩,
      List.rel_append hbefore (.cons hdescribes.name hafter)⟩
  have hread := @parseRecords_of_bytes data [] _ _ 0 hnames
    (by rw [List.drop_zero, List.append_nil, hdata])
  have hmembers : ((before ++ record :: after).zip (namesBefore ++ member.name ::
    namesAfter)).filter
      (fun x => isMetadataName x.2) = [(record, member.name)] := by
    rw [List.zip_append hbefore.length_eq, List.filter_append, List.zip_cons_cons,
      filter_zip_eq_nil hbefore fun r hr => hothers r (List.mem_append_left _ hr),
      List.filter_cons, if_pos (isMetadataName_iff.mpr hname),
      filter_zip_eq_nil hafter fun r hr => hothers r (List.mem_append_right _ hr)]
    rfl
  rw [hmembers, hcount] at hread
  rw [parseCentralDirectory, hread, ok_bind]
  dsimp only
  rw [refuseIf, if_neg (by rw [not_not, Nat.zero_add, ← hdata])]
  show Except.ok (record.member member.name) = Except.ok member
  rw [← hdescribes.eq_member]

/-- **The grammar of the central directory.** Exactly the central directories are
accepted, with the member that their metadata record describes; everything else is
refused with a `WheelMetadataError`. -/
theorem parseCentralDirectory_iff (data : Bytes) (entries : ℕ) :
    (∀ member, parseCentralDirectory data entries = .ok member ↔ IsDirectory data entries member) ∧
      Refuses (parseCentralDirectory data entries) := by
  refine ⟨fun member => ⟨fun h => ?_, parseCentralDirectory_of_isDirectory⟩,
    refuses_parseCentralDirectory data entries⟩
  obtain ⟨⟨members, stop⟩, hrecords, h⟩ := ok_of_bind h
  obtain ⟨hstop, h⟩ := ok_of_refuseIf h
  obtain ⟨records, names, hnames, hcount, hbytes, -⟩ := named_of_parseRecords hrecords
  have hread := parseRecords_of_bytes hnames hbytes
  rw [hcount, hrecords] at hread
  obtain ⟨rfl, -⟩ := Prod.mk.inj (Except.ok.inj hread)
  rw [not_not] at hstop
  rw [hstop, List.drop_length, List.append_nil, List.drop_zero] at hbytes
  split at h
  · next only hmembers =>
    obtain rfl := Except.ok.inj h
    obtain ⟨x, hx, hmember⟩ := List.map_eq_singleton_iff.mp hmembers
    obtain ⟨before, after, rfl, hname, hmetadata, hothers⟩ := exists_split hnames.named hx
    refine ⟨before, x.1, after, hcount, hbytes, ?_, ⟨?_, ?_⟩, hothers⟩
    · intro r hr
      obtain ⟨hwell, hplain⟩ := hnames.formed r hr
      exact ⟨hwell, hplain, exists_name hnames.named hr⟩
    · rw [← hmember]
      exact ⟨hname, rfl, rfl, rfl, rfl, rfl, rfl⟩
    · rw [← hmember]
      exact hmetadata
  · cases h

end Directory

end ProxyCache.Theorems.WheelExtraction
