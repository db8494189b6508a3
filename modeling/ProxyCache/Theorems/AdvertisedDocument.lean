import ProxyCache.App.Metadata
import ProxyCache.Theorems.MalformedLinks

/-!
# Advertising metadata in a document

`_advertise_metadata` writes the metadata of the probed files into the entries of a
JSON document. The rest of the document stays as it is, except that an entry which
advertises metadata under `dist-info-metadata` only gets a `core-metadata` of `null`.
-/

namespace ProxyCache.Theorems.AdvertisedDocument

open ProxyCache.Lib ProxyCache.Python ProxyCache.Python.JsonText ProxyCache.App
open ProxyCache.Theorems.JsonPassthrough (jsonSite fileOf linkOf noFloat)
open ProxyCache.Theorems.LinkRoundTrip (directSite)
open ProxyCache.Theorems.MalformedLinks (Readable exists_rewritten_iff)

variable (s : Site) (F : FloatRepr)

/-! ## Framed entries -/

/-- What `_probe` makes of a file: itself, or the file with a metadata value that it was resolved
to. -/
inductive Probed : File → File → Prop
  | unresolved (f : File) : Probed f f
  | resolved (f : File) (value : Json) (hneeds : needsProbe f = true)
      (hvalue : value = .bool true ∨ ∃ digest, value = .dict [(("sha256" : Str), .str digest)]) :
      Probed f (withCoreMetadata f value)

/-- The probed file was resolved: it misses nothing that the file missed. -/
def isResolved (f f' : File) : Bool := needsProbe f && !needsProbe f'

/-- The entry with the metadata of its resolved file, or as it is. -/
def framedEntry (entry : Json) (f : File) : Json :=
  match entry with
  | .dict members =>
    if isResolved (fileOf entry) f then
      let members := dictSet members ("core-metadata" : Str) f.coreMetadata
      match dictGet members ("url" : Str) with
      | some (.str url) =>
        .dict (dictSet members ("url" : Str) (.str (linkOf s.U s.settings url)))
      | _ => .dict members
    else entry
  | entry => entry

/-- The advertised text decodes to the document with the framed entries. -/
def Framed (text : Str) (members : List (Str × Json)) (entries : List Json) (probed : List File) :
    Prop :=
  ∃ out, advertiseMetadata (jsonSite F s) text true probed = .ok out ∧
    loads F out = .ok (.dict (dictSet members ("files" : Str)
      (.list (List.zipWith (framedEntry s) entries probed))))

/-- An entry that advertises metadata has a member `core-metadata`, and a link that is rewritten for
a resolved file can be read. -/
def Faithful (entry : Json) (f : File) : Prop :=
  ∀ members, entry = .dict members →
    (jsonEntryAdvertisesMetadata members = true → ∃ value,
      dictGet members ("core-metadata" : Str) = some value) ∧
    (isResolved (fileOf entry) f = true → ∀ url, dictGet members ("url" : Str) = some (.str url) →
      Readable s.U s.settings url)

/-- The links of entries that advertise metadata are rewritten already. -/
def Rewritten (entry : Json) : Prop :=
  ∀ members url, entry = .dict members → jsonEntryAdvertisesMetadata members = true →
    dictGet members ("url" : Str) = some (.str url) → rewriteFileUrl s.U s.settings url = .ok url

/-! ## What a probe returns -/

section Probes

variable {s} {f : File}

theorem probed_applyResolution
    (hneeds : needsProbe f = true) (resolution : Option MetadataResolution) :
    Probed f (applyResolution f resolution) := by
  unfold applyResolution
  split
  · exact .unresolved f
  · next resolved =>
    split
    · exact .resolved f _ hneeds (.inl rfl)
    · split
      · next digest _ => exact .resolved f _ hneeds (.inr ⟨digest, rfl⟩)
      · exact .unresolved f

/-- Whatever the calls answer, `_probe` returns such a file. -/
theorem probe_returns (pid : ℕ) (allowExtraction checkNative : Bool) :
    (probe s pid f allowExtraction checkNative).Returns fun r => ∀ f', r = .ok f' →
    Probed f f' := by
  unfold probe
  by_cases hneeds : needsProbe f = true
  · rw [if_neg (by simp [hneeds])]
    split
    · exact nofun
    · exact nofun
    · exact nofun
    · refine Prog.Returns.bind_of_forall _ fun r => ?_
      cases r with
      | error e => exact nofun
      | ok resolved =>
        intro f' hf'
        obtain rfl := Except.ok.inj hf'
        exact probed_applyResolution hneeds resolved
  · rw [if_pos (by simpa using hneeds)]
    intro f' hf'
    obtain rfl := Except.ok.inj hf'
    exact .unresolved f

end Probes

/-! ## One entry -/

section Entries

variable {s F} {members : List (Str × Json)} {f : File} {k : Str} {v : Json}

/-- Setting a member to its own value changes nothing. -/
theorem dictSet_self {d : List (Str × Json)} (hkeys : (d.map Prod.fst).Nodup)
    (h : dictGet d k = some v) : dictSet d k v = d := by
  obtain ⟨kv, hfind, hvalue⟩ := Option.map_eq_some_iff.mp h
  have hmem := List.mem_of_find?_eq_some hfind
  have hkey : kv.1 = k := by simpa using List.find?_some hfind
  have hany : d.any (·.1 == k) = true := List.any_eq_true.mpr ⟨kv, hmem, by simp [hkey]⟩
  have hsame : ∀ kv' ∈ d, (if kv'.1 == k then (k, v) else kv') = kv' := by
    intro kv' hkv'
    split
    · next heq =>
      -- the key stands once
      have hkeys' : kv'.1 = kv.1 := by rw [hkey]; simpa using heq
      rw [List.inj_on_of_nodup_map hkeys hkv' hmem hkeys', ← hkey, ← hvalue]
    · rfl
  rw [dictSet, if_pos hany, List.map_congr_left hsame, List.map_id']

theorem needsProbe_fileOf (members : List (Str × Json)) :
    needsProbe (fileOf (.dict members)) = !jsonEntryAdvertisesMetadata members := rfl

/-- The metadata of a resolved file is advertised. -/
theorem needsProbe_resolved {value : Json}
    (hvalue : value = .bool true ∨ ∃ digest, value = .dict [(("sha256" : Str), .str digest)]) :
    needsProbe (withCoreMetadata f value) = false := by
  rcases hvalue with rfl | ⟨digest, rfl⟩ <;> rfl

/-- The steps of one entry of which the file is advertised. -/
theorem advertiseEntry_of_advertised (h : needsProbe f = false) :
    advertiseEntry s (.dict members) f =
      match dictGet (dictSet members ("core-metadata" : Str) f.coreMetadata) ("url" : Str) with
      | some (.str url) => (rewriteFileUrl s.U s.settings url).map fun url' =>
          .dict (dictSet (dictSet members ("core-metadata" : Str) f.coreMetadata)
            ("url" : Str) (.str url'))
      | _ => .ok (.dict (dictSet members ("core-metadata" : Str) f.coreMetadata)) := by
  unfold advertiseEntry
  simp only
  rw [if_neg (by simp [h])]
  generalize dictGet (dictSet members ("core-metadata" : Str) f.coreMetadata) ("url" : Str) = found
  cases found with
  | none => rfl
  | some value =>
    cases value with
    | str url =>
      simp only
      cases rewriteFileUrl s.U s.settings url <;> rfl
    | _ => rfl

theorem dictGet_url (members : List (Str × Json)) (v : Json) :
    dictGet (dictSet members ("core-metadata" : Str) v) ("url" : Str) = dictGet members
    ("url" : Str) :=
  dictGet_dictSet_of_ne (by decide) _ _

/-- An entry that advertises metadata, and is written its own again. -/
theorem advertiseEntry_advertising (hkeys : (members.map Prod.fst).Nodup)
    (hadvertises : jsonEntryAdvertisesMetadata members = true)
    (hrewritten : Rewritten s (.dict members)) :
    advertiseEntry s (.dict members) (fileOf (.dict members)) = .ok (.dict members) ↔
      ∃ value, dictGet members ("core-metadata" : Str) = some value := by
  have hneeds : needsProbe (fileOf (.dict members)) = false := by
    rw [needsProbe_fileOf, hadvertises]
    rfl
  rw [advertiseEntry_of_advertised hneeds, dictGet_url]
  cases hcore : dictGet members ("core-metadata" : Str) with
  | some value =>
    refine iff_of_true ?_ ⟨value, rfl⟩
    have hfile : (fileOf (.dict members)).coreMetadata = value := by
      simp only [fileOf, hcore, Option.getD_some]
    rw [hfile, dictSet_self hkeys hcore]
    split
    · next url hurl =>
      rw [hrewritten members url rfl hadvertises hurl]
      exact congrArg (fun members => Except.ok (Json.dict members)) (dictSet_self hkeys hurl)
    · rfl
  | none =>
    -- the missing member is there afterwards
    refine iff_of_false (fun h => ?_) (by simp)
    have hset : ∃ members', Except.ok (ε := Raised) (Json.dict members') = .ok (.dict members) ∧
        dictGet members' ("core-metadata" : Str) = some (fileOf (.dict members)).coreMetadata := by
      split at h
      · next url hurl =>
        rw [hrewritten members url rfl hadvertises hurl] at h
        refine ⟨_, h, ?_⟩
        rw [dictGet_dictSet_of_ne (by decide), dictGet_dictSet_self]
      · exact ⟨_, h, dictGet_dictSet_self _ _ _⟩
    obtain ⟨members', hsame, hget⟩ := hset
    rw [Json.dict.inj (Except.ok.inj hsame), hcore] at hget
    cases hget

/-- An entry whose file was resolved. -/
theorem advertiseEntry_resolved (hneeds : needsProbe f = false)
    (hresolved : isResolved (fileOf (.dict members)) f = true) :
    advertiseEntry s (.dict members) f = .ok (framedEntry s (.dict members) f) ↔
      ∀ url, dictGet members ("url" : Str) = some (.str url) → Readable s.U s.settings url := by
  rw [advertiseEntry_of_advertised hneeds, framedEntry]
  simp only [hresolved, if_true, dictGet_url]
  cases hurl : dictGet members ("url" : Str) with
  | none => exact iff_of_true rfl (by simp)
  | some value =>
    cases value with
    | str url =>
      simp only [Option.some.injEq, Json.str.injEq, forall_eq']
      rw [← exists_rewritten_iff, linkOf]
      cases rewriteFileUrl s.U s.settings url with
      | error e => exact iff_of_false (fun h => by cases h) (by simp)
      | ok url' => exact iff_of_true rfl ⟨url', rfl⟩
    | _ => exact iff_of_true rfl (by simp)

/-- An entry is framed exactly when it is faithful. -/
theorem advertiseEntry_eq_iff {entry : Json} (hdict : ∃ members, entry = .dict members)
    (hvalid : Valid F entry) (hprobed : Probed (fileOf entry) f) (hrewritten : Rewritten s entry) :
    advertiseEntry s entry f = .ok (framedEntry s entry f) ↔ Faithful s entry f := by
  obtain ⟨members, rfl⟩ := hdict
  have hkeys : (members.map Prod.fst).Nodup := by
    cases hvalid with
    | dict _ hkeys _ => exact hkeys
  have hfaithful : Faithful s (.dict members) f ↔
      (jsonEntryAdvertisesMetadata members = true → ∃ value,
        dictGet members ("core-metadata" : Str) = some value) ∧
      (isResolved (fileOf (.dict members)) f = true →
        ∀ url, dictGet members ("url" : Str) = some (.str url) → Readable s.U s.settings url) := by
    constructor
    · exact fun h => h members rfl
    · rintro h members' hsame
      obtain rfl := Json.dict.inj hsame
      exact h
  rw [hfaithful]
  generalize hfile : fileOf (.dict members) = file at hprobed
  cases hprobed with
  | unresolved =>
    subst hfile
    have hframed : framedEntry s (.dict members) (fileOf (.dict members)) = .dict members := by
      rw [framedEntry]
      simp only [isResolved, Bool.and_not_self, Bool.false_eq_true, if_false]
    rw [hframed]
    simp only [isResolved, Bool.and_not_self, Bool.false_eq_true, false_implies, and_true]
    by_cases hadvertises : jsonEntryAdvertisesMetadata members = true
    · rw [advertiseEntry_advertising hkeys hadvertises hrewritten]
      exact ⟨fun h _ => h, fun h => h hadvertises⟩
    · refine iff_of_true ?_ fun h => absurd h hadvertises
      unfold advertiseEntry
      simp only
      rw [if_pos (by rw [needsProbe_fileOf]; simpa using hadvertises)]
      rfl
  | resolved value hneeds hvalue =>
    have hadvertises : jsonEntryAdvertisesMetadata members = false := by
      rw [← hfile, needsProbe_fileOf] at hneeds
      simpa using hneeds
    have hnone := needsProbe_resolved (f := file) hvalue
    have hresolved : isResolved (fileOf (.dict members)) (withCoreMetadata file value) = true := by
      rw [isResolved, hfile, hneeds, hnone]
      rfl
    rw [advertiseEntry_resolved hnone hresolved, hadvertises, ← hfile] at *
    exact ⟨fun h => ⟨by simp, fun _ => h⟩, fun h => h.2 hresolved⟩

end Entries

/-! ## The document -/

section Document

variable {s F} {text : Str} {members : List (Str × Json)} {entries : List Json} {probed : List File}

/-- Entries and files of the same number are advertised pair by pair. -/
theorem advertiseEntries_eq (h : entries.length = probed.length) :
    advertiseEntries s entries probed =
    (entries.zip probed).mapM fun p => advertiseEntry s p.1 p.2 := by
  induction entries generalizing probed with
  | nil =>
    rw [List.eq_nil_of_length_eq_zero h.symm]
    rfl
  | cons entry entries ih =>
    cases probed with
    | nil => cases h
    | cons f probed =>
      rw [advertiseEntries, List.zip_cons_cons, List.mapM_cons, ih (Nat.succ.inj h)]

/-- `_advertise_metadata` of a document with a list of files. -/
theorem advertiseMetadata_eq (hloads : loads F text = .ok (.dict members))
    (hfiles : dictGet members ("files" : Str) = some (.list entries))
    (hlength : entries.length = probed.length) :
    advertiseMetadata (jsonSite F s) text true probed =
      ((entries.zip probed).mapM fun p => advertiseEntry s p.1 p.2).map fun entries' =>
        dumps (.dict (dictSet members ("files" : Str) (.list entries'))) := by
  have hget : (Json.dict members).get ("files" : Str) (.list []) = .ok (.list entries) := by
    simp only [Json.get, hfiles, Option.getD_some]
  have hentries : advertiseEntries (jsonSite F s) entries probed =
      (entries.zip probed).mapM fun p => advertiseEntry s p.1 p.2 :=
    advertiseEntries_eq (s := jsonSite F s) hlength
  unfold advertiseMetadata
  rw [if_pos rfl]
  show (loads F text).bind _ = _
  rw [hloads]
  dsimp only [Except.bind]
  rw [hget]
  simp only [bind, Except.bind]
  rw [hentries]
  cases (entries.zip probed).mapM fun p => advertiseEntry s p.1 p.2 with
  | error e => rfl
  | ok entries' =>
    simp only
    rw [if_pos (by rw [hfiles]; rfl)]
    rfl

/-- What an object of a valid document has under a key is valid. -/
theorem valid_dictGet {k : Str} {v : Json} (hvalid : Valid F (.dict members))
    (h : dictGet members k = some v) : Valid F v := by
  cases hvalid with
  | dict _ _ hvalues =>
    obtain ⟨kv, hfind, rfl⟩ := Option.map_eq_some_iff.mp h
    exact hvalues kv (List.mem_of_find?_eq_some hfind)

/-- The metadata of a probed file is a value of a document. -/
theorem valid_coreMetadata {entry : Json} {f : File} (hvalid : Valid F entry)
    (hprobed : Probed (fileOf entry) f) : Valid F f.coreMetadata := by
  cases hprobed with
  | unresolved =>
    cases entry with
    | dict members =>
      simp only [fileOf]
      cases hcore : dictGet members ("core-metadata" : Str) with
      | none => exact .null
      | some value => exact valid_dictGet hvalid hcore
    | _ => exact .null
  | resolved value _ hvalue =>
    rcases hvalue with rfl | ⟨digest, rfl⟩
    · exact .bool true
    · refine .dict _ (List.nodup_singleton _) fun kv hkv => ?_
      rw [List.mem_singleton.mp hkv]
      exact .str digest

/-- Advertising keeps an entry valid. -/
theorem valid_advertiseEntry {entry entry' : Json} {f : File} (hvalid : Valid F entry)
    (hprobed : Probed (fileOf entry) f) (h : advertiseEntry s entry f = .ok entry') :
    Valid F entry' := by
  unfold advertiseEntry at h
  split at h
  · next members =>
    split at h
    · obtain rfl := Except.ok.inj h
      exact hvalid
    · have hset := valid_dictSet (k := ("core-metadata" : Str)) hvalid
        (valid_coreMetadata hvalid hprobed)
      simp only at h
      split at h
      · obtain ⟨url', -, h⟩ := ok_of_bind h
        obtain rfl := Except.ok.inj h
        exact valid_dictSet hset (.str url')
      · obtain rfl := Except.ok.inj h
        exact hset
  · obtain rfl := Except.ok.inj h
    exact hvalid

theorem valid_files (hloads : loads F text = .ok (.dict members))
    (hfiles : dictGet members ("files" : Str) = some (.list entries)) :
    ∀ entry ∈ entries, Valid F entry := by
  have hlist := valid_dictGet (valid_of_loads hloads) hfiles
  cases hlist with
  | list _ hitems => exact hitems

/-- What is advertised is read back. -/
theorem loads_advertised {entries' : List Json} (hloads : loads F text = .ok (.dict members))
    (hfiles : dictGet members ("files" : Str) = some (.list entries))
    (hprobed : List.Forall₂ (fun entry f => Probed (fileOf entry) f) entries probed)
    (h : ((entries.zip probed).mapM fun p => advertiseEntry s p.1 p.2) = .ok entries') :
    loads F (dumps (.dict (dictSet members ("files" : Str) (.list entries')))) =
      .ok (.dict (dictSet members ("files" : Str) (.list entries'))) := by
  refine loads_dumps (valid_dictSet (valid_of_loads hloads) (.list _ fun entry' hentry' => ?_))
  have hall := mapM_eq_ok_iff.mp h
  obtain ⟨p, hp, hadvertised⟩ :
    ∃ p ∈ entries.zip probed, advertiseEntry s p.1 p.2 = .ok entry' := by
    clear h hfiles hloads hprobed
    generalize entries.zip probed = pairs at hall
    induction hall with
    | nil => cases hentry'
    | cons hfirst _ ih =>
      rcases List.mem_cons.mp hentry' with rfl | hentry'
      · exact ⟨_, List.mem_cons_self, hfirst⟩
      · obtain ⟨p, hp, hadvertised⟩ := ih hentry'
        exact ⟨p, List.mem_cons_of_mem _ hp, hadvertised⟩
  exact valid_advertiseEntry (valid_files hloads hfiles _ (List.of_mem_zip hp).1)
    (List.forall₂_zip hprobed hp) hadvertised

/-- All entries are framed exactly when the document is. -/
theorem framed_iff_forall (hloads : loads F text = .ok (.dict members))
    (hfiles : dictGet members ("files" : Str) = some (.list entries))
    (hprobed : List.Forall₂ (fun entry f => Probed (fileOf entry) f) entries probed) :
    Framed s F text members entries probed ↔
      ∀ p ∈ entries.zip probed, advertiseEntry s p.1 p.2 = .ok (framedEntry s p.1 p.2) := by
  have hzip : List.zipWith (framedEntry s) entries probed =
      (entries.zip probed).map fun p => framedEntry s p.1 p.2 := by
    rw [List.zip, List.map_zipWith]
  have hall : (∀ p ∈ entries.zip probed, advertiseEntry s p.1 p.2 = .ok (framedEntry s p.1 p.2)) ↔
      ((entries.zip probed).mapM fun p => advertiseEntry s p.1 p.2) =
        .ok (List.zipWith (framedEntry s) entries probed) := by
    rw [mapM_eq_ok_iff, hzip, List.forall₂_map_right_iff, List.forall₂_same]
  rw [hall, Framed, advertiseMetadata_eq hloads hfiles hprobed.length_eq]
  constructor
  · rintro ⟨out, hout, hdecoded⟩
    cases hentries : ((entries.zip probed).mapM fun p => advertiseEntry s p.1 p.2) with
    | error e =>
      rw [hentries] at hout
      cases hout
    | ok entries' =>
      rw [hentries] at hout
      obtain rfl := Except.ok.inj hout
      rw [loads_advertised hloads hfiles hprobed hentries] at hdecoded
      -- the two documents have the same files
      have hsame := congrArg (fun members => dictGet members ("files" : Str))
        (Json.dict.inj (Except.ok.inj hdecoded))
      simp only [dictGet_dictSet_self, Option.some.injEq, Json.list.injEq] at hsame
      rw [hsame]
  · intro hentries
    rw [hentries]
    exact ⟨_, rfl, loads_advertised hloads hfiles hprobed hentries⟩

/-- A framed document has faithful entries only. -/
theorem faithful_of_framed (hloads : loads F text = .ok (.dict members))
    (hfiles : dictGet members ("files" : Str) = some (.list entries))
    (hdicts : ∀ entry ∈ entries, ∃ members, entry = .dict members)
    (hprobed : List.Forall₂ (fun entry f => Probed (fileOf entry) f) entries probed)
    (hrewritten : ∀ entry ∈ entries, Rewritten s entry)
    (h : Framed s F text members entries probed) :
    ∀ p ∈ entries.zip probed, Faithful s p.1 p.2 := by
  intro p hp
  obtain ⟨hentry, -⟩ := List.of_mem_zip hp
  have hframed := (framed_iff_forall hloads hfiles hprobed).mp h p hp
  exact (advertiseEntry_eq_iff (hdicts _ hentry) (valid_files hloads hfiles _ hentry)
    (List.forall₂_zip hprobed hp) (hrewritten _ hentry)).mp hframed

/-- **Advertising metadata.** The document is the same but for its resolved entries, exactly when
every entry that advertises metadata has a member `core-metadata` and every link that is rewritten
can be read. -/
theorem framed_iff (hloads : loads F text = .ok (.dict members))
    (hfiles : dictGet members ("files" : Str) = some (.list entries))
    (hdicts : ∀ entry ∈ entries, ∃ members, entry = .dict members)
    (hprobed : List.Forall₂ (fun entry f => Probed (fileOf entry) f) entries probed)
    (hrewritten : ∀ entry ∈ entries, Rewritten s entry) :
    Framed s F text members entries probed ↔ ∀ p ∈ entries.zip probed, Faithful s p.1 p.2 := by
  refine ⟨faithful_of_framed hloads hfiles hdicts hprobed hrewritten, fun hfaithful => ?_⟩
  refine (framed_iff_forall hloads hfiles hprobed).mpr fun p hp => ?_
  obtain ⟨hentry, -⟩ := List.of_mem_zip hp
  exact (advertiseEntry_eq_iff (hdicts _ hentry) (valid_files hloads hfiles _ hentry)
    (List.forall₂_zip hprobed hp) (hrewritten _ hentry)).mpr (hfaithful p hp)

end Document

/-! ## Two files -/

section Example

variable (extra : List (Str × Json))

/-- A wheel that misses metadata. -/
def missing : List (Str × Json) :=
  [(("filename" : Str), .str ("one.whl" : Str)),
    (("url" : Str), .str ("https://files.pythonhosted.org/one.whl" : Str))]

/-- A wheel that advertises metadata under `dist-info-metadata`. -/
def advertising : List (Str × Json) :=
  (("filename" : Str), .str ("two.whl" : Str)) ::
    (("url" : Str), .str ("/artifacts/files.pythonhosted.org/two.whl" : Str)) ::
      (("dist-info-metadata" : Str), .bool true) :: extra

def twoFiles : List (Str × Json) :=
  [(("files" : Str), .list [.dict missing, .dict (advertising extra)])]

/-- The first file was resolved. -/
def twoProbed : List File :=
  [withCoreMetadata (fileOf (.dict missing)) (.bool true), fileOf (.dict (advertising extra))]

variable {extra}

theorem valid_flat {d : List (Str × Json)} (hkeys : (d.map Prod.fst).Nodup)
    (h : ∀ kv ∈ d, (∃ text, kv.2 = .str text) ∨ ∃ b, kv.2 = .bool b) : Valid noFloat (.dict d) := by
  refine .dict _ hkeys fun kv hkv => ?_
  rcases h kv hkv with ⟨text, hvalue⟩ | ⟨b, hvalue⟩
  · rw [hvalue]
    exact .str text
  · rw [hvalue]
    exact .bool b

theorem loads_twoFiles (hkeys : ((advertising extra).map Prod.fst).Nodup)
    (hextra : ∀ kv ∈ extra, ∃ b, kv.2 = .bool b) :
    loads noFloat (dumps (.dict (twoFiles extra))) = .ok (.dict (twoFiles extra)) := by
  have hmissing : Valid noFloat (.dict missing) := by
    refine valid_flat (by decide) fun kv hkv => ?_
    simp only [missing, List.mem_cons, List.not_mem_nil, or_false] at hkv
    rcases hkv with rfl | rfl
    · exact .inl ⟨_, rfl⟩
    · exact .inl ⟨_, rfl⟩
  have hadvertising : Valid noFloat (.dict (advertising extra)) := by
    refine valid_flat hkeys fun kv hkv => ?_
    simp only [advertising, List.mem_cons] at hkv
    rcases hkv with rfl | rfl | rfl | hkv
    · exact .inl ⟨_, rfl⟩
    · exact .inl ⟨_, rfl⟩
    · exact .inr ⟨_, rfl⟩
    · exact .inr (hextra kv hkv)
  refine loads_dumps (.dict _ (List.nodup_singleton _) fun kv hkv => ?_)
  rw [List.mem_singleton.mp hkv]
  refine .list _ fun entry hentry => ?_
  rcases List.mem_cons.mp hentry with rfl | hentry
  · exact hmissing
  · rw [List.mem_singleton.mp hentry]
    exact hadvertising

theorem probed_twoProbed : List.Forall₂ (fun entry f => Probed (fileOf entry) f)
    [.dict missing, .dict (advertising extra)] (twoProbed extra) :=
  .cons (.resolved _ _ rfl (.inl rfl)) (.cons (.unresolved _) .nil)

theorem rewritten_twoFiles : ∀ entry ∈ [Json.dict missing, .dict (advertising extra)],
    Rewritten directSite entry := by
  intro entry hentry
  rcases List.mem_cons.mp hentry with rfl | hentry
  · intro members url hsame hadvertises
    obtain rfl := Json.dict.inj hsame
    cases hadvertises
  · rw [List.mem_singleton.mp hentry]
    intro members url hsame _ hurl
    obtain rfl := Json.dict.inj hsame
    have hlink : some (Json.str ("/artifacts/files.pythonhosted.org/two.whl" : Str)) =
      some (.str url) := hurl
    obtain rfl := Json.str.inj (Option.some.inj hlink)
    decide +kernel

theorem dicts_twoFiles : ∀ entry ∈ [Json.dict missing, .dict (advertising extra)],
    ∃ members, entry = .dict members := by
  intro entry hentry
  rcases List.mem_cons.mp hentry with rfl | hentry
  · exact ⟨_, rfl⟩
  · exact ⟨_, List.mem_singleton.mp hentry⟩

/-- With a `core-metadata` of its own, the second entry stays. -/
theorem framed_twoFiles :
    let extra : List (Str × Json) := [(("core-metadata" : Str), .bool true)]
    Framed directSite noFloat (dumps (.dict (twoFiles extra))) (twoFiles extra)
      [.dict missing, .dict (advertising extra)] (twoProbed extra) := by
  intro extra
  have hbool : ∀ kv ∈ extra, ∃ b, kv.2 = .bool b := by
    intro kv hkv
    rw [List.mem_singleton.mp hkv]
    exact ⟨true, rfl⟩
  refine (framed_iff (loads_twoFiles (by decide) hbool) rfl dicts_twoFiles probed_twoProbed
    rewritten_twoFiles).mpr fun p hp => ?_
  have hreadable : Readable directSite.U directSite.settings
      ("https://files.pythonhosted.org/one.whl" : Str) :=
    exists_rewritten_iff.mp ⟨("/artifacts/files.pythonhosted.org/one.whl" : Str), by decide +kernel⟩
  rcases List.mem_cons.mp hp with rfl | hp
  · intro members hsame
    obtain rfl := Json.dict.inj hsame
    refine ⟨nofun, fun _ url hurl => ?_⟩
    have hlink : some (Json.str ("https://files.pythonhosted.org/one.whl" : Str)) =
      some (.str url) := hurl
    obtain rfl := Json.str.inj (Option.some.inj hlink)
    exact hreadable
  · rw [List.mem_singleton.mp hp]
    intro members hsame
    obtain rfl := Json.dict.inj hsame
    exact ⟨fun _ => ⟨.bool true, rfl⟩, nofun⟩

/-- Without one, it gets one of `null`. -/
theorem not_framed_twoFiles :
    ¬ ∀ (s : Site) (F : FloatRepr) (text : Str) (members : List (Str × Json)) (entries : List Json)
      (probed : List File), loads F text = .ok (.dict members) →
      dictGet members ("files" : Str) = some (.list entries) →
      (∀ entry ∈ entries, ∃ members, entry = .dict members) →
      List.Forall₂ (fun entry f => Probed (fileOf entry) f) entries probed →
      (∀ entry ∈ entries, Rewritten s entry) → Framed s F text members entries probed := by
  intro h
  have hloads := @loads_twoFiles [] (by decide) nofun
  have hframed := h directSite noFloat _ _ _ _ hloads rfl dicts_twoFiles probed_twoProbed
    rewritten_twoFiles
  have hfaithful := faithful_of_framed hloads rfl dicts_twoFiles probed_twoProbed rewritten_twoFiles
    hframed (.dict (advertising []), fileOf (.dict (advertising [])))
    (List.mem_cons_of_mem _ List.mem_cons_self)
  obtain ⟨value, hvalue⟩ := (hfaithful _ rfl).1 rfl
  cases hvalue

end Example

end ProxyCache.Theorems.AdvertisedDocument
