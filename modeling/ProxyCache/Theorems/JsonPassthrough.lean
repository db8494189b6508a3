import ProxyCache.App.Metadata
import ProxyCache.Python.JsonText
import Mathlib.Data.List.Forall2

/-!
# JSON passthrough

`rewrite_json_body` works on the entries of the decoded document, and the
synthesis path on the parsed files. Both decide alike which links to rewrite;
the short cut on the undecoded text does not.
-/

namespace ProxyCache.Theorems.JsonPassthrough

open ProxyCache.Lib ProxyCache.Python ProxyCache.Python.JsonText ProxyCache.App

variable (U : Unicode) (F : FloatRepr) (D : Documents) (settings : Settings)

/-- The documents with `json.loads` and `json.dumps` themselves. -/
def withJson : Documents :=
  { D with loads := loads F, dumps := dumps, dumpsCompact := dumpsWith (",".toList) (":".toList) }

/-- The site with `json` itself. -/
def jsonSite (s : Site) : Site := { s with D := withJson F s.D }

/-! ## Documents that agree -/

/-- Two objects have the same members, in the same order, except for the value
under `k`. -/
def SameExcept (k : Str) (members members' : List (Str × Json)) : Prop :=
  members'.map Prod.fst = members.map Prod.fst ∧ ∀ k' ≠ k, dictGet members' k' = dictGet members k'

/-- Two entries differ in their `url` at most. -/
def SameEntry (entry entry' : Json) : Prop :=
  ∃ members members', entry = .dict members ∧ entry' = .dict members' ∧
    SameExcept ("url" : Str) members members'

/-- The entry is an object whose `url` is a string that can be rewritten. -/
def HasLink (entry : Json) : Prop :=
  ∃ members url url', entry = .dict members ∧ dictGet members ("url" : Str) = some (.str url) ∧
    rewriteFileUrl U settings url = .ok url'

/-- The rewritten text decodes to the document of the text except for the links,
and its parsed files have the links of the rewritten project. -/
def Agrees (text : Str) (members : List (Str × Json)) (files : List Json) : Prop :=
  ∃ out members' files' project project',
    rewriteJsonBody U (withJson F D) settings text = .ok out ∧ loads F out = .ok (.dict members') ∧
    SameExcept ("files" : Str) members members' ∧
    dictGet members' ("files" : Str) = some (.list files') ∧ List.Forall₂ SameEntry files files' ∧
    parseSimpleJson (.dict members') = .ok project' ∧
    (parseSimpleJson (.dict members)).bind (rewriteProjectUrls U settings) = .ok project ∧
    project'.files.map File.url = project.files.map File.url

/-- The entry advertises no metadata, or its link is not rewritten. -/
def Direct (entry : Json) : Prop :=
  ∀ members url, entry = .dict members → dictGet members ("url" : Str) = some (.str url) →
    jsonEntryAdvertisesMetadata members = true → rewriteFileUrl U settings url = .ok url

/-! ## Entries -/

/-- The link behind a URL. -/
def linkOf (url : Str) : Str :=
  match rewriteFileUrl U settings url with
  | .ok url' => url'
  | .error _ => url

/-- The entry after rewriting. -/
def newEntry : Json → Json
  | .dict members =>
    match dictGet members ("url" : Str) with
    | some (.str url) =>
      if settings.rewriteArtifactUrls || jsonEntryAdvertisesMetadata members then
        .dict (dictSet members ("url" : Str) (.str (linkOf U settings url)))
      else .dict members
    | _ => .dict members
  | entry => entry

/-- The file that an entry is parsed to. -/
def fileOf : Json → File
  | .dict members => {
      filename := (dictGet members ("filename" : Str)).getD (.str [])
      url := (dictGet members ("url" : Str)).getD (.str [])
      hashes := (dictGet members ("hashes" : Str)).getD (.dict [])
      requiresPython := (dictGet members ("requires-python" : Str)).getD .null
      yanked := (dictGet members ("yanked" : Str)).getD .null
      distInfoMetadata := (dictGet members ("dist-info-metadata" : Str)).getD .null
      coreMetadata := (dictGet members ("core-metadata" : Str)).getD .null
      size := (dictGet members ("size" : Str)).getD .null
      uploadTime := (dictGet members ("upload-time" : Str)).getD .null }
  | entry => { filename := entry, url := entry }

/-- The link of a file after rewriting. -/
def newUrl (f : File) : Json :=
  match f.url with
  | .str url =>
    if settings.rewriteArtifactUrls || fileAdvertisesMetadata f then .str (linkOf U settings url)
    else .str url
  | url => url

section Entries

variable {U : Unicode} {settings : Settings} {members : List (Str × Json)} {entry : Json} {k : Str}

theorem sameExcept_refl : SameExcept k members members := ⟨rfl, fun _ _ => rfl⟩

/-- Setting a member that is there changes nothing else. -/
theorem sameExcept_dictSet {v : Json} (h : dictGet members k = some v) (v' : Json) :
    SameExcept k members (dictSet members k v') := by
  have hmem : k ∈ members.map Prod.fst := by
    by_contra hnot
    have hnone : dictGet members k = none :=
      dictGet_eq_none.mpr fun kv hkv heq => hnot (List.mem_map.mpr ⟨kv, hkv, heq⟩)
    rw [hnone] at h
    cases h
  refine ⟨?_, fun k' hk' => dictGet_dictSet_of_ne hk' members v'⟩
  rw [keys_dictSet, if_pos hmem]

/-- **The two decisions.** An entry advertises metadata if and only if its file
does. -/
theorem fileAdvertisesMetadata_fileOf (members : List (Str × Json)) :
    fileAdvertisesMetadata (fileOf (.dict members)) = jsonEntryAdvertisesMetadata members := rfl

theorem rewriteEntry_eq (h : HasLink U settings entry) :
    rewriteEntry U settings entry = .ok (newEntry U settings entry) := by
  obtain ⟨members, url, url', rfl, hurl, hlink⟩ := h
  simp only [rewriteEntry, newEntry, hurl, linkOf, hlink]
  split <;> rfl

theorem sameEntry_newEntry (h : HasLink U settings entry) :
    SameEntry entry (newEntry U settings entry) := by
  obtain ⟨members, url, url', rfl, hurl, -⟩ := h
  simp only [newEntry, hurl]
  split
  · exact ⟨members, _, rfl, rfl, sameExcept_dictSet hurl _⟩
  · exact ⟨members, members, rfl, rfl, sameExcept_refl⟩

theorem hasLink_newEntry_isDict (h : HasLink U settings entry) :
    ∃ members, newEntry U settings entry = .dict members := by
  obtain ⟨members, url, url', rfl, hurl, -⟩ := h
  simp only [newEntry, hurl]
  split <;> exact ⟨_, rfl⟩

/-- **The two rewritings.** The file of the rewritten entry has the link of the
rewritten file. -/
theorem url_fileOf_newEntry (h : HasLink U settings entry) :
    (fileOf (newEntry U settings entry)).url = newUrl U settings (fileOf entry) := by
  obtain ⟨members, url, url', rfl, hurl, -⟩ := h
  have hfile : (fileOf (.dict members)).url = .str url := by
    simp only [fileOf, hurl, Option.getD_some]
  simp only [newUrl, hfile, newEntry, hurl, fileAdvertisesMetadata_fileOf]
  by_cases hrewritten : (settings.rewriteArtifactUrls || jsonEntryAdvertisesMetadata members) = true
  · simp only [hrewritten, if_true, fileOf, dictGet_dictSet_self, Option.getD_some]
  · simp only [hrewritten]
    exact hfile

/-- A file keeps its link if and only if the entry may be left as it is. -/
theorem url_eq_newUrl_iff (hoff : settings.rewriteArtifactUrls = false)
    (h : HasLink U settings entry) :
    (fileOf entry).url = newUrl U settings (fileOf entry) ↔ Direct U settings entry := by
  obtain ⟨members, url, url', rfl, hurl, hlink⟩ := h
  have hfile : (fileOf (.dict members)).url = .str url := by
    simp only [fileOf, hurl, Option.getD_some]
  simp only [newUrl, hfile, hoff, Bool.false_or, fileAdvertisesMetadata_fileOf, linkOf, hlink]
  constructor
  · rintro heq members' url'' ⟨⟩ hurl' hadvertised
    rw [hurl] at hurl'
    obtain ⟨⟩ := hurl'
    rw [if_pos hadvertised] at heq
    rw [hlink, Json.str.inj heq]
  · intro hdirect
    split
    · next hadvertised =>
      have hsame := hdirect members url rfl hurl hadvertised
      rw [hlink] at hsame
      rw [Except.ok.inj hsame]
    · rfl

end Entries

/-! ## Documents -/

section Documents

variable {U : Unicode} {F : FloatRepr} {D : Documents} {settings : Settings} {text : Str}
  {members : List (Str × Json)} {files : List Json}

/-- A loop whose rounds all return. -/
theorem mapM_ok {α β : Type} {f : α → Except Raised β} {g : α → β} {l : List α}
    (h : ∀ a ∈ l, f a = .ok (g a)) : l.mapM f = .ok (l.map g) := by
  induction l with
  | nil => rfl
  | cons a l ih =>
    rw [List.mapM_cons, h a List.mem_cons_self, ih fun b hb => h b (List.mem_cons_of_mem _ hb)]
    rfl

/-- The project that a document is parsed to. -/
def projectOf (members : List (Str × Json)) (files : List Json) : Project :=
  { name := (dictGet members ("name" : Str)).getD (.str []), files := files.map fileOf }

theorem parseSimpleJson_eq (hfiles : dictGet members ("files" : Str) = some (.list files))
    (hentries : ∀ e ∈ files, ∃ m, e = .dict m) :
    parseSimpleJson (.dict members) = .ok (projectOf members files) := by
  have hparse : files.mapM parseEntry = .ok (files.map fileOf) := by
    refine mapM_ok fun e he => ?_
    obtain ⟨m, rfl⟩ := hentries e he
    rfl
  have hget : (Json.dict members).get ("files" : Str) (.list []) = .ok (.list files) := by
    simp only [Json.get, hfiles, Option.getD_some]
  unfold parseSimpleJson
  rw [hget]
  show (files.mapM parseEntry).bind _ = _
  rw [hparse]
  rfl

theorem rewriteProjectUrls_eq (hlinks : ∀ e ∈ files, HasLink U settings e) :
    rewriteProjectUrls U settings (projectOf members files) = .ok { projectOf members files with
      files := files.map fun e => { fileOf e with url := newUrl U settings (fileOf e) } } := by
  have hfile : ∀ e ∈ files, (do
      let url ← if settings.rewriteArtifactUrls || fileAdvertisesMetadata (fileOf e) then
          rewriteUrlValue U settings (fileOf e).url
        else pure (fileOf e).url
      return { fileOf e with url } : Except Raised File) =
        .ok { fileOf e with url := newUrl U settings (fileOf e) } := by
    intro e he
    obtain ⟨m, url, url', rfl, hurl, hlink⟩ := hlinks e he
    have hfile : (fileOf (.dict m)).url = .str url := by simp only [fileOf, hurl, Option.getD_some]
    have hvalue : rewriteUrlValue U settings (.str url) = .ok (.str url') := by
      by_cases hempty : url = []
      · subst hempty
        obtain rfl : [] = url' := Except.ok.inj hlink
        rfl
      · simp only [rewriteUrlValue, Json.truthy, bne_iff_ne, ne_eq, hempty,
          not_false_eq_true, if_true,
          Json.asStr_str]
        show (rewriteFileUrl U settings url).bind _ = _
        rw [hlink]
        rfl
    simp only [hfile, newUrl, linkOf, hlink]
    split
    · rw [hvalue]
      rfl
    · rfl
  have hmap : (files.map fileOf).mapM (fun f => do
      let url ← if settings.rewriteArtifactUrls || fileAdvertisesMetadata f then
          rewriteUrlValue U settings f.url
        else pure f.url
      return { f with url } : File → Except Raised File) =
        .ok (files.map fun e => { fileOf e with url := newUrl U settings (fileOf e) }) := by
    rw [List.mapM_map]
    exact mapM_ok hfile
  unfold rewriteProjectUrls projectOf
  rw [hmap]
  rfl

/-- The links of the rewritten project. -/
theorem links_rewriteProjectUrls (hfiles : dictGet members ("files" : Str) = some (.list files))
    (hlinks : ∀ e ∈ files, HasLink U settings e) :
    ∃ project, (parseSimpleJson (.dict members)).bind (rewriteProjectUrls U settings) =
    .ok project ∧
      project.files.map File.url = files.map fun e => newUrl U settings (fileOf e) := by
  have hentries : ∀ e ∈ files, ∃ m, e = .dict m := by
    intro e he
    obtain ⟨m, -, -, heq, -⟩ := hlinks e he
    exact ⟨m, heq⟩
  refine ⟨_, by rw [parseSimpleJson_eq hfiles hentries]; exact rewriteProjectUrls_eq hlinks, ?_⟩
  rw [List.map_map]
  rfl

/-- The short cut is not taken: rewriting is enabled, or the text holds a key of
the metadata between quotes. -/
def Decoded (settings : Settings) (text : Str) : Prop :=
  settings.rewriteArtifactUrls = true ∨ contains ("\"core-metadata\"" : Str) text = true ∨
    contains ("\"dist-info-metadata\"" : Str) text = true

instance (settings : Settings) (text : Str) : Decidable (Decoded settings text) :=
  inferInstanceAs (Decidable (_ ∨ _ ∨ _))

theorem rewriteJsonBody_shortcut (h : ¬ Decoded settings text) :
    rewriteJsonBody U D settings text = .ok text := by
  simp only [Decoded, not_or, Bool.not_eq_true] at h
  unfold rewriteJsonBody
  rw [h.1, h.2.1, h.2.2]
  rfl

/-- A document that is decoded is rewritten entry by entry. -/
theorem rewriteJsonBody_eq {D : Documents} (hdecoded : Decoded settings text)
    (hloads : D.loads text = .ok (.dict members))
    (hfiles : dictGet members ("files" : Str) = some (.list files)) :
    rewriteJsonBody U D settings text = (files.mapM (rewriteEntry U settings)).map fun files' =>
      D.dumps (.dict (dictSet members ("files" : Str) (.list files'))) := by
  have hcond : (!settings.rewriteArtifactUrls && !contains ("\"core-metadata\"" : Str) text &&
      !contains ("\"dist-info-metadata\"" : Str) text) = false := by
    rcases hdecoded with h | h | h <;> rw [h] <;> simp
  unfold rewriteJsonBody
  rw [if_neg (Bool.eq_false_iff.mp hcond), hloads]
  simp only [bind, Except.bind, Json.get, hfiles, Option.getD_some]
  cases files.mapM (rewriteEntry U settings) <;> rfl

theorem rewriteJsonBody_decoded (h : Decoded settings text)
    (hloads : loads F text = .ok (.dict members))
    (hfiles : dictGet members ("files" : Str) = some (.list files))
    (hlinks : ∀ e ∈ files, HasLink U settings e) :
    rewriteJsonBody U (withJson F D) settings text =
      .ok (dumps (.dict (dictSet members
        ("files" : Str) (.list (files.map (newEntry U settings)))))) := by
  have hentries : files.mapM (rewriteEntry U settings) = .ok (files.map (newEntry U settings)) :=
    mapM_ok fun e he => rewriteEntry_eq (hlinks e he)
  have heq := @rewriteJsonBody_eq U settings text members files (withJson F D) h hloads hfiles
  rw [heq, hentries]
  rfl

/-- Rewriting entries keeps a document valid. -/
theorem valid_newEntry {entry : Json} (h : Valid F entry) :
    Valid F (newEntry U settings entry) := by
  unfold newEntry
  split
  · split
    · split
      · exact valid_dictSet h (.str _)
      · exact h
    · exact h
  · exact h

theorem valid_rewritten (hloads : loads F text = .ok (.dict members))
    (hfiles : dictGet members ("files" : Str) = some (.list files)) :
    Valid F (.dict (dictSet members ("files" : Str)
      (.list (files.map (newEntry U settings))))) := by
  have hvalid : Valid F (.dict members) := valid_of_loads hloads
  refine valid_dictSet hvalid (.list _ fun e he => ?_)
  obtain ⟨entry, hentry, rfl⟩ := List.mem_map.mp he
  have hlist : Valid F (.list files) := by
    cases hvalid with
    | dict _ _ hvalues =>
      obtain ⟨kv, hfind, heq⟩ := Option.map_eq_some_iff.mp hfiles
      have hkv := hvalues kv (List.mem_of_find?_eq_some hfind)
      rwa [heq] at hkv
  cases hlist with
  | list _ hitems => exact valid_newEntry (hitems entry hentry)

/-- A document that is decoded is rewritten entry by entry. -/
theorem agrees_of_decoded (hdecoded : Decoded settings text)
    (hloads : loads F text = .ok (.dict members))
    (hfiles : dictGet members ("files" : Str) = some (.list files))
    (hlinks : ∀ e ∈ files, HasLink U settings e) : Agrees U F D settings text members files := by
  obtain ⟨project, hproject, hurls⟩ := links_rewriteProjectUrls hfiles hlinks
  have hdict : ∀ e ∈ files.map (newEntry U settings), ∃ m, e = .dict m := by
    intro e he
    obtain ⟨entry, hentry, rfl⟩ := List.mem_map.mp he
    exact hasLink_newEntry_isDict (hlinks entry hentry)
  refine ⟨_, _, _, project, _, rewriteJsonBody_decoded hdecoded hloads hfiles hlinks,
    loads_dumps (valid_rewritten hloads hfiles), sameExcept_dictSet hfiles _,
    dictGet_dictSet_self _ _ _, ?_, parseSimpleJson_eq (dictGet_dictSet_self _ _ _)
    hdict, hproject, ?_⟩
  · rw [List.forall₂_map_right_iff, List.forall₂_same]
    exact fun e he => sameEntry_newEntry (hlinks e he)
  · rw [hurls]
    simp only [projectOf, List.map_map]
    exact List.map_congr_left fun e he => url_fileOf_newEntry (hlinks e he)

/-- A text that is returned as it is keeps every link. -/
theorem agrees_of_shortcut_iff (hdecoded : ¬ Decoded settings text)
    (hloads : loads F text = .ok (.dict members))
    (hfiles : dictGet members ("files" : Str) = some (.list files))
    (hlinks : ∀ e ∈ files, HasLink U settings e) :
    Agrees U F D settings text members files ↔ ∀ e ∈ files, Direct U settings e := by
  have hdict : ∀ e ∈ files, ∃ m, e = .dict m := by
    intro e he
    obtain ⟨m, -, -, heq, -⟩ := hlinks e he
    exact ⟨m, heq⟩
  obtain ⟨project, hproject, hurls⟩ := links_rewriteProjectUrls hfiles hlinks
  have hoff : settings.rewriteArtifactUrls = false :=
    Bool.eq_false_iff.mpr fun hon => hdecoded (.inl hon)
  have hsame : (files.map fileOf).map File.url = files.map (fun e => newUrl U settings (fileOf e)) ↔
      ∀ e ∈ files, Direct U settings e := by
    rw [List.map_map, List.map_inj_left]
    exact forall₂_congr fun e he => url_eq_newUrl_iff hoff (hlinks e he)
  rw [← hsame]
  constructor
  · rintro ⟨out, members', files', p, p', hout, hload', -, hfiles', -, hparse', hp, hequal⟩
    rw [rewriteJsonBody_shortcut hdecoded] at hout
    obtain rfl := Except.ok.inj hout
    rw [hloads] at hload'
    obtain rfl := Json.dict.inj (Except.ok.inj hload')
    rw [parseSimpleJson_eq hfiles hdict] at hparse'
    obtain rfl := Except.ok.inj hparse'
    rw [hproject] at hp
    obtain rfl := Except.ok.inj hp
    rw [← hurls]
    exact hequal
  · intro hequal
    refine ⟨text, members, files, project, _, rewriteJsonBody_shortcut hdecoded, hloads,
      sameExcept_refl, hfiles, ?_, parseSimpleJson_eq hfiles hdict, hproject, ?_⟩
    · rw [List.forall₂_same]
      intro e he
      obtain ⟨m, rfl⟩ := hdict e he
      exact ⟨m, m, rfl, rfl, sameExcept_refl⟩
    · rw [hurls, ← hequal]
      rfl

/-- **JSON passthrough.** For a text of an object whose `files` are objects with
links, rewriting agrees with the parsed model if and only if the short cut is
not taken or leaves nothing to be rewritten. -/
theorem agrees_iff (hloads : loads F text = .ok (.dict members))
    (hfiles : dictGet members ("files" : Str) = some (.list files))
    (hlinks : ∀ e ∈ files, HasLink U settings e) :
    Agrees U F D settings text members files ↔
      Decoded settings text ∨ ∀ e ∈ files, Direct U settings e := by
  by_cases hdecoded : Decoded settings text
  · exact iff_of_true (agrees_of_decoded hdecoded hloads hfiles hlinks) (.inl hdecoded)
  · rw [or_iff_right hdecoded]
    exact agrees_of_shortcut_iff hdecoded hloads hfiles hlinks

end Documents

/-! ## Two spellings of one document -/

section Spellings

theorem scan_zero {rest : Str} (h : Follow rest) :
    scanNumber (("0.0" : Str) ++ rest) = some ([], ['0'], (".0" : Str), rest) := by
  obtain ⟨htake, hdrop⟩ := span_digits (show (['0'] : Str).all Char.isDigit = true from rfl) h
  have hfraction : scanFraction ('.' :: ('0' :: rest)) = ((".0" : Str), rest) := by
    show ('.' :: (['0'] ++ rest).takeWhile Char.isDigit, (['0'] ++ rest).dropWhile Char.isDigit) = _
    rw [htake, hdrop]
    rfl
  show ((scanUnsigned ('0' :: '.' :: '0' :: rest)).map fun x => ([], x)) = _
  simp only [scanUnsigned, scanNatural, hfraction, scanExponent_of_follow h]
  rfl

/-- For texts without floats. -/
def noFloat : FloatRepr where
  repr _ := ("0.0" : Str)
  scan _ _ _ _ h := ⟨[], ['0'], (".0" : Str), by decide, rfl, scan_zero h⟩
  repr_repr _ := rfl

def noPages : Documents :=
  ⟨fun _ => .error .valueError, fun _ => .error .valueError, fun _ => [], fun _ => [],
    fun _ => [], fun _ => .ok [], fun text _ => text⟩

def wheel : Str := ("https://files.pythonhosted.org/a.whl" : Str)

/-- The hyphen of `core-metadata` is escaped. -/
def escapedKey : Str :=
  ("\x7b\"files\": [\x7b\"url\": \"https://files.pythonhosted.org/a.whl\", " : Str) ++
    ("\"core\\u002dmetadata\": true\x7d]\x7d" : Str)

def plainKey : Str :=
  ("\x7b\"files\": [\x7b\"url\": \"https://files.pythonhosted.org/a.whl\", " : Str) ++
    ("\"core-metadata\": true\x7d]\x7d" : Str)

/-- The text holds one entry, which links to the wheel and advertises metadata. -/
def holdsWheel (text : Str) : Bool :=
  match loads noFloat text with
  | .ok (.dict members) =>
    match dictGet members ("files" : Str) with
    | some (.list [.dict entry]) =>
      match dictGet entry ("url" : Str) with
      | some (.str url) => url == wheel && jsonEntryAdvertisesMetadata entry
      | _ => false
    | _ => false
  | _ => false

theorem entry_of_holdsWheel {text : Str} (h : holdsWheel text = true) :
    ∃ members entry, loads noFloat text = .ok (.dict members) ∧
      dictGet members ("files" : Str) = some (.list [.dict entry]) ∧
      dictGet entry ("url" : Str) = some (.str wheel) ∧
      jsonEntryAdvertisesMetadata entry = true := by
  unfold holdsWheel at h
  split at h
  · next members hloads =>
    split at h
    · next entry hfiles =>
      split at h
      · next url hurl =>
        rw [Bool.and_eq_true, beq_iff_eq] at h
        obtain ⟨rfl, hadvertised⟩ := h
        exact ⟨members, entry, hloads, hfiles, hurl, hadvertised⟩
      · cases h
    · cases h
  · cases h

def direct : Settings := { rewriteArtifactUrls := false }

theorem rewriteFileUrl_wheel : rewriteFileUrl asciiOnly direct wheel =
    .ok ("/artifacts/files.pythonhosted.org/a.whl" : Str) := by
  decide +kernel

/-- The link of an advertised entry is left as it is when its key is escaped. -/
theorem not_agrees_escapedKey :
    ¬ ∀ (U : Unicode) (F : FloatRepr) (D : Documents) (settings : Settings) (text : Str)
      (members : List (Str × Json)) (files : List Json), loads F text = .ok (.dict members) →
      dictGet members ("files" : Str) = some (.list files) → (∀ e ∈ files, HasLink U settings e) →
      Agrees U F D settings text members files := by
  intro h
  obtain ⟨members, entry, hloads, hfiles, hurl, hadvertised⟩ :=
    entry_of_holdsWheel (show holdsWheel escapedKey = true by decide +kernel)
  have hlinks : ∀ e ∈ [Json.dict entry], HasLink asciiOnly direct e := by
    rw [List.forall_mem_singleton]
    exact ⟨entry, wheel, _, rfl, hurl, rewriteFileUrl_wheel⟩
  have hagrees := h asciiOnly noFloat noPages direct escapedKey members _ hloads hfiles hlinks
  have hshortcut : ¬ Decoded direct escapedKey := by decide +kernel
  rw [agrees_of_shortcut_iff hshortcut hloads hfiles hlinks] at hagrees
  have hsame := hagrees _ List.mem_cons_self entry wheel rfl hurl hadvertised
  rw [rewriteFileUrl_wheel] at hsame
  exact absurd (Except.ok.inj hsame) (by decide)

/-- With the key spelt out, the document is rewritten. -/
theorem agrees_plainKey :
    ∃ members files, loads noFloat plainKey = .ok (.dict members) ∧
      Agrees asciiOnly noFloat noPages direct plainKey members files := by
  obtain ⟨members, entry, hloads, hfiles, hurl, -⟩ :=
    entry_of_holdsWheel (show holdsWheel plainKey = true by decide +kernel)
  have hlinks : ∀ e ∈ [Json.dict entry], HasLink asciiOnly direct e := by
    rw [List.forall_mem_singleton]
    exact ⟨entry, wheel, _, rfl, hurl, rewriteFileUrl_wheel⟩
  have hdecoded : Decoded direct plainKey := by decide +kernel
  exact ⟨members, _, hloads, (agrees_iff hloads hfiles hlinks).mpr (.inl hdecoded)⟩

end Spellings

end ProxyCache.Theorems.JsonPassthrough
