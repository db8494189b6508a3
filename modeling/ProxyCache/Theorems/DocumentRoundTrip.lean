import ProxyCache.Theorems.AdvertisedDocument
import ProxyCache.Theorems.ReplySources

/-!
# Documents that are written and read back

`model_to_json` writes what `parse_simple_json` reads. Everything that either parser has returned
is read back, except that a file which says nothing of its metadata is said to have none from then
on; the document that is written of it once more is the same.

So a JSON page that the service has made of an HTML page has the files of the HTML page, with their
links rewritten, and this is what a client reads in the reply.
-/

namespace ProxyCache.Theorems.DocumentRoundTrip

open ProxyCache.Lib ProxyCache.Python ProxyCache.Python.JsonText ProxyCache.App
open ProxyCache.Theorems.JsonPassthrough ProxyCache.Theorems.AdvertisedDocument
open ProxyCache.Theorems.LinkRoundTrip (directSite)
open ProxyCache.Theorems.ReplySources

variable {s : Site} {F : FloatRepr} {f : File} {project project' : Project} {canonical : Str}

/-! ## What a text can hold -/

/-- The fields of a file hold what a text can hold. -/
structure ValidFile (F : FloatRepr) (f : File) : Prop where
  filename : Valid F f.filename
  url : Valid F f.url
  hashes : Valid F f.hashes
  requiresPython : Valid F f.requiresPython
  yanked : Valid F f.yanked
  distInfoMetadata : Valid F f.distInfoMetadata
  coreMetadata : Valid F f.coreMetadata
  size : Valid F f.size
  uploadTime : Valid F f.uploadTime

/-- A project whose fields hold what a text can hold. -/
def ValidProject (F : FloatRepr) (project : Project) : Prop :=
  Valid F project.name ∧ ∀ f ∈ project.files, ValidFile F f

/-! ## What is read back -/

/-- A file that says nothing of its metadata is said to have none. -/
def recorded (f : File) : File :=
  { f with coreMetadata :=
      if f.coreMetadata.isNone && f.distInfoMetadata.isNone then .bool false else f.coreMetadata }

def recordedProject (project : Project) : Project :=
  { project with files := project.files.map recorded }

section Entries

theorem recorded_recorded (f : File) : recorded (recorded f) = recorded f := by
  unfold recorded
  cases hnone : f.coreMetadata.isNone && f.distInfoMetadata.isNone with
  | true => rfl
  | false => simp [hnone]

/-- The members of an entry, with the missing ones. -/
def fields (f : File) : List (Str × Json) :=
  [(("requires-python" : Str), f.requiresPython), (("yanked" : Str), f.yanked),
    (("core-metadata" : Str), f.coreMetadata), (("dist-info-metadata" : Str), f.distInfoMetadata),
    (("size" : Str), f.size), (("upload-time" : Str), f.uploadTime)]

/-- The members that are not missing. -/
def present (fields : List (Str × Json)) : List (Str × Json) :=
  fields.flatMap fun (k, value) => member k value

theorem member_of_isNone {k : Str} {value : Json} (h : value.isNone = true) :
    member k value = [] := if_pos h

theorem fileToJson_eq (f : File) : fileToJson f = .dict (
    (("filename" : Str), f.filename) :: (("url" : Str), f.url) :: (("hashes" : Str), f.hashes) ::
      present (fields (recorded f))) := by
  unfold fileToJson recorded
  cases hnone : f.coreMetadata.isNone && f.distInfoMetadata.isNone with
  | true =>
    -- the mark stands behind where the values would, but these are missing
    obtain ⟨hcore, hdist⟩ := Bool.and_eq_true_iff.mp hnone
    simp only [present, fields, List.flatMap_cons, List.flatMap_nil, List.append_assoc,
      List.cons_append, List.nil_append, List.append_nil, if_true, member_of_isNone hcore,
      member_of_isNone hdist]
    rfl
  | false =>
    simp only [present, fields, List.flatMap_cons, List.flatMap_nil, List.append_assoc,
      List.cons_append, List.nil_append, List.append_nil, Bool.false_eq_true, if_false]

theorem fileToJson_recorded (f : File) : fileToJson (recorded f) = fileToJson f := by
  rw [fileToJson_eq, fileToJson_eq, recorded_recorded]
  rfl

theorem mem_member {k : Str} {value : Json} {kv : Str × Json} (h : kv ∈ member k value) :
    kv = (k, value) := by
  unfold member at h
  split at h
  · cases h
  · exact List.mem_singleton.mp h

theorem dictGet_member_of_ne {k k' : Str} (h : k ≠ k') (value : Json) :
    dictGet (member k value) k' = none := by
  apply dictGet_eq_none.mpr
  intro kv hkv
  rw [mem_member hkv]
  exact h

theorem nodup_fields (f : File) : ((fields f).map Prod.fst).Nodup := by
  show ["requires-python".toList, "yanked".toList, "core-metadata".toList,
    "dist-info-metadata".toList, "size".toList, "upload-time".toList].Nodup
  decide +kernel

theorem keys_present_sublist (fields : List (Str × Json)) :
    ((present fields).map Prod.fst).Sublist (fields.map Prod.fst) := by
  induction fields with
  | nil => exact .slnil
  | cons field fields ih =>
    show ((member field.1 field.2 ++ present fields).map Prod.fst).Sublist
      ([field.1] ++ fields.map Prod.fst)
    rw [List.map_append]
    refine List.Sublist.append ?_ ih
    unfold member
    split
    · exact List.nil_sublist _
    · exact List.Sublist.refl _

theorem dictGet_present_of_not_mem {fields : List (Str × Json)} {k : Str}
    (h : k ∉ fields.map Prod.fst) : dictGet (present fields) k = none := by
  apply dictGet_eq_none.mpr
  intro kv hkv heq
  obtain ⟨field, hfield, hmem⟩ := List.mem_flatMap.mp hkv
  rw [mem_member hmem] at heq
  exact h (List.mem_map.mpr ⟨field, hfield, heq⟩)

/-- A member that is left out is read back as `None`. -/
theorem getD_dictGet_present {fields : List (Str × Json)} (h : (fields.map Prod.fst).Nodup)
    (k : Str) : (dictGet (present fields) k).getD .null = (dictGet fields k).getD .null := by
  induction fields with
  | nil => rfl
  | cons field fields ih =>
    obtain ⟨key, value⟩ := field
    obtain ⟨hkey, hrest⟩ := List.nodup_cons.mp h
    show (dictGet (member key value ++ present fields) k).getD .null =
      (dictGet ([(key, value)] ++ fields) k).getD .null
    rw [dictGet_append, dictGet_append]
    by_cases hk : key = k
    · -- the key does not come again, so a member that is left out is not found
      subst hk
      rw [dictGet_present_of_not_mem hkey]
      cases value <;> simp [member, dictGet, Json.isNone]
    · have hone : dictGet [(key, value)] k = none := by simp [dictGet, hk]
      rw [dictGet_member_of_ne hk, hone]
      exact ih hrest

theorem parseEntry_fileToJson (f : File) : parseEntry (fileToJson f) = .ok (recorded f) := by
  rw [fileToJson_eq]
  generalize hfields : present (fields (recorded f)) = optional
  have hread : ∀ k, (dictGet optional k).getD .null =
      (dictGet (fields (recorded f)) k).getD .null := by
    subst hfields
    exact getD_dictGet_present (nodup_fields _)
  have hfile : fileOf (.dict ((("filename" : Str), f.filename) :: (("url" : Str), f.url) ::
      (("hashes" : Str), f.hashes) :: optional)) = {
        filename := f.filename
        url := f.url
        hashes := f.hashes
        requiresPython := (dictGet optional ("requires-python" : Str)).getD .null
        yanked := (dictGet optional ("yanked" : Str)).getD .null
        distInfoMetadata := (dictGet optional ("dist-info-metadata" : Str)).getD .null
        coreMetadata := (dictGet optional ("core-metadata" : Str)).getD .null
        size := (dictGet optional ("size" : Str)).getD .null
        uploadTime := (dictGet optional ("upload-time" : Str)).getD .null } := rfl
  refine congrArg Except.ok (hfile.trans ?_)
  simp only [hread]
  rfl

end Entries

section Written

theorem ValidFile.recorded (h : ValidFile F f) : ValidFile F (recorded f) := by
  refine { h with coreMetadata := ?_ }
  unfold DocumentRoundTrip.recorded
  dsimp only
  split
  · exact .bool false
  · exact h.coreMetadata

theorem ValidFile.fields (h : ValidFile F f) : ∀ kv ∈ fields f, Valid F kv.2 := by
  intro kv hkv
  simp only [DocumentRoundTrip.fields, List.mem_cons, List.not_mem_nil, or_false] at hkv
  rcases hkv with rfl | rfl | rfl | rfl | rfl | rfl
  · exact h.requiresPython
  · exact h.yanked
  · exact h.coreMetadata
  · exact h.distInfoMetadata
  · exact h.size
  · exact h.uploadTime

theorem valid_fileToJson (h : ValidFile F f) : Valid F (fileToJson f) := by
  rw [fileToJson_eq]
  refine .dict _ ?_ fun kv hkv => ?_
  · have hall : (("filename" : Str) :: ("url" : Str) :: ("hashes" : Str) ::
        (fields (recorded f)).map Prod.fst).Nodup := by
      show ["filename".toList, "url".toList, "hashes".toList, "requires-python".toList,
        "yanked".toList, "core-metadata".toList, "dist-info-metadata".toList, "size".toList,
        "upload-time".toList].Nodup
      decide +kernel
    exact hall.sublist ((((keys_present_sublist _).cons_cons _).cons_cons _).cons_cons _)
  · rcases List.mem_cons.mp hkv with rfl | hkv
    · exact h.filename
    rcases List.mem_cons.mp hkv with rfl | hkv
    · exact h.url
    rcases List.mem_cons.mp hkv with rfl | hkv
    · exact h.hashes
    obtain ⟨field, hfield, hmem⟩ := List.mem_flatMap.mp hkv
    rw [mem_member hmem]
    exact h.recorded.fields field hfield

theorem valid_modelToJson (h : ValidProject F project) : Valid F (modelToJson project) := by
  refine .dict _ ?_ fun kv hkv => ?_
  · show [("name" : Str), ("files" : Str), ("meta" : Str)].Nodup
    decide +kernel
  · simp only [List.mem_cons, List.not_mem_nil, or_false] at hkv
    rcases hkv with rfl | rfl | rfl
    · exact h.1
    · refine .list _ fun entry hentry => ?_
      obtain ⟨f, hf, rfl⟩ := List.mem_map.mp hentry
      exact valid_fileToJson (h.2 f hf)
    · refine .dict _ (List.nodup_singleton _) fun kv hkv => ?_
      rw [List.mem_singleton.mp hkv]
      exact .str _

theorem parseSimpleJson_modelToJson (project : Project) :
    parseSimpleJson (modelToJson project) = .ok (recordedProject project) := by
  have hfiles : (project.files.map fileToJson).mapM parseEntry =
      .ok (project.files.map recorded) := by
    rw [mapM_eq_ok_iff, List.forall₂_map_left_iff, List.forall₂_map_right_iff, List.forall₂_same]
    exact fun f _ => parseEntry_fileToJson f
  show ((project.files.map fileToJson).mapM parseEntry >>= fun files =>
    Except.ok (Project.mk project.name files)) = _
  rw [hfiles]
  rfl

theorem modelToJson_recordedProject (project : Project) :
    modelToJson (recordedProject project) = modelToJson project := by
  unfold modelToJson recordedProject
  rw [List.map_map, show fileToJson ∘ recorded = fileToJson from funext fileToJson_recorded]

end Written

section Parsed

theorem valid_getD {members : List (Str × Json)} {k : Str} {v : Json}
    (h : Valid F (.dict members)) (hv : Valid F v) : Valid F ((dictGet members k).getD v) := by
  cases hget : dictGet members k with
  | none => exact hv
  | some value => exact valid_dictGet h hget

theorem validFile_parseEntry {entry : Json} (hvalid : Valid F entry)
    (h : parseEntry entry = .ok f) : ValidFile F f := by
  cases entry with
  | dict members =>
    obtain rfl : fileOf (.dict members) = f := Except.ok.inj h
    exact ⟨valid_getD hvalid (.str _), valid_getD hvalid (.str _),
      valid_getD hvalid (.dict [] List.nodup_nil fun kv hkv => by cases hkv),
      valid_getD hvalid .null, valid_getD hvalid .null, valid_getD hvalid .null,
      valid_getD hvalid .null, valid_getD hvalid .null, valid_getD hvalid .null⟩
  | _ => cases h

/-- The elements of a list, or of what else a loop goes through. -/
theorem valid_elements {v : Json} {entries : List Json} (hvalid : Valid F v)
    (h : v.elements = .ok entries) : ∀ entry ∈ entries, Valid F entry := by
  intro entry hentry
  cases v with
  | list items =>
    obtain rfl := Except.ok.inj h
    cases hvalid with
    | list _ hitems => exact hitems entry hentry
  | str x =>
    obtain rfl := Except.ok.inj h
    obtain ⟨c, -, rfl⟩ := List.mem_map.mp hentry
    exact .str _
  | dict members =>
    obtain rfl := Except.ok.inj h
    obtain ⟨kv, -, rfl⟩ := List.mem_map.mp hentry
    exact .str _
  | _ => cases h

theorem validProject_parseSimpleJson {data : Json} (hvalid : Valid F data)
    (h : parseSimpleJson data = .ok project) : ValidProject F project := by
  unfold parseSimpleJson at h
  obtain ⟨name, hname, h⟩ := ok_of_bind h
  obtain ⟨files, hfiles, h⟩ := ok_of_bind h
  obtain ⟨entries, helements, h⟩ := ok_of_bind h
  obtain ⟨parsed, hparsed, h⟩ := ok_of_bind h
  obtain rfl := Except.ok.inj h
  cases data with
  | dict members =>
    obtain rfl := Except.ok.inj hname
    obtain rfl := Except.ok.inj hfiles
    refine ⟨valid_getD hvalid (.str _), fun f hf => ?_⟩
    obtain ⟨entry, hentry, hparse⟩ := exists_of_forall₂ (mapM_eq_ok_iff.mp hparsed) hf
    have hlist : Valid F (.list []) := .list _ fun v hv => by cases hv
    have hentries := valid_elements (valid_getD hvalid hlist) helements
    exact validFile_parseEntry (hentries entry hentry) hparse
  | _ => cases hname

theorem valid_parseHashes (url : Str) : Valid F (.dict (parseHashes url)) := by
  have hnil : Valid F (.dict []) := .dict [] List.nodup_nil fun kv hkv => by cases hkv
  have hadd : ∀ (out : List (Str × Json)) (part : Str), Valid F (.dict out) →
      Valid F (.dict (addHash out part)) := by
    intro out part hout
    unfold addHash
    split
    · split
      · exact valid_dictSet hout (.str _)
      · exact hout
    · exact hout
  have hall : ∀ (parts : List Str) (out : List (Str × Json)), Valid F (.dict out) →
      Valid F (.dict (parts.foldl addHash out)) := by
    intro parts
    induction parts with
    | nil => exact fun _ hout => hout
    | cons part parts ih => exact fun out hout => ih _ (hadd out part hout)
  unfold parseHashes
  split
  · exact hnil
  · exact hall _ _ hnil

theorem validFile_parseAnchor {U : Unicode} {a : Anchor} (h : parseAnchor U a = some f) :
    ValidFile F f := by
  have hoptional : ∀ value, Valid F (optionalStr value) := by
    intro value
    cases value with
    | none => exact .null
    | some v => exact .str v
  have hmeta : ∀ value : Option Str, Valid F ((value.map (normMeta U)).getD .null) := by
    intro value
    cases value with
    | none => exact .null
    | some v =>
      show Valid F (normMeta U v)
      unfold normMeta
      split
      · exact .bool true
      split
      · exact .bool false
      split
      · split
        · refine .dict _ (List.nodup_singleton _) fun kv hkv => ?_
          rw [List.mem_singleton.mp hkv]
          exact .str _
        · exact .str v
      · exact .str v
  have hyanked : ∀ value, Valid F (yankedValue U value) := by
    intro value
    cases value with
    | none => exact .null
    | some v =>
      unfold yankedValue
      dsimp only
      split
      · exact .bool true
      · exact .str v
  unfold parseAnchor at h
  split at h
  · cases h
  split at h
  · cases h
  obtain rfl := Option.some.inj h
  exact ⟨.str _, .str _, valid_parseHashes _, hoptional _, hyanked _, hmeta _, hmeta _, .null,
    .null⟩

theorem validProject_parseSimpleHtml {U : Unicode} {D : Documents} {name html : Str}
    (h : parseSimpleHtml U D name html = .ok project) : ValidProject F project := by
  obtain ⟨anchors, -, h⟩ := ok_of_bind h
  obtain rfl := Except.ok.inj h
  refine ⟨.str name, fun f hf => ?_⟩
  obtain ⟨a, -, ha⟩ := List.mem_filterMap.mp hf
  exact validFile_parseAnchor ha

theorem rewriteUrlValue_cases {v v' : Json} (h : rewriteUrlValue s.U s.settings v = .ok v') :
    (v' = v ∧ v.truthy = false) ∨
      ∃ url url', rewriteFileUrl s.U s.settings url = .ok url' ∧ v' = .str url' := by
  unfold rewriteUrlValue at h
  split at h
  · obtain ⟨url, -, h⟩ := ok_of_bind h
    obtain ⟨url', hrewritten, h⟩ := ok_of_bind h
    exact .inr ⟨url, url', hrewritten, (Except.ok.inj h).symm⟩
  · next hfalsy => exact .inl ⟨(Except.ok.inj h).symm, by simpa using hfalsy⟩

theorem parseProjectBody_eq {s : Site} {text : Str} {isJson : Bool} :
    parseProjectBody s canonical text isJson =
      (if isJson then s.D.loads text >>= parseSimpleJson
        else parseSimpleHtml s.U s.D canonical text) >>= fun project =>
          .ok (if project.name.truthy then project
            else { project with name := .str canonical }) := by
  have hnamed : ∀ project : Project, (if project.name.truthy then pure project
      else pure { project with name := .str canonical } : Except Raised Project) =
        .ok (if project.name.truthy then project
          else { project with name := .str canonical }) := by
    intro project
    cases project.name.truthy <;> rfl
  unfold parseProjectBody
  cases isJson with
  | true => simp only [if_true, hnamed, bind_assoc]
  | false => simp only [Bool.false_eq_true, if_false, hnamed]

/-- A project without a name is given the one of its route. -/
theorem ValidProject.named (h : ValidProject F project) (canonical : Str) :
    ValidProject F (if project.name.truthy then project
      else { project with name := .str canonical }) := by
  split
  · exact h
  · exact ⟨.str canonical, h.2⟩

/-- What is parsed of a page in either format. -/
theorem validProject_parseProjectBody {text : Str} {isJson : Bool}
    (h : parseProjectBody (jsonSite F s) canonical text isJson = .ok project) :
    ValidProject F project ∧ (project.name.truthy = true ∨ project.name = .str canonical) := by
  rw [parseProjectBody_eq] at h
  obtain ⟨parsed, hparsed, h⟩ := ok_of_bind h
  obtain rfl := Except.ok.inj h
  have hvalid : ValidProject F parsed := by
    cases isJson with
    | true =>
      obtain ⟨data, hloads, hparsed⟩ := ok_of_bind hparsed
      exact validProject_parseSimpleJson (valid_of_loads hloads) hparsed
    | false => exact validProject_parseSimpleHtml hparsed
  refine ⟨hvalid.named canonical, ?_⟩
  split
  · next hname => exact .inl hname
  · exact .inr rfl

end Parsed

/-! ## Round trips -/

/-- The document of a project is read back. -/
theorem parseProjectBody_modelToJson (hvalid : ValidProject F project)
    (hname : project.name.truthy = true ∨ project.name = .str canonical) :
    parseProjectBody (jsonSite F s) canonical (dumps (modelToJson project)) true =
      .ok (recordedProject project) := by
  have hloads : (jsonSite F s).D.loads (dumps (modelToJson project)) = .ok (modelToJson project) :=
    loads_dumps (valid_modelToJson hvalid)
  have hparse : (jsonSite F s).D.loads (dumps (modelToJson project)) >>= parseSimpleJson =
      .ok (recordedProject project) := by
    rw [hloads]
    exact parseSimpleJson_modelToJson project
  rw [parseProjectBody_eq, if_pos rfl, hparse]
  show Except.ok (if project.name.truthy then _ else _) = _
  rcases hname with hname | hname
  · rw [if_pos hname]
  · -- the name that it is given is the one that it has
    rw [← hname]
    exact congrArg Except.ok (ite_self _)

/-- **Round trip.** What either parser makes of a page is read back from the document that is
written of it, with the files that say nothing of their metadata marked; and the document is
written again. -/
theorem document_round_trip {text : Str} {isJson : Bool}
    (h : parseProjectBody (jsonSite F s) canonical text isJson = .ok project) :
    parseProjectBody (jsonSite F s) canonical (dumps (modelToJson project)) true =
        .ok (recordedProject project) ∧
      dumps (modelToJson (recordedProject project)) = dumps (modelToJson project) := by
  obtain ⟨hvalid, hname⟩ := validProject_parseProjectBody h
  exact ⟨parseProjectBody_modelToJson hvalid hname, by rw [modelToJson_recordedProject]⟩

/-- An HTML page with one link, and what is parsed of it. -/
def htmlPage : Str :=
  ("<a href=\"https://files.pythonhosted.org/one.whl#md5=ab\">one.whl</a>" : Str)

def wheelProject : Project where
  name := .str ("one" : Str)
  files := [{
    filename := .str ("one.whl" : Str)
    url := .str ("https://files.pythonhosted.org/one.whl" : Str)
    hashes := .dict [(("md5" : Str), .str ("ab" : Str))] }]

/-- The proxy, with this page. -/
def htmlSite : Site := { directSite with D := { directSite.D with
  anchors := fun text =>
    .ok (if text = htmlPage then
      [⟨[(("href" : Str), ("https://files.pythonhosted.org/one.whl#md5=ab" : Str))],
        ("one.whl" : Str)⟩]
      else []) } }

theorem document_round_trip_wheel :
    parseProjectBody (jsonSite noFloat htmlSite) ("one" : Str) htmlPage false =
        .ok wheelProject ∧
      parseProjectBody (jsonSite noFloat htmlSite) ("one" : Str)
        (dumps (modelToJson wheelProject)) true = .ok (recordedProject wheelProject) := by
  have hparse : parseProjectBody (jsonSite noFloat htmlSite) ("one" : Str) htmlPage false =
      .ok wheelProject := by
    have hanchors : (jsonSite noFloat htmlSite).D.anchors htmlPage = .ok
        [⟨[(("href" : Str), ("https://files.pythonhosted.org/one.whl#md5=ab" : Str))],
          ("one.whl" : Str)⟩] := congrArg Except.ok (if_pos rfl)
    rw [parseProjectBody_eq, if_neg Bool.false_ne_true, parseSimpleHtml, hanchors]
    rfl
  exact ⟨hparse, (document_round_trip hparse).1⟩

/-! ## Pages that are converted -/

section Converted

variable {page body htmlBody : Str}

/-- A link that is to be rewritten is rewritten, the others are kept, and so is the rest of the
project. -/
theorem file_of_rewriteProjectUrls
    (h : rewriteProjectUrls s.U s.settings project = .ok project') :
    project'.name = project.name ∧ ∀ f' ∈ project'.files, ∃ f ∈ project.files, ∃ url,
      f' = { f with url } ∧
        (url = f.url ∧ (s.settings.rewriteArtifactUrls || fileAdvertisesMetadata f) = false ∨
          rewriteUrlValue s.U s.settings f.url = .ok url) := by
  unfold rewriteProjectUrls at h
  obtain ⟨files, hfiles, h⟩ := ok_of_bind h
  obtain rfl := Except.ok.inj h
  refine ⟨rfl, fun f' hf' => ?_⟩
  obtain ⟨f, hf, hrewritten⟩ := exists_of_forall₂ (mapM_eq_ok_iff.mp hfiles) hf'
  dsimp only at hrewritten
  split at hrewritten
  · obtain ⟨url, hurl, hrewritten⟩ := ok_of_bind hrewritten
    exact ⟨f, hf, url, (Except.ok.inj hrewritten).symm, .inr hurl⟩
  · next hfree =>
    exact ⟨f, hf, f.url, (Except.ok.inj hrewritten).symm, .inl ⟨rfl, by simpa using hfree⟩⟩

theorem validProject_rewriteProjectUrls (hvalid : ValidProject F project)
    (h : rewriteProjectUrls s.U s.settings project = .ok project') : ValidProject F project' := by
  obtain ⟨hname, hfiles⟩ := file_of_rewriteProjectUrls h
  refine ⟨by rw [hname]; exact hvalid.1, fun f' hf' => ?_⟩
  obtain ⟨f, hf, url, rfl, hurl⟩ := hfiles f' hf'
  have hfields := hvalid.2 f hf
  refine { hfields with url := ?_ }
  rcases hurl with ⟨rfl, -⟩ | hurl
  · exact hfields.url
  rcases rewriteUrlValue_cases hurl with ⟨rfl, -⟩ | ⟨_, url', -, rfl⟩
  · exact hfields.url
  · exact .str url'

/-- What is read in the document is the project of the page, with its links rewritten. -/
def ReadsAs (s : Site) (F : FloatRepr) (canonical page body : Str) : Prop :=
  ∃ project project', parseProjectBody (jsonSite F s) canonical page false = .ok project ∧
    rewriteProjectUrls s.U s.settings project = .ok project' ∧
    parseProjectBody (jsonSite F s) canonical body true = .ok (recordedProject project')

theorem readsAs_dumps (h : parseProjectBody (jsonSite F s) canonical page false = .ok project)
    (hrewritten : rewriteProjectUrls s.U s.settings project = .ok project') :
    ReadsAs s F canonical page (dumps (modelToJson project')) := by
  obtain ⟨hvalid, hname⟩ := validProject_parseProjectBody h
  obtain ⟨hsame, -⟩ := file_of_rewriteProjectUrls hrewritten
  exact ⟨project, project', h, hrewritten, parseProjectBody_modelToJson
    (validProject_rewriteProjectUrls hvalid hrewritten) (by rwa [hsame])⟩

theorem parseProjectBody_html {project : Project}
    (h : parseSimpleHtml s.U s.D canonical page = .ok project) :
    parseProjectBody s canonical page false =
      .ok (if project.name.truthy then project else { project with name := .str canonical }) := by
  rw [parseProjectBody_eq, if_neg Bool.false_ne_true, h]
  rfl

theorem readsAs_convertBody (h : convertBody (jsonSite F s) canonical true page = .ok body) :
    ReadsAs s F canonical page body := by
  unfold convertBody at h
  rw [if_pos rfl] at h
  obtain ⟨project, hproject, h⟩ := ok_of_bind h
  obtain ⟨project', hrewritten, h⟩ := ok_of_bind h
  obtain rfl := Except.ok.inj h
  refine readsAs_dumps ?_ hrewritten
  rw [parseProjectBody_html hproject]
  -- the parser has already named it
  obtain ⟨anchors, -, hproject⟩ := ok_of_bind hproject
  obtain rfl := Except.ok.inj hproject
  exact congrArg Except.ok (ite_self _)

theorem readsAs_synthesizeBodies {content : Bytes}
    (h : synthesizeBodies (jsonSite F s) canonical false content page = .ok (body, htmlBody)) :
    ReadsAs s F canonical page body := by
  unfold synthesizeBodies at h
  rw [if_neg Bool.false_ne_true] at h
  obtain ⟨project, hproject, h⟩ := ok_of_bind h
  obtain ⟨htmlBody', -, h⟩ := ok_of_bind h
  obtain ⟨project', hrewritten, h⟩ := ok_of_bind h
  obtain ⟨rfl, -⟩ := Prod.mk.inj (Except.ok.inj h)
  exact readsAs_dumps (parseProjectBody_html hproject) hrewritten

end Converted

/-! ## JSON replies -/

section Replies

variable {r : ProjectRequest} {log : List Sight} {reply : Reply} {value : Str}

/-- The answer of the upstream that the request went by. -/
def Given (log : List Sight) (response : UpstreamResponse) : Prop :=
  (∃ given request, exchanges log = given ++ [(request, some response)]) ∧ response.status = 200

/-- Where the body of a JSON reply comes from: it was kept, or rewritten, or it is read as an HTML
page that the request had. -/
inductive JsonSource (s : Site) (F : FloatRepr) (r : ProjectRequest) (log : List Sight) :
    Str → Prop
  | kept {body : Str} : Found log (projectKey r.canonical (.body true)) body →
      JsonSource s F r log body
  | stale {body : Str} : Found log (projectKey r.canonical (.stale true)) body →
      JsonSource s F r log body
  | rewritten {response : UpstreamResponse} {body : Str} : Given log response →
      isUpstreamJson response = true →
      rewriteJsonBody s.U (withJson F s.D) s.settings response.text = .ok body →
      JsonSource s F r log body
  | keptPage {page body : Str} : Found log (projectKey r.canonical (.body false)) page →
      ReadsAs s F r.canonical page body → JsonSource s F r log body
  | stalePage {page body : Str} : Found log (projectKey r.canonical (.stale false)) page →
      ReadsAs s F r.canonical page body → JsonSource s F r log body
  | givenPage {response : UpstreamResponse} {body : Str} : Given log response →
      isUpstreamJson response = false → ReadsAs s F r.canonical response.text body →
      JsonSource s F r log body

theorem isJson_of_mediaTypeOf {isJson : Bool} (h : mediaTypeOf isJson = contentTypeJson) :
    isJson = true := by
  cases isJson with
  | true => rfl
  | false => exact absurd h (by decide)

/-- A page that was read under the key of the other format, and converted. -/
theorem converted_of_otherKey {other body : Str} (hfound : Found log r.otherKey other)
    (hconvert : convertBody (jsonSite F s) r.canonical r.wantsJson other = .ok body)
    (hwants : r.wantsJson = true) :
    Found log (projectKey r.canonical (.body false)) other ∧
      ReadsAs s F r.canonical other body := by
  rw [hwants] at hconvert
  rw [ProjectRequest.otherKey, hwants] at hfound
  exact ⟨hfound, readsAs_convertBody hconvert⟩

theorem jsonSource_of_provenance (h : Provenance (jsonSite F s) r log reply value)
    (hmedia : reply.mediaType = contentTypeJson) : JsonSource s F r log reply.body := by
  cases h with
  | @hit isJson _ _ hfound hformat =>
    obtain rfl := isJson_of_mediaTypeOf (hformat.symm.trans hmedia)
    exact .kept hfound
  | synthesized _ hfound hconvert _ hformat =>
    obtain ⟨hkept, hreads⟩ := converted_of_otherKey hfound hconvert
      (isJson_of_mediaTypeOf (hformat.symm.trans hmedia))
    exact .keptPage hkept hreads
  | @revalidated isJson _ _ _ _ _ hsurvives hformat =>
    obtain rfl := isJson_of_mediaTypeOf (hformat.symm.trans hmedia)
    rcases hsurvives with hfound | ⟨hwants, other, hfound, hconvert⟩
    · exact .stale hfound
    · rw [← hwants] at hconvert
      rw [ProjectRequest.otherStaleKey, ← hwants] at hfound
      exact .stalePage hfound (readsAs_convertBody hconvert)
  | @filled given request response hexchanges _ hstatus hmade =>
    have hgiven : Given log response := ⟨⟨given, request, hexchanges⟩, hstatus⟩
    cases hmade with
    | passthrough hrewritten hformat =>
      have hjson := isJson_of_mediaTypeOf (hformat.symm.trans hmedia)
      rw [hjson] at hrewritten
      exact .rewritten hgiven hjson hrewritten
    | synthesis hsynthesized hbody hformat =>
      have hjson := isJson_of_mediaTypeOf (hformat.symm.trans hmedia)
      rw [Bool.not_eq_true'] at hjson
      rw [hjson] at hsynthesized hbody
      rw [hbody]
      exact .givenPage hgiven hjson (readsAs_synthesizeBodies hsynthesized)

/-- **JSON replies are faithful.** In every run of the service, in any number of processes and over
either backend, the body of a JSON reply is one that was kept or given as JSON, or it is read as
the project of an HTML page that the request read or was given. If the reply says that it was
synthesized from the cache, this is the page that was kept. -/
theorem json_replies_faithful {B : Backend} {upstream : Upstream} {pid t : ℕ} {name : Str}
    {accept : Option Str} {c₀ c : Config Op Ret World (ℕ × ServiceTask) TaskResult}
    {evs : List (Event Op Ret (ℕ × ServiceTask))}
    (hinit : (deployment (jsonSite F s) B upstream).Init c₀)
    (hrun : (deployment (jsonSite F s) B upstream).Run c₀ evs c)
    (htask : c.task t = some ((pid, .project name accept), .ret (.ok (some reply))))
    (hmedia : reply.mediaType = contentTypeJson) :
    JsonSource s F (projectRequest (jsonSite F s) name accept) (picked sight (history t evs))
        reply.body ∧
      (dictGet reply.headers ("X-Cache" : Str) = some ("HIT-synthesized" : Str) → ∃ page,
        Found (picked sight (history t evs))
            (projectKey (s.packaging.canonicalizeName name) (.body false)) page ∧
          ReadsAs s F (s.packaging.canonicalizeName name) page reply.body) := by
  obtain ⟨outcome, hresult, htruthful⟩ := replies_truthful hinit hrun htask
  cases outcome with
  | error failure => cases hresult
  | ok reply' =>
    obtain rfl := Option.some.inj (Except.ok.inj hresult)
    obtain ⟨value, hvalue, hprovenance⟩ := htruthful.reply reply rfl
    refine ⟨jsonSource_of_provenance hprovenance hmedia, fun hsays => ?_⟩
    obtain rfl := Option.some.inj (hvalue.symm.trans hsays)
    -- the other kinds of evidence say something else
    generalize hword : ("HIT-synthesized" : Str) = word at hprovenance
    cases hprovenance with
    | synthesized _ hfound hconvert _ hformat =>
      exact ⟨_, converted_of_otherKey hfound hconvert
        (isJson_of_mediaTypeOf (hformat.symm.trans hmedia))⟩
    | _ => cases hword

/-- An index whose page of the project has one link. -/
def servePage (_ : ℕ) (_ : UpstreamRequest) : Option UpstreamResponse :=
  some { status := 200, contentType := some ("text/html" : Str), text := htmlPage }

abbrev htmlService : System Op Ret World (ℕ × ServiceTask) TaskResult :=
  deployment (jsonSite noFloat htmlSite) .memory fun version request response =>
    response = servePage version request

def htmlDriver : Driver htmlService Choice :=
  serviceDriver _ rfl rfl servePage fun _ _ => rfl

def htmlRequest : ℕ × ServiceTask := (0, .project ("one" : Str) (some contentTypeHtml))

def documentRequest : ℕ × ServiceTask := (0, .project ("one" : Str) (some contentTypeJson))

/-- A request for the page, and one for the document. -/
def pageThenDocument : Option (List (Event Op Ret (ℕ × ServiceTask)) ×
    List (Event Op Ret (ℕ × ServiceTask)) × TaskResult × World) := do
  let (evs, _, w) ← htmlDriver.finish {} 0 (htmlService.prog htmlRequest) emptyWorld
  let (evs', result, w) ← htmlDriver.finish {} 1 (htmlService.prog documentRequest) w
  return (evs, evs', result, w)

/-- The second reply is a document, and says that it was synthesized. -/
def saysSynthesized : TaskResult → Bool
  | .ok (some reply) => reply.mediaType = contentTypeJson ∧
    dictGet reply.headers ("X-Cache" : Str) = some ("HIT-synthesized" : Str)
  | _ => false

theorem pageThenDocument_spec :
    pageThenDocument.any (fun (_, _, result, _) => saysSynthesized result) = true := by
  decide +kernel

theorem json_replies_faithful_wheel : ∃ (c₀ c : Config Op Ret World (ℕ × ServiceTask) TaskResult)
    (evs : List (Event Op Ret (ℕ × ServiceTask))) (reply : Reply) (page : Str),
    htmlService.Init c₀ ∧ htmlService.Run c₀ evs c ∧
      c.task 1 = some (documentRequest, .ret (.ok (some reply))) ∧
      Found (picked sight (history 1 evs)) (projectKey ("one" : Str) (.body false)) page ∧
      ReadsAs htmlSite noFloat ("one" : Str) page reply.body := by
  obtain ⟨⟨evs, evs', result, w⟩, htwice, hsays⟩ :=
    (Option.any_eq_true _ _).mp pageThenDocument_spec
  simp only [pageThenDocument, Option.bind_eq_bind, Option.bind_eq_some_iff, Option.pure_def,
    Option.some.injEq, Prod.mk.injEq, Prod.exists] at htwice
  obtain ⟨_, first, w₁, hfirst, _, last, _, hsecond, rfl, rfl, rfl, rfl⟩ := htwice
  have hquiet : htmlService.Quiet (Driver.boot emptyWorld) := by
    intro u e o k htask
    cases htask
  have hinit : htmlService.Init (Driver.boot emptyWorld) := ⟨fresh_emptyWorld, fun _ => rfl⟩
  obtain ⟨hrun₁, hquiet₁⟩ := Driver.complete (.nil _) hquiet rfl hfirst
  obtain ⟨hrun₂, -⟩ := Driver.complete hrun₁ hquiet₁ (Config.set_task_of_ne one_ne_zero) hsecond
  rcases last with failure | _ | reply
  · cases hsays
  · cases hsays
  · obtain ⟨hmedia, hword⟩ := of_decide_eq_true hsays
    obtain ⟨page, hfound, hreads⟩ :=
      (json_replies_faithful hinit hrun₂ Config.set_task_self hmedia).2 hword
    have hname : htmlSite.packaging.canonicalizeName ("one" : Str) = ("one" : Str) := by
      decide +kernel
    rw [hname] at hfound hreads
    exact ⟨_, _, _, reply, page, hinit, hrun₂, Config.set_task_self, hfound, hreads⟩

end Replies

end ProxyCache.Theorems.DocumentRoundTrip
