import ProxyCache.Theorems.DocumentRoundTrip
import ProxyCache.Theorems.PageFlow

/-!
# The links of the JSON pages

A JSON page is rewritten once and for all: `rewrite_json_body` changes nothing in what it has
returned, in what is converted from a project whose links were rewritten, nor in what metadata was
advertised in. With `rewrite_artifact_urls` such a page is a document, and all its links have been
rewritten. So it is with every JSON page that the service stores or serves, whatever its processes
and background jobs do to each other.
-/

namespace ProxyCache.Theorems.PageLinks

open ProxyCache.Lib ProxyCache.Python ProxyCache.Python.JsonText ProxyCache.App
open ProxyCache.Theorems.JsonPassthrough ProxyCache.Theorems.AdvertisedDocument
open ProxyCache.Theorems.DocumentRoundTrip
open ProxyCache.Theorems.LinkRoundTrip (directSite)
open ProxyCache.Theorems.PageFlow

variable (s : Site) (F : FloatRepr)

/-! ## What is shown -/

/-- The link of the entry, if it is one to be rewritten, is not changed any more. -/
def EntryRewritten (entry : Json) : Prop :=
  ∀ members url, entry = .dict members →
    (s.settings.rewriteArtifactUrls || jsonEntryAdvertisesMetadata members) = true →
    dictGet members ("url" : Str) = some (.str url) → rewriteFileUrl s.U s.settings url = .ok url

def LinksRewritten (members : List (Str × Json)) : Prop :=
  ∀ entries, dictGet members ("files" : Str) = some (.list entries) →
    ∀ entry ∈ entries, EntryRewritten s entry

/-- The text of a document whose links have all been rewritten. -/
def Settled (body : Str) : Prop :=
  ∃ members, body = dumps (.dict members) ∧ Valid F (.dict members) ∧ LinksRewritten s members

/-- Such a text, or one that is not decoded for its links. -/
def JsonPage (body : Str) : Prop := Settled s F body ∨ ¬ Decoded s.settings body

variable {s F}

/-! ## Links -/

section Links

variable {url url' : Str}

theorem artifacts_isPrefixOf_artifactLink (host : Str) (parsed : ParseResult) :
    ("/artifacts/" : Str).isPrefixOf (artifactLink host parsed) = true := by
  apply List.isPrefixOf_iff_prefix.mpr
  unfold artifactLink
  simp only [List.append_assoc]
  exact List.prefix_append _ _

/-- A link is left as it is, or it becomes one of the proxy. -/
theorem rewriteFileUrl_cases (h : rewriteFileUrl s.U s.settings url = .ok url') :
    url' = url ∨ ("/artifacts/" : Str).isPrefixOf url' = true := by
  unfold rewriteFileUrl at h
  split at h
  · exact .inl (Except.ok.inj h).symm
  split at h
  · exact .inl (Except.ok.inj h).symm
  obtain ⟨resolved, -, h⟩ := ok_of_bind h
  obtain ⟨parsed, -, h⟩ := ok_of_bind h
  split at h
  · exact .inl (Except.ok.inj h).symm
  obtain ⟨host, -, h⟩ := ok_of_bind h
  obtain ⟨allowed, -, h⟩ := ok_of_bind h
  split at h
  · exact .inl (Except.ok.inj h).symm
  · right
    rw [← Except.ok.inj h]
    exact artifacts_isPrefixOf_artifactLink _ _

/-- Rewriting a link again changes nothing. -/
theorem rewriteFileUrl_again (h : rewriteFileUrl s.U s.settings url = .ok url') :
    rewriteFileUrl s.U s.settings url' = .ok url' := by
  rcases rewriteFileUrl_cases h with rfl | hproxied
  · exact h
  · unfold rewriteFileUrl
    rw [hproxied]
    split <;> rfl

end Links

/-! ## Documents that are rewritten -/

section Documents

variable {members : List (Str × Json)} {entry entry' : Json} {body out : Str}

theorem entryRewritten_rewriteEntry (h : rewriteEntry s.U s.settings entry = .ok entry') :
    EntryRewritten s entry' := by
  unfold rewriteEntry at h
  split at h
  · next members =>
    split at h
    · next url hurl =>
      split at h
      · obtain ⟨url', hrewritten, h⟩ := ok_of_bind h
        obtain rfl := Except.ok.inj h
        rintro _ url'' ⟨⟩ - hget
        rw [dictGet_dictSet_self] at hget
        obtain ⟨⟩ := hget
        exact rewriteFileUrl_again hrewritten
      · next hfree =>
        obtain rfl := Except.ok.inj h
        rintro _ url'' ⟨⟩ hbound
        exact absurd hbound hfree
    · next hother =>
      obtain rfl := Except.ok.inj h
      rintro _ url ⟨⟩ - hget
      exact absurd hget (hother url)
  · next hother =>
    obtain rfl := Except.ok.inj h
    rintro members url rfl
    exact absurd rfl (hother members)

theorem valid_rewriteEntry (hvalid : Valid F entry)
    (h : rewriteEntry s.U s.settings entry = .ok entry') : Valid F entry' := by
  unfold rewriteEntry at h
  split at h
  · split at h
    · split at h
      · obtain ⟨url', -, h⟩ := ok_of_bind h
        obtain rfl := Except.ok.inj h
        exact valid_dictSet hvalid (.str url')
      · obtain rfl := Except.ok.inj h
        exact hvalid
    · obtain rfl := Except.ok.inj h
      exact hvalid
  · obtain rfl := Except.ok.inj h
    exact hvalid

/-- A document without a list of files is written as it is. -/
theorem rewriteJsonBody_other (hdecoded : Decoded s.settings body)
    (hloads : loads F body = .ok (.dict members))
    (hfiles : ∀ entries, dictGet members ("files" : Str) ≠ some (.list entries)) :
    rewriteJsonBody s.U (withJson F s.D) s.settings body = .ok (dumps (.dict members)) := by
  have hcond : (!s.settings.rewriteArtifactUrls && !contains ("\"core-metadata\"" : Str) body &&
      !contains ("\"dist-info-metadata\"" : Str) body) = false := by
    rcases hdecoded with h | h | h <;> rw [h] <;> simp
  unfold rewriteJsonBody
  rw [if_neg (Bool.eq_false_iff.mp hcond)]
  show (loads F body).bind _ = _
  rw [hloads]
  simp only [Except.bind, Json.get, bind]
  cases hget : dictGet members ("files" : Str) with
  | none => rfl
  | some files =>
    cases files with
    | list entries => exact absurd hget (hfiles entries)
    | _ => rfl

/-- **What `rewrite_json_body` returns.** -/
theorem jsonPage_rewriteJsonBody
    (h : rewriteJsonBody s.U (withJson F s.D) s.settings body = .ok out) : JsonPage s F out := by
  by_cases hdecoded : Decoded s.settings body
  · left
    have hcond : (!s.settings.rewriteArtifactUrls && !contains ("\"core-metadata\"" : Str) body &&
        !contains ("\"dist-info-metadata\"" : Str) body) = false := by
      rcases hdecoded with h | h | h <;> rw [h] <;> simp
    unfold rewriteJsonBody at h
    rw [if_neg (Bool.eq_false_iff.mp hcond)] at h
    obtain ⟨data, hloads, h⟩ := ok_of_bind h
    have hvalid : Valid F data := valid_of_loads hloads
    obtain ⟨files, hfiles, h⟩ := ok_of_bind h
    cases data with
    | dict members =>
      obtain rfl : (dictGet members ("files" : Str)).getD .null = files := Except.ok.inj hfiles
      cases hget : dictGet members ("files" : Str) with
      | none =>
        rw [hget] at h
        obtain rfl := Except.ok.inj h
        refine ⟨members, rfl, hvalid, fun entries hentries => ?_⟩
        rw [hget] at hentries
        cases hentries
      | some files =>
        rw [hget] at h
        cases files with
        | list entries =>
          obtain ⟨entries', hentries, h⟩ := ok_of_bind h
          obtain rfl := Except.ok.inj h
          have hall := mapM_eq_ok_iff.mp hentries
          refine ⟨_, rfl, valid_dictSet hvalid (.list _ fun entry' hentry' => ?_), ?_⟩
          · obtain ⟨entry, hentry, hrewritten⟩ := exists_of_forall₂ hall hentry'
            exact valid_rewriteEntry (valid_files hloads hget entry hentry) hrewritten
          · intro entries'' hget' entry' hentry'
            rw [dictGet_dictSet_self] at hget'
            obtain ⟨⟩ := hget'
            obtain ⟨entry, -, hrewritten⟩ := exists_of_forall₂ hall hentry'
            exact entryRewritten_rewriteEntry hrewritten
        | _ =>
          obtain rfl := Except.ok.inj h
          refine ⟨members, rfl, hvalid, fun entries hentries => ?_⟩
          rw [hget] at hentries
          cases hentries
    | _ => cases hfiles
  · right
    rw [rewriteJsonBody_shortcut hdecoded] at h
    rwa [← Except.ok.inj h]

/-- Such a text is a document again. -/
theorem Settled.loads (h : Settled s F body) : ∃ members, loads F body = .ok (.dict members) ∧
    LinksRewritten s members := by
  obtain ⟨members, rfl, hvalid, hlinks⟩ := h
  exact ⟨members, loads_dumps hvalid, hlinks⟩

/-- An entry that is rewritten is left as it is. -/
theorem rewriteEntry_of_rewritten (hvalid : Valid F entry) (h : EntryRewritten s entry) :
    rewriteEntry s.U s.settings entry = .ok entry := by
  unfold rewriteEntry
  split
  · next members =>
    split
    · next url hurl =>
      split
      · next hbound =>
        rw [h members url rfl hbound hurl]
        cases hvalid with
        | dict _ hkeys _ =>
          show Except.ok (Json.dict (dictSet members _ _)) = _
          rw [dictSet_self hkeys hurl]
      · rfl
    · rfl
  · rfl

/-- **Rewriting such a text again changes nothing.** -/
theorem JsonPage.rewriteJsonBody (h : JsonPage s F body) :
    rewriteJsonBody s.U (withJson F s.D) s.settings body = .ok body := by
  by_cases hdecoded : Decoded s.settings body
  · obtain ⟨members, rfl, hvalid, hlinks⟩ := h.resolve_right (not_not_intro hdecoded)
    have hloads : JsonText.loads F (dumps (.dict members)) = .ok (.dict members) :=
      loads_dumps hvalid
    by_cases hlist : ∃ entries, dictGet members ("files" : Str) = some (.list entries)
    · obtain ⟨entries, hget⟩ := hlist
      have hentries : entries.mapM (rewriteEntry s.U s.settings) = .ok entries := by
        apply mapM_eq_ok_iff.mpr
        rw [List.forall₂_same]
        intro entry hentry
        exact rewriteEntry_of_rewritten (valid_files hloads hget entry hentry)
          (hlinks entries hget entry hentry)
      have heq := @rewriteJsonBody_eq s.U s.settings _ members entries (withJson F s.D) hdecoded
        hloads hget
      rw [heq, hentries]
      cases hvalid with
      | dict _ hkeys _ =>
        show Except.ok (dumps (Json.dict (dictSet members _ _))) = _
        rw [dictSet_self hkeys hget]
    · exact rewriteJsonBody_other hdecoded hloads fun entries hget => hlist ⟨entries, hget⟩
  · exact rewriteJsonBody_shortcut hdecoded

end Documents

/-! ## Documents of projects -/

section Projects

variable {f : File} {project project' : Project}

theorem dictGet_url_fileToJson {members : List (Str × Json)} (h : fileToJson f = .dict members) :
    dictGet members ("url" : Str) = some f.url := by
  rw [fileToJson_eq] at h
  obtain ⟨⟩ := h
  rfl

theorem fileAdvertisesMetadata_recorded (f : File) :
    fileAdvertisesMetadata (recorded f) = fileAdvertisesMetadata f := by
  unfold fileAdvertisesMetadata recorded
  cases hnone : f.coreMetadata.isNone && f.distInfoMetadata.isNone with
  | true =>
    have hcore := (Bool.and_eq_true_iff.mp hnone).1
    cases hvalue : f.coreMetadata with
    | null => rfl
    | _ =>
      rw [hvalue] at hcore
      cases hcore
  | false => rfl

/-- An entry advertises metadata exactly when its file does. -/
theorem advertises_fileToJson {members : List (Str × Json)} (h : fileToJson f = .dict members) :
    jsonEntryAdvertisesMetadata members = fileAdvertisesMetadata f := by
  have hread := parseEntry_fileToJson f
  rw [h] at hread
  have hfile : fileOf (.dict members) = recorded f := Except.ok.inj hread
  calc jsonEntryAdvertisesMetadata members
      = fileAdvertisesMetadata (fileOf (.dict members)) := rfl
    _ = fileAdvertisesMetadata (recorded f) := by rw [hfile]
    _ = fileAdvertisesMetadata f := fileAdvertisesMetadata_recorded f

/-- **What is converted from a project** whose links have been rewritten. -/
theorem settled_modelToJson (hvalid : ValidProject F project)
    (hlinks : ∀ f ∈ project.files, ∀ url,
      (s.settings.rewriteArtifactUrls || fileAdvertisesMetadata f) = true → f.url = .str url →
      rewriteFileUrl s.U s.settings url = .ok url) :
    Settled s F (dumps (modelToJson project)) := by
  refine ⟨_, rfl, valid_modelToJson hvalid, ?_⟩
  intro entries hget entry hentry members url heq hbound hurl
  obtain rfl : project.files.map fileToJson = entries := Json.list.inj (Option.some.inj hget)
  obtain ⟨f, hf, rfl⟩ := List.mem_map.mp hentry
  rw [dictGet_url_fileToJson heq] at hurl
  rw [advertises_fileToJson heq] at hbound
  exact hlinks f hf url hbound (Option.some.inj hurl)

/-- **What `rewrite_project_urls` returns.** -/
theorem settled_rewriteProjectUrls (hvalid : ValidProject F project)
    (h : rewriteProjectUrls s.U s.settings project = .ok project') :
    Settled s F (dumps (modelToJson project')) := by
  obtain ⟨-, hfile⟩ := file_of_rewriteProjectUrls h
  refine settled_modelToJson (validProject_rewriteProjectUrls hvalid h) ?_
  intro f' hf' url hbound hurl
  obtain ⟨f, hf, url', rfl, hrewritten⟩ := hfile f' hf'
  obtain rfl : url' = .str url := hurl
  rcases hrewritten with ⟨-, hfree⟩ | hrewritten
  · exact absurd (hfree.symm.trans hbound) (by simp)
  rcases rewriteUrlValue_cases hrewritten with ⟨heq, hfalsy⟩ | ⟨old, new, hnew, heq⟩
  · rw [← heq] at hfalsy
    obtain rfl : url = [] := by simpa [Json.truthy] using hfalsy
    rfl
  · obtain ⟨⟩ := heq
    exact rewriteFileUrl_again hnew

end Projects

/-! ## Documents with metadata advertised -/

section Advertised

variable {members : List (Str × Json)} {entry entry' : Json} {f : File} {files : List File}
  {body out canonical : Str} {project : Project}

/-- The entry is one of a page, and the file is what a probe made of its file. -/
structure Resolved (s : Site) (F : FloatRepr) (entry : Json) (f : File) : Prop where
  valid : Valid F entry
  links : s.settings.rewriteArtifactUrls = true → EntryRewritten s entry
  probed : ∃ file, parseEntry entry = .ok file ∧ Probed file f

theorem settled_advertiseEntry (hentry : Resolved s F entry f)
    (h : advertiseEntry (jsonSite F s) entry f = .ok entry') :
    Valid F entry' ∧ EntryRewritten s entry' := by
  obtain ⟨hvalid, hlinks, file, hparse, hprobed⟩ := hentry
  cases entry with
  | dict members =>
    obtain rfl : fileOf (.dict members) = file := Except.ok.inj hparse
    by_cases hneeds : needsProbe f = true
    · -- nothing was found for it, so it advertises nothing
      have hsame : f = fileOf (.dict members) := by
        cases hprobed with
        | unresolved => rfl
        | resolved value _ hvalue =>
          rw [needsProbe_resolved hvalue] at hneeds
          cases hneeds
      obtain rfl : Json.dict members = entry' := by
        simp only [advertiseEntry, if_pos hneeds] at h
        exact Except.ok.inj h
      refine ⟨hvalid, ?_⟩
      rintro members' url heq hbound hurl
      obtain rfl := Json.dict.inj heq
      rw [hsame, needsProbe_fileOf, Bool.not_eq_true'] at hneeds
      rw [hneeds, Bool.or_false] at hbound
      exact hlinks hbound members url rfl (by rw [hbound, Bool.true_or]) hurl
    · have hset := valid_dictSet (k := ("core-metadata" : Str)) hvalid
        (valid_coreMetadata hvalid hprobed)
      simp only [advertiseEntry, if_neg hneeds] at h
      split at h
      · obtain ⟨url', hrewritten, h⟩ := ok_of_bind h
        obtain rfl := Except.ok.inj h
        refine ⟨valid_dictSet hset (.str url'), ?_⟩
        rintro _ url ⟨⟩ - hurl
        rw [dictGet_dictSet_self] at hurl
        obtain ⟨⟩ := hurl
        exact rewriteFileUrl_again hrewritten
      · next hother =>
        obtain rfl := Except.ok.inj h
        refine ⟨hset, ?_⟩
        rintro _ url ⟨⟩ - hurl
        exact absurd hurl (hother url)
  | _ => cases hparse

theorem settled_advertiseEntries {entries entries' : List Json}
    (hentries : List.Forall₂ (Resolved s F) entries files)
    (h : advertiseEntries (jsonSite F s) entries files = .ok entries') :
    ∀ entry ∈ entries', Valid F entry ∧ EntryRewritten s entry := by
  induction hentries generalizing entries' with
  | nil =>
    obtain rfl : [] = entries' := Except.ok.inj h
    intro entry hentry
    cases hentry
  | cons hfirst _ ih =>
    obtain ⟨first, hadvertised, h⟩ := ok_of_bind h
    obtain ⟨others, hothers, h⟩ := ok_of_bind h
    obtain rfl := Except.ok.inj h
    intro entry hentry
    rcases List.mem_cons.mp hentry with rfl | hentry
    · exact settled_advertiseEntry hfirst hadvertised
    · exact ih hothers entry hentry

/-- The files of a JSON page are those of its document. -/
theorem ok_of_parseProjectBody
    (h : parseProjectBody (jsonSite F s) canonical body true = .ok project) :
    ∃ data parsed, loads F body = .ok data ∧ parseSimpleJson data = .ok parsed ∧
      project.files = parsed.files := by
  rw [parseProjectBody_eq, if_pos rfl] at h
  obtain ⟨parsed, hparsed, h⟩ := ok_of_bind h
  obtain ⟨data, hloads, hparsed⟩ := ok_of_bind hparsed
  refine ⟨data, parsed, hloads, hparsed, ?_⟩
  rw [← Except.ok.inj h]
  split <;> rfl

/-- The entries of a page, with what the probes made of their files. -/
theorem resolved_of_jsonPage (hbody : JsonPage s F body)
    (hloads : loads F body = .ok (.dict members)) {entries : List Json}
    (hget : dictGet members ("files" : Str) = some (.list entries)) {parsed : List File}
    (hparsed : entries.mapM parseEntry = .ok parsed) (hfiles : List.Forall₂ Probed parsed files) :
    List.Forall₂ (Resolved s F) entries files := by
  have hlinks : s.settings.rewriteArtifactUrls = true →
      ∀ entry ∈ entries, EntryRewritten s entry := by
    -- then the page is decoded, and so it is one whose links have been rewritten
    intro hon
    obtain ⟨members', rfl, hvalid, hlinks⟩ := hbody.resolve_right fun h => h (.inl hon)
    obtain rfl := Json.dict.inj (Except.ok.inj ((loads_dumps hvalid).symm.trans hloads))
    exact hlinks entries hget
  have hprobed := forall₂_trans (mapM_eq_ok_iff.mp hparsed) hfiles
  have hentries : ∀ entry ∈ entries, Valid F entry ∧
      (s.settings.rewriteArtifactUrls = true → EntryRewritten s entry) :=
    fun entry hentry => ⟨valid_files hloads hget entry hentry, fun hon => hlinks hon entry hentry⟩
  exact ((List.forall₂_and_left _ _).mpr ⟨hentries, hprobed⟩).imp
    fun entry f h => ⟨h.1.1, h.1.2, h.2⟩

/-- **What metadata is advertised in.** -/
theorem settled_advertiseMetadata (hbody : JsonPage s F body)
    (hproject : parseProjectBody (jsonSite F s) canonical body true = .ok project)
    (hfiles : List.Forall₂ Probed project.files files)
    (h : advertiseMetadata (jsonSite F s) body true files = .ok out) : Settled s F out := by
  obtain ⟨data, parsed, hloads, hparsed, hsame⟩ := ok_of_parseProjectBody hproject
  rw [hsame] at hfiles
  have hvalid : Valid F data := valid_of_loads hloads
  unfold advertiseMetadata at h
  rw [if_pos rfl] at h
  obtain ⟨document, hdocument, h⟩ := ok_of_bind h
  obtain rfl : data = document := Except.ok.inj (hloads.symm.trans hdocument)
  obtain ⟨value, hvalue, h⟩ := ok_of_bind h
  cases data with
  | dict members =>
    obtain rfl : (dictGet members ("files" : Str)).getD (.list []) = value := Except.ok.inj hvalue
    obtain ⟨name, -, hparsed⟩ := ok_of_bind hparsed
    obtain ⟨value, hvalue', hparsed⟩ := ok_of_bind hparsed
    obtain rfl : (dictGet members ("files" : Str)).getD (.list []) = value := Except.ok.inj hvalue'
    -- without a list of files it is written as it is
    have hkeep : (∀ entries, dictGet members ("files" : Str) ≠ some (.list entries)) →
        ∀ document : Json, document = .dict members → Settled s F (dumps document) := by
      rintro hnone _ rfl
      exact ⟨members, rfl, hvalid, fun entries hget => absurd hget (hnone entries)⟩
    cases hget : dictGet members ("files" : Str) with
    | none =>
      rw [hget] at h
      obtain ⟨entries, -, h⟩ := ok_of_bind h
      rw [hget] at h
      obtain rfl := Except.ok.inj h
      exact hkeep (fun entries hlist => by cases hget.symm.trans hlist) _ rfl
    | some value =>
      rw [hget] at h hparsed
      cases value with
      | list entries =>
        obtain ⟨_, hentries, hparsed⟩ := ok_of_bind hparsed
        obtain rfl := Except.ok.inj hentries
        obtain ⟨_, hfound, hparsed⟩ := ok_of_bind hparsed
        obtain rfl := Except.ok.inj hparsed
        obtain ⟨entries', hadvertised, h⟩ := ok_of_bind h
        rw [hget] at h
        obtain rfl := Except.ok.inj h
        have hafter := settled_advertiseEntries
          (resolved_of_jsonPage hbody hloads hget hfound hfiles) hadvertised
        have hlist : Valid F (.list entries') :=
          .list _ fun entry hentry => (hafter entry hentry).1
        refine ⟨_, rfl, valid_dictSet hvalid hlist, ?_⟩
        intro entries'' hget' entry hentry
        rw [dictGet_dictSet_self] at hget'
        obtain ⟨⟩ := hget'
        exact (hafter entry hentry).2
      | _ =>
        obtain ⟨_, -, h⟩ := ok_of_bind h
        obtain rfl := Except.ok.inj h
        exact hkeep (fun entries hlist => by cases hget.symm.trans hlist) _ rfl
  | _ => cases hvalue

end Advertised

/-! ## The pages of the service -/

section Pages

variable {upstream : Upstream} {log : List Record} {body : Str} {project project' : Project}

/-- Rewriting the page once more changes nothing, and with `rewrite_artifact_urls` it is a document
whose links have all been rewritten. -/
structure Rewritten (s : Site) (F : FloatRepr) (body : Str) : Prop where
  again : rewriteJsonBody s.U (withJson F s.D) s.settings body = .ok body
  links : s.settings.rewriteArtifactUrls = true →
    ∃ members, loads F body = .ok (.dict members) ∧ LinksRewritten s members

theorem JsonPage.rewritten (h : JsonPage s F body) : Rewritten s F body :=
  ⟨h.rewriteJsonBody, fun hon => (h.resolve_right (not_not_intro (.inl hon))).loads⟩

/-- The JSON pages are rewritten. -/
def rewriting (s : Site) (F : FloatRepr) : Facts where
  page canonical isJson body := isJson = true → canonical ≠ ("index" : Str) → JsonPage s F body
  absent _ := True
  etag _ _ := True
  lastmod _ _ := True

theorem makes_rewriting : Makes (jsonSite F s) log (rewriting s F) where
  index _ _ _ hindex := absurd rfl hindex
  fill {canonical response body} _ _ hrewritten hjson _ := by
    rw [hjson] at hrewritten
    exact jsonPage_rewriteJsonBody hrewritten
  synthesize {canonical response jsonBody htmlBody} _ _ hsynthesized := by
    refine ⟨fun _ _ => ?_, fun hjson => by cases hjson⟩
    unfold synthesizeBodies at hsynthesized
    split at hsynthesized
    · -- the document itself is rewritten
      obtain ⟨data, -, h⟩ := ok_of_bind hsynthesized
      obtain ⟨project, -, h⟩ := ok_of_bind h
      obtain ⟨jsonBody', hrewritten, h⟩ := ok_of_bind h
      obtain ⟨project', -, h⟩ := ok_of_bind h
      obtain ⟨htmlBody', -, h⟩ := ok_of_bind h
      obtain ⟨rfl, -⟩ := Prod.mk.inj (Except.ok.inj h)
      exact jsonPage_rewriteJsonBody hrewritten
    · -- the project of the HTML page is written as a document
      obtain ⟨project, hproject, h⟩ := ok_of_bind hsynthesized
      obtain ⟨htmlBody', -, h⟩ := ok_of_bind h
      obtain ⟨project', hrewritten, h⟩ := ok_of_bind h
      obtain ⟨rfl, -⟩ := Prod.mk.inj (Except.ok.inj h)
      exact .inl (settled_rewriteProjectUrls
        ((validProject_parseSimpleHtml hproject).named canonical) hrewritten)
  convert {canonical toJson other body} _ hconvert hjson _ := by
    subst hjson
    unfold convertBody at hconvert
    rw [if_pos rfl] at hconvert
    obtain ⟨project, hproject, h⟩ := ok_of_bind hconvert
    obtain ⟨project', hrewritten, h⟩ := ok_of_bind h
    obtain rfl := Except.ok.inj h
    exact .inl (settled_rewriteProjectUrls (validProject_parseSimpleHtml hproject) hrewritten)
  advertise {canonical isJson body project files out} hbody hproject hfiles hadvertised hjson
      hindex := by
    subst hjson
    exact .inl (settled_advertiseMetadata (hbody rfl hindex) hproject hfiles hadvertised)
  absent _ _ := trivial
  etag _ _ _ := trivial
  lastmod _ _ _ := trivial

/-- **Pages are rewritten.** In every configuration that a service can reach, in any number of
processes and over either backend, rewriting a JSON page that is kept or served for a project
changes nothing in it, and with `rewrite_artifact_urls` it is a document without a link that would
still be rewritten. -/
theorem pages_rewritten {B : Backend} {c : Config Op Ret World (ℕ × ServiceTask) TaskResult}
    (h : (deployment (jsonSite F s) B upstream).Reachable c) :
    (∀ canonical part body, canonical ≠ ("index" : Str) →
      (part = .body true ∨ part = .stale true) →
      c.world.get (projectKey canonical part) = some body → Rewritten s F body) ∧
    ∀ t pid name accept reply,
      c.task t = some ((pid, .project name accept), .ret (.ok (some reply))) →
      s.packaging.canonicalizeName name ≠ ("index" : Str) → reply.mediaType = contentTypeJson →
      Rewritten s F reply.body := by
  have hupholds := upholds_of_reachable makes_rewriting h
  refine ⟨fun canonical part body hindex hpart hget => ?_,
    fun t pid name accept reply htask hindex hmedia => ?_⟩
  · have hkept := hupholds.kept canonical part body hget
    rcases hpart with rfl | rfl
    · exact (hkept rfl hindex).rewritten
    · exact (hkept rfl hindex).rewritten
  · obtain ⟨isJson, hformat, hpage⟩ := (hupholds.served t pid name accept _ htask).page reply rfl
    cases isJson with
    | true => exact (hpage rfl hindex).rewritten
    | false =>
      rw [hmedia] at hformat
      exact absurd hformat (by decide)

/-- The page of a project with one wheel. -/
def wheelPage : Str :=
  ("\x7b\"files\": [\x7b\"url\": \"https://files.pythonhosted.org/one.whl\"\x7d]\x7d" : Str)

def serveWheel (_ : ℕ) (_ : UpstreamRequest) : Option UpstreamResponse :=
  some { status := 200, contentType := some contentTypeJson, text := wheelPage }

abbrev wheelService : System Op Ret World (ℕ × ServiceTask) TaskResult :=
  deployment (jsonSite noFloat directSite) .memory fun version request response =>
    response = serveWheel version request

def wheelDriver : Driver wheelService Choice :=
  serviceDriver _ rfl rfl serveWheel fun _ _ => rfl

def wheelRequest : ℕ × ServiceTask := (0, .project ("one" : Str) (some contentTypeJson))

/-- The page that is served is not the one of the upstream. -/
def servesAnother : TaskResult → Bool
  | .ok (some reply) => reply.mediaType = contentTypeJson ∧ reply.body ≠ wheelPage
  | _ => false

theorem wheelPage_spec :
    ((wheelDriver.finish {} 0 (wheelService.prog wheelRequest) emptyWorld).any
      fun (_, result, _) => servesAnother result) = true := by
  decide +kernel

theorem pages_rewritten_wheel : ∃ (c : Config Op Ret World (ℕ × ServiceTask) TaskResult)
    (reply : Reply), wheelService.Reachable c ∧
      c.task 0 = some (wheelRequest, .ret (.ok (some reply))) ∧ reply.body ≠ wheelPage ∧
      Rewritten directSite noFloat reply.body := by
  obtain ⟨⟨evs, result, w⟩, hfetch, hanother⟩ := (Option.any_eq_true _ _).mp wheelPage_spec
  have hquiet : wheelService.Quiet (Driver.boot emptyWorld) := by
    intro u e o k htask
    cases htask
  have hinit : wheelService.Init (Driver.boot emptyWorld) := ⟨fresh_emptyWorld, fun _ => rfl⟩
  obtain ⟨hrun, -⟩ := Driver.complete (.nil _) hquiet rfl hfetch
  have hreach := System.Reachable.run (.init hinit) hrun
  rcases result with failure | _ | reply
  · cases hanother
  · cases hanother
  · obtain ⟨hmedia, hother⟩ := of_decide_eq_true hanother
    have hname : directSite.packaging.canonicalizeName ("one" : Str) ≠ ("index" : Str) := by
      decide +kernel
    exact ⟨_, reply, hreach, Config.set_task_self, hother,
      (pages_rewritten hreach).2 0 0 _ _ reply Config.set_task_self hname hmedia⟩

end Pages

end ProxyCache.Theorems.PageLinks
