import ProxyCache.Theorems.AllOrNothing
import ProxyCache.Theorems.MalformedLinks

/-!
# A cached entry that cannot be converted

`_try_serve_from_cache` converts the body of the other format and catches three kinds of
exceptions. Each stage of a conversion goes through a list of files and raises for the first one
that it cannot handle, so what escapes is decided by which file comes first.
-/

namespace ProxyCache.Theorems.UnconvertibleEntries

open ProxyCache.Lib ProxyCache.Python ProxyCache.App
open ProxyCache.Theorems.AllOrNothing (Tried SendsWith send_of_sendsWith converted_sendsWith
  cachedResponse_sendsWith emits_tryServeFromCache)
open ProxyCache.Theorems.ReplySources (cachedResponse_replies)
open ProxyCache.Theorems.JsonPassthrough (fileOf)
open ProxyCache.Theorems.MalformedLinks (Readable FileReadable newFile exists_newFile_iff
  exists_rewritten_iff)

/-! ## Links raise `ValueError` only -/

/-- What is raised is a `ValueError`. -/
def ValueErrors {α : Type} (x : Except Raised α) : Prop := ∀ e, x = .error e → e = .valueError

theorem ValueErrors.ok {α : Type} (a : α) : ValueErrors (.ok a) := nofun

theorem ValueErrors.bind {α β : Type} {x : Except Raised α} {f : α → Except Raised β}
    (hx : ValueErrors x) (hf : ∀ a, ValueErrors (f a)) : ValueErrors (x >>= f) := by
  cases x with
  | error e =>
    rintro _ ⟨⟩
    exact hx e rfl
  | ok a => exact hf a

section Links

variable (U : Unicode) (settings : Settings)

theorem valueErrors_urlsplit (url scheme : Str) : ValueErrors (urlsplit U url scheme) := by
  unfold urlsplit
  dsimp only
  split
  · exact .ok _
  · rintro _ ⟨⟩
    rfl

theorem valueErrors_urlparse (url scheme : Str) : ValueErrors (urlparse U url scheme) :=
  (valueErrors_urlsplit U url scheme).bind fun _ => .ok _

theorem valueErrors_urljoin (base url : Str) : ValueErrors (urljoin U base url) := by
  unfold urljoin
  split
  · exact .ok _
  split
  · exact .ok _
  refine (valueErrors_urlparse U _ _).bind fun b => (valueErrors_urlparse U _ _).bind fun p => ?_
  split
  · exact .ok _
  split
  · exact .ok _
  dsimp only
  split <;> split <;> exact .ok _

theorem valueErrors_portOf (netloc : Str) : ValueErrors (portOf netloc) := by
  have hvalue : ValueErrors (.error .valueError : Except Raised (Option ℕ)) := by
    rintro _ ⟨⟩
    rfl
  unfold portOf
  split
  · exact .ok _
  split
  · split
    · split
      · exact .ok _
      · exact hvalue
    · exact hvalue
  · exact hvalue

theorem valueErrors_authorityOf (parsed : ParseResult) : ValueErrors (authorityOf U parsed) := by
  refine (valueErrors_portOf _).bind fun port => ?_
  cases port with
  | none => exact .ok _
  | some port =>
    dsimp only
    split <;> exact .ok _

theorem valueErrors_hostAllowed (host : Str) : ValueErrors (hostAllowed U settings host) := by
  refine ValueErrors.bind (ValueErrors.bind ?_ fun _ => .ok _) fun _ => .ok _
  refine (valueErrors_urlparse U _ _).bind fun parsed => ?_
  split
  · exact .ok _
  refine (valueErrors_portOf _).bind fun port => ?_
  split
  · split <;> exact .ok _
  · exact .ok _

theorem valueErrors_rewriteFileUrl (url : Str) : ValueErrors (rewriteFileUrl U settings url) := by
  unfold rewriteFileUrl
  split
  · exact .ok _
  split
  · exact .ok _
  refine (valueErrors_urljoin U _ _).bind fun resolved =>
    (valueErrors_urlparse U _ _).bind fun parsed => ?_
  split
  · exact .ok _
  refine (valueErrors_authorityOf U parsed).bind fun host =>
    (valueErrors_hostAllowed U settings host).bind fun allowed => ?_
  split <;> exact .ok _

end Links

/-! ## Which exceptions a file raises -/

section Files

variable {U : Unicode} {D : Documents} {settings : Settings} {f f' : File}

/-- The link is rewritten although it is no text: an `AttributeError`. -/
def LinkMistyped (settings : Settings) (f : File) : Prop :=
  (settings.rewriteArtifactUrls || fileAdvertisesMetadata f) = true ∧ f.url.truthy = true ∧
    f.url.isStr = false

/-- The link is rewritten and cannot be read: a `ValueError`. -/
def LinkUnreadable (U : Unicode) (settings : Settings) (f : File) : Prop :=
  (settings.rewriteArtifactUrls || fileAdvertisesMetadata f) = true ∧
    ∃ url, f.url = .str url ∧ url ≠ [] ∧ ¬ Readable U settings url

/-- A value that has to be of some type if it is there at all. -/
def Mistyped (ofType : Json → Bool) (value : Json) : Prop :=
  value.truthy = true ∧ ofType value = false

/-- The line of the file cannot be written because of a field but its link: an
`AttributeError`. -/
def FieldMistyped (f : File) : Prop :=
  Mistyped Json.isDict f.hashes ∨
    (f.url.isStr = true ∧ (Mistyped Json.isStr f.requiresPython ∨ f.filename.isStr = false))

/-- The line of the file cannot be written because its link is no text: a `TypeError`. -/
def LinkNoText (f : File) : Prop := ¬ Mistyped Json.isDict f.hashes ∧ f.url.isStr = false

theorem newFile_ends : Ends isCaught (LinkMistyped settings f)
    (LinkUnreadable U settings f) (newFile U settings f) := by
  unfold newFile LinkMistyped LinkUnreadable
  by_cases hrewrites : (settings.rewriteArtifactUrls || fileAdvertisesMetadata f) = true
  · rw [if_pos hrewrites]
    unfold rewriteUrlValue
    by_cases htruthy : f.url.truthy = true
    · rw [if_pos htruthy]
      cases hurl : f.url with
      | str url =>
        have hne : url ≠ [] := by
          rintro rfl
          rw [hurl] at htruthy
          cases htruthy
        have hstr : ∀ {p q : Prop}, ¬ (p ∧ q ∧ (Json.str url).isStr = false) := fun h => by
          cases h.2.2
        simp only [Json.asStr_str, bind, Except.bind]
        cases hrewrite : rewriteFileUrl U settings url with
        | ok url' =>
          refine .ok hstr ?_
          rintro ⟨-, url₁, hsame, -, hnot⟩
          obtain rfl := Json.str.inj hsame
          exact hnot (exists_rewritten_iff.mp ⟨url', hrewrite⟩)
        | error e =>
          obtain rfl := valueErrors_rewriteFileUrl U settings url e hrewrite
          refine .stop ⟨hrewrites, url, rfl, hne, ?_⟩ hstr rfl
          intro hreadable
          obtain ⟨url', hok⟩ := exists_rewritten_iff.mpr hreadable
          rw [hrewrite] at hok
          cases hok
      | _ =>
        refine .bad ⟨hrewrites, by rwa [hurl] at htruthy, rfl⟩ ?_ rfl
        intro ⟨_, url, hstr, _⟩
        cases hstr
    · rw [if_neg htruthy]
      refine .ok (fun h => htruthy h.2.1) ?_
      rintro ⟨-, url, hurl, hne, -⟩
      rw [hurl] at htruthy
      exact htruthy (by simpa [Json.truthy] using hne)
  · rw [if_neg hrewrites]
    exact .ok (fun h => hrewrites h.1) fun h => hrewrites h.1

theorem hashFragment_cases (hashes : Json) :
    (∃ frag, hashFragment D hashes = .ok frag ∧ ¬ Mistyped Json.isDict hashes) ∨
      (hashFragment D hashes = .error .attributeError ∧ Mistyped Json.isDict hashes) := by
  unfold hashFragment Mistyped
  by_cases htruthy : hashes.truthy = true
  · rw [if_pos htruthy]
    cases hashes with
    | dict members => exact .inl ⟨_, rfl, fun h => absurd h.2 (by simp [Json.isDict])⟩
    | _ => exact .inr ⟨rfl, htruthy, rfl⟩
  · rw [if_neg htruthy]
    exact .inl ⟨_, rfl, fun h => htruthy h.1⟩

theorem requiresPythonAttribute_cases (f : File) :
    (∃ attrs, requiresPythonAttribute f = .ok attrs ∧ ¬ Mistyped Json.isStr f.requiresPython) ∨
      (requiresPythonAttribute f = .error .attributeError ∧
        Mistyped Json.isStr f.requiresPython) := by
  unfold requiresPythonAttribute Mistyped
  by_cases htruthy : f.requiresPython.truthy = true
  · rw [if_pos htruthy]
    cases hvalue : f.requiresPython with
    | str text => exact .inl ⟨_, rfl, fun h => absurd h.2 (by simp [Json.isStr])⟩
    | _ => exact .inr ⟨rfl, hvalue ▸ htruthy, rfl⟩
  · rw [if_neg htruthy]
    exact .inl ⟨_, rfl, fun h => htruthy h.1⟩

theorem fileToHtml_ends : Ends isCaught (FieldMistyped f) (LinkNoText f)
    (fileToHtml D f) := by
  unfold fileToHtml FieldMistyped LinkNoText
  obtain ⟨frag, hfrag, hhashes⟩ | ⟨hfrag, hhashes⟩ := hashFragment_cases (D := D) f.hashes
  · rw [hfrag]
    cases hurl : f.url with
    | str url =>
      have htext : ¬ (¬ Mistyped Json.isDict f.hashes ∧ (Json.str url).isStr = false) := fun h => by
        cases h.2
      obtain ⟨attrs, hattrs, hpython⟩ | ⟨hattrs, hpython⟩ := requiresPythonAttribute_cases f
      · rw [hattrs]
        cases hname : f.filename with
        | str name =>
          refine .ok ?_ htext
          rintro (h | ⟨-, h | h⟩)
          · exact hhashes h
          · exact hpython h
          · cases h
        | _ => exact .bad (.inr ⟨rfl, .inr rfl⟩) htext rfl
      · rw [hattrs]
        exact .bad (.inr ⟨rfl, .inl hpython⟩) htext rfl
    | _ => exact .stop ⟨hhashes, rfl⟩ (fun h => h.elim hhashes fun h => by cases h.1) rfl
  · rw [hfrag]
    exact .bad (.inl hhashes) (fun h => h.1 hhashes) rfl

/-- Rewriting changes the text of a link only. -/
theorem newFile_fields (h : newFile U settings f = .ok f') :
    (FieldMistyped f' ↔ FieldMistyped f) ∧ (LinkNoText f' ↔ LinkNoText f) := by
  have hurl : ∃ url, f' = { f with url } ∧ url.isStr = f.url.isStr := by
    unfold newFile at h
    split at h
    · obtain ⟨url, hurl, hf'⟩ := ok_of_bind h
      refine ⟨url, (Except.ok.inj hf').symm, ?_⟩
      unfold rewriteUrlValue at hurl
      split at hurl
      · obtain ⟨text, htext, hurl⟩ := ok_of_bind hurl
        obtain ⟨url', -, hurl⟩ := ok_of_bind hurl
        obtain rfl := Except.ok.inj hurl
        cases hf : f.url with
        | str _ => rfl
        | _ => rw [hf] at htext; cases htext
      · exact Except.ok.inj hurl ▸ rfl
    · exact ⟨f.url, (Except.ok.inj h).symm, rfl⟩
  obtain ⟨url, rfl, hstr⟩ := hurl
  unfold FieldMistyped LinkNoText
  dsimp only
  rw [hstr]
  exact ⟨Iff.rfl, Iff.rfl⟩

end Files

/-! ## The stages of a conversion -/

section Stages

variable {s : Site} {other : Str}

/-- Nothing escapes from a stage: the entries are dicts, a link that is rewritten and is
no text stands behind one that cannot be read, and if all links are rewritten, a file with another
field of a wrong type stands behind one with a link that is no text. -/
structure FilesTolerated (s : Site) (entries : List Json) : Prop where
  dicts : ∀ entry ∈ entries, entry.isDict = true
  links : Shielded (LinkMistyped s.settings) (LinkUnreadable s.U s.settings) (entries.map fileOf)
  fields : (∀ f ∈ entries.map fileOf, FileReadable s.U s.settings f) →
    Shielded FieldMistyped LinkNoText (entries.map fileOf)

/-- The document is an object, and its files, if they are a list of anything, are tolerated. -/
def DocumentTolerated (s : Site) (data : Json) : Prop :=
  ∃ members, data = .dict members ∧
    ∀ entries, ((dictGet members ("files" : Str)).getD (.list [])).elements = .ok entries →
      FilesTolerated s entries

/-- An entry of the cache is converted, or refused with an exception that is caught. -/
def Tolerated (s : Site) (toJson : Bool) (other : Str) : Prop :=
  if toJson then Guarded isCaught (s.D.anchors other)
  else Guarded isCaught (s.D.loads other) ∧
    ∀ data, s.D.loads other = .ok data → DocumentTolerated s data

/-- An entry that is no dict has no fields. -/
theorem mapM_parseEntry (entries : List Json) :
    entries.mapM parseEntry =
      if entries.all Json.isDict = true then .ok (entries.map fileOf)
      else .error .attributeError := by
  induction entries with
  | nil => rfl
  | cons entry entries ih =>
    rw [List.mapM_cons, ih]
    cases entry with
    | dict members =>
      show (if entries.all Json.isDict = true then (.ok (entries.map fileOf) : Except Raised _)
        else .error .attributeError) >>= _ =
          if entries.all Json.isDict = true then _ else _
      split <;> rfl
    | _ => rfl

theorem rewriteProjectUrls_eq (project : Project) :
    rewriteProjectUrls s.U s.settings project =
      project.files.mapM (newFile s.U s.settings) >>= fun files => .ok { project with files } := rfl

/-- The page of files whose links have been rewritten. -/
theorem rendered_iff {files files' : List File} {name : Json}
    (h : files.mapM (newFile s.U s.settings) = .ok files') :
    Guarded isCaught (modelToHtml s.D { name, files := files' }) ↔
      Shielded FieldMistyped LinkNoText files := by
  have hlines : Guarded isCaught (modelToHtml s.D { name, files := files' }) ↔
      Guarded isCaught (files'.mapM (fileToHtml s.D)) :=
    guarded_bind fun _ _ => guarded_ok _
  rw [hlines, guarded_mapM_iff fun f _ => fileToHtml_ends]
  exact shielded_congr ((mapM_eq_ok_iff.mp h).imp fun f f' hf => newFile_fields hf)

/-- The files of a document, from their entries to the page. -/
theorem guarded_files_iff {entries : List Json} {name : Json} :
    Guarded isCaught (entries.mapM parseEntry >>= fun files =>
      rewriteProjectUrls s.U s.settings { name, files } >>= modelToHtml s.D) ↔
        FilesTolerated s entries := by
  rw [mapM_parseEntry]
  by_cases hdicts : entries.all Json.isDict = true
  · rw [if_pos hdicts]
    show Guarded isCaught (rewriteProjectUrls s.U s.settings
      { name, files := entries.map fileOf } >>= modelToHtml s.D) ↔ _
    have hlinks : Guarded isCaught ((entries.map fileOf).mapM (newFile s.U s.settings)) ↔
        Shielded (LinkMistyped s.settings) (LinkUnreadable s.U s.settings) (entries.map fileOf) :=
      guarded_mapM_iff fun f _ => newFile_ends
    have hreadable : (∀ f ∈ entries.map fileOf, FileReadable s.U s.settings f) ↔
        ∃ files', (entries.map fileOf).mapM (newFile s.U s.settings) = .ok files' := by
      simp only [← exists_newFile_iff, mapM_eq_ok_iff, exists_forall₂_iff]
    rw [rewriteProjectUrls_eq]
    cases hrewrite : (entries.map fileOf).mapM (newFile s.U s.settings) with
    | error e =>
      rw [hrewrite] at hlinks hreadable
      refine (guarded_error.trans guarded_error.symm).trans (hlinks.trans ⟨fun h => ?_, (·.links)⟩)
      refine ⟨List.all_eq_true.mp hdicts, h, fun hall => ?_⟩
      obtain ⟨files', hok⟩ := hreadable.mp hall
      cases hok
    | ok files' =>
      rw [hrewrite] at hlinks hreadable
      refine (rendered_iff hrewrite).trans ⟨fun h => ?_, fun h => h.fields ?_⟩
      · exact ⟨List.all_eq_true.mp hdicts, hlinks.mp (guarded_ok files'), fun _ => h⟩
      · exact hreadable.mpr ⟨files', rfl⟩
  · rw [if_neg hdicts]
    refine iff_of_false (fun h => ?_) fun h => hdicts ?_
    · cases guarded_error.mp h
    · exact List.all_eq_true.mpr h.dicts

theorem elements_error {value : Json} {e : Raised} (h : value.elements = .error e) :
    e = .typeError := by
  cases value with
  | list | str | dict => cases h
  | _ => exact (Except.error.inj h).symm

theorem parseSimpleJson_eq (members : List (Str × Json)) :
    parseSimpleJson (.dict members) =
      ((dictGet members ("files" : Str)).getD (.list [])).elements >>= fun entries =>
        entries.mapM parseEntry >>= fun files =>
          .ok { name := (dictGet members ("name" : Str)).getD (.str []), files } := rfl

theorem guarded_document_iff (data : Json) :
    Guarded isCaught (parseSimpleJson data >>= fun project =>
      rewriteProjectUrls s.U s.settings project >>= modelToHtml s.D) ↔
        DocumentTolerated s data := by
  cases data with
  | dict members =>
    rw [parseSimpleJson_eq]
    cases hentries : ((dictGet members ("files" : Str)).getD (.list [])).elements with
    | error e =>
      obtain rfl := elements_error hentries
      refine iff_of_true (guarded_error.mpr rfl) ⟨members, rfl, fun entries h => ?_⟩
      rw [hentries] at h
      cases h
    | ok entries =>
      have hfiles : FilesTolerated s entries ↔ DocumentTolerated s (.dict members) := by
        constructor
        · intro h
          refine ⟨members, rfl, fun entries' h' => ?_⟩
          rw [hentries] at h'
          exact Except.ok.inj h' ▸ h
        · intro ⟨members', hsame, h⟩
          obtain rfl := Json.dict.inj hsame
          exact h entries hentries
      rw [← hfiles, ← guarded_files_iff]
      show Guarded isCaught ((entries.mapM parseEntry >>= _) >>= _) ↔ _
      rw [bind_assoc]
      exact Iff.rfl
  | _ =>
    refine iff_of_false (fun h => ?_) ?_
    · cases guarded_error.mp h
    · rintro ⟨_, h, -⟩
      cases h

/-- The links of a page are texts. -/
theorem isStr_of_parseAnchor {a : Anchor} {f : File} (h : parseAnchor s.U a = some f) :
    f.url.isStr = true := by
  unfold parseAnchor at h
  split at h
  · cases h
  · split at h
    · cases h
    · obtain rfl := Option.some.inj h
      rfl

theorem guarded_page (name : Json) (anchors : List Anchor) :
    Guarded isCaught (rewriteProjectUrls s.U s.settings
      { name, files := anchors.filterMap (parseAnchor s.U) }) := by
  rw [rewriteProjectUrls_eq]
  refine (guarded_bind fun files _ => guarded_ok _).mpr
    ((guarded_mapM_iff fun f _ => newFile_ends).mpr ?_)
  refine shielded_of_forall_not fun f hf hmistyped => ?_
  obtain ⟨a, -, ha⟩ := List.mem_filterMap.mp hf
  rw [LinkMistyped, isStr_of_parseAnchor ha] at hmistyped
  cases hmistyped.2.2

/-- Nothing escapes from a conversion exactly when the entry is tolerated. -/
theorem guarded_convertBody_iff (canonical : Str) (toJson : Bool) :
    Guarded isCaught (convertBody s canonical toJson other) ↔ Tolerated s toJson other := by
  cases toJson with
  | true =>
    show Guarded isCaught ((s.D.anchors other >>= fun anchors =>
      .ok { name := .str canonical, files := anchors.filterMap (parseAnchor s.U) }) >>=
        (fun project => rewriteProjectUrls s.U s.settings project >>= fun project' =>
          .ok (s.D.dumps (modelToJson project')))) ↔ Guarded isCaught (s.D.anchors other)
    rw [bind_assoc]
    refine guarded_bind fun anchors _ => ?_
    show Guarded isCaught (rewriteProjectUrls s.U s.settings
      { name := .str canonical, files := _ } >>= fun project' =>
        .ok (s.D.dumps (modelToJson project')))
    exact (guarded_bind fun project' _ => guarded_ok _).mpr (guarded_page _ anchors)
  | false =>
    show Guarded isCaught (s.D.loads other >>= (fun data => parseSimpleJson data >>= fun project =>
      rewriteProjectUrls s.U s.settings project >>= modelToHtml s.D)) ↔
        Guarded isCaught (s.D.loads other) ∧
          ∀ data, s.D.loads other = .ok data → DocumentTolerated s data
    cases s.D.loads other with
    | error e =>
      rw [and_iff_left nofun]
      exact guarded_error.trans guarded_error.symm
    | ok data =>
      rw [and_iff_right (guarded_ok data)]
      refine (guarded_document_iff data).trans ⟨?_, fun h => h data rfl⟩
      rintro h _ ⟨⟩
      exact h

end Stages

/-! ## Serving from the cache -/

section Serving

variable {s : Site} {C : HeaderCodec} {r : ProjectRequest} {B : Backend} {upstream : Upstream}
  {t : ℕ} {w w' : World} {cs : CallLog Op Ret} {result : Except Failure (Option Reply)}
  {other page : Str}

/-- A reply that is found is sent. -/
def sendHit (U : Unicode) (C : HeaderCodec) :
    Except Failure (Option Reply) → Except Failure (Option Reply)
  | .ok (some reply) => (send U C reply).map some
  | result => result

/-- What is stored in Redis can be encoded. Its client refuses another value, which the cache
takes for an outage. -/
def Storable (U : Unicode) (B : Backend) (ms : List Mark) : Prop :=
  B = .redis → ∀ batch ∈ batches ms, ∀ x ∈ batch, encodable U x.value = true

/-- **The request falls through**, from `w`: nothing is raised, and if there is no response, no key
has changed. -/
def FallsThrough (s : Site) (C : HeaderCodec) (r : ProjectRequest) (w : World) : Prop :=
  ∀ (B : Backend) (upstream : Upstream) (t : ℕ) (cs : CallLog Op Ret)
    (result : Except Failure (Option Reply)) (w' : World),
    (effects B upstream).Performs Drift t (tryServeFromCache s r) w cs result w' →
    Storable s.U B (marks cs) →
      (∃ found, sendHit s.U C result = .ok found) ∧ (result = .ok none → Kept w w')

/-- The entry has a second left to live. -/
def Lasts (w : World) (key : Str) : Prop :=
  (w.expiry key).bind (fun e => Backend.memory.ttl (e - w.now)) ≠ none

/-- The entry is passed on, under a name that a header can hold and as a body that can be encoded;
or its conversion is tolerated, and the page can be encoded unless there is no time left to store
it. -/
def Safe (s : Site) (C : HeaderCodec) (r : ProjectRequest) (w : World) (other : Str) : Prop :=
  other = [] ∨
    if r.wantsJson && r.allowHtmlPassthrough then
      C.encodes r.canonical = true ∧ encodable s.U other = true
    else Tolerated s r.wantsJson other ∧ (Lasts w r.otherKey →
      ∀ page, convertBody s r.canonical r.wantsJson other = .ok page → encodable s.U page = true)

theorem Lasts.of_drift {key : Str} (h : Lasts w' key) (hdrift : Drift w w') : Lasts w key := by
  unfold Lasts at h ⊢
  cases hexpiry : w'.expiry key with
  | none =>
    rw [hexpiry] at h
    exact absurd rfl h
  | some e =>
    rw [hexpiry] at h
    rw [hdrift.expiry hexpiry]
    obtain ⟨now, evicted, version, hnow, -, rfl⟩ := hdrift
    exact Backend.memory_ttl_ne_none_of_le (sub_le_sub_left hnow e) h

/-- What is safe stays safe as time passes. -/
theorem Safe.of_drift (h : Safe s C r w other) (hdrift : Drift w w') : Safe s C r w' other := by
  refine h.imp_right fun h => ?_
  split
  · next hpass => rwa [if_pos hpass] at h
  · next hpass =>
    rw [if_neg hpass] at h
    exact ⟨h.1, fun hlasts => h.2 (hlasts.of_drift hdrift)⟩

/-- The clock that advances during a conversion. -/
theorem drift_of_elapse (h : exec B upstream t .elapse w () w') : Drift w w' := by
  obtain ⟨now, hnow, rfl⟩ := h
  exact ⟨now, fun _ => false, w.version, hnow, le_refl _, rfl⟩

theorem sendHit_reply {value : Str} {reply : Reply} (h : SendsWith value reply)
    (hvalue : C.encodes value = true) (hbody : encodable s.U reply.body = true) :
    ∃ found, sendHit s.U C (.ok (some reply)) = .ok found := by
  refine ⟨some reply, ?_⟩
  show (send s.U C reply).map some = _
  rw [send_of_sendsWith h hvalue hbody]
  rfl

/-- The reply with a page that was stored. -/
def convertedReply (r : ProjectRequest) (page : Str) : Reply where
  body := page
  mediaType := mediaTypeOf r.wantsJson
  headers := [xCache ("HIT-synthesized" : Str), xSynthesis ("1" : Str)]

/-- What follows when a page was stored. -/
def replyConverted (s : Site) (r : ProjectRequest) (page : Str) :
    Program (Except Failure (Option Reply)) := do
  scheduleMetadataEnrichment s r.canonical page r.wantsJson
  return .ok (some (convertedReply r page))

theorem returns_replyConverted :
    (replyConverted s r page).Returns (· = .ok (some (convertedReply r page))) :=
  Prog.Returns.bind_of_forall _ fun _ => rfl

theorem calls_replyConverted : (replyConverted s r page).Calls fun o => o.isRead = true :=
  ((scheduleMetadataEnrichment_calls s _ r.canonical _ _).mono fun _ ho => ho.1).bind fun _ =>
    trivial

/-- A page is stored only as long as there is time left or, in Redis, if it can be encoded; then it
is replied with. -/
theorem storeConversion_cases (hstorable : Storable s.U B (marks cs))
    (h : (effects B upstream).Performs Drift t (storeConversion s r other page) w cs result w') :
    result = .ok none ∨ ((Lasts w r.otherKey ∨ encodable s.U page = true) ∧
      ∃ reply, result = .ok (some reply) ∧ SendsWith [] reply ∧ reply.body = page) := by
  obtain ⟨w₁, otherTtl, w₂, cs₁, hdrift, ⟨httl, -⟩, rfl, hstale⟩ := Effects.performs_call.mp h
  cases otherTtl with
  | none =>
    cases hstale
    exact .inl rfl
  | some otherTtl =>
    obtain ⟨_, otherStaleTtl, _, _, -, -, rfl, hcommit⟩ := Effects.performs_call.mp hstale
    obtain ⟨_, committed, _, _, -, -, rfl, hreply⟩ := Effects.performs_call.mp hcommit
    cases committed with
    | false =>
      cases hreply
      exact .inl rfl
    | true =>
      change (effects B upstream).Performs Drift t (replyConverted s r page) _ _ result w' at hreply
      obtain rfl := hreply.returns returns_replyConverted
      refine .inr ⟨?_, _, rfl, converted_sendsWith _ _, rfl⟩
      cases B with
      | memory =>
        have hlasts : Lasts w₁ r.otherKey := by
          unfold Lasts
          rw [← httl]
          exact nofun
        exact .inl (hlasts.of_drift hdrift)
      | redis => exact .inr (hstorable rfl _ List.mem_cons_self _ List.mem_cons_self)

theorem sends_serveOther (h : Safe s C r w other) (hne : other ≠ [])
    (hstorable : Storable s.U B (marks cs))
    (hrun : (effects B upstream).Performs Drift t (serveOther s r other) w cs result w') :
    ∃ found, sendHit s.U C result = .ok found := by
  have h := h.resolve_left hne
  unfold serveOther at hrun
  split at hrun
  · next hpass =>
    rw [if_pos hpass] at h
    have hreplies : Prog.Returns (fun result => ∃ found, sendHit s.U C result = .ok found)
        (cachedResponse s r.canonical other false >>= fun reply =>
          (.ret (.ok (some reply)) : Program (Except Failure (Option Reply)))) := by
      refine ((cachedResponse_sendsWith r.canonical other false).and
        (cachedResponse_replies r.canonical other false)).bind ?_
      rintro reply ⟨hreply, rfl, -⟩
      exact sendHit_reply hreply h.1 h.2
    exact hrun.returns hreplies
  · next hpass =>
    rw [if_neg hpass, ← guarded_convertBody_iff r.canonical] at h
    obtain ⟨w₁, _, w₂, cs₁, hdrift, helapse, rfl, hstore⟩ := Effects.performs_call.mp hrun
    have hstorable : Storable s.U B (marks cs₁) := hstorable
    cases hconvert : convertBody s r.canonical r.wantsJson other with
    | ok page =>
      rw [hconvert] at hstore
      rcases storeConversion_cases hstorable hstore with rfl | ⟨hpage, reply, rfl, hreply, rfl⟩
      · exact ⟨none, rfl⟩
      · have hencodable : encodable s.U reply.body = true := by
          refine hpage.elim (fun hlasts => h.2 ?_ _ hconvert) id
          exact (hlasts.of_drift (@drift_of_elapse B upstream t _ _ helapse)).of_drift hdrift
        exact sendHit_reply hreply (C.ascii [] rfl) hencodable
    | error e =>
      rw [hconvert] at hstore
      refine ⟨none, ?_⟩
      cases hstore with
      | ret _ =>
        rw [if_pos (h.1 e hconvert)]
        rfl

/-- The other format is looked at only when there is no answer yet. -/
theorem performs_serveOther (hnotFound : w.get r.notFoundKey = none)
    (hcached : w.get r.cacheKey = none) (hother : w.get r.otherKey = some other)
    (h : (effects B upstream).Performs Drift t (tryServeFromCache s r) w cs result w') :
    result = .ok none ∨ (other ≠ [] ∧ ∃ w₁ w₂ cs', Drift w w₁ ∧ Drift w₁ w₂ ∧
      marks cs = marks cs' ∧
        (effects B upstream).Performs Drift t (serveOther s r other) w₂ cs' result w') := by
  have hnone : ∀ {w₁ : World} {key : Str}, Drift w w₁ → w.get key = none → w₁.get key = none := by
    intro w₁ key hdrift hkey
    cases hget : w₁.get key with
    | none => rfl
    | some value =>
      rw [hdrift.get hget] at hkey
      cases hkey
  obtain ⟨_, values, w₁, cs₁, hdrift, ⟨rfl, rfl⟩, rfl, hread⟩ := Effects.performs_call.mp h
  rw [List.map_cons, List.map_cons, hnone hdrift hnotFound, hnone hdrift hcached] at hread
  obtain ⟨_, values, w₂, cs₂, hdrift', ⟨rfl, rfl⟩, rfl, hserve⟩ := Effects.performs_call.mp hread
  cases hget : w₂.get r.otherKey with
  | none =>
    rw [List.map_cons, hget] at hserve
    cases hserve
    exact .inl rfl
  | some value =>
    rw [List.map_cons, hget] at hserve
    obtain rfl := Option.some.inj ((hdrift.get (hdrift'.get hget)).symm.trans hother)
    cases value with
    | nil =>
      cases hserve
      exact .inl rfl
    | cons c value => exact .inr ⟨nofun, w₁, w₂, cs₂, hdrift, hdrift', rfl, hserve⟩

/-- Without an answer in the cache, the other format is looked at. -/
theorem performs_tryServe (hnotFound : w.get r.notFoundKey = none)
    (hcached : w.get r.cacheKey = none) (hother : w.get r.otherKey = some other) (hne : other ≠ [])
    (hserve : (effects B upstream).Performs Drift t (serveOther s r other) w cs result w') :
    ∃ cs', (effects B upstream).Performs Drift t (tryServeFromCache s r) w cs' result w' := by
  obtain ⟨c, tail, rfl⟩ := List.exists_cons_of_ne_nil hne
  have hread : ∀ keys, exec B upstream t (.getMany keys) w (keys.map w.get) w :=
    fun keys => ⟨rfl, rfl⟩
  have hfirst := hread [r.notFoundKey, r.cacheKey]
  have hsecond := hread [r.otherKey]
  simp only [List.map_cons, List.map_nil, hnotFound, hcached, hother] at hfirst hsecond
  exact ⟨_, .call (Drift.refl w) hfirst (.call (Drift.refl w) hsecond hserve)⟩

/-- A cached response has the name of its project in a header. -/
theorem cachedResponse_names (canonical body : Str) (isJson : Bool) :
    (cachedResponse s canonical body isJson).Returns fun reply =>
      (("X-Cache-Key" : Str), canonical) ∈ reply.headers := by
  unfold cachedResponse
  split
  · refine Prog.Returns.bind_of_forall _ fun ttl => ?_
    cases ttl with
    | none => exact Prog.Returns.bind_of_forall _ fun _ => by simp
    | some ttl => simp
  · simp

/-- A reply that cannot be sent raises. -/
theorem sendHit_raises {reply : Reply}
    (h : ¬ (encodable s.U reply.body = true ∧ ∀ header ∈ reply.headers,
      C.encodes header.2 = true)) :
    ¬ ∃ found, sendHit s.U C (.ok (some reply)) = .ok found := by
  rintro ⟨found, hfound⟩
  change (send s.U C reply).map some = _ at hfound
  unfold send at hfound
  rw [if_neg] at hfound
  · cases hfound
  · rwa [Bool.and_eq_true, List.all_eq_true]

/-- A conversion that has the time is stored and replied with, when nobody interferes. -/
theorem exists_stored (hother : w.get r.otherKey = some other)
    (hlasts : Lasts w r.otherKey) :
    ∃ cs reply w', (effects .memory upstream).Performs Drift t (storeConversion s r other page) w cs
      (.ok (some reply)) w' ∧ reply.body = page := by
  obtain ⟨otherTtl, httl⟩ := Option.ne_none_iff_exists'.mp hlasts
  have hmatches : w.store.Matches w.now [(r.otherKey, some other)] := by
    intro kv hkv
    rw [List.mem_singleton.mp hkv]
    exact hother
  let otherStaleTtl := (w.expiry r.otherStaleKey).bind fun e => Backend.memory.ttl (e - w.now)
  let values := conversionValues r otherTtl otherStaleTtl page
  let stored := (w.write values).record (.committed t values)
  have hcommit : exec .memory upstream t (.setexManyIfUnchanged [(r.otherKey, some other)] values)
      w true stored := by
    show if w.store.Matches w.now [(r.otherKey, some other)] then _ else _
    rw [if_pos hmatches]
    exact ⟨rfl, rfl⟩
  obtain ⟨cs, result, w', hrun⟩ := Effects.exists_performs (F := effects .memory upstream) (t := t)
    Drift.refl (calls_replyConverted.mono fun o ho => exists_exec ho) stored
  obtain rfl := hrun.returns (@returns_replyConverted s r page)
  exact ⟨_, _, w', .call (Drift.refl w) ⟨httl.symm, rfl⟩ (.call (Drift.refl w) ⟨rfl, rfl⟩
    (.call (Drift.refl w) hcommit hrun)), rfl⟩

/-- An entry that is not safe has a run that raises, in memory. -/
theorem exists_raises (hother : w.get r.otherKey = some other) (h : ¬ Safe s C r w other) :
    other ≠ [] ∧ ∃ cs result w',
      (effects .memory upstream).Performs Drift t (serveOther s r other) w cs result w' ∧
        ¬ ∃ found, sendHit s.U C result = .ok found := by
  obtain ⟨hne, h⟩ := not_or.mp h
  refine ⟨hne, ?_⟩
  unfold serveOther
  by_cases hpass : (r.wantsJson && r.allowHtmlPassthrough) = true
  · rw [if_pos hpass] at h ⊢
    have hcalls : Prog.Calls (Op.LooksAt s r.canonical)
        (cachedResponse s r.canonical other false >>= fun reply =>
          (.ret (.ok (some reply)) : Program (Except Failure (Option Reply)))) :=
      (cachedResponse_calls s r.canonical other false).bind fun _ => trivial
    have hreplies : Prog.Returns (fun result => ∃ reply, result = .ok (some reply) ∧
          (("X-Cache-Key" : Str), r.canonical) ∈ reply.headers ∧ reply.body = other)
        (cachedResponse s r.canonical other false >>= fun reply =>
          (.ret (.ok (some reply)) : Program (Except Failure (Option Reply)))) :=
      ((cachedResponse_names r.canonical other false).and
        (cachedResponse_replies r.canonical other false)).bind
          fun reply hreply => ⟨reply, rfl, hreply.1, hreply.2.1⟩
    obtain ⟨cs, result, w', hrun⟩ := Effects.exists_performs (F := effects .memory upstream)
      (t := t) Drift.refl (hcalls.mono fun o ho => exists_exec ho.1) w
    refine ⟨cs, result, w', hrun, ?_⟩
    obtain ⟨reply, rfl, hname, rfl⟩ := hrun.returns hreplies
    exact sendHit_raises fun hsent => h ⟨hsent.2 _ hname, hsent.1⟩
  rw [if_neg hpass, ← guarded_convertBody_iff r.canonical] at h
  rw [if_neg hpass]
  have helapse : exec .memory upstream t .elapse w () w := ⟨w.now, le_refl _, rfl⟩
  by_cases hguarded : Guarded isCaught (convertBody s r.canonical r.wantsJson other)
  · -- the page is stored, but it cannot be sent
    obtain ⟨hlasts, page, hconvert, hpage⟩ : Lasts w r.otherKey ∧ ∃ page,
        convertBody s r.canonical r.wantsJson other = .ok page ∧ encodable s.U page ≠ true := by
      by_contra hnot
      refine h ⟨hguarded, fun hlasts page hconvert => ?_⟩
      by_contra hpage
      exact hnot ⟨hlasts, page, hconvert, hpage⟩
    obtain ⟨cs, reply, w', hrun, rfl⟩ :=
      @exists_stored s r upstream t w other page hother hlasts
    refine ⟨⟨.elapse, ()⟩ :: cs, .ok (some reply), w', .call (Drift.refl w)
      ⟨w.now, le_refl _, rfl⟩ ?_,
      sendHit_raises fun hsent => hpage hsent.1⟩
    dsimp only [Prog.bind]
    rw [hconvert]
    exact hrun
  · obtain ⟨e, hconvert, hescapes⟩ : ∃ e, convertBody s r.canonical r.wantsJson other = .error e ∧
        isCaught e ≠ true := by
      by_contra hnot
      exact hguarded fun e hconvert => by_contra fun hescapes => hnot ⟨e, hconvert, hescapes⟩
    refine ⟨[⟨.elapse, ()⟩], .error (.raised e), w, ?_, ?_⟩
    · refine .call (Drift.refl w) ⟨w.now, le_refl _, rfl⟩ ?_
      dsimp only [Prog.bind]
      rw [hconvert]
      dsimp only
      rw [if_neg hescapes]
      exact .ret (Drift.refl w)
    · rintro ⟨found, hfound⟩
      cases hfound

/-- Only a reply comes with a batch. -/
theorem eq_nil_of_tried {ms : List Mark} (h : Tried r ms (.ok none)) : ms = [] := by
  cases ms with
  | nil => rfl
  | cons m rest => cases m <;> cases rest <;> cases h

theorem safe_of_fallsThrough (hnotFound : w.get r.notFoundKey = none)
    (hcached : w.get r.cacheKey = none) (hother : w.get r.otherKey = some other)
    (h : FallsThrough s C r w) : Safe s C r w other := by
  by_contra hsafe
  obtain ⟨hne, cs, result, w', hserve, hraises⟩ :=
    @exists_raises s C r (fun _ _ _ => False) 0 w other hother hsafe
  obtain ⟨cs', hrun⟩ := performs_tryServe hnotFound hcached hother hne hserve
  exact hraises (h _ _ _ _ _ _ hrun nofun).1

theorem fallsThrough_of_safe (hnotFound : w.get r.notFoundKey = none)
    (hcached : w.get r.cacheKey = none) (hother : w.get r.otherKey = some other)
    (h : Safe s C r w other) : FallsThrough s C r w := by
  intro B upstream t cs result w' hrun hstorable
  constructor
  · obtain rfl | ⟨hne, w₁, w₂, cs', hdrift, hdrift', hmarks, hserve⟩ :=
      performs_serveOther hnotFound hcached hother hrun
    · exact ⟨none, rfl⟩
    · rw [hmarks] at hstorable
      exact sends_serveOther ((h.of_drift hdrift).of_drift hdrift') hne hstorable hserve
  · intro hnone
    have htried := hrun.emits emits_tryServeFromCache
    rw [hnone] at htried
    have hfollows := follows_of_performs hrun
    rw [marks, eq_nil_of_tried htried] at hfollows
    cases hfollows
    assumption

/-- **A cached entry that cannot be converted falls through** to the upstream exactly when it is
safe. -/
theorem fallsThrough_iff (s : Site) (C : HeaderCodec) (r : ProjectRequest) {w : World}
    {other : Str} (hnotFound : w.get r.notFoundKey = none) (hcached : w.get r.cacheKey = none)
    (hother : w.get r.otherKey = some other) : FallsThrough s C r w ↔ Safe s C r w other :=
  ⟨safe_of_fallsThrough hnotFound hcached hother, fallsThrough_of_safe hnotFound hcached hother⟩

end Serving

/-! ## A stored document -/

open Freshness (pageSite one)
open JsonPassthrough (jsonSite noFloat plainKey)

/-- Documents are read as JSON. -/
def documentSite : Site := jsonSite noFloat pageSite

/-- A request for the page of the project. -/
def pageRequest : ProjectRequest := projectRequest documentSite one none

/-- The store holds the JSON document of the project. -/
def holding (document : Str) : World :=
  emptyWorld.write [⟨projectKey one (.body true), 60, document⟩]

theorem holding_get (document : Str) : (holding document).get pageRequest.notFoundKey = none ∧
    (holding document).get pageRequest.cacheKey = none ∧
    (holding document).get pageRequest.otherKey = some document := by
  have hother : pageRequest.otherKey = projectKey one (.body true) := by decide +kernel
  have hmissing : ∀ key, key ≠ projectKey one (.body true) → (holding document).get key = none := by
    intro key hne
    cases hget : (holding document).get key with
    | none => rfl
    | some value =>
      rcases World.get_write hget with ⟨h, -⟩ | ⟨x, hmem, hkey, -⟩
      · cases h
      · rw [List.mem_singleton.mp hmem] at hkey
        exact absurd hkey.symm hne
  refine ⟨hmissing _ (by decide +kernel), hmissing _ (by decide +kernel), ?_⟩
  have hnodup : ([(⟨projectKey one (.body true), 60, document⟩ : Write)].map Write.key).Nodup :=
    List.nodup_singleton _
  have hstored := World.store_write_of_mem (w := emptyWorld) hnodup (List.mem_singleton_self _)
  rw [hother]
  exact World.get_of_store hstored (show (0 : ℤ) < 60 by decide)

theorem safe_pageRequest {w : World} {document : Str} (hne : document ≠ []) :
    Safe documentSite latin1 pageRequest w document ↔
      Guarded isCaught (convertBody documentSite one false document) := by
  have hwants : pageRequest.wantsJson = false := by decide +kernel
  rw [Safe, or_iff_right hne, hwants, guarded_convertBody_iff]
  exact and_iff_left fun _ page _ => encodable_asciiOnly page

/-- A document with one wheel. -/
theorem fallsThrough_plainKey :
    FallsThrough documentSite latin1 pageRequest (holding plainKey) := by
  obtain ⟨hnotFound, hcached, hother⟩ := holding_get plainKey
  refine (fallsThrough_iff documentSite latin1 pageRequest hnotFound hcached hother).mpr ?_
  refine (safe_pageRequest (by decide)).mpr ?_
  have hconverted : (convertBody documentSite one false plainKey).isOk = true := by decide +kernel
  intro e hraises
  rw [hraises] at hconverted
  cases hconverted

/-- A document that is a list: the conversion asks it for its members. -/
theorem not_fallsThrough_list : ¬ FallsThrough documentSite latin1 pageRequest
    (holding ("[]" : Str)) := by
  obtain ⟨hnotFound, hcached, hother⟩ := holding_get ("[]" : Str)
  intro h
  have hsafe := safe_of_fallsThrough hnotFound hcached hother h
  have hraises : convertBody documentSite one false ("[]" : Str) = .error .attributeError := by
    decide +kernel
  cases (safe_pageRequest (by decide)).mp hsafe _ hraises

end ProxyCache.Theorems.UnconvertibleEntries
