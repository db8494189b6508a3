import ProxyCache.Python.UrlFragment
import ProxyCache.Theorems.AdvertisedDocument
import ProxyCache.Theorems.StoredMetadata

/-!
# Advertising metadata in a page

`_advertise_metadata` goes through the anchors that `parse_simple_html` makes files of, and writes a
value and a link into those whose file was resolved. What is written is read back, except that
`urllib.parse` may raise for a link, and that it removes tabs and line breaks from the fragment,
where the hashes are.
-/

namespace ProxyCache.Theorems.AdvertisedPage

open ProxyCache.Lib ProxyCache.Python ProxyCache.App
open ProxyCache.Theorems.AdvertisedDocument (isResolved)
open ProxyCache.Theorems.JsonPassthrough (linkOf)
open ProxyCache.Theorems.LinkRoundTrip (directSite str_all_digits)
open ProxyCache.Theorems.MalformedLinks (Readable exists_rewritten_iff)
open ProxyCache.Theorems.StoredMetadata (isSha256_sha256Hex)

/-! ## What is read back -/

/-- A value that a file is resolved to: native metadata, or the digest of extracted metadata. -/
inductive IsResolution : Json → Prop
  | native : IsResolution (.bool true)
  | extracted {digest : Str} : isSha256 digest = true →
      IsResolution (.dict [(("sha256" : Str), .str digest)])

/-- The file itself, or the file with a value that it was resolved to. -/
inductive Resolved (f : File) : File → Prop
  | left : Resolved f f
  | found {value : Json} : needsProbe f = true → IsResolution value →
      Resolved f (withCoreMetadata f value)

section Pages

variable (s : Site)

/-- The links of the anchors that have one. -/
def hrefs (anchors : List Anchor) : List Str :=
  anchors.filterMap fun a => (a.get ("href" : Str)).filter (· ≠ [])

/-- The files of a page. -/
def pageFiles (anchors : List Anchor) : List File := anchors.filterMap (parseAnchor s.U)

/-- A link with its file before and after the probes, for each file of a page. -/
def rows (anchors : List Anchor) (probed : List File) : List (Str × File × File) :=
  (hrefs anchors).zip ((pageFiles s anchors).zip probed)

/-- The file that has to be read back: with its value and with the rewritten link if it was
resolved, else as it was. -/
def expectedFile (href : Str) (f f' : File) : File :=
  if isResolved f f' then
    { f' with url := .str (stripFragment (linkOf s.U s.settings href)) }
  else f

/-- Parsing the advertised page yields the expected files. -/
def ReadsBack (body : Str) (anchors : List Anchor) (probed : List File) : Prop :=
  ∃ out, advertiseMetadata s body false probed = .ok out ∧
    ∀ name, parseSimpleHtml s.U s.D name out = .ok {
      name := .str name
      files := (rows s anchors probed).map fun row => expectedFile s row.1 row.2.1 row.2.2 }

/-- The link can be read, and it is left alone or its hashes do not depend on tabs and line
breaks. -/
def Lands (href : Str) : Prop :=
  Readable s.U s.settings href ∧ (rewriteFileUrl s.U s.settings href = .ok href ∨
    parseHashes (safeChars href) = parseHashes href)

end Pages

/-! ## What a probe returns -/

section Probes

variable {s : Site} {f : File} {fileUrl : Str} {wheelSha256 : Option Str}

/-- If metadata were found, their digest is one. -/
def Digested (r : Except Raised (Option MetadataResolution)) : Prop :=
  ∀ resolution digest, r = .ok (some resolution) → resolution.metadataSha256 = some digest →
    isSha256 digest = true

theorem digested_error (e : Raised) : Digested (.error e) := nofun

theorem digested_none : Digested (.ok none) := nofun

theorem digested_some {resolution : MetadataResolution}
    (h : ∀ digest, resolution.metadataSha256 = some digest → isSha256 digest = true) :
    Digested (.ok (some resolution)) := by
  intro resolution' digest hsame hdigest
  obtain rfl := Option.some.inj (Except.ok.inj hsame)
  exact h digest hdigest

theorem loadMetadataForUrl_returns : (loadMetadataForUrl s fileUrl wheelSha256).Returns fun r =>
    ∀ stored, r = .ok (some stored) → isSha256 stored.2 = true := by
  unfold loadMetadataForUrl
  refine Prog.Returns.bind_of_forall _ fun rawRecord => ?_
  cases rawRecord with
  | none => exact nofun
  | some rawRecord =>
    dsimp only
    split
    · exact nofun
    · exact nofun
    · next record expected _ =>
      split
      · exact nofun
      · refine Prog.Returns.bind_of_forall _ fun body => ?_
        cases body with
        | none => exact nofun
        | some body =>
          intro stored hstored
          have hstored := Except.ok.inj hstored
          split at hstored
          · next hdigest =>
            obtain rfl := Option.some.inj hstored
            exact hdigest ▸ isSha256_sha256Hex _
          · cases hstored

theorem storeMetadataContent_returns (text : Str) :
    (storeMetadataContent s fileUrl text wheelSha256).Returns fun r =>
      ∀ stored, r = .ok stored → isSha256 stored.2 = true := by
  unfold storeMetadataContent
  dsimp only
  split
  · exact nofun
  · have hreturn : ∀ stored, (.ok (text, sha256Hex (utf8 text)) : Except Raised _) = .ok stored →
        isSha256 stored.2 = true := fun stored hstored =>
      Except.ok.inj hstored ▸ isSha256_sha256Hex _
    refine Prog.Returns.bind_of_forall _ fun _ => ?_
    split
    · exact Prog.Returns.bind_of_forall _ fun _ => Prog.Returns.bind_of_forall _ fun _ => hreturn
    · exact Prog.Returns.bind_of_forall _ fun _ => hreturn

theorem extractionFailed_digested (artifactUrl failureKey : Str) :
    (extractionFailed s artifactUrl failureKey).Returns Digested := by
  unfold extractionFailed
  split
  · exact digested_error _
  · exact Prog.Returns.bind_of_forall _ fun _ => digested_none

theorem extractMissing_digested (allowExtraction : Bool) :
    (extractMissing s fileUrl wheelSha256 allowExtraction).Returns Digested := by
  unfold extractMissing
  split
  · exact digested_none
  · refine Prog.Returns.bind_of_forall _ fun failure => ?_
    cases failure with
    | some _ => exact digested_none
    | none =>
      dsimp only
      split
      · exact digested_error _
      · exact digested_none
      · refine Prog.Returns.bind_of_forall _ fun text => ?_
        cases text with
        | none => exact extractionFailed_digested _ _
        | some text =>
          refine (storeMetadataContent_returns text).bind fun stored hstored => ?_
          cases stored with
          | error e => exact extractionFailed_digested _ _
          | ok stored =>
            refine digested_some fun digest hdigest => ?_
            exact Option.some.inj hdigest ▸ hstored stored rfl

theorem resolveMissing_digested (allowExtraction checkNative : Bool) :
    (resolveMissing s fileUrl wheelSha256 allowExtraction checkNative).Returns Digested := by
  unfold resolveMissing
  refine loadMetadataForUrl_returns.bind fun loaded hloaded => ?_
  split
  · exact digested_error _
  · next stored =>
    refine digested_some fun digest hdigest => ?_
    exact Option.some.inj hdigest ▸ hloaded stored rfl
  · split
    · unfold checkNativeThenExtract
      split
      · exact digested_error _
      · exact digested_none
      · refine Prog.Returns.bind_of_forall _ fun status => ?_
        split
        · split
          · exact digested_some nofun
          · exact extractMissing_digested _
        · split
          · exact digested_error _
          · exact extractMissing_digested _
    · exact extractMissing_digested _

theorem resolveMetadataForUrl_digested (pid : ℕ) (allowExtraction checkNative : Bool) :
    (resolveMetadataForUrl s pid fileUrl wheelSha256 allowExtraction checkNative).Returns
      Digested := by
  unfold resolveMetadataForUrl
  refine loadMetadataForUrl_returns.bind fun loaded hloaded => ?_
  split
  · exact digested_error _
  · next stored =>
    refine digested_some fun digest hdigest => ?_
    exact Option.some.inj hdigest ▸ hloaded stored rfl
  · refine Prog.Returns.bind_of_forall _ fun _ => ?_
    refine (resolveMissing_digested _ _).bind fun r hr => ?_
    exact Prog.Returns.bind_of_forall _ fun _ => hr

/-- Whatever the calls answer, `_probe` returns the file, or the file with such a value. -/
theorem probe_resolved (pid : ℕ) (allowExtraction checkNative : Bool) :
    (probe s pid f allowExtraction checkNative).Returns fun r =>
      ∀ f', r = .ok f' → Resolved f f' := by
  unfold probe
  split
  · intro f' hf'
    exact Except.ok.inj hf' ▸ .left
  next hneeds =>
  have hneeds : needsProbe f = true := by simpa using hneeds
  split
  · exact nofun
  · exact nofun
  · exact nofun
  · refine (resolveMetadataForUrl_digested pid _ _).bind fun r hr => ?_
    cases r with
    | error e => exact nofun
    | ok resolution =>
      intro f' hf'
      obtain rfl := Except.ok.inj hf'
      cases resolution with
      | none => exact .left
      | some resolution =>
        unfold applyResolution
        dsimp only
        split
        · exact .found hneeds .native
        · split
          · next digest hdigest => exact .found hneeds (.extracted (hr _ digest rfl hdigest))
          · exact .left

end Probes

/-! ## Hashes of rewritten links -/

section Hashes

variable {U : Unicode} {settings : Settings} {url url' : Str}

/-- The hashes of a link are those of its fragment. -/
theorem parseHashes_eq (url : Str) : parseHashes url =
    (((cut '#' url).2.getD []).splitOnP fun c => c = '&' || c = ',').foldl addHash [] := by
  unfold parseHashes
  cases cut '#' url with
  | mk before after => cases after <;> rfl

theorem parseHashes_safeChars (h : (cut '#' url').2.getD [] = fragmentOf url) :
    parseHashes url' = parseHashes (safeChars url) := by
  rw [parseHashes_eq, parseHashes_eq, h]
  rfl

theorem hash_not_mem_lower (hlower : ∀ text, '#' ∉ text → '#' ∉ U.lower text) {text : Str}
    (h : '#' ∉ text) : '#' ∉ lower U text := by
  unfold lower
  split
  · next hascii =>
    intro hmem
    obtain ⟨c, hc, hhash⟩ := List.mem_map.mp hmem
    have hall : ∀ n < 128, (Char.ofNat n).toLower = '#' → Char.ofNat n = '#' := by decide +kernel
    have hlt : c.toNat < 128 := by simpa [isAscii] using List.all_eq_true.mp hascii c hc
    have hsame := hall c.toNat hlt
    rw [Char.ofNat_toNat] at hsame
    exact h (hsame hhash ▸ hc)
  · exact hlower text h

theorem hash_not_mem_hostinfo {netloc : Str} (h : '#' ∉ netloc) : '#' ∉ (hostinfo netloc).1 := by
  have hinfo : '#' ∉ (rcut '@' netloc).2 := fun hmem => h (mem_of_mem_rcut_snd hmem)
  unfold hostinfo
  dsimp only
  generalize (rcut '@' netloc).2 = info at hinfo
  split
  · next before bracketed hcut =>
    rw [cut_eq_some hcut] at hinfo
    intro hmem
    have hbracketed := (prefix_of_cut_fst ']' bracketed).mem hmem
    exact hinfo (List.mem_append_right _ (List.mem_cons_of_mem _ hbracketed))
  · exact fun hmem => hinfo ((prefix_of_cut_fst _ _).mem hmem)

theorem hash_not_mem_hostname (hlower : ∀ text, '#' ∉ text → '#' ∉ U.lower text) {netloc : Str}
    (h : '#' ∉ netloc) : '#' ∉ (hostnameOf U netloc).getD [] := by
  have hhost := hash_not_mem_hostinfo h
  unfold hostnameOf
  split
  · exact List.not_mem_nil
  · next host port _ heq =>
    rw [heq] at hhost
    split
    · next name zone hcut =>
      rw [cut_eq_some hcut] at hhost
      simp only [List.mem_append, List.mem_cons, not_or] at hhost
      simp only [Option.getD_some, List.mem_append, List.mem_cons, not_or]
      exact ⟨hash_not_mem_lower hlower hhost.1, by decide, hhost.2.2⟩
    · next name hcut =>
      rw [(cut_eq_none hcut).1] at hhost
      exact hash_not_mem_lower hlower hhost

theorem hash_not_mem_authority (hlower : ∀ text, '#' ∉ text → '#' ∉ U.lower text)
    {parsed : ParseResult} {host : Str} (h : authorityOf U parsed = .ok host)
    (hnetloc : '#' ∉ parsed.netloc) : '#' ∉ host := by
  have hname := hash_not_mem_lower hlower (hash_not_mem_hostname hlower hnetloc)
  obtain ⟨port, -, h⟩ := ok_of_bind h
  cases port with
  | none => exact Except.ok.inj h ▸ hname
  | some port =>
    dsimp only at h
    split at h
    · obtain rfl := Except.ok.inj h
      intro hmem
      rcases List.mem_append.mp hmem with hmem | hmem
      · exact hname hmem
      rcases List.mem_cons.mp hmem with hmem | hmem
      · exact absurd hmem (by decide)
      · exact absurd (List.all_eq_true.mp (str_all_digits port) _ hmem) (by decide)
    · exact Except.ok.inj h ▸ hname

/-- A rewritten link ends with the fragment. -/
theorem cut_artifactLink {parsed : ParseResult} {host : Str} (hhost : '#' ∉ host)
    (hpath : '#' ∉ parsed.path) (hquery : '#' ∉ parsed.query) :
    (cut '#' (artifactLink host parsed)).2.getD [] = parsed.fragment := by
  have hslash : '#' ∉ if parsed.path = [] then ['/'] else parsed.path := by
    split
    · decide
    · exact hpath
  have hquestion : '#' ∉ queryText parsed.query := by
    unfold queryText
    split
    · exact List.not_mem_nil
    · simpa using hquery
  unfold artifactLink
  dsimp only
  generalize (if parsed.path = [] then ['/'] else parsed.path) = path at hslash
  refine (cut_fragmentText ?_ parsed.fragment).2
  have hartifacts : '#' ∉ ("/artifacts/" : Str) := by decide
  simp only [List.mem_append, not_or]
  refine ⟨⟨⟨hartifacts, hhost⟩, ?_⟩, hquestion⟩
  split
  · exact hslash
  · simpa using hslash

/-- A link that is rewritten at all is resolved first. -/
theorem rewritten_cases (h : rewriteFileUrl U settings url = .ok url') :
    url' = url ∨ ∃ base resolved parsed host, url ≠ [] ∧ urljoin U base url = .ok resolved ∧
      urlparse U resolved [] = .ok parsed ∧ authorityOf U parsed = .ok host ∧
      url' = artifactLink host parsed := by
  unfold rewriteFileUrl at h
  split at h
  · exact .inl (Except.ok.inj h).symm
  next hne =>
  split at h
  · exact .inl (Except.ok.inj h).symm
  obtain ⟨resolved, hresolved, h⟩ := ok_of_bind h
  obtain ⟨parsed, hparsed, h⟩ := ok_of_bind h
  split at h
  · exact .inl (Except.ok.inj h).symm
  obtain ⟨host, hhost, h⟩ := ok_of_bind h
  obtain ⟨allowed, -, h⟩ := ok_of_bind h
  split at h
  · exact .inl (Except.ok.inj h).symm
  · exact .inr ⟨_, resolved, parsed, host, hne, hresolved, hparsed, hhost, (Except.ok.inj h).symm⟩

theorem rewritten_ne_nil (hne : url ≠ []) (h : rewriteFileUrl U settings url = .ok url') :
    url' ≠ [] := by
  rcases rewritten_cases h with rfl | ⟨_, _, parsed, host, -, -, -, -, rfl⟩
  · exact hne
  · exact List.cons_ne_nil _ _

/-- A link that is rewritten has the hashes of its safe characters. -/
theorem parseHashes_rewritten (hlower : ∀ text, '#' ∉ text → '#' ∉ U.lower text)
    (h : rewriteFileUrl U settings url = .ok url') :
    url' = url ∨ parseHashes url' = parseHashes (safeChars url) := by
  rcases rewritten_cases h with rfl | ⟨base, resolved, parsed, host, hne, hresolved, hparsed,
    hhost, rfl⟩
  · exact .inl rfl
  · have hfrom := parsedFrom_of_urlparse hparsed List.not_mem_nil
    refine .inr (parseHashes_safeChars ?_)
    rw [← fragmentOf_urljoin hne hresolved, ← hfrom.fragment]
    exact cut_artifactLink (hash_not_mem_authority hlower hhost hfrom.netloc) hfrom.path
      hfrom.query

end Hashes

/-! ## Values of attributes -/

section Values

variable {U : Unicode} {D : Documents} {value : Json} {text written : Str}

/-- A value that was read from an attribute and is written again reads as before. -/
theorem normMeta_written (h : metadataValueToHtml D (normMeta U text) = some written) :
    normMeta U written = normMeta U text := by
  have htrue : normMeta U ("true" : Str) = .bool true := rfl
  have hfalse : normMeta U ("false" : Str) = .bool false := rfl
  generalize hvalue : normMeta U text = value at h
  unfold normMeta at hvalue
  split at hvalue
  · obtain rfl := hvalue
    obtain rfl := Option.some.inj h
    exact htrue
  next hnotTrue =>
  split at hvalue
  · obtain rfl := hvalue
    obtain rfl := Option.some.inj h
    exact hfalse
  next hnotFalse =>
  split at hvalue
  · next algorithm digest hcut =>
    split at hvalue
    · next hparts =>
      obtain rfl := hvalue
      -- the one algorithm of the value is the one that is preferred
      obtain ⟨preferred, -, hfound⟩ := List.exists_of_findSome?_eq_some h
      have hsame : algorithm = preferred := by
        by_contra hne
        simp [dictGet_cons, hne] at hfound
      subst hsame
      have hwritten : written = text := by
        have hdigest : (Json.str digest).truthy = true := by simpa [Json.truthy] using hparts.2
        simp only [dictGet_cons, if_true, hdigest, Documents.text_str, Option.some.injEq] at hfound
        rw [cut_eq_some hcut, hfound]
      rw [hwritten]
      unfold normMeta
      rw [if_neg hnotTrue, if_neg hnotFalse, hcut]
      exact if_pos hparts
    · next hparts =>
      obtain rfl := hvalue
      obtain rfl := Option.some.inj h
      unfold normMeta
      rw [if_neg hnotTrue, if_neg hnotFalse, hcut]
      exact if_neg hparts
  · next hcut =>
    obtain rfl := hvalue
    obtain rfl := Option.some.inj h
    unfold normMeta
    rw [if_neg hnotTrue, if_neg hnotFalse, hcut]

theorem isAscii_of_isHexDigit {c : Char} (h : isHexDigit c = true) : isAscii c = true := by
  simp only [isHexDigit, Bool.or_eq_true, Bool.and_eq_true, decide_eq_true_eq, Char.le_def,
    UInt32.le_iff_toNat_le] at h
  have hc : c.toNat = c.val.toNat := rfl
  have hf : 'f'.val.toNat = 102 := rfl
  have hF : 'F'.val.toNat = 70 := rfl
  rcases h with (h | h) | h
  · exact isAscii_of_isDigit h
  · exact decide_eq_true (by omega)
  · exact decide_eq_true (by omega)

/-- A digest is read back as it was written. -/
theorem normMeta_sha256 {digest : Str} (h : isSha256 digest = true) :
    normMeta U (("sha256" : Str) ++ '=' :: digest) =
      .dict [(("sha256" : Str), .str digest)] := by
  obtain ⟨hlength, hhex⟩ := Bool.and_eq_true_iff.mp h
  have hdigits : digest.all isAscii = true :=
    List.all_eq_true.mpr fun c hc => isAscii_of_isHexDigit (List.all_eq_true.mp hhex c hc)
  have hascii : (("sha256" : Str) ++ '=' :: digest).all isAscii = true := by
    rw [List.all_append, List.all_cons, hdigits]
    decide
  have hlower : lower U (("sha256" : Str) ++ '=' :: digest) =
      's' :: (("ha256" : Str) ++ '=' :: digest.map Char.toLower) := by
    rw [lower_ascii U hascii]
    simp
  have hne : digest ≠ [] := by
    rintro rfl
    cases hlength
  unfold normMeta
  rw [hlower, if_neg (by simp), if_neg (by simp), cut_append (by decide)]
  exact if_pos ⟨by decide, hne⟩

/-- The text of a resolved value, which reads as the value. -/
theorem exists_written (D : Documents) (h : IsResolution value) :
    ∃ written, metadataValueToHtml D value = some written ∧ normMeta U written = value := by
  cases h with
  | native => exact ⟨_, rfl, rfl⟩
  | @extracted digest hdigest =>
    refine ⟨("sha256" : Str) ++ '=' :: digest, ?_, normMeta_sha256 hdigest⟩
    have htruthy : (Json.str digest).truthy = true := by
      cases digest with
      | nil => cases hdigest
      | cons c digest => rfl
    simp [metadataValueToHtml, preferredHashes, dictGet_cons, htruthy]

end Values

/-! ## One anchor -/

section Anchors

variable {s : Site} {a : Anchor} {f f' : File} {href : Str}

/-- The file of an anchor with a link. -/
theorem parseAnchor_link (hhref : a.get ("href" : Str) = some href) (hne : href ≠ []) :
    parseAnchor s.U a = some {
      filename := .str (strip a.text)
      url := .str (stripFragment href)
      hashes := .dict (parseHashes href)
      requiresPython := optionalStr (a.get ("data-requires-python" : Str))
      yanked := yankedValue s.U (a.get ("data-yanked" : Str))
      distInfoMetadata := ((a.get ("data-dist-info-metadata" : Str)).map (normMeta s.U)).getD .null
      coreMetadata := ((a.get ("data-core-metadata" : Str)).map (normMeta s.U)).getD .null } := by
  unfold parseAnchor
  rw [hhref]
  exact if_neg hne

/-- The anchor with a value and a link written into it. -/
def rewrittenAnchor (a : Anchor) (value href : Str) : Anchor :=
  { a with
    attrs := dictSet (dictSet a.attrs ("data-core-metadata" : Str) value) ("href" : Str) href }

theorem get_rewrittenAnchor (a : Anchor) (value href k : Str) :
    (rewrittenAnchor a value href).get k =
      if k = ("href" : Str) then some href
      else if k = ("data-core-metadata" : Str) then some value else a.get k := by
  unfold rewrittenAnchor Anchor.get
  dsimp only
  by_cases hhref : k = ("href" : Str)
  · rw [if_pos hhref, hhref, dictGet_dictSet_self]
  · rw [if_neg hhref, dictGet_dictSet_of_ne hhref]
    by_cases hcore : k = ("data-core-metadata" : Str)
    · rw [if_pos hcore, hcore, dictGet_dictSet_self]
    · rw [if_neg hcore, dictGet_dictSet_of_ne hcore]

/-- A rewritten anchor is read as the file with the value, the link and the hashes of the link. -/
theorem parseAnchor_rewritten {value : Str} {href' : Str} (hparse : parseAnchor s.U a = some f)
    (hne : href' ≠ []) : parseAnchor s.U (rewrittenAnchor a value href') = some { f with
      url := .str (stripFragment href')
      hashes := .dict (parseHashes href')
      coreMetadata := normMeta s.U value } := by
  have hf : ∃ href, a.get ("href" : Str) = some href ∧ href ≠ [] := by
    unfold parseAnchor at hparse
    split at hparse
    · cases hparse
    · next href hhref =>
      split at hparse
      · cases hparse
      · next hhrefNe => exact ⟨href, hhref, hhrefNe⟩
  obtain ⟨href, hhref, hhrefNe⟩ := hf
  have hget := get_rewrittenAnchor a value href'
  rw [parseAnchor_link hhref hhrefNe] at hparse
  obtain rfl := Option.some.inj hparse
  rw [parseAnchor_link ((hget _).trans (if_pos rfl)) hne]
  have hcore := hget ("data-core-metadata" : Str)
  have hrequires := hget ("data-requires-python" : Str)
  have hyanked := hget ("data-yanked" : Str)
  have hdist := hget ("data-dist-info-metadata" : Str)
  rw [if_neg (by decide), if_pos rfl] at hcore
  rw [if_neg (by decide), if_neg (by decide)] at hrequires hyanked hdist
  rw [hcore, hrequires, hyanked, hdist]
  rfl

/-- The link of a file is written again, changed or not. -/
theorem advertiseAnchor_eq (hhref : a.get ("href" : Str) = some href)
    (hneeds : needsProbe f = false) :
    advertiseAnchor s a f =
      match metadataValueToHtml s.D f.coreMetadata with
      | none => .ok a
      | some value => (rewriteFileUrl s.U s.settings href).map (rewrittenAnchor a value) := by
  unfold advertiseAnchor
  rw [if_neg (by simp [hneeds])]
  cases metadataValueToHtml s.D f.coreMetadata with
  | none => rfl
  | some value =>
    have hget : dictGet (dictSet a.attrs ("data-core-metadata" : Str) value) ("href" : Str) =
        some href := (dictGet_dictSet_of_ne (by decide) _ _).trans hhref
    dsimp only
    rw [hget, Option.getD_some]
    cases rewriteFileUrl s.U s.settings href <;> rfl

/-- What is read back from the anchor of a file. -/
def readBack (s : Site) (href : Str) (f f' : File) : Except Raised File :=
  if isResolved f f' then
    (rewriteFileUrl s.U s.settings href).map fun href' =>
      { f' with url := .str (stripFragment href'), hashes := .dict (parseHashes href') }
  else .ok f

/-- The value of a file that advertises metadata is written again, and reads as before. -/
theorem advertiseAnchor_again (hparse : parseAnchor s.U a = some f)
    (hhref : a.get ("href" : Str) = some href) (hne : href ≠ []) (hneeds : needsProbe f = false)
    (hunchanged : rewriteFileUrl s.U s.settings href = .ok href) :
    (advertiseAnchor s a f).map (parseAnchor s.U) = .ok (some f) := by
  have hf := hparse
  rw [parseAnchor_link hhref hne] at hf
  rw [advertiseAnchor_eq hhref hneeds, hunchanged]
  cases hwritten : metadataValueToHtml s.D f.coreMetadata with
  | none => exact congrArg Except.ok hparse
  | some written =>
    show Except.ok (parseAnchor s.U (rewrittenAnchor a written href)) = _
    rw [parseAnchor_rewritten hparse hne]
    have hcore : normMeta s.U written = f.coreMetadata := by
      rw [← Option.some.inj hf] at hwritten ⊢
      dsimp only at hwritten ⊢
      cases hattr : a.get ("data-core-metadata" : Str) with
      | none =>
        rw [hattr] at hwritten
        cases hwritten
      | some text =>
        rw [hattr] at hwritten
        exact normMeta_written hwritten
    rw [hcore, ← Option.some.inj hf]

/-- **One anchor.** Advertising it and parsing it again yields its row. -/
theorem advertiseAnchor_readBack (hparse : parseAnchor s.U a = some f)
    (hhref : a.get ("href" : Str) = some href) (hne : href ≠ []) (hresolved : Resolved f f')
    (hunchanged : needsProbe f = false → rewriteFileUrl s.U s.settings href = .ok href) :
    (advertiseAnchor s a f').map (parseAnchor s.U) = (readBack s href f f').map some := by
  unfold readBack
  cases hresolved with
  | left =>
    rw [if_neg (by simp [isResolved])]
    by_cases hneeds : needsProbe f = true
    · unfold advertiseAnchor
      rw [if_pos hneeds]
      exact congrArg Except.ok hparse
    · have hneeds : needsProbe f = false := by simpa using hneeds
      exact advertiseAnchor_again hparse hhref hne hneeds (hunchanged hneeds)
  | @found value hneeds hvalue =>
    have hnone : needsProbe (withCoreMetadata f value) = false := by cases hvalue <;> rfl
    obtain ⟨written, hwritten, hcore⟩ := exists_written (U := s.U) s.D hvalue
    rw [if_pos (by rw [isResolved, hneeds, hnone]; rfl), advertiseAnchor_eq hhref hnone]
    show Except.map _ (match metadataValueToHtml s.D value with
      | none => _
      | some value => _) = _
    rw [hwritten]
    cases hrewrite : rewriteFileUrl s.U s.settings href with
    | error e => rfl
    | ok href' =>
      show Except.ok (parseAnchor s.U (rewrittenAnchor a written href')) = _
      rw [parseAnchor_rewritten hparse (rewritten_ne_nil hne hrewrite), hcore]
      rfl

/-- No resolved file needs a probe again. -/
theorem needsProbe_expectedFile (h : isResolved f f' = true) :
    needsProbe (expectedFile s href f f') = false := by
  rw [expectedFile, if_pos h]
  have hf' : needsProbe f' = false := by
    simpa using (Bool.and_eq_true_iff.mp h).2
  exact hf'

/-- A row is read back as it has to be exactly when its link lands. -/
theorem readBack_eq_iff (hlower : ∀ text, '#' ∉ text → '#' ∉ s.U.lower text)
    (hresolved : Resolved f f') (hhashes : f.hashes = .dict (parseHashes href)) :
    readBack s href f f' = .ok (expectedFile s href f f') ↔
      (isResolved f f' = true → Lands s href) := by
  unfold readBack expectedFile
  by_cases h : isResolved f f' = true
  · have hsame : f'.hashes = .dict (parseHashes href) := by
      cases hresolved with
      | left => exact hhashes
      | found => exact hhashes
    rw [if_pos h, if_pos h, Lands, ← exists_rewritten_iff, linkOf]
    simp only [h, true_implies]
    cases hrewrite : rewriteFileUrl s.U s.settings href with
    | error e =>
      refine iff_of_false (fun h => by cases h) fun h => ?_
      obtain ⟨⟨url', hurl'⟩, -⟩ := h
      cases hurl'
    | ok href' =>
      have hiff : (.ok { f' with
            url := .str (stripFragment href'), hashes := .dict (parseHashes href') } :
          Except Raised File) = .ok { f' with url := .str (stripFragment href') } ↔
          parseHashes href' = parseHashes href := by
        constructor
        · intro heq
          have hfields := congrArg File.hashes (Except.ok.inj heq)
          exact Json.dict.inj (hfields.trans hsame)
        · intro heq
          rw [heq, ← hsame]
      refine hiff.trans ⟨fun heq => ⟨⟨href', rfl⟩, ?_⟩, fun hlands => ?_⟩
      · rcases parseHashes_rewritten hlower hrewrite with rfl | hrewritten
        · exact .inl rfl
        · exact .inr (hrewritten.symm.trans heq)
      · rcases parseHashes_rewritten hlower hrewrite with rfl | hrewritten
        · rfl
        · rcases hlands.2 with hsame | hsafe
          · rw [Except.ok.inj hsame]
          · exact hrewritten.trans hsafe
  · rw [if_neg h, if_neg h]
    exact iff_of_true rfl fun h' => absurd h' h

end Anchors

/-! ## The page -/

section Page

variable {s : Site} {body : Str} {anchors : List Anchor} {probed : List File}

/-- The links of files that advertise metadata are rewritten already. -/
def Unchanged (s : Site) (anchors : List Anchor) : Prop :=
  ∀ row ∈ (hrefs anchors).zip (pageFiles s anchors), needsProbe row.2 = false →
    rewriteFileUrl s.U s.settings row.1 = .ok row.1

/-- An anchor has no file exactly when it has no link. -/
theorem anchor_cases (s : Site) (a : Anchor) :
    (parseAnchor s.U a = none ∧ (a.get ("href" : Str)).getD [] = [] ∧
      ∀ rest, hrefs (a :: rest) = hrefs rest) ∨
    ∃ f href, parseAnchor s.U a = some f ∧ a.get ("href" : Str) = some href ∧ href ≠ [] ∧
      (∀ rest, hrefs (a :: rest) = href :: hrefs rest) ∧
      f.hashes = .dict (parseHashes href) := by
  cases hhref : a.get ("href" : Str) with
  | none =>
    refine .inl ⟨by rw [parseAnchor, hhref], rfl, fun rest => List.filterMap_cons_none ?_⟩
    rw [hhref]
    rfl
  | some href =>
    by_cases hne : href = []
    · subst hne
      refine .inl ⟨?_, rfl, fun rest => List.filterMap_cons_none ?_⟩
      · rw [parseAnchor, hhref]
        rfl
      · rw [hhref]
        rfl
    · refine .inr ⟨_, href, parseAnchor_link hhref hne, rfl, hne, ?_, rfl⟩
      refine fun rest => List.filterMap_cons_some ?_
      rw [hhref]
      exact if_pos (decide_eq_true hne)

/-- The anchors are advertised row by row. -/
theorem advertised_files (hresolved : List.Forall₂ Resolved (pageFiles s anchors) probed)
    (hunchanged : Unchanged s anchors) :
    (advertiseAnchors s anchors probed).map (pageFiles s) =
      (rows s anchors probed).mapM fun row => readBack s row.1 row.2.1 row.2.2 := by
  induction anchors generalizing probed with
  | nil =>
    cases hresolved
    rfl
  | cons a anchors ih =>
    obtain ⟨hparse, hempty, hlinks⟩ | ⟨f, href, hparse, hhref, hne, hlinks, -⟩ := anchor_cases s a
    · have hfiles : pageFiles s (a :: anchors) = pageFiles s anchors :=
        List.filterMap_cons_none hparse
      have hlinks := hlinks anchors
      have hrows : rows s (a :: anchors) probed = rows s anchors probed := by
        rw [rows, hlinks, hfiles, rows]
      rw [Unchanged, hlinks] at hunchanged
      rw [hfiles] at hresolved hunchanged
      rw [hrows, ← ih hresolved hunchanged]
      cases probed with
      | nil =>
        cases anchors with
        | nil => exact congrArg Except.ok hfiles
        | cons => exact congrArg Except.ok hfiles
      | cons f' probed =>
        rw [advertiseAnchors, if_pos hempty]
        cases advertiseAnchors s anchors (f' :: probed) with
        | error e => rfl
        | ok edited => exact congrArg Except.ok (List.filterMap_cons_none hparse)
    · have hfiles : pageFiles s (a :: anchors) = f :: pageFiles s anchors :=
        List.filterMap_cons_some hparse
      have hlinks := hlinks anchors
      rw [Unchanged, hlinks, hfiles, List.zip_cons_cons, List.forall_mem_cons] at hunchanged
      rw [hfiles] at hresolved
      cases hresolved with
      | @cons _ f' _ probed hfirst hrest =>
        have hstep := advertiseAnchor_readBack hparse hhref hne hfirst hunchanged.1
        have hrows : rows s (a :: anchors) (f' :: probed) =
            (href, f, f') :: rows s anchors probed := by
          rw [rows, hlinks, hfiles]
          rfl
        rw [hrows, List.mapM_cons, ← ih hrest hunchanged.2, advertiseAnchors,
          if_neg (by rw [hhref]; exact hne)]
        dsimp only
        cases hx : advertiseAnchor s a f' with
        | error e =>
          rw [hx] at hstep
          cases hy : readBack s href f f' with
          | ok g =>
            rw [hy] at hstep
            cases hstep
          | error e' =>
            rw [hy] at hstep
            obtain rfl := Except.error.inj hstep
            rfl
        | ok a' =>
          rw [hx] at hstep
          cases hy : readBack s href f f' with
          | error e' =>
            rw [hy] at hstep
            cases hstep
          | ok g =>
            rw [hy] at hstep
            cases advertiseAnchors s anchors probed with
            | error e => rfl
            | ok edited =>
              exact congrArg Except.ok (List.filterMap_cons_some (Except.ok.inj hstep))

/-- The files of a page are in the order of its links. -/
theorem hrefs_files (s : Site) (anchors : List Anchor) :
    List.Forall₂ (fun href f => f.hashes = .dict (parseHashes href)) (hrefs anchors)
      (pageFiles s anchors) := by
  induction anchors with
  | nil => exact .nil
  | cons a anchors ih =>
    obtain ⟨hparse, -, hlinks⟩ | ⟨f, href, hparse, -, -, hlinks, hhashes⟩ := anchor_cases s a
    · rw [hlinks, pageFiles, List.filterMap_cons_none hparse]
      exact ih
    · rw [hlinks, pageFiles, List.filterMap_cons_some hparse]
      exact .cons hhashes ih

/-- The hashes of a file are those of its link. -/
theorem hashes_of_row {row : Str × File × File} (h : row ∈ rows s anchors probed) :
    row.2.1.hashes = .dict (parseHashes row.1) := by
  have hall := hrefs_files s anchors
  unfold rows at h
  generalize hrefs anchors = links at hall h
  generalize pageFiles s anchors = files at hall h
  induction hall generalizing probed with
  | nil => cases h
  | @cons href f links files hhashes _ ih =>
    cases probed with
    | nil => cases h
    | cons f' probed =>
      rcases List.mem_cons.mp h with rfl | h
      · exact hhashes
      · exact ih h

/-- The page reads back exactly when its rows do. -/
theorem readsBack_iff_rows (hanchors : s.D.anchors body = .ok anchors)
    (hparsed : ∀ edited, advertiseAnchors s anchors probed = .ok edited →
      s.D.anchors (s.D.withAnchors body edited) = .ok edited)
    (hresolved : List.Forall₂ Resolved (pageFiles s anchors) probed)
    (hunchanged : Unchanged s anchors) :
    ReadsBack s body anchors probed ↔ ∀ row ∈ rows s anchors probed,
      readBack s row.1 row.2.1 row.2.2 = .ok (expectedFile s row.1 row.2.1 row.2.2) := by
  have hpage : advertiseMetadata s body false probed =
      (advertiseAnchors s anchors probed).map (s.D.withAnchors body) := by
    show (s.D.anchors body >>= fun anchors => advertiseAnchors s anchors probed >>= fun edited =>
      .ok (s.D.withAnchors body edited)) = _
    rw [hanchors]
    show (advertiseAnchors s anchors probed >>= _) = _
    cases advertiseAnchors s anchors probed <;> rfl
  have hmapM : (∀ row ∈ rows s anchors probed,
      readBack s row.1 row.2.1 row.2.2 = .ok (expectedFile s row.1 row.2.1 row.2.2)) ↔
      (advertiseAnchors s anchors probed).map (pageFiles s) =
        .ok ((rows s anchors probed).map fun row => expectedFile s row.1 row.2.1 row.2.2) := by
    rw [advertised_files hresolved hunchanged, mapM_eq_ok_iff, List.forall₂_map_right_iff,
      List.forall₂_same]
  rw [hmapM, ReadsBack, hpage]
  cases hedited : advertiseAnchors s anchors probed with
  | error e => exact iff_of_false (fun ⟨out, hout, _⟩ => by cases hout) nofun
  | ok edited =>
    have hread : ∀ name, parseSimpleHtml s.U s.D name (s.D.withAnchors body edited) =
        .ok { name := .str name, files := pageFiles s edited } := by
      intro name
      rw [parseSimpleHtml, hparsed edited hedited]
      rfl
    constructor
    · intro ⟨out, hout, hfiles⟩
      obtain rfl := Except.ok.inj hout
      have hsame := (hread []).symm.trans (hfiles [])
      exact congrArg Except.ok (congrArg Project.files (Except.ok.inj hsame))
    · intro hfiles
      refine ⟨_, rfl, fun name => ?_⟩
      rw [hread name, Except.ok.inj hfiles]

/-- Forwards, the links land. -/
theorem lands_of_readsBack (hlower : ∀ text, '#' ∉ text → '#' ∉ s.U.lower text)
    (hanchors : s.D.anchors body = .ok anchors)
    (hparsed : ∀ edited, advertiseAnchors s anchors probed = .ok edited →
      s.D.anchors (s.D.withAnchors body edited) = .ok edited)
    (hresolved : List.Forall₂ Resolved (pageFiles s anchors) probed)
    (hunchanged : Unchanged s anchors) (h : ReadsBack s body anchors probed) :
    ∀ row ∈ rows s anchors probed, isResolved row.2.1 row.2.2 = true → Lands s row.1 := by
  intro row hrow
  have hpair := List.forall₂_zip hresolved (List.of_mem_zip hrow).2
  refine (readBack_eq_iff hlower hpair (hashes_of_row hrow)).mp ?_
  exact (readsBack_iff_rows hanchors hparsed hresolved hunchanged).mp h row hrow

/-- **Advertisements land on the right link and read back**, exactly when the link of every
resolved file lands. -/
theorem readsBack_iff (s : Site) {body : Str} {anchors : List Anchor} {probed : List File}
    (hlower : ∀ text, '#' ∉ text → '#' ∉ s.U.lower text)
    (hanchors : s.D.anchors body = .ok anchors)
    (hparsed : ∀ edited, advertiseAnchors s anchors probed = .ok edited →
      s.D.anchors (s.D.withAnchors body edited) = .ok edited)
    (hresolved : List.Forall₂ Resolved (pageFiles s anchors) probed)
    (hunchanged : Unchanged s anchors) :
    ReadsBack s body anchors probed ↔
      ∀ row ∈ rows s anchors probed, isResolved row.2.1 row.2.2 = true → Lands s row.1 := by
  refine ⟨lands_of_readsBack hlower hanchors hparsed hresolved hunchanged, fun hlands => ?_⟩
  refine (readsBack_iff_rows hanchors hparsed hresolved hunchanged).mpr fun row hrow => ?_
  have hpair := List.forall₂_zip hresolved (List.of_mem_zip hrow).2
  exact (readBack_eq_iff hlower hpair (hashes_of_row hrow)).mpr (hlands row hrow)

end Page

/-! ## A wheel -/

section Example

/-- Anchors as a page. -/
def render (anchors : List Anchor) : Str :=
  anchors.flatMap fun a =>
    ("<a" : Str) ++ (a.attrs.flatMap fun kv => ' ' :: kv.1 ++ '=' :: '"' :: kv.2 ++ ['"'])
      ++ '>' :: a.text ++ ("</a>" : Str)

variable (fragment : Str)

def wheelHref : Str := ("https://files.pythonhosted.org/one.whl#" : Str) ++ fragment

/-- An anchor without a link, a wheel that misses metadata, and one that advertises them. -/
def wheelAnchors : List Anchor :=
  [⟨[], ("top" : Str)⟩,
    ⟨[(("href" : Str), wheelHref fragment)], ("one.whl" : Str)⟩,
    ⟨[(("href" : Str), ("/artifacts/files.pythonhosted.org/two.whl" : Str)),
      (("data-core-metadata" : Str), ("TRUE" : Str))], ("two.whl" : Str)⟩]

/-- The anchors when the first wheel has native metadata. -/
def advertisedAnchors : List Anchor :=
  [⟨[], ("top" : Str)⟩,
    ⟨[(("href" : Str), ("/artifacts/files.pythonhosted.org/one.whl#sha256=ab" : Str)),
      (("data-core-metadata" : Str), ("true" : Str))], ("one.whl" : Str)⟩,
    ⟨[(("href" : Str), ("/artifacts/files.pythonhosted.org/two.whl" : Str)),
      (("data-core-metadata" : Str), ("true" : Str))], ("two.whl" : Str)⟩]

/-- The proxy, with the two pages. -/
def wheelSite : Site := { directSite with D := { directSite.D with
  anchors := fun text =>
    .ok (if text = render (wheelAnchors fragment) then wheelAnchors fragment
      else if text = render advertisedAnchors then advertisedAnchors else [])
  withAnchors := fun _ edited => render edited } }

/-- The files of the page. -/
def wheelFiles : List File := pageFiles (wheelSite fragment) (wheelAnchors fragment)

/-- The first one is resolved. -/
def wheelsProbed : List File :=
  (wheelFiles fragment).head?.toList.map (withCoreMetadata · (.bool true)) ++
    (wheelFiles fragment).tail

variable {fragment}

/-- What is asked of the page, for two spellings of the digest. -/
theorem wheel_page (hfragment : fragment = ("sha256=ab" : Str) ∨ fragment = ("sha256=a\nb" : Str)) :
    (∀ text, '#' ∉ text → '#' ∉ (wheelSite fragment).U.lower text) ∧
    (wheelSite fragment).D.anchors (render (wheelAnchors fragment)) = .ok (wheelAnchors fragment) ∧
    (∀ edited, advertiseAnchors (wheelSite fragment) (wheelAnchors fragment)
        (wheelsProbed fragment) = .ok edited →
      (wheelSite fragment).D.anchors ((wheelSite fragment).D.withAnchors
        (render (wheelAnchors fragment)) edited) = .ok edited) ∧
    List.Forall₂ Resolved (pageFiles (wheelSite fragment) (wheelAnchors fragment))
      (wheelsProbed fragment) ∧
    Unchanged (wheelSite fragment) (wheelAnchors fragment) := by
  have hadvertised : advertiseAnchors (wheelSite fragment) (wheelAnchors fragment)
      (wheelsProbed fragment) = .ok advertisedAnchors := by
    rcases hfragment with rfl | rfl <;> decide +kernel
  have hread : (wheelSite fragment).D.anchors (render advertisedAnchors) =
      .ok advertisedAnchors := by
    rcases hfragment with rfl | rfl <;> decide +kernel
  have hunchanged : Unchanged (wheelSite fragment) (wheelAnchors fragment) := by
    unfold Unchanged
    rcases hfragment with rfl | rfl <;> decide +kernel
  obtain ⟨one, two, hfiles, hneeds⟩ : ∃ one two, pageFiles (wheelSite fragment)
      (wheelAnchors fragment) = [one, two] ∧ needsProbe one = true := ⟨_, _, rfl, rfl⟩
  refine ⟨fun _ => id, congrArg Except.ok (if_pos rfl), ?_, ?_, hunchanged⟩
  · intro edited hedited
    rw [hadvertised] at hedited
    obtain rfl := Except.ok.inj hedited
    exact hread
  · rw [wheelsProbed, wheelFiles, hfiles]
    exact .cons (.found hneeds .native) (.cons .left .nil)

/-- Only the first wheel is resolved. -/
theorem wheel_row (hfragment : fragment = ("sha256=ab" : Str) ∨ fragment = ("sha256=a\nb" : Str)) :
    ∀ row ∈ rows (wheelSite fragment) (wheelAnchors fragment) (wheelsProbed fragment),
      isResolved row.2.1 row.2.2 = true → row.1 = wheelHref fragment := by
  rcases hfragment with rfl | rfl <;> decide +kernel

/-- A wheel with a digest in its link. -/
theorem readsBack_wheel :
    let fragment : Str := ("sha256=ab" : Str)
    ReadsBack (wheelSite fragment) (render (wheelAnchors fragment)) (wheelAnchors fragment)
      (wheelsProbed fragment) := by
  intro fragment
  obtain ⟨hlower, hanchors, hparsed, hresolved, hunchanged⟩ :=
    @wheel_page fragment (.inl rfl)
  refine (readsBack_iff _ hlower hanchors hparsed hresolved hunchanged).mpr fun row hrow h => ?_
  have hsafe : safeChars (wheelHref fragment) = wheelHref fragment := by decide
  rw [wheel_row (.inl rfl) row hrow h]
  refine ⟨exists_rewritten_iff.mp ?_, .inr (congrArg parseHashes hsafe)⟩
  exact ⟨("/artifacts/files.pythonhosted.org/one.whl#sha256=ab" : Str), by decide +kernel⟩

/-- A line break in the digest is lost. -/
theorem not_readsBack_wheel :
    ¬ ∀ (s : Site) (body : Str) (anchors : List Anchor) (probed : List File),
      (∀ text, '#' ∉ text → '#' ∉ s.U.lower text) → s.D.anchors body = .ok anchors →
      (∀ edited, advertiseAnchors s anchors probed = .ok edited →
        s.D.anchors (s.D.withAnchors body edited) = .ok edited) →
      List.Forall₂ Resolved (pageFiles s anchors) probed → Unchanged s anchors →
      ReadsBack s body anchors probed := by
  intro h
  obtain ⟨hlower, hanchors, hparsed, hresolved, hunchanged⟩ :=
    @wheel_page ("sha256=a\nb" : Str) (.inr rfl)
  have hreads := h _ _ _ _ hlower hanchors hparsed hresolved hunchanged
  have hrow : ∃ row ∈ rows (wheelSite ("sha256=a\nb" : Str)) (wheelAnchors ("sha256=a\nb" : Str))
      (wheelsProbed ("sha256=a\nb" : Str)), isResolved row.2.1 row.2.2 = true := by
    decide +kernel
  obtain ⟨row, hrow, hisResolved⟩ := hrow
  have hlands := lands_of_readsBack hlower hanchors hparsed hresolved hunchanged hreads row hrow
    hisResolved
  rw [wheel_row (.inr rfl) row hrow hisResolved] at hlands
  rcases hlands.2 with hsame | hsame
  · exact absurd hsame (by decide +kernel)
  · -- the two digests differ in length
    have hlengths := congrArg (fun hashes => hashes.map fun kv => kv.2.asStr.map List.length) hsame
    exact absurd hlengths (by decide +kernel)

end Example

end ProxyCache.Theorems.AdvertisedPage
