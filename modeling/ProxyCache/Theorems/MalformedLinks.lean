import ProxyCache.Theorems.JsonPassthrough
import ProxyCache.Theorems.LinkRoundTrip

/-!
# Malformed links

`rewrite_file_url` lets the `ValueError` out that `urllib.parse` raises for the
brackets of a network location and for its port, and the three loops over the links
of a project let it out as well: one such link fails the whole page. Links that are
all readable are rewritten one by one, each as if it were alone.
-/

namespace ProxyCache.Theorems.MalformedLinks

open ProxyCache.Lib ProxyCache.Python ProxyCache.App
open ProxyCache.Theorems.Allowlist (isArtifactLink)
open ProxyCache.Theorems.JsonPassthrough (Decoded rewriteJsonBody_eq rewriteJsonBody_shortcut)
open ProxyCache.Theorems.LinkRoundTrip (rewriteFileUrl_of_parsed)

variable (U : Unicode) (D : Documents) (settings : Settings)

/-! ## Links that can be read -/

/-- The URL behind which links are resolved. -/
abbrev baseUrl : Str := rstripChar '/' settings.upstreamFilesUrl ++ ['/']

/-- The scheme and the network location of the files. -/
abbrev files : Str × Str := locationOf settings.upstreamFilesUrl []

/-- The scheme and the network location that a link resolves to: its own, or those of the files. -/
def target (url : Str) : Str × Str :=
  let own := locationOf url (files settings).1
  if own.1 ≠ (files settings).1 ∨ own.1 ∉ usesRelative then locationOf url []
  else if own.2 ≠ [] then own
  else if files settings = ([], []) then
    -- a files URL that is a path only: the joined path may read as anything
    locationOf ((urljoin U (baseUrl settings) url).toOption.getD []) []
  else files settings

/-- `.port` does not raise. -/
def PortReadable (netloc : Str) : Prop := ∃ port, portOf netloc = .ok port

/-- `urllib.parse` raises for none of the network locations that are looked at, nor for a port that
is looked at. -/
def Readable (url : Str) : Prop :=
  url = [] ∨ isArtifactLink url = true ∨
    (netlocAccepted U (files settings).2 = true ∧ netlocAccepted U (locationOf url []).2 = true ∧
      netlocAccepted U (target U settings url).2 = true ∧
      (isHttpScheme (target U settings url).1 = true →
        (hostnameOf U (target U settings url).2).isSome = true →
          PortReadable (target U settings url).2 ∧
            ((hostnameOf U (files settings).2).isSome = true → PortReadable (files settings).2)))

/-- The link resolves to an HTTP URL with an allowlisted authority. -/
def LeadsToAllowed (url : Str) : Prop :=
  isHttpScheme (target U settings url).1 = true ∧
    (hostnameOf U (target U settings url).2).isSome = true ∧
    ∃ authority, authorityOf U ⟨(target U settings url).1, (target U settings url).2,
      [], [], [], []⟩ =
      .ok authority ∧ hostAllowed U settings authority = .ok true

/-- The link is rewritten, or left alone unless it leads to an allowlisted authority. -/
def Survives (url : Str) : Prop :=
  ∃ url', rewriteFileUrl U settings url = .ok url' ∧ (¬ LeadsToAllowed U settings url → url' = url)

section Links

variable {U settings} {url : Str}

theorem baseUrl_ne_nil : baseUrl settings ≠ [] := by simp

theorem locationOf_baseUrl (default : Str) :
    locationOf (baseUrl settings) default = locationOf settings.upstreamFilesUrl default :=
  locationOf_rstripChar _ _

/-- `urlparse` raises for the network location only. -/
theorem urlparse_cases (U : Unicode) (url default : Str) :
    (netlocAccepted U (locationOf url default).2 = true ∧ ∃ path params query fragment,
      urlparse U url default = .ok ⟨(locationOf url default).1, (locationOf url default).2, path,
        params, query, fragment⟩) ∨
    (netlocAccepted U (locationOf url default).2 = false ∧
      urlparse U url default = .error .valueError) := by
  rcases urlsplit_cases U url default with ⟨haccepted, path, query, fragment, hok⟩ |
    ⟨hrefused, herror⟩
  · exact .inl ⟨haccepted, _, _, _, _, urlparse_eq_ok.mpr ⟨_, hok, _, _, rfl, rfl⟩⟩
  · refine .inr ⟨hrefused, ?_⟩
    rw [urlparse, herror]
    rfl

/-- An accepted network location is one. -/
theorem netlocOf_locationOf
    {default : Str} (h : netlocAccepted U (locationOf url default).2 = true) :
    netlocOf (locationOf url default).2 = (locationOf url default).2 := by
  rcases urlsplit_cases U url default with ⟨-, path, query, fragment, hok⟩ | ⟨hrefused, -⟩
  · exact (netlocOf_of_urlsplit hok).1
  · rw [h] at hrefused
    cases hrefused

theorem usesRelative_subset : ∀ scheme ∈ usesRelative, scheme ∈ usesNetloc := by decide

/-- `urljoin` on what both URLs are parsed to. -/
theorem urljoin_of_parsed {base : Str} {b p : ParseResult} (hbase : base ≠ []) (hurl : url ≠ [])
    (hb : urlparse U base [] = .ok b) (hp : urlparse U url b.scheme = .ok p) :
    (p.scheme ≠ b.scheme ∨ p.scheme ∉ usesRelative) ∧ urljoin U base url = .ok url ∨
    (p.scheme = b.scheme ∧ p.scheme ∈ usesRelative ∧ ∃ parts, urljoin U base url =
      .ok (urlunsplit parts) ∧
      parts.scheme = p.scheme ∧ parts.netloc = if p.netloc ≠ [] then p.netloc else b.netloc) := by
  unfold urljoin
  rw [if_neg hbase, if_neg hurl, hb]
  simp only [bind, Except.bind]
  rw [hp]
  dsimp only
  by_cases hown : p.scheme ≠ b.scheme ∨ p.scheme ∉ usesRelative
  · rw [if_pos hown]
    exact .inl ⟨hown, rfl⟩
  · rw [if_neg hown]
    rw [not_or, not_not, not_not] at hown
    have hnetloc := usesRelative_subset _ hown.2
    refine .inr ⟨hown.1, hown.2, ?_⟩
    by_cases hlocated : p.netloc = []
    · rw [if_neg (by simp [hlocated]), if_pos hnetloc]
      dsimp only
      split
      · exact ⟨_, rfl, rfl, by rw [if_neg (not_not.mpr hlocated)]⟩
      · exact ⟨_, rfl, rfl, by rw [if_neg (not_not.mpr hlocated)]⟩
    · rw [if_pos ⟨hnetloc, hlocated⟩]
      exact ⟨_, rfl, rfl, by rw [if_pos hlocated]⟩

/-- What is joined goes to its own network location, or else to that of the files. -/
theorem locationOf_joined {parts : SplitResult}
    (hfiles : netlocAccepted U (files settings).2 = true)
    (hown : netlocAccepted U (locationOf url (files settings).1).2 = true)
    (hsame : (locationOf url (files settings).1).1 = (files settings).1)
    (hrelative : (locationOf url (files settings).1).1 ∈ usesRelative)
    (hjoined : urljoin U (baseUrl settings) url = .ok (urlunsplit parts))
    (hscheme : parts.scheme = (locationOf url (files settings).1).1)
    (hnetloc : parts.netloc = if (locationOf url (files settings).1).2 ≠ [] then
      (locationOf url (files settings).1).2 else (files settings).2) :
    locationOf (urlunsplit parts) [] = target U settings url := by
  rw [target, if_neg (by rw [not_or, not_not, not_not]; exact ⟨hsame, hrelative⟩)]
  have hpartsIs : parts.scheme = [] ∨ IsScheme parts.scheme := by
    rw [hscheme, hsame]
    exact locationOf_fst settings.upstreamFilesUrl []
  by_cases hlocated : (locationOf url (files settings).1).2 = []
  · rw [if_neg (not_not.mpr hlocated)] at hnetloc ⊢
    split
    · rw [hjoined]
      rfl
    · next hne =>
      -- the network location is that of the files
      have hfull : parts.netloc ≠ [] ∨ (parts.scheme ≠ [] ∧ parts.scheme ∈ usesNetloc) := by
        by_contra hnot
        rw [not_or, not_and, not_not] at hnot
        have hempty : parts.scheme = [] := by
          by_contra hsome
          exact hnot.2 hsome (hscheme ▸ usesRelative_subset _ hrelative)
        refine hne (Prod.ext ?_ (hnetloc.symm.trans hnot.1))
        exact (hscheme.trans hsame).symm.trans hempty
      rw [locationOf_urlunsplit hpartsIs (hnetloc ▸ netlocOf_locationOf hfiles) hfull,
        hscheme, hnetloc,
        hsame]
  · rw [if_pos hlocated] at hnetloc ⊢
    rw [locationOf_urlunsplit hpartsIs (hnetloc ▸ netlocOf_locationOf hown)
      (.inl (hnetloc ▸ hlocated)),
      hscheme, hnetloc]

/-- What `urljoin` resolves a link to. -/
theorem urljoin_cases (hurl : url ≠ []) :
    (netlocAccepted U (files settings).2 = true ∧ netlocAccepted U (locationOf url []).2 = true ∧
      ∃ resolved, urljoin U (baseUrl settings) url = .ok resolved ∧
        locationOf resolved [] = target U settings url) ∨
    ((netlocAccepted U (files settings).2 = false ∨
      netlocAccepted U (locationOf url []).2 = false) ∧
      urljoin U (baseUrl settings) url = .error .valueError) := by
  have hbase : locationOf (baseUrl settings) [] = files settings := locationOf_baseUrl []
  rcases urlparse_cases U (baseUrl settings) [] with
    ⟨haccepted, bpath, bparams, bquery, bfragment, hb⟩ |
    ⟨hrefused, hb⟩
  · rw [hbase] at haccepted hb
    have hsnd : (locationOf url (files settings).1).2 = (locationOf url []).2 :=
      locationOf_snd _ _ _
    rcases urlparse_cases U url (files settings).1 with ⟨hown, path, params, query, fragment, hp⟩ |
      ⟨hrefused, hp⟩
    · refine .inl ⟨haccepted, hsnd ▸ hown, ?_⟩
      rcases urljoin_of_parsed baseUrl_ne_nil hurl hb hp with
        ⟨hother, hjoined⟩ | ⟨hsame, hrelative, parts, hjoined, hscheme, hnetloc⟩
      · refine ⟨url, hjoined, ?_⟩
        rw [target]
        exact (if_pos hother).symm
      · exact ⟨_, hjoined, locationOf_joined haccepted hown hsame hrelative hjoined hscheme hnetloc⟩
    · refine .inr ⟨.inr (hsnd ▸ hrefused), ?_⟩
      unfold urljoin
      rw [if_neg baseUrl_ne_nil, if_neg hurl, hb]
      simp only [bind, Except.bind]
      rw [hp]
  · refine .inr ⟨.inl (hbase ▸ hrefused), ?_⟩
    unfold urljoin
    rw [if_neg baseUrl_ne_nil, if_neg hurl, hb]
    rfl

/-! ### One link -/

/-- `authority_of` raises for the port only. -/
theorem authorityOf_cases (U : Unicode) (parsed : ParseResult) :
    (PortReadable parsed.netloc ∧ ∃ authority, authorityOf U parsed = .ok authority) ∨
      (¬ PortReadable parsed.netloc ∧ ∃ e, authorityOf U parsed = .error e) := by
  unfold authorityOf PortReadable
  cases hport : portOf parsed.netloc with
  | error e => exact .inr ⟨by simp, e, rfl⟩
  | ok port =>
    refine .inl ⟨⟨port, rfl⟩, ?_⟩
    cases port with
    | none => exact ⟨_, rfl⟩
    | some n =>
      simp only [bind, Except.bind]
      split
      · exact ⟨_, rfl⟩
      · exact ⟨_, rfl⟩

/-- The allowlist can be read when the files URL can. -/
theorem hostAllowed_cases (haccepted : netlocAccepted U (files settings).2 = true) (host : Str) :
    (((hostnameOf U (files settings).2).isSome = true → PortReadable (files settings).2) ∧
      ∃ allowed, hostAllowed U settings host = .ok allowed) ∨
    (¬ ((hostnameOf U (files settings).2).isSome = true → PortReadable (files settings).2) ∧
      ∃ e, hostAllowed U settings host = .error e) := by
  rcases urlparse_cases U settings.upstreamFilesUrl [] with
    ⟨-, path, params, query, fragment, hparsed⟩ |
    ⟨hrefused, -⟩
  · unfold hostAllowed Settings.artifactHosts upstreamFilesHost
    rw [hparsed]
    simp only [bind, Except.bind]
    cases hhostname : hostnameOf U (files settings).2 with
    | none => exact .inl ⟨by simp, _, rfl⟩
    | some hostname =>
      cases hport : portOf (files settings).2 with
      | error e =>
        refine .inr ⟨?_, e, rfl⟩
        simp [PortReadable, hport]
      | ok port =>
        refine .inl ⟨fun _ => ⟨port, hport⟩, ?_⟩
        cases port with
        | none => exact ⟨_, rfl⟩
        | some n =>
          by_cases hdefault : some n ≠ defaultPort (files settings).1
          · simp only [if_pos hdefault]
            exact ⟨_, rfl⟩
          · simp only [if_neg hdefault]
            exact ⟨_, rfl⟩
  · rw [haccepted] at hrefused
    cases hrefused

theorem rewriteFileUrl_of_urljoin_error (hurl : url ≠ []) (hartifact : isArtifactLink url = false)
    (h : urljoin U (baseUrl settings) url = .error .valueError) :
    rewriteFileUrl U settings url = .error .valueError := by
  unfold rewriteFileUrl
  rw [if_neg hurl, if_neg (Bool.eq_false_iff.mp hartifact), h]
  rfl

theorem rewriteFileUrl_of_urlparse_error {resolved : Str} (hurl : url ≠ [])
    (hartifact : isArtifactLink url = false)
    (hresolved : urljoin U (baseUrl settings) url = .ok resolved)
    (h : urlparse U resolved [] = .error .valueError) :
    rewriteFileUrl U settings url = .error .valueError := by
  unfold rewriteFileUrl
  rw [if_neg hurl, if_neg (Bool.eq_false_iff.mp hartifact), hresolved]
  simp only [bind, Except.bind]
  rw [h]

/-- What resolves to no HTTP URL with a host is left alone. -/
theorem rewriteFileUrl_of_foreign {resolved : Str} {parsed : ParseResult} (hurl : url ≠ [])
    (hartifact : isArtifactLink url = false)
    (hresolved : urljoin U (baseUrl settings) url = .ok resolved)
    (hparsed : urlparse U resolved [] = .ok parsed)
    (hforeign : ¬ (isHttpScheme parsed.scheme = true ∧
      (hostnameOf U parsed.netloc).isSome = true)) :
    rewriteFileUrl U settings url = .ok url := by
  have hcond : (!isHttpScheme parsed.scheme || (hostnameOf U parsed.netloc).isNone) = true := by
    cases hhttp : isHttpScheme parsed.scheme with
    | false => rfl
    | true =>
      cases hhost : hostnameOf U parsed.netloc with
      | none => rfl
      | some host => exact absurd ⟨hhttp, by rw [hhost]; rfl⟩ hforeign
  unfold rewriteFileUrl
  rw [if_neg hurl, if_neg (Bool.eq_false_iff.mp hartifact), hresolved]
  simp only [bind, Except.bind]
  rw [hparsed]
  dsimp only
  rw [if_pos hcond]
  rfl

/-- The steps on a URL that resolves to an HTTP one, when one of them raises. -/
theorem rewriteFileUrl_of_raises {resolved : Str} {parsed : ParseResult} (hurl : url ≠ [])
    (hartifact : isArtifactLink url = false)
    (hresolved : urljoin U (baseUrl settings) url = .ok resolved)
    (hparsed : urlparse U resolved [] = .ok parsed) (hhttp : isHttpScheme parsed.scheme = true)
    (hhost : (hostnameOf U parsed.netloc).isSome = true)
    (hraises : (∃ e, authorityOf U parsed = .error e) ∨
      ∃ host e, authorityOf U parsed = .ok host ∧ hostAllowed U settings host = .error e) :
    ∃ e, rewriteFileUrl U settings url = .error e := by
  have hcond : (!isHttpScheme parsed.scheme || (hostnameOf U parsed.netloc).isNone) = false := by
    rw [hhttp, Option.isNone_eq_false_iff.mpr hhost]
    rfl
  unfold rewriteFileUrl
  rw [if_neg hurl, if_neg (Bool.eq_false_iff.mp hartifact), hresolved]
  simp only [bind, Except.bind]
  rw [hparsed]
  dsimp only
  rw [if_neg (Bool.eq_false_iff.mp hcond)]
  rcases hraises with ⟨e, hauthority⟩ | ⟨host, e, hauthority, hallowed⟩
  · rw [hauthority]
    exact ⟨e, rfl⟩
  · rw [hauthority]
    dsimp only
    rw [hallowed]
    exact ⟨e, rfl⟩

/-- What is not readable raises, and what is readable survives. -/
theorem survives_or_raises (U : Unicode) (settings : Settings) (url : Str) :
    (Readable U settings url ∧ Survives U settings url) ∨
      (¬ Readable U settings url ∧ ∃ e, rewriteFileUrl U settings url = .error e) := by
  by_cases hurl : url = []
  · refine .inl ⟨.inl hurl, url, ?_, fun _ => rfl⟩
    unfold rewriteFileUrl
    rw [if_pos hurl]
    rfl
  cases hartifact : isArtifactLink url with
  | true =>
    refine .inl ⟨.inr (.inl hartifact), url, ?_, fun _ => rfl⟩
    unfold rewriteFileUrl
    rw [if_neg hurl, if_pos hartifact]
    rfl
  | false =>
    have hreadable : Readable U settings url ↔ _ :=
      (or_iff_right hurl).trans (or_iff_right (Bool.eq_false_iff.mp hartifact))
    rw [hreadable]
    rcases @urljoin_cases U settings url hurl with
      ⟨hfiles, hown, resolved, hjoined, hlocation⟩ | ⟨hrefused, herror⟩
    · rcases urlparse_cases U resolved [] with ⟨haccepted, path, params, query, fragment, hparsed⟩ |
        ⟨hrefused, herror⟩
      · rw [hlocation] at haccepted hparsed
        by_cases hhttp : isHttpScheme (target U settings url).1 = true ∧
            (hostnameOf U (target U settings url).2).isSome = true
        · -- an HTTP URL: its port and the allowlist are read
          rcases authorityOf_cases U
            ⟨(target U settings url).1, (target U settings url).2, path, params,
              query, fragment⟩ with ⟨hport, authority, hauthority⟩ | ⟨hport, e, hauthority⟩
          · rcases hostAllowed_cases hfiles authority with ⟨hallowlist, allowed, hallowed⟩ |
              ⟨hallowlist, e, hallowed⟩
            · refine .inl ⟨⟨hfiles, hown, haccepted, fun _ _ => ⟨hport, hallowlist⟩⟩, ?_⟩
              have hnone : (hostnameOf U (target U settings url).2).isNone = false :=
                Option.isNone_eq_false_iff.mpr hhttp.2
              refine ⟨_, rewriteFileUrl_of_parsed ⟨hurl, hartifact⟩ hjoined hparsed hhttp.1 hnone
                hauthority hallowed, fun hforeign => ?_⟩
              cases allowed with
              | false => rfl
              | true => exact absurd ⟨hhttp.1, hhttp.2, authority, hauthority, hallowed⟩ hforeign
            · exact .inr ⟨fun h => hallowlist (h.2.2.2 hhttp.1 hhttp.2).2,
                rewriteFileUrl_of_raises hurl hartifact hjoined hparsed hhttp.1 hhttp.2
                  (.inr ⟨authority, e, hauthority, hallowed⟩)⟩
          · exact .inr ⟨fun h => hport (h.2.2.2 hhttp.1 hhttp.2).1,
              rewriteFileUrl_of_raises hurl hartifact hjoined hparsed hhttp.1 hhttp.2
                (.inl ⟨e, hauthority⟩)⟩
        · refine .inl ⟨⟨hfiles, hown, haccepted, fun h h' => absurd ⟨h, h'⟩ hhttp⟩, url,
            ?_, fun _ => rfl⟩
          exact rewriteFileUrl_of_foreign hurl hartifact hjoined hparsed hhttp
      · rw [hlocation] at hrefused
        refine .inr ⟨fun h => ?_, _, rewriteFileUrl_of_urlparse_error hurl hartifact hjoined herror⟩
        rw [h.2.2.1] at hrefused
        cases hrefused
    · refine .inr ⟨fun h => ?_, _, rewriteFileUrl_of_urljoin_error hurl hartifact herror⟩
      rw [h.1, h.2.1] at hrefused
      simp at hrefused

/-- One link survives exactly when it is readable. -/
theorem survives_iff_readable : Survives U settings url ↔ Readable U settings url := by
  rcases survives_or_raises U settings url with ⟨hreadable, hsurvives⟩ | ⟨hreadable, e, herror⟩
  · exact iff_of_true hsurvives hreadable
  · refine iff_of_false ?_ hreadable
    rintro ⟨url', hok, -⟩
    rw [herror] at hok
    cases hok

/-- The link is rewritten to something exactly when it is readable. -/
theorem exists_rewritten_iff : (∃ url', rewriteFileUrl U settings url = .ok url') ↔
    Readable U settings url := by
  rcases survives_or_raises U settings url with ⟨hreadable, url', hok, -⟩ | ⟨hreadable, e, herror⟩
  · exact iff_of_true ⟨url', hok⟩ hreadable
  · refine iff_of_false ?_ hreadable
    rintro ⟨url', hok⟩
    rw [herror] at hok
    cases hok

end Links

/-! ## Projects -/

/-- One file of `rewrite_project_urls`. -/
def newFile (f : File) : Except Raised File := do
  let url ← if settings.rewriteArtifactUrls || fileAdvertisesMetadata f then
      rewriteUrlValue U settings f.url
    else pure f.url
  return { f with url }

/-- The link of the file is not rewritten, or there is none, or it is readable. -/
def FileReadable (f : File) : Prop :=
  (settings.rewriteArtifactUrls || fileAdvertisesMetadata f) = true → f.url.truthy = true →
    ∃ url, f.url = .str url ∧ Readable U settings url

/-- The project is rewritten, each file as if it were alone. -/
def ProjectRewritten (project : Project) : Prop :=
  ∃ files, rewriteProjectUrls U settings project = .ok { project with files } ∧
    List.Forall₂ (fun f f' => rewriteProjectUrls U settings { project with files := [f] } =
      .ok { project with files := [f'] }) project.files files

section Projects

variable {U settings} {project : Project}

theorem exists_newFile_iff {f : File} :
    (∃ f', newFile U settings f = .ok f') ↔ FileReadable U settings f := by
  unfold newFile FileReadable
  by_cases hrewrites : (settings.rewriteArtifactUrls || fileAdvertisesMetadata f) = true
  · rw [if_pos hrewrites]
    unfold rewriteUrlValue
    by_cases htruthy : f.url.truthy = true
    · rw [if_pos htruthy]
      cases hurl : f.url with
      | str url =>
        have hiff := @exists_rewritten_iff U settings url
        constructor
        · rintro ⟨f', hf'⟩ _ _
          obtain ⟨value, hvalue, -⟩ := ok_of_bind hf'
          obtain ⟨text, htext, hvalue⟩ := ok_of_bind hvalue
          obtain rfl : url = text := Except.ok.inj htext
          obtain ⟨url', hurl', -⟩ := ok_of_bind hvalue
          exact ⟨url, rfl, hiff.mp ⟨url', hurl'⟩⟩
        · intro h
          obtain ⟨url', hsame, hreadable⟩ := h hrewrites (by rwa [← hurl])
          obtain rfl := Json.str.inj hsame
          obtain ⟨url', hurl'⟩ := hiff.mpr hreadable
          simp only [Json.asStr_str, bind, Except.bind]
          rw [hurl']
          exact ⟨_, rfl⟩
      | _ =>
        refine iff_of_false ?_ fun h => ?_
        · rintro ⟨f', hf'⟩
          cases hf'
        · obtain ⟨url, hsame, -⟩ := h hrewrites (by rwa [← hurl])
          cases hsame
    · rw [if_neg htruthy]
      exact iff_of_true ⟨_, rfl⟩ fun _ h => absurd h htruthy
  · rw [if_neg hrewrites]
    exact iff_of_true ⟨_, rfl⟩ fun h => absurd h hrewrites

theorem rewriteProjectUrls_eq_ok_iff {files : List File} :
    rewriteProjectUrls U settings project = .ok { project with files } ↔
      List.Forall₂ (fun f f' => newFile U settings f = .ok f') project.files files := by
  rw [← mapM_eq_ok_iff]
  show (project.files.mapM (newFile U settings)).bind (fun files => .ok { project with files }) =
    _ ↔ _
  cases project.files.mapM (newFile U settings) with
  | error e => exact iff_of_false nofun nofun
  | ok files' =>
    simp only [Except.bind, Except.ok.injEq, Project.mk.injEq, true_and]

/-- A project is rewritten exactly when every link that is rewritten is readable. -/
theorem projectRewritten_iff :
    ProjectRewritten U settings project ↔ ∀ f ∈ project.files, FileReadable U settings f := by
  have halone : ∀ f f', rewriteProjectUrls U settings { project with files := [f] } =
      .ok { project with files := [f'] } ↔ newFile U settings f = .ok f' := by
    intro f f'
    rw [@rewriteProjectUrls_eq_ok_iff U settings { project with files := [f] } [f']]
    simp
  have hstep : (∀ f ∈ project.files, FileReadable U settings f) ↔
      ∀ f ∈ project.files, ∃ f', newFile U settings f = .ok f' :=
    forall₂_congr fun f _ => exists_newFile_iff.symm
  rw [hstep, ← exists_forall₂_iff]
  unfold ProjectRewritten
  simp only [halone, rewriteProjectUrls_eq_ok_iff, and_self]

end Projects

/-! ## Documents -/

/-- The link of the entry is not rewritten, or there is none, or it is readable. -/
def EntryReadable (entry : Json) : Prop :=
  ∀ members url, entry = .dict members → dictGet members ("url" : Str) = some (.str url) →
    (settings.rewriteArtifactUrls || jsonEntryAdvertisesMetadata members) = true →
      Readable U settings url

/-- The document is rewritten, each entry by itself, unless it is not decoded at all. -/
def DocumentRewritten (body : Str) (members : List (Str × Json)) (entries : List Json) : Prop :=
  ∃ out, rewriteJsonBody U D settings body = .ok out ∧
    (¬ Decoded settings body → out = body) ∧ (Decoded settings body → ∃ entries',
      out = D.dumps (.dict (dictSet members ("files" : Str) (.list entries'))) ∧
      List.Forall₂ (fun entry entry' => rewriteEntry U settings entry = .ok entry')
      entries entries')

section Documents

variable {U D settings} {body : Str} {members : List (Str × Json)} {entries : List Json}

theorem exists_rewriteEntry_iff {entry : Json} :
    (∃ entry', rewriteEntry U settings entry = .ok entry') ↔ EntryReadable U settings entry := by
  unfold rewriteEntry EntryReadable
  cases entry with
  | dict members =>
    cases hurl : dictGet members ("url" : Str) with
    | none =>
      simp only [hurl]
      refine iff_of_true ⟨_, rfl⟩ fun members' url hsame h => ?_
      obtain rfl := Json.dict.inj hsame
      rw [hurl] at h
      cases h
    | some value =>
      cases value with
      | str url =>
        simp only [hurl]
        by_cases hrewrites : (settings.rewriteArtifactUrls || jsonEntryAdvertisesMetadata members) =
          true
        · rw [if_pos hrewrites]
          have hiff := @exists_rewritten_iff U settings url
          constructor
          · rintro ⟨entry', hentry⟩ members' url' hsame h _
            obtain rfl := Json.dict.inj hsame
            rw [hurl] at h
            obtain rfl := Json.str.inj (Option.some.inj h)
            obtain ⟨url', hurl', -⟩ := ok_of_bind hentry
            exact hiff.mp ⟨url', hurl'⟩
          · intro h
            obtain ⟨url', hurl'⟩ := hiff.mpr (h members url rfl hurl hrewrites)
            rw [hurl']
            exact ⟨_, rfl⟩
        · rw [if_neg hrewrites]
          refine iff_of_true ⟨_, rfl⟩ fun members' url' hsame _ h => ?_
          obtain rfl := Json.dict.inj hsame
          exact absurd h hrewrites
      | _ =>
        simp only [hurl]
        refine iff_of_true ⟨_, rfl⟩ fun members' url hsame h => ?_
        obtain rfl := Json.dict.inj hsame
        rw [hurl] at h
        cases h
  | _ => exact iff_of_true ⟨_, rfl⟩ nofun

/-- A document is rewritten exactly when every link that is rewritten is readable. -/
theorem documentRewritten_iff (hloads : D.loads body = .ok (.dict members))
    (hfiles : dictGet members ("files" : Str) = some (.list entries)) :
    DocumentRewritten U D settings body members entries ↔
      (Decoded settings body → ∀ entry ∈ entries, EntryReadable U settings entry) := by
  by_cases hdecoded : Decoded settings body
  · have hstep : (∀ entry ∈ entries, EntryReadable U settings entry) ↔
        ∀ entry ∈ entries, ∃ entry', rewriteEntry U settings entry = .ok entry' :=
      forall₂_congr fun entry _ => exists_rewriteEntry_iff.symm
    rw [hstep, ← exists_forall₂_iff]
    unfold DocumentRewritten
    rw [rewriteJsonBody_eq hdecoded hloads hfiles]
    constructor
    · rintro ⟨out, -, -, hout⟩ _
      obtain ⟨entries', -, hall⟩ := hout hdecoded
      exact ⟨entries', hall⟩
    · intro h
      obtain ⟨entries', hall⟩ := h hdecoded
      refine ⟨_, ?_, fun h => absurd hdecoded h, fun _ => ⟨entries', rfl, hall⟩⟩
      rw [mapM_eq_ok_iff.mpr hall]
      rfl
  · refine iff_of_true ⟨body, ?_, fun _ => rfl, fun h => absurd h hdecoded⟩ fun h =>
      absurd h hdecoded
    exact rewriteJsonBody_shortcut hdecoded

end Documents

/-! ## Pages -/

/-- What a page consists of, for `_ANCHOR_RE.sub`. -/
inductive Piece where
  | char (c : Char)
  | anchor (tag : Str)

def pieces : ℕ → Str → List Piece
  | 0, s => s.map .char
  | _ + 1, [] => []
  | fuel + 1, c :: s =>
    match matchAnchorTag U (c :: s) with
    | some (tag, after) => .anchor tag :: pieces fuel after
    | none => .char c :: pieces fuel s

def rewritePiece : Piece → Except Raised Str
  | .char c => .ok [c]
  | .anchor tag => rewriteAnchor U settings tag

/-- The link that `_ATTR_RE` finds in a tag. -/
def hrefOf : Str → Option Str
  | [] => none
  | c :: rest =>
    match matchWord ("href" : Str) (c :: rest) with
    | none => hrefOf rest
    | some (_, behind) =>
      match matchQuotedValue behind with
      | none => hrefOf rest
      | some (_, _, url, _) => some url

/-- The tag is looked at. -/
def TagRewritten (tag : Str) : Prop :=
  settings.rewriteArtifactUrls = true ∨ (metadataAttrValues tag.length tag).any (fun value =>
    lower U (strip value) != [] && lower U (strip value) != ("false" : Str)) = true

/-- The link of the piece is not rewritten, or there is none, or it is readable. -/
def PieceReadable (piece : Piece) : Prop :=
  ∀ tag url, piece = .anchor tag → TagRewritten U settings tag → hrefOf tag = some url →
    Readable U settings url

/-- The short cut of `rewrite_html_body` is not taken. -/
def Searched (body : Str) : Prop :=
  settings.rewriteArtifactUrls = true ∨ (metadataAttrValues body.length body).isEmpty = false

/-- The page is rewritten, each anchor by itself, unless no anchor is searched for at all. -/
def PageRewritten (body : Str) : Prop :=
  ∃ out, rewriteHtmlBody U settings body = .ok out ∧
    (¬ Searched settings body → out = body) ∧ (Searched settings body → ∃ texts,
      out = texts.flatten ∧ List.Forall₂
      (fun piece text => rewritePiece U settings piece = .ok text)
        (pieces U body.length body) texts)

section Pages

variable {U settings} {body : Str}

/-- The loop over a page is the loop over its pieces. -/
theorem rewriteAnchors_eq (fuel : ℕ) (s : Str) : rewriteAnchors U settings fuel s =
    ((pieces U fuel s).mapM (rewritePiece U settings)).map List.flatten := by
  induction fuel generalizing s with
  | zero =>
    have hchars : List.Forall₂ (fun piece text => rewritePiece U settings piece = .ok text)
        (s.map .char) (s.map fun c => [c]) := by
      induction s with
      | nil => exact .nil
      | cons c s ih => exact .cons rfl ih
    have hflatten : (s.map fun c => [c]).flatten = s := by
      induction s with
      | nil => rfl
      | cons c s ih =>
        rw [List.map_cons, List.flatten_cons, ih (List.forall₂_cons.mp hchars).2]
        rfl
    rw [rewriteAnchors, pieces, mapM_eq_ok_iff.mpr hchars]
    exact congrArg Except.ok hflatten.symm
  | succ fuel ih =>
    cases s with
    | nil => rfl
    | cons c s =>
      rw [rewriteAnchors, pieces]
      cases hanchor : matchAnchorTag U (c :: s) with
      | none =>
        simp only [bind, Except.bind]
        rw [ih, List.mapM_cons]
        simp only [rewritePiece, bind, Except.bind]
        cases (pieces U fuel s).mapM (rewritePiece U settings) <;> rfl
      | some found =>
        obtain ⟨tag, after⟩ := found
        simp only [bind, Except.bind]
        rw [ih, List.mapM_cons]
        simp only [rewritePiece, bind, Except.bind]
        cases rewriteAnchor U settings tag with
        | error e => rfl
        | ok text => cases (pieces U fuel after).mapM (rewritePiece U settings) <;> rfl

/-- A tag is rewritten exactly when its link is readable. -/
theorem exists_rewriteHref_iff {tag : Str} : (∃ text, rewriteHref U settings tag = .ok text) ↔
    ∀ url, hrefOf tag = some url → Readable U settings url := by
  have hskip : ∀ {c : Char} {rest : Str},
      (∃ text, (do return c :: (← rewriteHref U settings rest) : Except Raised Str) = .ok text) ↔
        ∃ text, rewriteHref U settings rest = .ok text := by
    intro c rest
    cases rewriteHref U settings rest with
    | error e => exact iff_of_false (by rintro ⟨text, h⟩; cases h) (by rintro ⟨text, h⟩; cases h)
    | ok text => exact iff_of_true ⟨_, rfl⟩ ⟨_, rfl⟩
  induction tag with
  | nil => exact iff_of_true ⟨[], rfl⟩ nofun
  | cons c rest ih =>
    rw [rewriteHref, hrefOf]
    cases hword : matchWord ("href" : Str) (c :: rest) with
    | none => exact hskip.trans ih
    | some found =>
      obtain ⟨name, behind⟩ := found
      cases hvalue : matchQuotedValue behind with
      | none =>
        simp only [hvalue]
        exact hskip.trans ih
      | some quoted =>
        obtain ⟨matched, quote, url, after⟩ := quoted
        simp only [hvalue, Option.some.injEq, forall_eq']
        rw [← exists_rewritten_iff]
        cases rewriteFileUrl U settings url with
        | error e =>
          exact iff_of_false (by rintro ⟨text, h⟩; cases h) (by rintro ⟨text, h⟩; cases h)
        | ok url' =>
          refine iff_of_true ?_ ⟨_, rfl⟩
          simp only [bind, Except.bind]
          split
          · exact ⟨_, rfl⟩
          · exact ⟨_, rfl⟩

theorem exists_rewritePiece_iff {piece : Piece} :
    (∃ text, rewritePiece U settings piece = .ok text) ↔ PieceReadable U settings piece := by
  cases piece with
  | char c => exact iff_of_true ⟨_, rfl⟩ nofun
  | anchor tag =>
    have hcond : TagRewritten U settings tag ↔ (!settings.rewriteArtifactUrls &&
        !(metadataAttrValues tag.length tag).any fun value =>
          lower U (strip value) != [] && lower U (strip value) != ("false" : Str)) = false := by
      unfold TagRewritten
      rw [Bool.and_eq_false_iff, Bool.not_eq_false', Bool.not_eq_false']
    rw [rewritePiece, rewriteAnchor]
    by_cases hrewritten : TagRewritten U settings tag
    · rw [if_neg (Bool.eq_false_iff.mp (hcond.mp hrewritten)), exists_rewriteHref_iff]
      constructor
      · rintro h tag' url hsame - hurl
        obtain rfl := Piece.anchor.inj hsame
        exact h url hurl
      · exact fun h url hurl => h tag url rfl hrewritten hurl
    · have htrue := Bool.of_not_eq_false (mt hcond.mpr hrewritten)
      rw [if_pos htrue]
      refine iff_of_true ⟨_, rfl⟩ fun tag' url hsame h => ?_
      obtain rfl := Piece.anchor.inj hsame
      exact absurd h hrewritten

/-- A page is rewritten exactly when every link that is rewritten is readable. -/
theorem pageRewritten_iff : PageRewritten U settings body ↔ (Searched settings body →
    ∀ piece ∈ pieces U body.length body, PieceReadable U settings piece) := by
  have hcond : Searched settings body ↔ (!settings.rewriteArtifactUrls &&
      (metadataAttrValues body.length body).isEmpty) = false := by
    unfold Searched
    rw [Bool.and_eq_false_iff, Bool.not_eq_false']
  unfold PageRewritten rewriteHtmlBody
  by_cases hsearched : Searched settings body
  · have hstep : (∀ piece ∈ pieces U body.length body, PieceReadable U settings piece) ↔
        ∀ piece ∈ pieces U body.length body, ∃ text, rewritePiece U settings piece = .ok text :=
      forall₂_congr fun piece _ => exists_rewritePiece_iff.symm
    rw [hstep, ← exists_forall₂_iff, if_neg (Bool.eq_false_iff.mp (hcond.mp hsearched)),
      rewriteAnchors_eq]
    constructor
    · rintro ⟨out, -, -, hout⟩ _
      obtain ⟨texts, -, hall⟩ := hout hsearched
      exact ⟨texts, hall⟩
    · intro h
      obtain ⟨texts, hall⟩ := h hsearched
      refine ⟨texts.flatten, ?_, fun h => absurd hsearched h, fun _ => ⟨texts, rfl, hall⟩⟩
      rw [mapM_eq_ok_iff.mpr hall]
      rfl
  · have htrue := Bool.of_not_eq_false (mt hcond.mpr hsearched)
    rw [if_pos htrue]
    exact iff_of_true ⟨body, rfl, fun _ => rfl, fun h => absurd h hsearched⟩ fun h =>
      absurd h hsearched

end Pages

/-! ## One malformed link -/

/-- **Malformed links.** A link survives exactly when it is readable; a project, a document and a
page are rewritten link by link exactly when all their links that are rewritten are readable. -/
theorem survives_iff (U : Unicode) (D : Documents) (settings : Settings) :
    (∀ url, Survives U settings url ↔ Readable U settings url) ∧
    (∀ project, ProjectRewritten U settings project ↔
      ∀ f ∈ project.files, FileReadable U settings f) ∧
    (∀ body members entries, D.loads body = .ok (.dict members) →
      dictGet members ("files" : Str) = some (.list entries) →
        (DocumentRewritten U D settings body members entries ↔
          (Decoded settings body → ∀ entry ∈ entries, EntryReadable U settings entry))) ∧
    (∀ body, PageRewritten U settings body ↔ (Searched settings body →
      ∀ piece ∈ pieces U body.length body, PieceReadable U settings piece)) :=
  ⟨fun _ => survives_iff_readable, fun _ => projectRewritten_iff,
    fun _ _ _ hloads hfiles => documentRewritten_iff hloads hfiles, fun _ => pageRewritten_iff⟩

/-- A bracket that is not closed, and a port that is no number. -/
def malformedLinks : List Str :=
  [("https://[files.pythonhosted.org/one-1.0.tar.gz" : Str),
    ("https://files.pythonhosted.org:x/one-1.0.tar.gz" : Str)]

def fileAt (url : Str) : File := { filename := .str [], url := .str url }

/-- A project with an ordinary link, and with another. -/
def mixedProject (url : Str) : Project :=
  ⟨.str [], [fileAt ("https://files.pythonhosted.org/two-1.0.tar.gz" : Str), fileAt url]⟩

/-- Neither survives, and each takes an ordinary file down with it. -/
theorem not_survives_malformed : ∀ url ∈ malformedLinks, (¬ ∀ U settings, Survives U settings url) ∧
    ¬ ∀ U settings, ProjectRewritten U settings (mixedProject url) := by
  have hlinks : ∀ url ∈ malformedLinks,
      (rewriteFileUrl asciiOnly {} url).isOk = false ∧
      (rewriteProjectUrls asciiOnly {} (mixedProject url)).isOk = false := by
    decide +kernel
  intro url hurl
  obtain ⟨hlink, hproject⟩ := hlinks url hurl
  constructor
  · intro h
    obtain ⟨url', hok, -⟩ := h asciiOnly {}
    rw [hok] at hlink
    cases hlink
  · intro h
    obtain ⟨files, hok, -⟩ := h asciiOnly {}
    rw [hok] at hproject
    cases hproject

/-- Not every link survives, and not every project is rewritten. -/
theorem not_survives : (¬ ∀ U settings url, Survives U settings url) ∧
    ¬ ∀ U settings project, ProjectRewritten U settings project := by
  have hbracket : ("https://[files.pythonhosted.org/one-1.0.tar.gz" : Str) ∈ malformedLinks :=
    List.mem_cons_self
  obtain ⟨hlink, hproject⟩ := not_survives_malformed _ hbracket
  constructor
  · intro h
    exact hlink fun U settings => h U settings _
  · intro h
    exact hproject fun U settings => h U settings _

end ProxyCache.Theorems.MalformedLinks
