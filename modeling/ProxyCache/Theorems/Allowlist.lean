import ProxyCache.App.Metadata
import ProxyCache.Python.UrlSplit

/-!
# Outbound requests

Where the URLs lead that are probed and extracted from. An absolute link goes to
the authority that was checked. Of a `/artifacts/` link the code checks the raw
host segment, not the authority that it is read as afterwards, and, when the
request goes through the artifact cache, nothing of the dot segments behind it.
-/

namespace ProxyCache.Theorems.Allowlist

open ProxyCache.Lib ProxyCache.Python ProxyCache.App

variable (s : Site)

/-- A URL with this scheme and network location is an HTTP one, and its authority
is allowed. -/
structure Allowed (scheme netloc : Str) : Prop where
  http : isHttpScheme scheme
  authority : ∃ authority, authorityOf s.U ⟨scheme, netloc, [], [], [], []⟩ = .ok authority ∧
    hostAllowed s.U s.settings authority = .ok true

/-- The request goes to an allowed authority over HTTP. -/
def Outbound (url : Str) : Prop :=
  ∃ parsed, urlparse s.U url [] = .ok parsed ∧ Allowed s parsed.scheme parsed.netloc

abbrev isArtifactLink (link : Str) : Bool := ("/artifacts/" : Str).isPrefixOf link

/-- A link behind `/artifacts/`, without its fragment. -/
def linkTail (link : Str) : Str := (cut '#' link).1.drop 11

def hostSegment (link : Str) : Str := (cut '/' (linkTail link)).1

/-- The condition on a link that is not routed: if it is a `/artifacts/` link, its
host segment, read as a network location, is accepted and an allowed authority,
and the scheme for it is HTTP. -/
def HostTrusted (link : Str) : Prop :=
  isArtifactLink link → ∃ scheme, schemeFor s (hostSegment link) = .ok scheme ∧
    netlocAccepted s.U (netlocOf (hostSegment link)) ∧
    Allowed s scheme (netlocOf (hostSegment link))

/-! ## The artifact cache -/

/-- The extraction of the link goes through the artifact cache. -/
def isRouted (link : Str) : Bool :=
  isArtifactLink link && s.settings.metadataArtifactBaseUrl != []

def artifactBase : Str := rstripChar '/' s.settings.metadataArtifactBaseUrl

def isHttpUri (uri : Str) : Bool := isHttpScheme ((uriScheme uri).map Char.toLower)

def dot : Str := ("." : Str)

def up : Str := (".." : Str)

/-- The directory `/artifacts` of the artifact cache. -/
def artifactsDir : List Str :=
  settle dot up (segments (uriPath (artifactBase s))) ++ [("artifacts" : Str)]

/-- The request is an HTTP one, and its path without dot segments is below
`/artifacts/<host>/` of the artifact cache, for an allowed host. -/
def BelowArtifacts (url : Str) : Prop :=
  isHttpUri url ∧ ∃ host below, hostAllowed s.U s.settings host = .ok true ∧ below ≠ [] ∧
    removeDots dot up [] (segments (uriPath url)) = artifactsDir s ++ host :: below

/-- The segments of the path of a link behind `/artifacts/`. -/
def tailSegments (link : Str) : List Str :=
  ((linkTail link).takeWhile (!isPathEnd ·)).splitOn '/'

/-- The condition on a routed link: the base is an HTTP URL without query and
fragment, and the link, after spelling again the levels that it climbs, goes on
with an allowed host and a slash. -/
def Confined (link : Str) : Prop :=
  isHttpUri (artifactBase s) ∧ (∀ c ∈ artifactBase s, isPathEnd c = false) ∧
    ∃ host below, hostAllowed s.U s.settings host = .ok true ∧ below ≠ [] ∧
      (climb dot up (tailSegments link)).2 ++ trail dot up [] (tailSegments link) =
        (artifactsDir s).drop ((artifactsDir s).length - (climb dot up (tailSegments link)).1) ++
          host :: below

/-- Where the request for a link may go. -/
def StaysInside (link url : Str) : Prop :=
  if isRouted s link then BelowArtifacts s url else Outbound s url

/-- The condition on a link. -/
def Trusted (link : Str) : Prop := if isRouted s link then Confined s link else HostTrusted s link

/-! ## Authorities -/

section Authorities

variable {s} {scheme url link : Str}

/-- What is put together from a scheme and a rest goes where the rest says. -/
theorem outbound_iff (h : IsScheme scheme) (rest : Str) :
    Outbound s (scheme ++ ("://" : Str) ++ rest) ↔
      netlocAccepted s.U (netlocOf rest) ∧ Allowed s scheme (netlocOf rest) := by
  obtain ⟨path, query, fragment, hsplit⟩ := h.urlsplit_append (U := s.U) [] rest
  unfold Outbound
  constructor
  · rintro ⟨parsed, hparsed, hallowed⟩
    obtain ⟨parts, hparts, path', params, rfl, -⟩ := urlparse_eq_ok.mp hparsed
    rw [hsplit] at hparts
    split at hparts
    · next haccepted =>
      obtain rfl := Except.ok.inj hparts
      exact ⟨haccepted, hallowed⟩
    · cases hparts
  · rintro ⟨haccepted, hallowed⟩
    rw [if_pos haccepted] at hsplit
    exact ⟨_, urlparse_eq_ok.mpr ⟨_, hsplit, _, _, rfl, rfl⟩, hallowed⟩

theorem eq_http_of_isHttpScheme (h : isHttpScheme scheme) :
    scheme = "http".toList ∨ scheme = "https".toList := by
  simpa [isHttpScheme] using h

/-- `.metadata` behind the path leaves the authority alone. -/
theorem outbound_appendMetadataSuffix {parts : SplitResult} {url' : Str}
    (hsplit : urlsplit s.U url [] = .ok parts) (hscheme : parts.scheme ≠ [])
    (h : appendMetadataSuffix s url = .ok url') :
    Outbound s url' ↔ Allowed s parts.scheme parts.netloc := by
  unfold appendMetadataSuffix at h
  rw [hsplit] at h
  obtain rfl := Except.ok.inj h
  have hvalid : IsScheme parts.scheme := isScheme_of_urlsplit hsplit hscheme
  obtain ⟨hnetloc, haccepted⟩ := netlocOf_of_urlsplit hsplit
  let suffixed : SplitResult :=
    { parts with path := parts.path ++ (".metadata" : Str), fragment := [] }
  show Outbound s (urlunsplit suffixed) ↔ _
  by_cases hhttp : isHttpScheme parts.scheme
  · obtain ⟨rest, hrest⟩ : ∃ rest, urlunsplit suffixed =
        parts.scheme ++ ("://" : Str) ++ (parts.netloc ++ '/' :: rest) :=
      urlunsplit_netloc (eq_http_of_isHttpScheme hhttp) (by simp [suffixed])
    rw [hrest, outbound_iff hvalid, netlocOf_append, hnetloc]
    exact and_iff_right haccepted
  · -- another scheme is still in front afterwards
    obtain ⟨rest, hrest⟩ : ∃ rest, urlunsplit suffixed = parts.scheme ++ ':' :: rest :=
      urlunsplit_scheme hscheme
    rw [hrest]
    refine iff_of_false ?_ fun hallowed => hhttp hallowed.http
    rintro ⟨parsed, hparsed, hallowed⟩
    obtain ⟨parts', hparts', path', params, rfl, -⟩ := urlparse_eq_ok.mp hparsed
    have := hallowed.http
    rw [hvalid.urlsplit_scheme hparts'] at this
    exact hhttp this

theorem isScheme_of_schemeFor {host : Str} (h : schemeFor s host = .ok scheme) :
    IsScheme scheme := by
  have hartifact : IsScheme s.settings.artifactHostScheme.text := by
    cases s.settings.artifactHostScheme
    · exact isScheme_http (.inr rfl)
    · exact isScheme_http (.inl rfl)
  unfold schemeFor at h
  cases hfiles : urlparse s.U s.settings.upstreamFilesUrl [] with
  | error e =>
    rw [hfiles] at h
    cases h
  | ok files =>
    obtain ⟨parts, hparts, path, params, hsame, -⟩ := urlparse_eq_ok.mp hfiles
    rw [hfiles] at h
    simp only [bind, Except.bind, pure, Except.pure] at h
    split at h
    · split at h
      · cases h
      split at h
      · split at h
        · obtain rfl := Except.ok.inj h
          exact isScheme_http (.inr rfl)
        · next hne =>
          obtain rfl := Except.ok.inj h
          rw [hsame] at hne ⊢
          exact isScheme_of_urlsplit hparts hne
      · obtain rfl := Except.ok.inj h
        exact hartifact
    · obtain rfl := Except.ok.inj h
      exact hartifact

/-- The host and the path of a `/artifacts/` link. -/
theorem artifactHostPath_eq_some {rest host path : Str}
    (h : artifactHostPath s rest = .ok (some (host, path))) :
    rest = host ++ '/' :: path ∧ (cut '/' rest).1 = host := by
  unfold artifactHostPath at h
  split at h
  · cases h
  · next host' path' hcut =>
    split at h
    · cases h
    cases hallowed : hostAllowed s.U s.settings host' with
    | error e =>
      rw [hallowed] at h
      cases h
    | ok allowed =>
      rw [hallowed] at h
      cases allowed with
      | false => cases h
      | true =>
        obtain ⟨rfl, rfl⟩ := Prod.mk.inj (Option.some.inj (Except.ok.inj h))
        exact ⟨cut_eq_some hcut, by rw [hcut]⟩

/-- An absolute link on an allowed host goes there. -/
theorem allowed_of_absoluteAllowed (h : absoluteAllowed s url = .ok true) :
    ∃ parts, urlsplit s.U url [] = .ok parts ∧ Allowed s parts.scheme parts.netloc := by
  unfold absoluteAllowed at h
  cases hparsed : urlparse s.U url [] with
  | error e =>
    rw [hparsed] at h
    cases h
  | ok parsed =>
    rw [hparsed] at h
    simp only [bind, Except.bind, pure, Except.pure] at h
    split at h
    · cases h
    next hnot =>
    have hhttp : isHttpScheme parsed.scheme = true := by
      cases hscheme : isHttpScheme parsed.scheme
      · simp [hscheme] at hnot
      · rfl
    cases hauthority : authorityOf s.U parsed with
    | error e =>
      rw [hauthority] at h
      cases h
    | ok authority =>
      rw [hauthority] at h
      obtain ⟨parts, hparts, path, params, rfl, -⟩ := urlparse_eq_ok.mp hparsed
      exact ⟨parts, hparts, hhttp, authority, hauthority, h⟩

end Authorities

/-! ## What is requested -/

section Requests

variable {s} {url link : Str}

/-- `metadata_head_url` of a `/artifacts/` link. -/
theorem metadataHeadUrl_link (hlink : isArtifactLink link)
    (h : metadataHeadUrl s link = .ok (some url)) :
    ∃ host path scheme, artifactHostPath s (linkTail link) = .ok (some (host, path)) ∧
      schemeFor s host = .ok scheme ∧
      appendMetadataSuffix s (scheme ++ ("://" : Str) ++ host ++ '/' :: path) = .ok url := by
  unfold metadataHeadUrl at h
  simp only at h
  rw [if_pos hlink] at h
  obtain ⟨target, htarget, h⟩ := ok_of_bind h
  cases target with
  | none => cases h
  | some target =>
    obtain ⟨scheme, hscheme, h⟩ := ok_of_bind h
    obtain ⟨url', hsuffix, h⟩ := ok_of_bind h
    obtain rfl := Option.some.inj (Except.ok.inj h)
    exact ⟨target.1, target.2, scheme, htarget, hscheme, hsuffix⟩

/-- `metadata_head_url` of an absolute link. -/
theorem metadataHeadUrl_absolute (hlink : ¬ isArtifactLink link)
    (h : metadataHeadUrl s link = .ok (some url)) :
    absoluteAllowed s (cut '#' link).1 = .ok true ∧
      appendMetadataSuffix s (cut '#' link).1 = .ok url := by
  unfold metadataHeadUrl at h
  simp only at h
  rw [if_neg hlink] at h
  obtain ⟨allowed, hallowed, h⟩ := ok_of_bind h
  cases allowed with
  | false => cases h
  | true =>
    obtain ⟨url', hsuffix, h⟩ := ok_of_bind h
    obtain rfl := Option.some.inj (Except.ok.inj h)
    exact ⟨hallowed, hsuffix⟩

/-- A fragment does not hide the `/artifacts/` of a link. -/
theorem isArtifactLink_cut (link : Str) :
    isArtifactLink (cut '#' link).1 = isArtifactLink link := by
  rw [Bool.eq_iff_iff, List.isPrefixOf_iff_prefix, List.isPrefixOf_iff_prefix]
  exact prefix_cut_iff (by decide)

/-- A `/artifacts/` link and what follows. -/
theorem eq_of_isArtifactLink (hlink : isArtifactLink link) :
    (cut '#' link).1 = ("/artifacts/" : Str) ++ linkTail link := by
  obtain ⟨tail, htail⟩ :=
    List.isPrefixOf_iff_prefix.mp ((isArtifactLink_cut link).trans hlink)
  rw [linkTail, ← htail]
  rfl

/-- `_artifact_upstream_url` of a `/artifacts/` link. -/
theorem artifactUpstreamUrl_link (hlink : isArtifactLink link)
    (h : artifactUpstreamUrl s link = .ok (some url)) :
    ∃ host path, artifactHostPath s (linkTail link) = .ok (some (host, path)) ∧
      if isRouted s link then url = artifactBase s ++ (cut '#' link).1
      else ∃ scheme, schemeFor s host = .ok scheme ∧
        url = scheme ++ ("://" : Str) ++ host ++ '/' :: path := by
  unfold artifactUpstreamUrl at h
  simp only at h
  rw [if_pos (by rwa [← isArtifactLink_cut] at hlink)] at h
  obtain ⟨target, htarget, h⟩ := ok_of_bind h
  cases target with
  | none => cases h
  | some target =>
    refine ⟨target.1, target.2, htarget, ?_⟩
    by_cases hbase : s.settings.metadataArtifactBaseUrl = []
    · simp only [hbase, ne_eq, not_true, if_false] at h
      obtain ⟨scheme, hscheme, h⟩ := ok_of_bind h
      obtain rfl := Option.some.inj (Except.ok.inj h)
      simp [isRouted, hbase, hscheme]
    · simp only [hbase, ne_eq, not_false_eq_true, if_true] at h
      obtain rfl := Option.some.inj (Except.ok.inj h)
      simp [isRouted, hlink, hbase, artifactBase]

theorem artifactUpstreamUrl_absolute (hlink : ¬ isArtifactLink link)
    (h : artifactUpstreamUrl s link = .ok (some url)) :
    absoluteAllowed s url = .ok true ∧ url = (cut '#' link).1 := by
  unfold artifactUpstreamUrl at h
  simp only at h
  rw [if_neg (by rwa [← isArtifactLink_cut] at hlink)] at h
  obtain ⟨allowed, hallowed, h⟩ := ok_of_bind h
  cases allowed with
  | false => cases h
  | true =>
    obtain rfl := Option.some.inj (Except.ok.inj h)
    exact ⟨hallowed, rfl⟩

/-- The authority of a `/artifacts/` link. -/
theorem outbound_link {scheme host path : Str} (hlink : isArtifactLink link)
    (hhost : artifactHostPath s (linkTail link) = .ok (some (host, path)))
    (hscheme : schemeFor s host = .ok scheme) :
    HostTrusted s link ↔ netlocAccepted s.U (netlocOf host) ∧ Allowed s scheme (netlocOf host) := by
  obtain rfl : hostSegment link = host := (artifactHostPath_eq_some hhost).2
  constructor
  · intro h
    obtain ⟨scheme', hscheme', haccepted, hallowed⟩ := h hlink
    obtain rfl : scheme = scheme' := Except.ok.inj (hscheme.symm.trans hscheme')
    exact ⟨haccepted, hallowed⟩
  · exact fun h _ => ⟨scheme, hscheme, h.1, h.2⟩

theorem outbound_metadataHeadUrl (h : metadataHeadUrl s link = .ok (some url)) :
    Outbound s url ↔ HostTrusted s link := by
  by_cases hlink : isArtifactLink link
  · obtain ⟨host, path, scheme, hhost, hscheme, hsuffix⟩ := metadataHeadUrl_link hlink h
    have hvalid : IsScheme scheme := isScheme_of_schemeFor hscheme
    obtain ⟨urlPath, query, fragment, hsplit⟩ :=
      hvalid.urlsplit_append (U := s.U) [] (host ++ '/' :: path)
    rw [outbound_link hlink hhost hscheme]
    rw [List.append_assoc] at hsuffix
    rw [netlocOf_append] at hsplit
    split at hsplit
    · next haccepted =>
      have hne : scheme ≠ [] := by
        obtain ⟨c, cs, rfl, -⟩ := hvalid.head
        exact List.cons_ne_nil c cs
      rw [outbound_appendMetadataSuffix hsplit hne hsuffix, and_iff_right haccepted]
    · -- `urlsplit` has raised
      rw [appendMetadataSuffix, hsplit] at hsuffix
      cases hsuffix
  · obtain ⟨hallowed, hsuffix⟩ := metadataHeadUrl_absolute hlink h
    obtain ⟨parts, hsplit, hparts⟩ := allowed_of_absoluteAllowed hallowed
    have hne : parts.scheme ≠ [] := by
      rcases eq_http_of_isHttpScheme hparts.http with h | h <;> rw [h] <;> decide
    rw [outbound_appendMetadataSuffix hsplit hne hsuffix]
    exact iff_of_true hparts fun h => absurd h hlink

/-- `_artifact_upstream_url` when it is not routed. -/
theorem outbound_artifactUpstreamUrl (hrouted : ¬ isRouted s link)
    (h : artifactUpstreamUrl s link = .ok (some url)) : Outbound s url ↔ HostTrusted s link := by
  by_cases hlink : isArtifactLink link
  · obtain ⟨host, path, hhost, hurl⟩ := artifactUpstreamUrl_link hlink h
    rw [if_neg hrouted] at hurl
    obtain ⟨scheme, hscheme, rfl⟩ := hurl
    rw [outbound_link hlink hhost hscheme, List.append_assoc,
      outbound_iff (isScheme_of_schemeFor hscheme), netlocOf_append]
  · obtain ⟨hallowed, -⟩ := artifactUpstreamUrl_absolute hlink h
    obtain ⟨parts, hsplit, hparts⟩ := allowed_of_absoluteAllowed hallowed
    have hparsed := urlparse_eq_ok.mpr ⟨parts, hsplit, _, _, rfl, rfl⟩
    exact iff_of_true ⟨_, hparsed, hparts⟩ fun h => absurd h hlink

end Requests

/-! ## Through the artifact cache -/

section Routed

variable {s} {url link : Str}

theorem getLast?_rstripChar (c : Char) (text : Str) : (rstripChar c text).getLast? ≠ some c := by
  rw [rstripChar, List.getLast?_reverse]
  intro h
  have := List.head?_dropWhile_not (· == c) text.reverse
  rw [h] at this
  simp at this

/-- The path of a routed link, segment by segment. -/
theorem segments_routed (hlink : isArtifactLink link)
    (hbase : ∀ c ∈ artifactBase s, isPathEnd c = false) :
    segments (uriPath (artifactBase s ++ (cut '#' link).1)) =
      (segments (uriPath (artifactBase s)) ++ [("artifacts" : Str)]) ++ tailSegments link := by
  have hcut : (cut '#' link).1 = '/' :: (("artifacts" : Str) ++ '/' :: linkTail link) :=
    eq_of_isArtifactLink hlink
  have htake : (("artifacts" : Str) ++ '/' :: linkTail link).takeWhile (!isPathEnd ·) =
      ("artifacts" : Str) ++ '/' :: (linkTail link).takeWhile (!isPathEnd ·) := rfl
  have hhead : (("artifacts" : Str) ++ '/' :: linkTail link).head? ≠ some '/' :=
    show some 'a' ≠ some '/' by decide
  rw [hcut, uriPath_append_path hbase (getLast?_rstripChar _ _) hhead, htake, segments_append,
    List.splitOn_append_cons_self, List.splitOn_eq_singleton (by decide), List.append_assoc]
  rfl

/-- `_artifact_upstream_url` when it is routed. -/
theorem belowArtifacts_artifactUpstreamUrl (hrouted : isRouted s link)
    (h : artifactUpstreamUrl s link = .ok (some url)) : BelowArtifacts s url ↔ Confined s link := by
  have hlink : isArtifactLink link = true := (Bool.and_eq_true_iff.mp hrouted).1
  obtain ⟨host, path, -, hurl⟩ := artifactUpstreamUrl_link hlink h
  rw [if_pos hrouted] at hurl
  rw [hurl]
  unfold BelowArtifacts Confined
  have hscheme : isHttpUri (artifactBase s ++ (cut '#' link).1) = isHttpUri (artifactBase s) := by
    rw [eq_of_isArtifactLink hlink]
    exact congrArg (fun scheme => isHttpScheme (scheme.map Char.toLower))
      (uriScheme_append_path _)
  rw [hscheme]
  refine and_congr_right fun _ => ?_
  by_cases hbase : ∀ c ∈ artifactBase s, isPathEnd c = false
  · rw [and_iff_right hbase]
    refine exists_congr fun host => exists_congr fun below => and_congr_right fun _ =>
      and_congr_right fun _ => ?_
    have hdir : settle dot up (segments (uriPath (artifactBase s)) ++ [("artifacts" : Str)]) =
        artifactsDir s := settle_concat (by decide) (by decide) _
    have htail : tailSegments link ≠ [] := List.splitOn_ne_nil _ _
    rw [segments_routed hlink hbase, ← hdir]
    exact removeDots_append_eq htail
  · -- the path ends in the base
    refine iff_of_false ?_ fun h => hbase h.1
    rintro ⟨host, below, -, hbelow, hdots⟩
    obtain ⟨c, hbase⟩ := not_forall.mp hbase
    obtain ⟨hmem, hc⟩ := Classical.not_imp.mp hbase
    rw [uriPath_append_of_query hmem (by simpa using hc)] at hdots
    have hlength := congrArg List.length hdots
    have htrail : (trail dot up [] (segments (uriPath (artifactBase s)))).length ≤ 1 :=
      trail_length_le _
    simp only [removeDots, artifactsDir, List.length_append, List.length_cons] at hlength
    omega

/-- A link without dot segments meets the condition. -/
theorem confined_of_forall (host path : Str) (hhttp : isHttpUri (artifactBase s))
    (hbase : ∀ c ∈ artifactBase s, isPathEnd c = false)
    (hhost : artifactHostPath s (linkTail link) = .ok (some (host, path)))
    (hallowed : hostAllowed s.U s.settings host = .ok true)
    (hquery : ∀ c ∈ host, (!isPathEnd c) = true)
    (hdots : ∀ seg ∈ tailSegments link, seg ≠ dot ∧ seg ≠ up) : Confined s link := by
  obtain ⟨htail, hcut⟩ := artifactHostPath_eq_some hhost
  have hslash : '/' ∉ host := hcut ▸ not_mem_cut_fst '/' (linkTail link)
  have hsegments : tailSegments link =
      host :: (path.takeWhile (!isPathEnd ·)).splitOn '/' := by
    have htake : ('/' :: path).takeWhile (!isPathEnd ·) = '/' :: path.takeWhile (!isPathEnd ·) :=
      rfl
    rw [tailSegments, htail, List.takeWhile_append_of_pos hquery, htake,
      List.splitOn_append_cons_self, List.splitOn_eq_singleton hslash]
    rfl
  have hlast : trail dot up [] (tailSegments link) = [] := by
    refine if_neg ?_
    rintro (h | h)
    · exact (hdots _ (List.mem_of_getLast? h)).1 rfl
    · exact (hdots _ (List.mem_of_getLast? h)).2 rfl
  refine ⟨hhttp, hbase, host, _, hallowed, List.splitOn_ne_nil '/' (path.takeWhile (!isPathEnd ·)),
    ?_⟩
  rw [hlast, climb_of_forall hdots, hsegments]
  simp

end Routed

section Main

/-- **Outbound requests.** A URL that `metadata_head_url` or
`_artifact_upstream_url` returns stays inside the allowlist exactly when the link
meets the condition; an absolute link always does. -/
theorem outbound_allowed_iff (link : Str) :
    (∀ url, metadataHeadUrl s link = .ok (some url) → (Outbound s url ↔ HostTrusted s link)) ∧
    (∀ url, artifactUpstreamUrl s link = .ok (some url) →
      (StaysInside s link url ↔ Trusted s link)) := by
  refine ⟨fun url => outbound_metadataHeadUrl, fun url h => ?_⟩
  unfold StaysInside Trusted
  split
  · next hrouted => exact belowArtifacts_artifactUpstreamUrl hrouted h
  · next hrouted => exact outbound_artifactUpstreamUrl hrouted h

end Main

/-! ## Links -/

/-- A proxy that extracts through the artifact cache. -/
def cachedSite : Site where
  U := asciiOnly
  D := ⟨fun _ => .error .valueError, fun _ => .error .valueError, fun _ => [], fun _ => [],
    fun _ => [], fun _ => .ok [], fun text _ => text⟩
  float _ := none
  packaging := plainReleases
  settings := { metadataArtifactBaseUrl := ("http://nginx" : Str) }

def wheelLink : Str :=
  ("/artifacts/files.pythonhosted.org/packages/one-1.0-py3-none-any.whl" : Str)

def climbingLink : Str :=
  ("/artifacts/files.pythonhosted.org/../../internal/one-1.0-py3-none-any.whl" : Str)

/-- The dot segments of a link lead out of `/artifacts/`. -/
theorem not_inside_climbing :
    ¬ ∀ (s : Site) (link : Str),
      (∀ url, metadataHeadUrl s link = .ok (some url) → Outbound s url) ∧
      (∀ url, artifactUpstreamUrl s link = .ok (some url) → StaysInside s link url) := by
  intro h
  have hurl : artifactUpstreamUrl cachedSite climbingLink =
      .ok (some (("http://nginx" : Str) ++ climbingLink)) := by
    decide +kernel
  have hrouted : isRouted cachedSite climbingLink = true := by decide +kernel
  have hinside := (h cachedSite climbingLink).2 _ hurl
  rw [StaysInside, if_pos hrouted] at hinside
  obtain ⟨-, host, below, -, -, hdots⟩ := hinside
  have hleft : removeDots dot up [] (segments (uriPath (("http://nginx" : Str) ++ climbingLink))) =
      [("internal" : Str), ("one-1.0-py3-none-any.whl" : Str)] := by
    decide +kernel
  have hright : artifactsDir cachedSite = [("artifacts" : Str)] := by decide +kernel
  rw [hleft, hright] at hdots
  exact absurd (List.cons.inj hdots).1 (by decide +kernel)

/-- An ordinary link stays inside, probed or extracted from. -/
theorem outbound_allowed_wheel :
    ∃ url url', metadataHeadUrl cachedSite wheelLink = .ok (some url) ∧
      artifactUpstreamUrl cachedSite wheelLink = .ok (some url') ∧
      Outbound cachedSite url ∧ StaysInside cachedSite wheelLink url' := by
  have hhead : metadataHeadUrl cachedSite wheelLink =
      .ok (some
        ("https://files.pythonhosted.org/packages/one-1.0-py3-none-any.whl.metadata" : Str)) := by
    decide +kernel
  have hurl : artifactUpstreamUrl cachedSite wheelLink =
      .ok (some (("http://nginx" : Str) ++ wheelLink)) := by
    decide +kernel
  have htrusted : HostTrusted cachedSite wheelLink := by
    intro _
    refine ⟨("https" : Str), by decide +kernel, by decide +kernel, by decide, ?_⟩
    exact ⟨("files.pythonhosted.org" : Str), by decide +kernel, by decide +kernel⟩
  have hconfined : Trusted cachedSite wheelLink := by
    rw [Trusted, if_pos (by decide +kernel)]
    have hbase : (artifactBase cachedSite).all (!isPathEnd ·) = true := by decide +kernel
    exact confined_of_forall ("files.pythonhosted.org" : Str)
      ("packages/one-1.0-py3-none-any.whl" : Str) (by decide +kernel)
      (fun c hc => by simpa using List.all_eq_true.mp hbase c hc) (by decide +kernel)
      (by decide +kernel) (List.all_eq_true.mp (by decide +kernel)) (by decide +kernel)
  obtain ⟨hprobe, hextract⟩ := outbound_allowed_iff cachedSite wheelLink
  exact ⟨_, _, hhead, hurl, (hprobe _ hhead).mpr htrusted, (hextract _ hurl).mpr hconfined⟩

end ProxyCache.Theorems.Allowlist
