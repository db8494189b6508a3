import ProxyCache.Theorems.Allowlist

/-!
# Rewriting a link and undoing it

A rewritten link has lost its scheme, and the brackets and the parameters that
`urlparse` takes off. What is requested for it is what would have been requested for
the link itself, exactly when there was nothing of the last two.
-/

namespace ProxyCache.Theorems.LinkRoundTrip

open ProxyCache.Lib ProxyCache.Python ProxyCache.App
open ProxyCache.Theorems.Allowlist (isArtifactLink eq_http_of_isHttpScheme)

/-! ## Links -/

/-- A host as a link has it: a name or an IPv4 address, or an address in brackets. -/
inductive Host where
  | name (text : Str)
  | bracketed (address : Str)

def Host.text : Host → Str
  | .name text => text
  | .bracketed address => '[' :: (address ++ [']'])

/-- The host without brackets. -/
def Host.bare : Host → Str
  | .name text => text
  | .bracketed address => address

def portText : Option ℕ → Str
  | none => []
  | some port => ':' :: str port

/-- An absolute link without user information; the path is what follows its first slash. -/
structure Link where
  scheme : HttpScheme
  host : Host
  port : Option ℕ
  path : Str
  query : Str
  fragment : Str

namespace Link

def netloc (l : Link) : Str := l.host.text ++ portText l.port

def parts (l : Link) : SplitResult := ⟨l.scheme.text, l.netloc, '/' :: l.path, l.query, l.fragment⟩

/-- The link as it is written. -/
def text (l : Link) : Str := urlunsplit l.parts

/-- What follows the network location. -/
def target (l : Link) : Str := '/' :: l.path ++ (queryText l.query ++ fragmentText l.fragment)

end Link

/-- A host as `authority_of` writes it: `.hostname` does not lower a zone, `str.lower` does. -/
def plainHost (U : Unicode) (host : Str) : Str :=
  lower U (match cut '%' host with
    | (name, some zone) => lower U name ++ '%' :: zone
    | (name, none) => lower U name)

/-- The port that `authority_of` writes. -/
def plainPort (scheme : HttpScheme) (port : Option ℕ) : Option ℕ :=
  if port = defaultPort scheme.text then none else port

/-- The lowercase authority of a link. -/
def Link.authority (U : Unicode) (l : Link) : Str :=
  plainHost U l.host.bare ++ portText (plainPort l.scheme l.port)

/-- The characters that a host is written with. -/
def isHostChar (c : Char) : Bool :=
  !(isNetlocEnd c || isUnsafeUrlChar c || c = '@' || c = '[' || c = ']')

/-- A host; of a name that is not all ASCII, the lower case is one as well. -/
def IsHost (U : Unicode) : Host → Prop
  | .name text => text ≠ [] ∧ (∀ c ∈ text, isHostChar c ∧ c ≠ ':') ∧ plainHost U text ≠ [] ∧
      (∀ c ∈ plainHost U text, isHostChar c ∧ c ≠ ':') ∧ lower U (plainHost U text) = lower U text
  | .bracketed address => address ≠ [] ∧ address.all isAscii ∧ ∀ c ∈ address, isHostChar c

/-- A link that `urlsplit` accepts as it is written. -/
structure Link.WellFormed (U : Unicode) (l : Link) : Prop where
  split : IsSplit U l.parts
  host : IsHost U l.host
  port : ∀ port, l.port = some port → port ≤ 65535
  lower : ∀ text, l.host = .name text → netlocAccepted U (l.authority U) = true

/-! ## The same URL -/

/-- Two URLs that differ in the letter case of the host and in a default port only. -/
def SameUrl (U : Unicode) (scheme : HttpScheme) (url url' : Str) : Prop :=
  ∃ host host' port port' rest, '/' ∉ host ∧ '/' ∉ host' ∧ lower U host = lower U host' ∧
    port.or (defaultPort scheme.text) = port'.or (defaultPort scheme.text) ∧
    url = scheme.text ++ ("://" : Str) ++ (host ++ portText port ++ '/' :: rest) ∧
    url' = scheme.text ++ ("://" : Str) ++ (host' ++ portText port' ++ '/' :: rest)

/-- Both return the same URL. -/
def SameTarget (U : Unicode) (scheme : HttpScheme) (r r' : Except Raised (Option Str)) : Prop :=
  ∃ url url', r = .ok (some url) ∧ r' = .ok (some url') ∧ SameUrl U scheme url url'

/-- The link is rewritten with its path, query and fragment as they are, and what is requested for
the rewritten link is what is requested for the link. -/
def Undone (s : Site) (l : Link) : Prop :=
  ∃ authority, '/' ∉ authority ∧
    rewriteFileUrl s.U s.settings l.text = .ok (("/artifacts/" : Str) ++ authority ++ l.target) ∧
    SameTarget s.U l.scheme (artifactUpstreamUrl s (("/artifacts/" : Str) ++ authority ++ l.target))
      (artifactUpstreamUrl s l.text) ∧
    SameTarget s.U l.scheme (metadataHeadUrl s (("/artifacts/" : Str) ++ authority ++ l.target))
      (metadataHeadUrl s l.text)

/-- The last segment of the path, which `urlparse` looks for parameters in. -/
def Link.lastSegment (l : Link) : Str := (rcut '/' ('/' :: l.path)).2

/-- The host has no brackets, and the last segment no parameters. -/
def Link.Plain (l : Link) : Prop := (∃ text, l.host = .name text) ∧ ';' ∉ l.lastSegment

/-! ## Parameters -/

section Params

variable {path dir segment : Str}

/-- The path without parameters, and the parameters. -/
def paramless (path : Str) : Str × Str :=
  if path.contains ';' then splitParams path else (path, [])

theorem paramless_of_not_mem (hsegment : '/' ∉ segment) (h : ';' ∉ segment) :
    paramless (dir ++ '/' :: segment) = (dir ++ '/' :: segment, []) := by
  unfold paramless
  split
  · rw [splitParams, rcut_append hsegment]
    dsimp only
    rw [cut_of_not_mem h]
  · rfl

theorem paramless_of_append {params : Str} (hslash : '/' ∉ segment ++ ';' :: params)
    (h : ';' ∉ segment) :
    paramless (dir ++ '/' :: (segment ++ ';' :: params)) = (dir ++ '/' :: segment, params) := by
  have hcontains : (dir ++ '/' :: (segment ++ ';' :: params)).contains ';' = true := by
    rw [List.contains_iff_mem]
    simp
  rw [paramless, if_pos hcontains, splitParams, rcut_append hslash]
  dsimp only
  rw [cut_append h]

/-- A path with a slash, up to its last segment. -/
theorem exists_lastSegment (path : Str) :
    ∃ dir segment, '/' :: path = dir ++ '/' :: segment ∧ '/' ∉ segment := by
  have hreverse : '/' ∈ ('/' :: path).reverse := by simp
  obtain ⟨before, after, hsplit, hbefore⟩ := List.eq_append_cons_of_mem hreverse
  refine ⟨after.reverse, before.reverse, ?_, by simpa using hbefore⟩
  have h := congrArg List.reverse hsplit
  simpa using h

/-- A path and what is left without its parameters. -/
theorem paramless_cases (path : Str) :
    (';' ∉ (rcut '/' ('/' :: path)).2 ∧ paramless ('/' :: path) = ('/' :: path, [])) ∨
    (';' ∈ (rcut '/' ('/' :: path)).2 ∧ ∃ kept params,
      paramless ('/' :: path) = ('/' :: kept, params) ∧ '/' :: path = '/' :: kept ++ ';' :: params ∧
        paramless ('/' :: kept) = ('/' :: kept, [])) := by
  obtain ⟨dir, segment, hpath, hslash⟩ := exists_lastSegment path
  rw [hpath, rcut_append hslash]
  by_cases hparams : ';' ∈ segment
  · obtain ⟨before, params, rfl, hbefore⟩ := List.eq_append_cons_of_mem hparams
    have hkept : '/' ∉ before := fun h => hslash (List.mem_append_left _ h)
    obtain ⟨kept, hcons⟩ : ∃ kept, dir ++ '/' :: before = '/' :: kept := by
      cases dir with
      | nil => exact ⟨before, rfl⟩
      | cons c dir =>
        obtain rfl : '/' = c := (List.cons.inj hpath).1
        exact ⟨dir ++ '/' :: before, rfl⟩
    refine .inr ⟨hparams, kept, params, ?_, ?_, ?_⟩
    · rw [paramless_of_append hslash hbefore, hcons]
    · rw [← hcons, List.append_assoc]
      rfl
    · rw [← hcons]
      exact paramless_of_not_mem hkept hbefore
  · exact .inl ⟨hparams, paramless_of_not_mem hslash hparams⟩

end Params

/-! ## The authority of a link -/

section Authority

variable {U : Unicode} {l : Link}

theorem rcut_of_not_mem {c : Char} {text : Str} (h : c ∉ text) : rcut c text = (none, text) := by
  have hreverse : c ∉ text.reverse := by simpa using h
  rw [rcut, cut_of_not_mem hreverse]
  simp

theorem str_all_digits (n : ℕ) : (str n).all Char.isDigit = true := by
  rw [str_natCast]
  exact toDigits_all n

theorem digit_ne {c d : Char} (hc : c.isDigit = true) (hd : d.isDigit = false) : c ≠ d := by
  rintro rfl
  rw [hc] at hd
  cases hd

/-- The characters of a port. -/
theorem mem_portText {c : Char} {port : Option ℕ} (h : c ∈ portText port) :
    c = ':' ∨ c.isDigit = true := by
  cases port with
  | none => cases h
  | some n =>
    rcases List.mem_cons.mp h with rfl | h
    · exact .inl rfl
    · exact .inr (List.all_eq_true.mp (str_all_digits n) c h)

theorem not_mem_portText {c : Char} (port : Option ℕ) (hcolon : c ≠ ':')
    (hdigit : c.isDigit = false) :
    c ∉ portText port := by
  intro h
  rcases mem_portText h with h | h
  · exact hcolon h
  · rw [hdigit] at h
    cases h

theorem not_mem_host {c : Char} (hc : isHostChar c = false) {host : Str}
    (h : ∀ c ∈ host, isHostChar c = true) : c ∉ host := by
  intro hmem
  rw [h c hmem] at hc
  cases hc

/-- The characters of a host, without brackets. -/
theorem bare_chars (h : IsHost U l.host) : ∀ c ∈ l.host.bare, isHostChar c = true := by
  cases hhost : l.host with
  | name text =>
    rw [hhost] at h
    exact fun c hc => (h.2.1 c hc).1
  | bracketed address =>
    rw [hhost] at h
    exact h.2.2

theorem bare_ne_nil (h : IsHost U l.host) : l.host.bare ≠ [] := by
  cases hhost : l.host with
  | name text =>
    rw [hhost] at h
    exact h.1
  | bracketed address =>
    rw [hhost] at h
    exact h.1

theorem portFilter (port : Option ℕ) :
    ((cut ':' (portText port)).2).filter (· != []) = port.map fun n => str (n : ℕ) := by
  cases port with
  | none => rfl
  | some n =>
    have hne : str (n : ℕ) ≠ [] := by
      rw [str_natCast]
      exact Nat.toDigits_ne_nil
    rw [portText, cut, if_pos rfl]
    simp [hne]

/-- What `_hostinfo` reads. -/
theorem hostinfo_netloc (h : IsHost U l.host) :
    hostinfo l.netloc = (l.host.bare, l.port.map fun n => str (n : ℕ)) := by
  have hat : '@' ∉ l.netloc := by
    rw [Link.netloc, List.mem_append, not_or]
    refine ⟨?_, not_mem_portText l.port (by decide) (by decide)⟩
    have hbare : '@' ∉ l.host.bare := not_mem_host (by decide) (bare_chars h)
    cases hhost : l.host with
    | name text =>
      rw [hhost] at hbare
      exact hbare
    | bracketed address =>
      rw [hhost] at hbare
      simp only [Host.bare] at hbare
      simp [Host.text, hbare]
  unfold hostinfo
  rw [rcut_of_not_mem hat]
  dsimp only
  cases hhost : l.host with
  | name text =>
    rw [hhost] at h
    have hbracket : '[' ∉ l.netloc := by
      rw [Link.netloc, hhost, List.mem_append, not_or]
      exact ⟨not_mem_host (by decide) fun c hc => (h.2.1 c hc).1,
        not_mem_portText l.port (by decide) (by decide)⟩
    have hcolon : ':' ∉ text := fun hmem => (h.2.1 ':' hmem).2 rfl
    have hcut : cut ':' l.netloc = (text, (cut ':' (portText l.port)).2) := by
      rw [Link.netloc, hhost]
      cases hport : l.port with
      | none => rw [portText, List.append_nil]; exact cut_of_not_mem hcolon
      | some n => exact (cut_append hcolon _).trans (by rw [portText, cut, if_pos rfl])
    rw [cut_of_not_mem hbracket]
    dsimp only
    rw [hcut]
    dsimp only
    rw [portFilter]
    rfl
  | bracketed address =>
    rw [hhost] at h
    have hclose : ']' ∉ address := not_mem_host (by decide) h.2.2
    have hopen : cut '[' l.netloc = ([], some (address ++ ']' :: portText l.port)) := by
      rw [Link.netloc, hhost, Host.text, List.cons_append, cut, if_pos rfl, List.append_assoc]
      rfl
    rw [hopen]
    dsimp only
    rw [cut_append hclose]
    dsimp only
    rw [Option.getD_some, portFilter]
    rfl

theorem hostnameOf_netloc (h : IsHost U l.host) : hostnameOf U l.netloc =
    some (match cut '%' l.host.bare with
      | (name, some zone) => Python.lower U name ++ '%' :: zone
      | (name, none) => Python.lower U name) := by
  have hne := bare_ne_nil h
  unfold hostnameOf
  rw [hostinfo_netloc h]
  split
  · next heq => exact absurd (Prod.mk.inj heq).1 hne
  · next host port hpos heq =>
    obtain ⟨rfl, -⟩ := Prod.mk.inj heq
    cases cut '%' l.host.bare with
    | mk name zone =>
      cases zone with
      | none => rfl
      | some zone => rfl

theorem portOf_netloc (h : IsHost U l.host) (hport : ∀ port, l.port = some port → port ≤ 65535) :
    portOf l.netloc = .ok l.port := by
  unfold portOf
  rw [hostinfo_netloc h]
  cases hl : l.port with
  | none => rfl
  | some n =>
    have hle := hport n hl
    have hlength : (Nat.toDigits 10 n).length ≤ intMaxStrDigits := by
      have hdigits : (Nat.toDigits 10 n).length ≤ 5 :=
        (Nat.length_toDigits_le_iff (by decide) (by decide)).mpr (by omega)
      exact Nat.le_trans hdigits (by decide)
    dsimp only [Option.map_some]
    rw [if_pos (str_all_digits n), intOfDigits_str hlength]
    dsimp only
    rw [if_pos hle]

/-- `authority_of` of the link. -/
theorem authorityOf_link (h : IsHost U l.host) (hport : ∀ port, l.port = some port → port ≤ 65535)
    (path params query fragment : Str) :
    authorityOf U ⟨l.scheme.text, l.netloc, path, params, query, fragment⟩ =
    .ok (l.authority U) := by
  unfold authorityOf
  dsimp only
  rw [hostnameOf_netloc h, portOf_netloc h hport, Link.authority, plainPort, Option.getD_some]
  cases hl : l.port with
  | none =>
    have hdefault : (if none = defaultPort l.scheme.text then none else none : Option ℕ) =
      none := by
      split <;> rfl
    rw [hdefault, portText, List.append_nil]
    rfl
  | some n =>
    by_cases hdefault : some n = defaultPort l.scheme.text
    · rw [if_pos hdefault, portText, List.append_nil]
      simp only [bind, Except.bind, hdefault, ne_eq, not_true_eq_false, if_false]
      rfl
    · rw [if_neg hdefault]
      simp only [bind, Except.bind, ne_eq, hdefault, not_false_eq_true, if_true]
      rfl

end Authority

/-! ## What the link is rewritten to -/

section Rewriting

variable {s : Site} {U : Unicode} {l : Link}

theorem scheme_mem (scheme : HttpScheme) :
    scheme.text ∈ usesNetloc ∧ scheme.text ∈ usesParams ∧ scheme.text ∈ usesRelative ∧
      isHttpScheme scheme.text = true := by
  cases scheme <;> decide

theorem text_eq (h : l.WellFormed U) :
    l.text = l.scheme.text ++ ':' :: '/' :: '/' :: (l.netloc ++ l.target) :=
  h.split.urlunsplit_eq

/-- `urlparse` of a link with the path `/path`. -/
theorem urlparse_of_isSplit {path kept params : Str}
    (hsplit : IsSplit U { l.parts with path := '/' :: path })
    (hparams : paramless ('/' :: path) = ('/' :: kept, params)) (default : Str) :
    urlparse U (urlunsplit { l.parts with path := '/' :: path }) default =
      .ok ⟨l.scheme.text, l.netloc, '/' :: kept, params, l.query, l.fragment⟩ := by
  refine urlparse_eq_ok.mpr ⟨_, hsplit.urlsplit_urlunsplit default, '/' :: kept, params, rfl, ?_⟩
  rw [← hparams, paramless]
  have huses : l.scheme.text ∈ usesParams := (scheme_mem l.scheme).2.1
  simp [Link.parts, huses]

/-- A part of the path is a path too. -/
theorem isSplit_of_shorter
    {path kept : Str} (hsplit : IsSplit U { l.parts with path := '/' :: path })
    (hkept : '/' :: kept <+: '/' :: path) : IsSplit U { l.parts with path := '/' :: kept } :=
  { hsplit with
    path := ⟨kept, rfl⟩
    pathChars := fun c hc => hsplit.pathChars c (hkept.mem hc) }

/-- `urlparse` after `urljoin`: the parameters are off. -/
theorem urlparse_urljoin {base : Str} (h : l.WellFormed U) (hne : base ≠ []) {b : ParseResult}
    (hbase : urlparse U base [] = .ok b) :
    ∃ resolved params, urljoin U base l.text = .ok resolved ∧ urlparse U resolved [] =
      .ok ⟨l.scheme.text, l.netloc, (paramless ('/' :: l.path)).1, params, l.query,
        l.fragment⟩ := by
  have hsplit : IsSplit U { l.parts with path := '/' :: l.path } := h.split
  obtain ⟨hnetloc, -, hrelative, -⟩ := scheme_mem l.scheme
  have htext : l.text ≠ [] := by
    rw [text_eq h]
    simp
  obtain ⟨kept, params, hparams, hjoined⟩ : ∃ kept params,
      paramless ('/' :: l.path) = ('/' :: kept, params) ∧
      ∃ path params', '/' :: path =
          (if params ≠ [] then '/' :: kept ++ ';' :: params else '/' :: kept) ∧
        '/' :: path <+: '/' :: l.path ∧ paramless ('/' :: path) = ('/' :: kept, params') := by
    rcases paramless_cases l.path with ⟨-, hparams⟩ | ⟨-, kept, params, hparams, hpath, hkept⟩
    · exact ⟨l.path, [], hparams, l.path, [], rfl, List.prefix_rfl, hparams⟩
    · refine ⟨kept, params, hparams, ?_⟩
      by_cases hempty : params = []
      · refine ⟨kept, [], by rw [if_neg (not_not.mpr hempty)], ?_, hkept⟩
        rw [hpath]
        exact List.prefix_append _ _
      · exact ⟨l.path, params, by rw [if_pos hempty, hpath], List.prefix_rfl, hparams⟩
  have hparse : urlparse U l.text b.scheme =
      .ok ⟨l.scheme.text, l.netloc, '/' :: kept, params, l.query, l.fragment⟩ :=
    urlparse_of_isSplit hsplit hparams b.scheme
  rw [hparams]
  by_cases hscheme : l.scheme.text = b.scheme
  · -- `urljoin` takes the link apart and puts it together
    obtain ⟨path, params', hpath, hkept, hagain⟩ := hjoined
    refine ⟨urlunsplit { l.parts with path := '/' :: path }, params', ?_, ?_⟩
    · have hlocated : l.netloc ≠ [] := h.split.located
      unfold urljoin
      rw [if_neg hne, if_neg htext, hbase]
      simp only [bind, Except.bind]
      rw [hparse]
      dsimp only
      rw [if_neg (by simp [← hscheme, hrelative]), if_pos ⟨hnetloc, hlocated⟩, hpath]
      rfl
    · exact urlparse_of_isSplit (isSplit_of_shorter hsplit hkept) hagain []
  · refine ⟨l.text, params, ?_, urlparse_of_isSplit hsplit hparams []⟩
    unfold urljoin
    rw [if_neg hne, if_neg htext, hbase]
    simp only [bind, Except.bind]
    rw [hparse]
    dsimp only
    rw [if_pos (.inl hscheme)]
    rfl

/-- The allowlist could be read. -/
theorem urlparse_base_of_hostAllowed {host : Str} {allowed : Bool} {settings : Settings}
    (h : hostAllowed U settings host = .ok allowed) :
    ∃ b, urlparse U (rstripChar '/' settings.upstreamFilesUrl ++ ['/']) [] = .ok b := by
  have hupstream : ∃ parsed, urlparse U settings.upstreamFilesUrl [] = .ok parsed := by
    obtain ⟨hosts, hhosts, -⟩ := ok_of_bind h
    obtain ⟨files, hfiles, -⟩ := ok_of_bind hhosts
    obtain ⟨parsed, hparsed, -⟩ := ok_of_bind hfiles
    exact ⟨parsed, hparsed⟩
  obtain ⟨parsed, hparsed⟩ := hupstream
  obtain ⟨parts, hparts, -⟩ := urlparse_eq_ok.mp hparsed
  have haccepted : netlocAccepted U (locationOf settings.upstreamFilesUrl []).2 = true := by
    rcases urlsplit_cases U settings.upstreamFilesUrl [] with ⟨haccepted, -⟩ | ⟨-, herror⟩
    · exact haccepted
    · rw [herror] at hparts
      cases hparts
  rcases urlsplit_cases U (rstripChar '/' settings.upstreamFilesUrl ++ ['/']) [] with
    ⟨-, path, query, fragment, hok⟩ | ⟨hrefused, -⟩
  · exact ⟨_, urlparse_eq_ok.mpr ⟨_, hok, _, _, rfl, rfl⟩⟩
  · rw [locationOf_rstripChar, haccepted] at hrefused
    cases hrefused

/-- The steps of `rewrite_file_url` on a URL that resolves to an HTTP one. -/
theorem rewriteFileUrl_of_parsed
    {settings : Settings} {url resolved host : Str} {parsed : ParseResult}
    {allowed : Bool} (hurl : url ≠ [] ∧ ("/artifacts/" : Str).isPrefixOf url = false)
    (hresolved : urljoin U (rstripChar '/' settings.upstreamFilesUrl ++ ['/']) url = .ok resolved)
    (hparsed : urlparse U resolved [] = .ok parsed) (hhttp : isHttpScheme parsed.scheme = true)
    (hhost : (hostnameOf U parsed.netloc).isNone = false)
    (hauthority : authorityOf U parsed = .ok host)
    (hallowed : hostAllowed U settings host = .ok allowed) :
    rewriteFileUrl U settings url = .ok (if allowed then artifactLink host parsed else url) := by
  unfold rewriteFileUrl
  rw [if_neg hurl.1, if_neg (by rw [hurl.2]; exact Bool.false_ne_true),
    hresolved]
  simp only [bind, Except.bind]
  rw [hparsed]
  dsimp only
  rw [hhttp, hhost, hauthority]
  dsimp only
  rw [hallowed]
  cases allowed <;> rfl

/-- What an allowlisted link is rewritten to. -/
theorem rewriteFileUrl_link {settings : Settings} (h : l.WellFormed U)
    (hallowed : hostAllowed U settings (l.authority U) = .ok true) :
    rewriteFileUrl U settings l.text = .ok (("/artifacts/" : Str) ++ l.authority U ++
      (paramless ('/' :: l.path)).1 ++ (queryText l.query ++ fragmentText l.fragment)) := by
  obtain ⟨b, hb⟩ := urlparse_base_of_hostAllowed hallowed
  have hne : rstripChar '/' settings.upstreamFilesUrl ++ ['/'] ≠ [] := by simp
  obtain ⟨resolved, params, hresolved, hparsed⟩ := urlparse_urljoin h hne hb
  have htext : l.text ≠ [] ∧ ("/artifacts/" : Str).isPrefixOf l.text = false := by
    rw [text_eq h]
    cases l.scheme with
    | https => exact ⟨List.cons_ne_nil _ _, rfl⟩
    | http => exact ⟨List.cons_ne_nil _ _, rfl⟩
  have hhost : (hostnameOf U l.netloc).isNone = false := by
    rw [hostnameOf_netloc h.host]
    rfl
  have hpath : ∃ kept, (paramless ('/' :: l.path)).1 = '/' :: kept := by
    rcases paramless_cases l.path with ⟨-, hparams⟩ | ⟨-, kept, params, hparams, -⟩
    · exact ⟨l.path, by rw [hparams]⟩
    · exact ⟨kept, by rw [hparams]⟩
  rw [rewriteFileUrl_of_parsed htext hresolved hparsed (scheme_mem l.scheme).2.2.2 hhost
    (authorityOf_link h.host h.port _ _ _ _) hallowed, if_pos rfl]
  obtain ⟨kept, hkept⟩ := hpath
  unfold artifactLink queryText fragmentText
  rw [hkept]
  simp only [List.cons_ne_nil, if_false, List.head?_cons, if_true, List.append_assoc]

end Rewriting

/-! ## What is requested -/

section Requests

variable {s : Site} {U : Unicode} {l : Link}

/-- The URL of the link, up to its fragment. -/
def base (scheme : HttpScheme) (authority path query : Str) : Str :=
  urlunsplit ⟨scheme.text, authority, '/' :: path, query, []⟩

theorem hash_not_mem_parts {parts : SplitResult} (h : IsSplit U parts) :
    '#' ∉ parts.scheme ++ ':' :: '/' :: '/' ::
    (parts.netloc ++ (parts.path ++ queryText parts.query)) := by
  have hscheme : '#' ∉ parts.scheme := fun hc => absurd (h.scheme.all '#' hc) (by decide)
  have hnetloc : '#' ∉ parts.netloc := by
    intro hc
    rw [← h.netloc] at hc
    have hend := List.mem_takeWhile_imp (p := fun c => !isNetlocEnd c) hc
    exact absurd hend (by decide)
  have hpath : '#' ∉ parts.path := fun hc => (h.pathChars _ hc).2.1 rfl
  have hquery : '#' ∉ queryText parts.query := by
    unfold queryText
    split
    · exact List.not_mem_nil
    · intro hc
      rcases List.mem_cons.mp hc with hc | hc
      · exact absurd hc (by decide)
      · exact (h.queryChars _ hc).1 rfl
  simp [hscheme, hnetloc, hpath, hquery]

theorem isSplit_base (h : IsSplit U l.parts) :
    IsSplit U ⟨l.scheme.text, l.netloc, '/' :: l.path, l.query, []⟩ :=
  { h with fragmentChars := nofun }

theorem cut_text (h : l.WellFormed U) :
    (cut '#' l.text).1 = base l.scheme l.netloc l.path l.query := by
  have hbase := (isSplit_base h.split).urlunsplit_eq
  rw [base, hbase, text_eq h, Link.target]
  have hhash := hash_not_mem_parts h.split
  have hcut := cut_fragmentText hhash l.fragment
  simp only [Link.parts] at hcut
  simpa [fragmentText] using hcut.1

theorem absoluteAllowed_link (h : l.WellFormed s.U)
    (hallowed : hostAllowed s.U s.settings (l.authority s.U) = .ok true) :
    absoluteAllowed s (base l.scheme l.netloc l.path l.query) = .ok true := by
  have hparsed := (isSplit_base h.split).urlsplit_urlunsplit []
  have hhost : (hostnameOf s.U l.netloc).isNone = false := by
    rw [hostnameOf_netloc h.host]
    rfl
  unfold absoluteAllowed
  rw [base, urlparse_eq_ok.mpr ⟨_, hparsed, _, _, rfl, rfl⟩]
  simp only [bind, Except.bind]
  rw [hhost, (scheme_mem l.scheme).2.2.2, authorityOf_link h.host h.port]
  exact hallowed

/-- `.metadata` behind the path of a URL. -/
theorem appendMetadataSuffix_base {scheme : HttpScheme} {authority path query : Str}
    (h : IsSplit s.U ⟨scheme.text, authority, '/' :: path, query, []⟩) :
    appendMetadataSuffix s (base scheme authority path query) =
      .ok (base scheme authority (path ++ (".metadata" : Str)) query) := by
  unfold appendMetadataSuffix
  rw [base, h.urlsplit_urlunsplit]
  rfl

/-- What is requested for the link itself. -/
theorem requests_link (h : l.WellFormed s.U)
    (hallowed : hostAllowed s.U s.settings (l.authority s.U) = .ok true) :
    artifactUpstreamUrl s l.text = .ok (some (base l.scheme l.netloc l.path l.query)) ∧
      metadataHeadUrl s l.text =
        .ok (some (base l.scheme l.netloc (l.path ++ (".metadata" : Str)) l.query)) := by
  have hallowed := absoluteAllowed_link h hallowed
  have hsuffix := appendMetadataSuffix_base (isSplit_base h.split)
  have htext : isArtifactLink l.text = false := by
    rw [text_eq h]
    cases l.scheme with
    | https => rfl
    | http => rfl
  have hbase : isArtifactLink (cut '#' l.text).1 = false :=
    (Allowlist.isArtifactLink_cut l.text).trans htext
  rw [cut_text h] at hbase
  constructor
  · unfold artifactUpstreamUrl
    simp only
    rw [cut_text h, if_neg (Bool.eq_false_iff.mp hbase), hallowed]
    rfl
  · unfold metadataHeadUrl
    simp only
    rw [cut_text h, if_neg (Bool.eq_false_iff.mp htext), hallowed]
    simp only [bind, Except.bind]
    rw [hsuffix]
    rfl

/-- What is requested for a link to an artifact. -/
theorem requests_artifact {scheme : HttpScheme} {host path query fragment : Str}
    (hbase : s.settings.metadataArtifactBaseUrl = []) (hne : host ≠ [])
    (hchars : '/' ∉ host ∧ '#' ∉ host) (hpath : '#' ∉ path) (hquery : '#' ∉ query)
    (hallowed : hostAllowed s.U s.settings host = .ok true)
    (hscheme : schemeFor s host = .ok scheme.text) :
    let link : Str := ("/artifacts/" : Str) ++ host ++
      ('/' :: path ++ (queryText query ++ fragmentText fragment))
    let url : Str := scheme.text ++ ("://" : Str) ++ host ++ '/' :: (path ++ queryText query)
    artifactUpstreamUrl s link = .ok (some url) ∧
      metadataHeadUrl s link = (do return some (← appendMetadataSuffix s url)) := by
  intro link url
  have hlink : isArtifactLink link = true := by
    refine List.isPrefixOf_iff_prefix.mpr ?_
    rw [show link = ("/artifacts/" : Str) ++ (host ++
      ('/' :: path ++ (queryText query ++ fragmentText fragment))) from List.append_assoc ..]
    exact List.prefix_append _ _
  have hcut : (cut '#' link).1 =
    ("/artifacts/" : Str) ++ (host ++ '/' :: (path ++ queryText query)) := by
    have hhash : '#' ∉ ("/artifacts/" : Str) ++ (host ++ '/' :: (path ++ queryText query)) := by
      have hword : '#' ∉ ("/artifacts/" : Str) := by decide
      have hqueryText : '#' ∉ queryText query := by
        unfold queryText
        split
        · exact List.not_mem_nil
        · simp [hquery]
      simp only [List.mem_append, List.mem_cons, not_or]
      exact ⟨hword, hchars.2, by decide, hpath, hqueryText⟩
    have hfragment := (cut_fragmentText hhash fragment).1
    rw [← hfragment]
    refine congrArg (fun text => (cut '#' text).1) ?_
    simp only [link, List.append_assoc, List.cons_append]
  have hrest : artifactHostPath s (((cut '#' link).1).drop 11) =
      .ok (some (host, path ++ queryText query)) := by
    have hdrop : ((cut '#' link).1).drop 11 = host ++ '/' :: (path ++ queryText query) := by
      rw [hcut]
      rfl
    unfold artifactHostPath
    rw [hdrop, cut_append hchars.1]
    dsimp only
    rw [if_neg hne, hallowed]
    rfl
  constructor
  · unfold artifactUpstreamUrl
    simp only
    rw [if_pos (by rw [← Allowlist.isArtifactLink_cut] at hlink; exact hlink), hrest]
    simp only [bind, Except.bind]
    rw [if_neg (not_not.mpr hbase), hscheme]
    rfl
  · unfold metadataHeadUrl
    simp only
    rw [if_pos hlink, hrest]
    simp only [bind, Except.bind]
    rw [hscheme]

end Requests

/-! ## Hosts in ASCII -/

section Ascii

variable {U : Unicode} {l : Link} {host : Str}

/-- What lowering does to an ASCII character. -/
theorem asciiChar_facts {c : Char} (h : isAscii c = true) :
    isAscii c.toLower = true ∧ c.toLower.toLower = c.toLower ∧
      (isHostChar c.toLower = isHostChar c) ∧ (c.toLower = ':' → c = ':') := by
  have hall : ∀ n < 128, isAscii (Char.ofNat n).toLower = true ∧
      (Char.ofNat n).toLower.toLower = (Char.ofNat n).toLower ∧
      isHostChar (Char.ofNat n).toLower = isHostChar (Char.ofNat n) ∧
      ((Char.ofNat n).toLower = ':' → Char.ofNat n = ':') := by
    decide +kernel
  have hlt : c.toNat < 128 := of_decide_eq_true h
  have hc := hall c.toNat hlt
  rwa [Char.ofNat_toNat] at hc

theorem lower_lower_ascii (h : host.all isAscii = true) :
    (host.map Char.toLower).all isAscii = true ∧
      (host.map Char.toLower).map Char.toLower = host.map Char.toLower := by
  have hall := List.all_eq_true.mp h
  refine ⟨List.all_eq_true.mpr fun c hc => ?_, ?_⟩
  · obtain ⟨d, hd, rfl⟩ := List.mem_map.mp hc
    exact (asciiChar_facts (hall d hd)).1
  · rw [List.map_map]
    exact List.map_congr_left fun c hc => (asciiChar_facts (hall c hc)).2.1

/-- Of an ASCII host every letter is lowered. -/
theorem plainHost_ascii (U : Unicode) (h : host.all isAscii = true) :
    plainHost U host = host.map Char.toLower := by
  obtain ⟨hascii, hagain⟩ := lower_lower_ascii h
  unfold plainHost
  split
  · next name zone hcut =>
    obtain rfl := cut_eq_some hcut
    rw [List.all_append, List.all_cons, Bool.and_eq_true, Bool.and_eq_true] at h
    obtain ⟨hname, -, hzone⟩ := h
    obtain ⟨hnameAscii, hnameAgain⟩ := lower_lower_ascii hname
    rw [lower_ascii U hname, lower_ascii U]
    · rw [List.map_append, hnameAgain, List.map_append]
    · rw [List.all_append, hnameAscii, List.all_cons, hzone]
      rfl
  · next name hcut =>
    obtain rfl : host = name := (cut_eq_none hcut).1
    rw [lower_ascii U h, lower_ascii U hascii, hagain]

theorem plainHost_ascii_chars
    (h : host.all isAscii = true) (hchars : ∀ c ∈ host, isHostChar c = true) :
    ∀ c ∈ plainHost U host, isHostChar c = true := by
  intro c hc
  rw [plainHost_ascii U h] at hc
  obtain ⟨d, hd, rfl⟩ := List.mem_map.mp hc
  rw [(asciiChar_facts (List.all_eq_true.mp h d hd)).2.2.1]
  exact hchars d hd

/-- A name in ASCII needs no more than its characters. -/
theorem isHost_name (hne : host ≠ []) (h : host.all isAscii = true)
    (hchars : ∀ c ∈ host, isHostChar c ∧ c ≠ ':') : IsHost U (.name host) := by
  refine ⟨hne, hchars, by simpa [plainHost_ascii U h] using hne,
    fun c hc => ⟨plainHost_ascii_chars h (fun c hc => (hchars c hc).1) c hc, ?_⟩, ?_⟩
  · rw [plainHost_ascii U h] at hc
    obtain ⟨d, hd, rfl⟩ := List.mem_map.mp hc
    exact fun hcolon => (hchars d hd).2
      ((asciiChar_facts (List.all_eq_true.mp h d hd)).2.2.2 hcolon)
  · obtain ⟨hascii, hagain⟩ := lower_lower_ascii h
    rw [plainHost_ascii U h, lower_ascii U hascii, lower_ascii U h, hagain]

theorem portText_ascii (port : Option ℕ) : (portText port).all isAscii = true := by
  refine List.all_eq_true.mpr fun c hc => ?_
  rcases mem_portText hc with rfl | hdigit
  · rfl
  · obtain ⟨-, hle⟩ : 48 ≤ c.toNat ∧ c.toNat ≤ 57 := by
      simpa [Char.isDigit, UInt32.le_iff_toNat_le] using hdigit
    exact decide_eq_true (by omega)

end Ascii

/-! ## Undoing -/

section Main

variable {s : Site} {U : Unicode} {l : Link}

/-- The characters of an authority. -/
theorem authority_chars (h : IsHost U l.host) : ∀ c ∈ l.authority U, isHostChar c = true := by
  have hport : ∀ c ∈ portText (plainPort l.scheme l.port), isHostChar c = true := by
    intro c hc
    rcases mem_portText hc with rfl | hdigit
    · decide
    · have hne : ∀ d : Char, d.isDigit = false → c ≠ d := fun d => digit_ne hdigit
      simp [isHostChar, isNetlocEnd, isUnsafeUrlChar, hne]
  intro c hc
  rcases List.mem_append.mp hc with hc | hc
  · cases hhost : l.host with
    | name text =>
      rw [hhost] at h hc
      exact (h.2.2.2.1 c hc).1
    | bracketed address =>
      rw [hhost] at h hc
      exact plainHost_ascii_chars h.2.1 h.2.2 c hc
  · exact hport c hc

theorem authority_ne_nil (h : IsHost U l.host) : l.authority U ≠ [] := by
  intro hnil
  have hplain : plainHost U l.host.bare = [] := (List.append_eq_nil_iff.mp hnil).1
  cases hhost : l.host with
  | name text =>
    rw [hhost] at h hplain
    exact h.2.2.1 hplain
  | bracketed address =>
    rw [hhost] at h hplain
    rw [Host.bare, plainHost_ascii U h.2.1] at hplain
    exact h.1 (List.map_eq_nil_iff.mp hplain)

theorem authority_not_mem (h : IsHost U l.host) {c : Char} (hc : isHostChar c = false) :
    c ∉ l.authority U := not_mem_host hc (authority_chars h)

/-- The link on the authority as it is written by `authority_of`. -/
theorem isSplit_authority (h : l.WellFormed U) {text : Str} (hname : l.host = .name text) :
    IsSplit U ⟨l.scheme.text, l.authority U, '/' :: l.path, l.query, []⟩ where
  scheme := h.split.scheme
  usesNetloc := h.split.usesNetloc
  netloc := by
    have hchars := authority_chars h.host
    have hsafe : ∀ c ∈ l.authority U, (!isUnsafeUrlChar c) = true ∧ (!isNetlocEnd c) = true := by
      intro c hc
      have hchar := hchars c hc
      simp only [isHostChar, Bool.not_eq_true', Bool.or_eq_false_iff] at hchar
      exact ⟨by rw [hchar.1.1.1.2]; rfl, by rw [hchar.1.1.1.1]; rfl⟩
    show netlocOf (l.authority U) = l.authority U
    rw [netlocOf, List.filter_eq_self.mpr fun c hc => (hsafe c hc).1]
    exact List.takeWhile_eq_self_iff.mpr fun c hc => (hsafe c hc).2
  accepted := h.lower text hname
  located := authority_ne_nil h.host
  path := h.split.path
  pathChars := h.split.pathChars
  queryChars := h.split.queryChars
  fragmentChars := nofun

theorem base_eq {scheme : HttpScheme} {authority path query : Str}
    (h : IsSplit U ⟨scheme.text, authority, '/' :: path, query, []⟩) :
    base scheme authority path query =
      scheme.text ++ ("://" : Str) ++ authority ++ '/' :: (path ++ queryText query) := by
  rw [base, h.urlunsplit_eq]
  simp [fragmentText]

/-- `.metadata` leaves the parts a URL. -/
theorem isSplit_suffixed {scheme : HttpScheme} {authority path query : Str}
    (h : IsSplit U ⟨scheme.text, authority, '/' :: path, query, []⟩) :
    IsSplit U ⟨scheme.text, authority, '/' :: (path ++ (".metadata" : Str)), query, []⟩ :=
  { h with
    path := ⟨_, rfl⟩
    pathChars := by
      intro c hc
      rw [← List.cons_append] at hc
      rcases List.mem_append.mp hc with hc | hc
      · exact h.pathChars c hc
      · have hall : ∀ c ∈ (".metadata" : Str), c ≠ '?' ∧ c ≠ '#' ∧ isUnsafeUrlChar c = false := by
          decide
        exact hall c hc }

/-- The same path and query on the written and on the lowered authority. -/
theorem sameUrl_base (h : l.WellFormed U) {text : Str} (hname : l.host = .name text)
    {path query : Str}
    (hlink : IsSplit U ⟨l.scheme.text, l.netloc, '/' :: path, query, []⟩)
    (hplain : IsSplit U ⟨l.scheme.text, l.authority U, '/' :: path, query, []⟩) :
    SameUrl U l.scheme (base l.scheme (l.authority U) path query)
    (base l.scheme l.netloc path query) := by
  have hhost := h.host
  rw [hname] at hhost
  obtain ⟨-, hchars, -, hlower, hcase⟩ := hhost
  refine ⟨plainHost U text, text, plainPort l.scheme l.port, l.port, path ++ queryText query,
    not_mem_host (by decide) fun c hc => (hlower c hc).1,
    not_mem_host (by decide) fun c hc => (hchars c hc).1, hcase, ?_, ?_, ?_⟩
  · unfold plainPort
    split
    · next hdefault =>
      rw [hdefault, Option.none_or]
      cases defaultPort l.scheme.text <;> rfl
    · rfl
  · rw [base_eq hplain, Link.authority, hname]
    simp only [Host.bare, List.append_assoc]
  · rw [base_eq hlink, Link.netloc, hname]
    simp only [Host.text, List.append_assoc]

/-- A plain link is undone. -/
theorem undone_of_plain (h : l.WellFormed s.U) (hbase : s.settings.metadataArtifactBaseUrl = [])
    (hallowed : hostAllowed s.U s.settings (l.authority s.U) = .ok true)
    (hscheme : schemeFor s (l.authority s.U) = .ok l.scheme.text) (hplain : l.Plain) :
    Undone s l := by
  obtain ⟨⟨text, hname⟩, hsegment⟩ := hplain
  have hkept : paramless ('/' :: l.path) = ('/' :: l.path, []) := by
    rcases paramless_cases l.path with ⟨-, hparams⟩ | ⟨hmem, -⟩
    · exact hparams
    · exact absurd hmem hsegment
  have hlink := isSplit_base h.split
  have hlower := isSplit_authority h hname
  have hrewritten := rewriteFileUrl_link h hallowed
  rw [hkept] at hrewritten
  obtain ⟨hupstream, hhead⟩ := requests_link h hallowed
  have hpath : '#' ∉ l.path :=
    fun hc => (h.split.pathChars '#' (List.mem_cons_of_mem _ hc)).2.1 rfl
  have hquery : '#' ∉ l.query := fun hc => (h.split.queryChars '#' hc).1 rfl
  obtain ⟨hupstream', hhead'⟩ := @requests_artifact s l.scheme (l.authority s.U) l.path l.query
    l.fragment hbase (authority_ne_nil h.host)
    ⟨authority_not_mem h.host (by decide), authority_not_mem h.host (by decide)⟩ hpath hquery
    hallowed hscheme
  rw [← base_eq hlower] at hupstream' hhead'
  rw [appendMetadataSuffix_base hlower] at hhead'
  refine ⟨l.authority s.U, authority_not_mem h.host (by decide), ?_, ?_, ?_⟩
  · rw [hrewritten, List.append_assoc]
    rfl
  · exact ⟨_, _, hupstream', hupstream, sameUrl_base h hname hlink hlower⟩
  · exact ⟨_, _, hhead', hhead,
      sameUrl_base h hname (isSplit_suffixed hlink) (isSplit_suffixed hlower)⟩

/-- Two ways to read a text up to its first slash. -/
theorem append_slash_inj {a a' b b' : Str} (ha : '/' ∉ a) (ha' : '/' ∉ a')
    (h : a ++ '/' :: b = a' ++ '/' :: b') : a = a' ∧ b = b' := by
  have hcut := congrArg (cut '/') h
  rw [cut_append ha, cut_append ha'] at hcut
  exact ⟨(Prod.mk.inj hcut).1, Option.some.inj (Prod.mk.inj hcut).2⟩

/-- What lost its brackets is another URL. -/
theorem not_sameUrl_bracketed {address : Str} (hhost : l.host = .bracketed address)
    (h : l.WellFormed U) {path : Str} {rest : Str} :
    ¬ SameUrl U l.scheme (l.scheme.text ++ ("://" : Str) ++ l.authority U ++ '/' :: rest)
      (l.scheme.text ++ ("://" : Str) ++ l.netloc ++ '/' :: path) := by
  rintro ⟨host, host', port, port', rest', hslash, hslash', hcase, -, hurl, hurl'⟩
  have hports : ∀ port, '/' ∉ portText port :=
    fun port => not_mem_portText port (by decide) (by decide)
  have haddress := h.host
  rw [hhost] at haddress
  obtain ⟨-, hascii, hchars⟩ := haddress
  have hnetloc : l.netloc = '[' :: (address ++ ']' :: portText l.port) := by
    rw [Link.netloc, hhost, Host.text, List.cons_append, List.append_assoc]
    rfl
  have hnetlocSlash : '/' ∉ l.netloc := by
    rw [hnetloc]
    simp [not_mem_host (c := '/') (by decide) hchars, hports]
  rw [List.append_assoc, List.append_cancel_left_eq] at hurl hurl'
  have hparts := (append_slash_inj (authority_not_mem h.host (by decide))
    (by simp [hslash, hports]) hurl).1
  have hparts' := (append_slash_inj hnetlocSlash (by simp [hslash', hports]) hurl').1
  -- the host starts with the bracket
  rw [hnetloc] at hparts'
  obtain ⟨tail, rfl⟩ : ∃ tail, host' = '[' :: tail := by
    cases host' with
    | nil =>
      cases port' with
      | none => cases hparts'
      | some n => exact absurd (List.cons.inj hparts').1 (by decide)
    | cons c tail =>
      obtain rfl : '[' = c := (List.cons.inj hparts').1
      exact ⟨tail, rfl⟩
  have hascii' : ('[' :: tail).all isAscii = true := by
    have hall : ('[' :: (address ++ ']' :: portText l.port)).all isAscii = true := by
      rw [List.all_cons, List.all_append, hascii, List.all_cons, portText_ascii]
      rfl
    rw [hparts', List.all_append, Bool.and_eq_true] at hall
    exact hall.1
  have hasciiHost : host.all isAscii = true := by
    have hall : (l.authority U).all isAscii = true := by
      rw [Link.authority, hhost, Host.bare, plainHost_ascii U hascii, List.all_append,
        (lower_lower_ascii hascii).1, portText_ascii]
      rfl
    rw [hparts, List.all_append, Bool.and_eq_true] at hall
    exact hall.1
  rw [lower_ascii U hasciiHost, lower_ascii U hascii'] at hcase
  cases host with
  | nil => cases hcase
  | cons c host =>
    have hbracket : c.toLower = '[' := (List.cons.inj hcase).1
    have hc : isHostChar c = true :=
      authority_chars h.host c (by rw [hparts]; exact List.mem_cons_self)
    have hfacts := asciiChar_facts (List.all_eq_true.mp hasciiHost c List.mem_cons_self)
    rw [← hfacts.2.2.1, hbracket] at hc
    exact absurd hc (by decide)

/-- A link that is undone is plain. -/
theorem plain_of_undone (h : l.WellFormed s.U) (hbase : s.settings.metadataArtifactBaseUrl = [])
    (hallowed : hostAllowed s.U s.settings (l.authority s.U) = .ok true)
    (hscheme : schemeFor s (l.authority s.U) = .ok l.scheme.text) (hundone : Undone s l) :
    l.Plain := by
  obtain ⟨authority, hslash, hrewritten, ⟨url, url', hurl, hurl', hsame⟩, -⟩ := hundone
  have hkept := rewriteFileUrl_link h hallowed
  rw [hrewritten] at hkept
  have hparts := Except.ok.inj hkept
  rw [List.append_assoc, List.append_assoc, List.append_assoc, List.append_cancel_left_eq] at hparts
  have hno := authority_not_mem h.host (c := '/') (by decide)
  have hsegment : ';' ∉ l.lastSegment ∧ authority = l.authority s.U := by
    rcases paramless_cases l.path with ⟨hsegment, hparams⟩ | ⟨-, kept, params, hparams, hpath, -⟩
    · rw [hparams] at hparts
      exact ⟨hsegment, (append_slash_inj hslash hno hparts).1⟩
    · -- what is kept is shorter
      rw [hparams] at hparts
      have htarget : l.path ++ (queryText l.query ++ fragmentText l.fragment) =
          kept ++ (queryText l.query ++ fragmentText l.fragment) :=
          (append_slash_inj hslash hno hparts).2
      rw [List.append_cancel_right htarget] at hpath
      have hlength := congrArg List.length hpath
      simp only [List.length_append, List.length_cons] at hlength
      omega
  obtain ⟨hsegment, rfl⟩ := hsegment
  refine ⟨?_, hsegment⟩
  cases hhost : l.host with
  | name text => exact ⟨text, rfl⟩
  | bracketed address =>
    exfalso
    have hpath : '#' ∉ l.path :=
      fun hc => (h.split.pathChars '#' (List.mem_cons_of_mem _ hc)).2.1 rfl
    have hquery : '#' ∉ l.query := fun hc => (h.split.queryChars '#' hc).1 rfl
    have hartifact := (@requests_artifact s l.scheme (l.authority s.U) l.path l.query
      l.fragment hbase
      (authority_ne_nil h.host) ⟨hno, authority_not_mem h.host (by decide)⟩ hpath hquery hallowed
      hscheme).1
    obtain rfl := Option.some.inj (Except.ok.inj (hurl.symm.trans hartifact))
    obtain rfl := Option.some.inj (Except.ok.inj (hurl'.symm.trans (requests_link h hallowed).1))
    rw [base_eq (isSplit_base h.split)] at hsame
    exact not_sameUrl_bracketed hhost h hsame

/-- **Rewriting and undoing.** Of an allowlisted link, what is requested for the rewritten link is
what is requested for the link, exactly when its host is not in brackets and its last path segment
has no parameters. -/
theorem undone_iff (h : l.WellFormed s.U) (hbase : s.settings.metadataArtifactBaseUrl = [])
    (hallowed : hostAllowed s.U s.settings (l.authority s.U) = .ok true)
    (hscheme : schemeFor s (l.authority s.U) = .ok l.scheme.text) : Undone s l ↔ l.Plain :=
  ⟨plain_of_undone h hbase hallowed hscheme, undone_of_plain h hbase hallowed hscheme⟩

end Main

/-! ## Three links -/

/-- A proxy that also allows the loopback address, and extracts from the hosts themselves. -/
def directSite : Site :=
  { Allowlist.cachedSite with settings := { artifactHostAllowlist := ("::1" : Str) } }

def wheelPath : Str := ("packages/one-1.0-py3-none-any.whl" : Str)

def filesHost : Host := .name ("files.pythonhosted.org" : Str)

def wheelLink : Link := ⟨.https, filesHost, some 443, wheelPath, ("v=2" : Str), ("sha256=ab" : Str)⟩

/-- The path ends in parameters. -/
def paramsLink : Link := { wheelLink with path := wheelPath ++ (";v=1" : Str) }

/-- The host is in brackets. -/
def bracketedLink : Link := { wheelLink with host := .bracketed ("::1" : Str) }

/-- A link of these parts is well formed when its host is. -/
theorem wellFormed_of_host
    {l : Link} (hscheme : l.scheme = .https) (hhost : IsHost directSite.U l.host)
    (hnetloc : netlocOf l.netloc = l.netloc ∧ netlocAccepted directSite.U l.netloc = true ∧
      l.netloc ≠ [])
    (hport : l.port = some 443)
    (hpath : ∀ c ∈ '/' :: l.path, c ≠ '?' ∧ c ≠ '#' ∧ isUnsafeUrlChar c = false)
    (hquery : l.query = ("v=2" : Str)) (hfragment : l.fragment = ("sha256=ab" : Str))
    (hlower : netlocAccepted directSite.U (l.authority directSite.U) = true) :
    l.WellFormed directSite.U where
  split :=
    { scheme := by
        show IsScheme l.scheme.text
        rw [hscheme]
        exact isScheme_http (.inr rfl)
      usesNetloc := (scheme_mem l.scheme).1
      netloc := hnetloc.1
      accepted := hnetloc.2.1
      located := hnetloc.2.2
      path := ⟨l.path, rfl⟩
      pathChars := hpath
      queryChars := by
        show ∀ c ∈ l.query, c ≠ '#' ∧ isUnsafeUrlChar c = false
        rw [hquery]
        decide
      fragmentChars := by
        show ∀ c ∈ l.fragment, isUnsafeUrlChar c = false
        rw [hfragment]
        decide }
  host := hhost
  port port h := by
    obtain rfl := Option.some.inj (hport.symm.trans h)
    decide
  lower _ _ := hlower

theorem isHost_filesHost : IsHost directSite.U filesHost :=
  isHost_name (by decide) (by decide) (by decide)

theorem wellFormed_wheelLink : wheelLink.WellFormed directSite.U :=
  wellFormed_of_host rfl isHost_filesHost (by decide +kernel) rfl (by decide +kernel) rfl rfl
    (by decide +kernel)

/-- An ordinary link is undone. -/
theorem undone_wheelLink : Undone directSite wheelLink := by
  refine (undone_iff wellFormed_wheelLink rfl
    (by decide +kernel) (by decide +kernel)).mpr ⟨⟨_, rfl⟩, ?_⟩
  decide +kernel

/-- Parameters are lost, and so are brackets. -/
theorem not_undone :
    (¬ ∀ (s : Site) (l : Link), l.WellFormed s.U → s.settings.metadataArtifactBaseUrl = [] →
      hostAllowed s.U s.settings (l.authority s.U) = .ok true →
      schemeFor s (l.authority s.U) = .ok l.scheme.text →
      (∃ text, l.host = .name text) → Undone s l) ∧
    (¬ ∀ (s : Site) (l : Link), l.WellFormed s.U → s.settings.metadataArtifactBaseUrl = [] →
      hostAllowed s.U s.settings (l.authority s.U) = .ok true →
      schemeFor s (l.authority s.U) = .ok l.scheme.text → ';' ∉ l.lastSegment → Undone s l) := by
  constructor
  · intro h
    have hparams : paramsLink.WellFormed directSite.U :=
      wellFormed_of_host rfl isHost_filesHost (by decide +kernel) rfl (by decide +kernel) rfl rfl
        (by decide +kernel)
    have hallowed : hostAllowed directSite.U directSite.settings
      (paramsLink.authority directSite.U) =
        .ok true := by decide +kernel
    have hscheme : schemeFor directSite (paramsLink.authority directSite.U) =
        .ok paramsLink.scheme.text := by decide +kernel
    have hplain := plain_of_undone hparams rfl hallowed hscheme
      (h directSite paramsLink hparams rfl hallowed hscheme ⟨_, rfl⟩)
    exact hplain.2 (by decide +kernel)
  · intro h
    have hhost : IsHost directSite.U bracketedLink.host := ⟨by decide, by decide, by decide⟩
    have hbracketed : bracketedLink.WellFormed directSite.U :=
      wellFormed_of_host rfl hhost
      (by decide +kernel) rfl (by decide +kernel) rfl rfl (by decide +kernel)
    have hallowed : hostAllowed directSite.U directSite.settings
        (bracketedLink.authority directSite.U) = .ok true := by decide +kernel
    have hscheme : schemeFor directSite (bracketedLink.authority directSite.U) =
        .ok bracketedLink.scheme.text := by decide +kernel
    obtain ⟨⟨text, hname⟩, -⟩ := plain_of_undone hbracketed rfl hallowed hscheme
      (h directSite bracketedLink hbracketed rfl hallowed hscheme (by decide +kernel))
    cases hname

end ProxyCache.Theorems.LinkRoundTrip
