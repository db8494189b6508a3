import ProxyCache.Python.Url
import ProxyCache.Lib.Uri

/-!
# Splitting what was put together

What `urlsplit` makes of a URL that consists of a scheme, `://` and a rest, and
what it makes of its own parts after `urlunsplit`.
-/

namespace ProxyCache.Python

open ProxyCache.Lib

/-- A scheme as `urlsplit` returns it. -/
structure IsScheme (scheme : Str) : Prop where
  head : ∃ c cs, scheme = c :: cs ∧ c.isAlpha
  all : ∀ c ∈ scheme, isSchemeChar c
  lower : scheme.map Char.toLower = scheme

/-- The network location that a rest behind `://` starts with. -/
def netlocOf (rest : Str) : Str :=
  (rest.filter fun c => !isUnsafeUrlChar c).takeWhile fun c => !isNetlocEnd c

/-- `urlsplit` accepts the network location. -/
def netlocAccepted (U : Unicode) (netloc : Str) : Bool := bracketsOk netloc && netlocOk U netloc

variable {U : Unicode} {scheme rest url : Str} {parts : SplitResult}

theorem isScheme_http {scheme : Str} (h : scheme = "http".toList ∨ scheme = "https".toList) :
    IsScheme scheme := by
  rcases h with rfl | rfl
  · exact ⟨⟨'h', "ttp".toList, by decide⟩, List.all_eq_true.mp (by decide), by decide⟩
  · exact ⟨⟨'h', "ttps".toList, by decide⟩, List.all_eq_true.mp (by decide), by decide⟩

/-! ## The scheme -/

theorem ascii_of_isSchemeChar {c : Char} (h : isSchemeChar c) : c.toNat < 128 := by
  simp only [isSchemeChar, Char.isAlphanum] at h
  delta Char.isAlpha Char.isUpper Char.isLower at h
  simp only [Char.isDigit, Bool.or_eq_true, Bool.and_eq_true, decide_eq_true_eq,
    UInt32.le_iff_toNat_le, ge_iff_le] at h
  have hc : c.toNat = c.val.toNat := rfl
  have hZ : 'Z'.val.toNat = 90 := rfl
  have hz : 'z'.val.toNat = 122 := rfl
  have h9 : '9'.val.toNat = 57 := rfl
  rcases h with ((h | rfl) | rfl) | rfl
  · omega
  all_goals decide

/-- What is needed of the characters of a scheme, checked one by one. -/
theorem schemeChar_facts {c : Char} (h : isSchemeChar c) :
    isSchemeChar c.toLower ∧ c.toLower.toLower = c.toLower ∧ isUnsafeUrlChar c = false ∧
      (c.isAlpha → c.toLower.isAlpha ∧ isC0OrSpace c = false) := by
  have hall : ∀ n < 128, isSchemeChar (Char.ofNat n) →
      isSchemeChar (Char.ofNat n).toLower ∧
      (Char.ofNat n).toLower.toLower = (Char.ofNat n).toLower ∧
      isUnsafeUrlChar (Char.ofNat n) = false ∧ ((Char.ofNat n).isAlpha →
        (Char.ofNat n).toLower.isAlpha ∧ isC0OrSpace (Char.ofNat n) = false) := by
    decide +kernel
  have hc := hall c.toNat (ascii_of_isSchemeChar h)
  rw [Char.ofNat_toNat] at hc
  exact hc h

theorem isScheme_of_splitScheme (h : splitScheme url = some (scheme, rest)) : IsScheme scheme := by
  unfold splitScheme at h
  split at h
  · next c cs rest' _ =>
    split at h
    · next hok =>
      obtain ⟨halpha, hall⟩ := Bool.and_eq_true_iff.mp hok
      obtain ⟨rfl, -⟩ := Prod.mk.inj (Option.some.inj h)
      have hfacts : ∀ d ∈ c :: cs, _ := fun d hd => schemeChar_facts (List.all_eq_true.mp hall d hd)
      refine ⟨⟨c.toLower, cs.map Char.toLower, rfl, ?_⟩, fun d hd => ?_, ?_⟩
      · exact ((hfacts c List.mem_cons_self).2.2.2 halpha).1
      · obtain ⟨e, he, rfl⟩ := List.mem_map.mp hd
        exact (hfacts e he).1
      · rw [List.map_map]
        exact List.map_congr_left fun d hd => (hfacts d hd).2.1
    · cases h
  · cases h

theorem suffix_of_splitScheme {split : Str × Str} (h : splitScheme url = some split) :
    split.2 <:+ url := by
  unfold splitScheme at h
  split at h
  · next c cs rest hcut =>
    split at h
    · obtain rfl := Option.some.inj h
      rw [cut_eq_some hcut]
      exact (List.suffix_cons ':' rest).trans (List.suffix_append ..)
    · cases h
  · cases h

theorem IsScheme.colon_not_mem (h : IsScheme scheme) : ':' ∉ scheme :=
  fun hmem => absurd (h.all ':' hmem) (by decide)

theorem IsScheme.splitScheme_append (h : IsScheme scheme) (rest : Str) :
    splitScheme (scheme ++ ':' :: rest) = some (scheme, rest) := by
  obtain ⟨c, cs, rfl, halpha⟩ := h.head
  unfold splitScheme
  rw [cut_append h.colon_not_mem]
  simp only
  rw [if_pos (Bool.and_eq_true_iff.mpr ⟨halpha, List.all_eq_true.mpr h.all⟩), h.lower]

/-- Nothing of a scheme is stripped or removed. -/
theorem IsScheme.cleanUrl_append (h : IsScheme scheme) (rest : Str) :
    cleanUrl (scheme ++ rest) = scheme ++ rest.filter fun c => !isUnsafeUrlChar c := by
  have hsafe : ∀ c ∈ scheme, (!isUnsafeUrlChar c) = true := by
    intro c hc
    rw [(schemeChar_facts (h.all c hc)).2.2.1]
    rfl
  obtain ⟨c, cs, hscheme, halpha⟩ := h.head
  have hc : isC0OrSpace c = false :=
    ((schemeChar_facts (h.all c (hscheme ▸ List.mem_cons_self))).2.2.2 halpha).2
  have hdrop : (scheme ++ rest).dropWhile isC0OrSpace = scheme ++ rest := by
    rw [hscheme, List.cons_append, List.dropWhile_cons_of_neg (by simp [hc])]
  rw [cleanUrl, hdrop, List.filter_append, List.filter_eq_self.mpr hsafe]

/-- The steps of `urlsplit`, from the URL behind its scheme. -/
theorem urlsplit_eq {default : Str} {after : Str × Str}
    (h : (splitScheme (cleanUrl url)).getD (default, cleanUrl url) = after) :
    urlsplit U url default =
      if netlocAccepted U (splitNetloc after.2).1 then
        .ok { scheme := after.1, netloc := (splitNetloc after.2).1,
              path := (cut '?' (cut '#' (splitNetloc after.2).2).1).1,
              query := (cut '?' (cut '#' (splitNetloc after.2).2).1).2.getD [],
              fragment := (cut '#' (splitNetloc after.2).2).2.getD [] }
      else .error .valueError := by
  rw [← h]
  rfl

theorem IsScheme.splitScheme_cleanUrl (h : IsScheme scheme) (default rest : Str) :
    (splitScheme (cleanUrl (scheme ++ ':' :: rest))).getD (default,
      cleanUrl (scheme ++ ':' :: rest)) =
      (scheme, rest.filter fun c => !isUnsafeUrlChar c) := by
  have hclean : cleanUrl (scheme ++ ':' :: rest) =
      scheme ++ ':' :: rest.filter fun c => !isUnsafeUrlChar c := h.cleanUrl_append _
  rw [hclean, h.splitScheme_append]
  rfl

/-- The scheme in front is the scheme. -/
theorem IsScheme.urlsplit_scheme (h : IsScheme scheme) {default : Str}
    (hsplit : urlsplit U (scheme ++ ':' :: rest) default = .ok parts) : parts.scheme = scheme := by
  rw [urlsplit_eq (h.splitScheme_cleanUrl default rest)] at hsplit
  split at hsplit
  · obtain rfl := Except.ok.inj hsplit
    rfl
  · cases hsplit

/-! ## The network location -/

/-- A scheme, `://` and a rest are split so. -/
theorem IsScheme.urlsplit_append (h : IsScheme scheme) (default rest : Str) :
    ∃ path query fragment, urlsplit U (scheme ++ "://".toList ++ rest) default =
      if netlocAccepted U (netlocOf rest) then
        .ok { scheme, netloc := netlocOf rest, path, query, fragment }
      else .error .valueError := by
  have hurl : scheme ++ "://".toList ++ rest = scheme ++ ':' :: '/' :: '/' :: rest :=
    List.append_assoc ..
  rw [hurl, urlsplit_eq (h.splitScheme_cleanUrl default _)]
  exact ⟨_, _, _, rfl⟩

/-- A slash ends the network location. -/
theorem netlocOf_append (host path : Str) : netlocOf (host ++ '/' :: path) = netlocOf host := by
  rw [netlocOf, List.filter_append]
  exact (takeWhile_append_stop (fun c => !isNetlocEnd c) (by decide) _).1

/-- What follows the scheme is safe. -/
theorem safe_of_splitScheme {default : Str} {after : Str × Str}
    (h : (splitScheme (cleanUrl url)).getD (default, cleanUrl url) = after) :
    ∀ c ∈ after.2, (!isUnsafeUrlChar c) = true := by
  have hclean : ∀ c ∈ cleanUrl url, (!isUnsafeUrlChar c) = true := fun c hc =>
    (List.mem_filter.mp hc).2
  intro c hc
  cases hscheme : splitScheme (cleanUrl url) with
  | none =>
    rw [hscheme] at h
    rw [← h] at hc
    exact hclean c hc
  | some split =>
    rw [hscheme] at h
    obtain rfl : split = after := h
    exact hclean c ((suffix_of_splitScheme hscheme).mem hc)

/-- What `urlsplit` returns as a network location is one, and is accepted. -/
theorem netlocOf_of_urlsplit {default : Str} (h : urlsplit U url default = .ok parts) :
    netlocOf parts.netloc = parts.netloc ∧ netlocAccepted U parts.netloc = true := by
  generalize hafter : (splitScheme (cleanUrl url)).getD (default, cleanUrl url) = after
  have hsafe := safe_of_splitScheme hafter
  rw [urlsplit_eq hafter] at h
  split at h
  · next hok =>
    obtain rfl := Except.ok.inj h
    refine ⟨?_, hok⟩
    show netlocOf (splitNetloc after.2).1 = (splitNetloc after.2).1
    unfold splitNetloc netlocOf
    split
    · next rest hrest =>
      have htake : ∀ c ∈ rest.takeWhile (fun c => !isNetlocEnd c), c ∈ after.2 := by
        intro c hc
        rw [hrest]
        exact List.mem_cons_of_mem _ (List.mem_cons_of_mem _ ((List.takeWhile_sublist _).mem hc))
      rw [List.filter_eq_self.mpr fun c hc => hsafe c (htake c hc)]
      exact List.takeWhile_eq_self_iff.mpr fun c hc =>
        List.mem_takeWhile_imp (p := fun c => !isNetlocEnd c) hc
    · rfl
  · cases h

/-- The path is safe. -/
theorem safe_path_of_urlsplit {default : Str} (h : urlsplit U url default = .ok parts) :
    ∀ c ∈ parts.path, (!isUnsafeUrlChar c) = true := by
  generalize hafter : (splitScheme (cleanUrl url)).getD (default, cleanUrl url) = after
  have hsafe := safe_of_splitScheme hafter
  have hrest : ∀ c ∈ (splitNetloc after.2).2, c ∈ after.2 := by
    intro c hc
    unfold splitNetloc at hc
    split at hc
    · next rest hafter =>
      rw [hafter]
      exact List.mem_cons_of_mem _ (List.mem_cons_of_mem _ ((List.dropWhile_sublist _).mem hc))
    · exact hc
  rw [urlsplit_eq hafter] at h
  split at h
  · obtain rfl := Except.ok.inj h
    intro c hc
    exact hsafe c (hrest c ((prefix_of_cut_fst _ _).mem ((prefix_of_cut_fst _ _).mem hc)))
  · cases h

/-- A scheme that is not missing is one. -/
theorem isScheme_of_urlsplit (h : urlsplit U url [] = .ok parts) (hne : parts.scheme ≠ []) :
    IsScheme parts.scheme := by
  generalize hafter : (splitScheme (cleanUrl url)).getD ([], cleanUrl url) = after
  rw [urlsplit_eq hafter] at h
  split at h
  · obtain rfl := Except.ok.inj h
    cases hscheme : splitScheme (cleanUrl url) with
    | none =>
      rw [hscheme] at hafter
      exact absurd (congrArg Prod.fst hafter.symm) hne
    | some split =>
      rw [hscheme] at hafter
      obtain rfl : split = after := hafter
      exact isScheme_of_splitScheme hscheme
  · cases h

/-- `urlparse` differs from `urlsplit` in the path only. -/
theorem urlparse_eq_ok {default : Str} {parsed : ParseResult} :
    urlparse U url default = .ok parsed ↔
      ∃ parts, urlsplit U url default = .ok parts ∧
        ∃ path params, parsed = ⟨parts.scheme, parts.netloc, path, params, parts.query,
          parts.fragment⟩ ∧
          (path, params) = if parts.scheme ∈ usesParams && parts.path.contains ';' then
            splitParams parts.path else (parts.path, []) := by
  unfold urlparse
  cases urlsplit U url default with
  | error e => simp [bind, Except.bind]
  | ok parts =>
    simp only [bind, Except.bind, pure, Except.pure, Except.ok.injEq]
    constructor
    · rintro rfl
      exact ⟨parts, rfl, _, _, rfl, rfl⟩
    · rintro ⟨_, rfl, path, params, rfl, hpath⟩
      rw [← hpath]

/-! ## Putting parts together -/

/-- A URL that is put together ends with the query and the fragment. -/
theorem urlunsplit_eq (parts : SplitResult) :
    ∃ after, urlunsplit parts = urlunsplit { parts with query := [], fragment := [] } ++ after := by
  unfold urlunsplit
  by_cases hquery : parts.query = [] <;> by_cases hfragment : parts.fragment = []
  · exact ⟨[], by simp [hquery, hfragment]⟩
  · exact ⟨'#' :: parts.fragment, by simp [hquery, hfragment]⟩
  · exact ⟨'?' :: parts.query, by simp [hquery, hfragment]⟩
  · exact ⟨'?' :: parts.query ++ '#' :: parts.fragment, by simp [hquery, hfragment]⟩

/-- The scheme comes first. -/
theorem urlunsplit_scheme (h : parts.scheme ≠ []) :
    ∃ rest, urlunsplit parts = parts.scheme ++ ':' :: rest := by
  obtain ⟨after, hafter⟩ := urlunsplit_eq parts
  rw [hafter]
  simp [urlunsplit, h]

/-- With an HTTP scheme, the network location follows, up to a slash. -/
theorem urlunsplit_netloc (h : parts.scheme = "http".toList ∨ parts.scheme = "https".toList)
    (hpath : parts.path ≠ []) :
    ∃ rest, urlunsplit parts = parts.scheme ++ "://".toList ++ (parts.netloc ++ '/' :: rest) := by
  have huses : parts.scheme ≠ [] ∧ parts.scheme ∈ usesNetloc := by
    rcases h with h | h <;> rw [h] <;> decide
  obtain ⟨after, hafter⟩ := urlunsplit_eq parts
  obtain ⟨c, path, hcons⟩ := List.exists_cons_of_ne_nil hpath
  rw [hafter]
  by_cases hc : c = '/'
  · refine ⟨path ++ after, ?_⟩
    simp [urlunsplit, huses, hcons, hc]
  · refine ⟨c :: path ++ after, ?_⟩
    simp [urlunsplit, huses, hcons, hc]

/-! ## Taking apart what was put together -/

/-- The query as it is written. -/
def queryText (query : Str) : Str := if query = [] then [] else '?' :: query

/-- The fragment as it is written. -/
def fragmentText (fragment : Str) : Str := if fragment = [] then [] else '#' :: fragment

/-- Parts of an absolute URL with a network location and a path, as `urlsplit` returns them. -/
structure IsSplit (U : Unicode) (parts : SplitResult) : Prop where
  scheme : IsScheme parts.scheme
  usesNetloc : parts.scheme ∈ usesNetloc
  netloc : netlocOf parts.netloc = parts.netloc
  accepted : netlocAccepted U parts.netloc = true
  located : parts.netloc ≠ []
  path : ∃ path, parts.path = '/' :: path
  pathChars : ∀ c ∈ parts.path, c ≠ '?' ∧ c ≠ '#' ∧ isUnsafeUrlChar c = false
  queryChars : ∀ c ∈ parts.query, c ≠ '#' ∧ isUnsafeUrlChar c = false
  fragmentChars : ∀ c ∈ parts.fragment, isUnsafeUrlChar c = false

theorem cut_fragmentText {before : Str} (h : '#' ∉ before) (fragment : Str) :
    (cut '#' (before ++ fragmentText fragment)).1 = before ∧
      (cut '#' (before ++ fragmentText fragment)).2.getD [] = fragment := by
  unfold fragmentText
  split
  · next hempty =>
    rw [List.append_nil, cut_of_not_mem h]
    exact ⟨rfl, hempty.symm⟩
  · rw [cut_append h]
    exact ⟨rfl, rfl⟩

theorem cut_queryText {before : Str} (h : '?' ∉ before) (query : Str) :
    (cut '?' (before ++ queryText query)).1 = before ∧
      (cut '?' (before ++ queryText query)).2.getD [] = query := by
  unfold queryText
  split
  · next hempty =>
    rw [List.append_nil, cut_of_not_mem h]
    exact ⟨rfl, hempty.symm⟩
  · rw [cut_append h]
    exact ⟨rfl, rfl⟩

namespace IsSplit

theorem urlunsplit_eq (h : IsSplit U parts) : urlunsplit parts =
    parts.scheme ++ ':' :: '/' :: '/' ::
      (parts.netloc ++ (parts.path ++ (queryText parts.query ++ fragmentText parts.fragment))) := by
  obtain ⟨path, hpath⟩ := h.path
  have hscheme : parts.scheme ≠ [] := by
    obtain ⟨c, cs, hscheme, -⟩ := h.scheme.head
    rw [hscheme]
    exact List.cons_ne_nil c cs
  have hslashes : "//".toList = ['/', '/'] := rfl
  unfold urlunsplit queryText fragmentText
  simp only [h.located, hscheme, hpath, hslashes, ne_eq, not_false_eq_true, true_or, if_true,
    List.head?_cons, not_true_eq_false, and_false, if_false]
  by_cases hquery : parts.query = [] <;> by_cases hfragment : parts.fragment = [] <;>
    simp [hquery, hfragment]

/-- Nothing behind the scheme is removed. -/
theorem clean (h : IsSplit U parts) :
    ∀ c ∈ '/' :: '/' :: (parts.netloc ++ (parts.path ++
      (queryText parts.query ++ fragmentText parts.fragment))), (!isUnsafeUrlChar c) = true := by
  have hnetloc : ∀ c ∈ parts.netloc, (!isUnsafeUrlChar c) = true := by
    intro c hc
    rw [← h.netloc] at hc
    exact (List.mem_filter.mp ((List.takeWhile_sublist _).mem hc)).2
  have hquery : ∀ c ∈ queryText parts.query, (!isUnsafeUrlChar c) = true := by
    unfold queryText
    split
    · exact nofun
    · intro c hc
      rcases List.mem_cons.mp hc with rfl | hc
      · decide
      · rw [(h.queryChars c hc).2]
        rfl
  have hfragment : ∀ c ∈ fragmentText parts.fragment, (!isUnsafeUrlChar c) = true := by
    unfold fragmentText
    split
    · exact nofun
    · intro c hc
      rcases List.mem_cons.mp hc with rfl | hc
      · decide
      · rw [h.fragmentChars c hc]
        rfl
  intro c hc
  simp only [List.mem_cons, List.mem_append] at hc
  rcases hc with rfl | rfl | hc | hc | hc | hc
  · decide
  · decide
  · exact hnetloc c hc
  · rw [(h.pathChars c hc).2.2]
    rfl
  · exact hquery c hc
  · exact hfragment c hc

/-- **Taking apart.** What was put together is taken apart into the same parts. -/
theorem urlsplit_urlunsplit (h : IsSplit U parts) (default : Str) :
    urlsplit U (urlunsplit parts) default = .ok parts := by
  obtain ⟨path, hpath⟩ := h.path
  have hsplit : (splitScheme (cleanUrl (urlunsplit parts))).getD
    (default, cleanUrl (urlunsplit parts)) =
      (parts.scheme, '/' :: '/' :: (parts.netloc ++ (parts.path ++
        (queryText parts.query ++ fragmentText parts.fragment)))) := by
    rw [h.urlunsplit_eq, h.scheme.splitScheme_cleanUrl, List.filter_eq_self.mpr h.clean]
  -- the path starts with the slash that ends the network location
  have hstops : parts.netloc.takeWhile (fun c => !isNetlocEnd c) = parts.netloc := by
    have hnetloc := h.netloc
    unfold netlocOf at hnetloc
    rw [List.filter_eq_self.mpr fun c hc => h.clean c (by simp [hc])] at hnetloc
    exact hnetloc
  have hlocated : splitNetloc ('/' :: '/' :: (parts.netloc ++ (parts.path ++
      (queryText parts.query ++ fragmentText parts.fragment)))) =
        (parts.netloc, parts.path ++ (queryText parts.query ++ fragmentText parts.fragment)) := by
    have hall : ∀ c ∈ parts.netloc, (!isNetlocEnd c) = true :=
      List.takeWhile_eq_self_iff.mp hstops
    unfold splitNetloc
    simp only
    rw [hpath, List.cons_append, List.takeWhile_append_of_pos hall,
      List.dropWhile_append_of_pos hall, List.takeWhile_cons_of_neg (by decide),
      List.dropWhile_cons_of_neg (by decide), List.append_nil]
  have hquery : '#' ∉ parts.path ++ queryText parts.query := by
    rw [List.mem_append, not_or]
    refine ⟨fun hc => (h.pathChars _ hc).2.1 rfl, ?_⟩
    unfold queryText
    split
    · exact List.not_mem_nil
    · intro hc
      rcases List.mem_cons.mp hc with hc | hc
      · exact absurd hc (by decide)
      · exact (h.queryChars _ hc).1 rfl
  have hfragments := cut_fragmentText hquery parts.fragment
  have hqueries := cut_queryText (fun hc => (h.pathChars _ hc).1 rfl) parts.query
  rw [urlsplit_eq hsplit, hlocated]
  simp only
  rw [← List.append_assoc, hfragments.1, hfragments.2, hqueries.1, hqueries.2, if_pos h.accepted]

end IsSplit

/-! ## Where a URL leads -/

/-- The scheme and the network location that `urlsplit` finds in a URL. -/
def locationOf (url default : Str) : Str × Str :=
  let after := (splitScheme (cleanUrl url)).getD (default, cleanUrl url)
  (after.1, (splitNetloc after.2).1)

/-- `urlsplit` looks at the network location only when it raises. -/
theorem urlsplit_cases (U : Unicode) (url default : Str) :
    (netlocAccepted U (locationOf url default).2 = true ∧ ∃ path query fragment,
      urlsplit U url default =
        .ok ⟨(locationOf url default).1, (locationOf url default).2, path, query, fragment⟩) ∨
    (netlocAccepted U (locationOf url default).2 = false ∧
      urlsplit U url default = .error .valueError) := by
  rw [urlsplit_eq rfl]
  unfold locationOf
  simp only
  split
  · next haccepted => exact .inl ⟨haccepted, _, _, _, rfl⟩
  · next haccepted => exact .inr ⟨by simpa using haccepted, rfl⟩

theorem cleanUrl_append_slash (url : Str) : cleanUrl (url ++ ['/']) = cleanUrl url ++ ['/'] := by
  have hslash : ['/'].filter (fun c => !isUnsafeUrlChar c) = ['/'] := by decide
  have hspace : ['/'].dropWhile isC0OrSpace = ['/'] := by decide
  unfold cleanUrl
  rw [List.dropWhile_append, hspace]
  split
  · next hall =>
    rw [List.isEmpty_iff.mp hall, hslash, List.filter_nil, List.nil_append]
  · rw [List.filter_append, hslash]

theorem splitScheme_of_not_mem (h : ':' ∉ url) : splitScheme url = none := by
  unfold splitScheme
  rw [cut_of_not_mem h]
  cases url <;> rfl

/-- A slash at the end is not part of a scheme. -/
theorem splitScheme_append_slash (url : Str) :
    splitScheme (url ++ ['/']) = (splitScheme url).map fun split =>
    (split.1, split.2 ++ ['/']) := by
  by_cases hcolon : ':' ∈ url
  · obtain ⟨before, after, rfl, hbefore⟩ := List.eq_append_cons_of_mem hcolon
    unfold splitScheme
    rw [List.append_assoc, List.cons_append, cut_append hbefore, cut_append hbefore]
    cases before with
    | nil => rfl
    | cons c cs =>
      simp only
      split
      · rfl
      · rfl
  · have hslash : ':' ∉ url ++ ['/'] := by
      rw [List.mem_append, not_or]
      exact ⟨hcolon, by decide⟩
    rw [splitScheme_of_not_mem hslash, splitScheme_of_not_mem hcolon]
    rfl

/-- Nor of a network location. -/
theorem splitNetloc_append_slash (url : Str) :
    (splitNetloc (url ++ ['/'])).1 = (splitNetloc url).1 := by
  have hnone : ∀ {url' : Str}, (∀ rest, url' ≠ '/' :: '/' :: rest) → (splitNetloc url').1 = [] := by
    intro url' hurl
    unfold splitNetloc
    split
    · next rest => exact absurd rfl (hurl rest)
    · rfl
  match url with
  | [] => rfl
  | ['/'] => rfl
  | '/' :: '/' :: rest =>
    show (rest ++ ['/']).takeWhile (fun c => !isNetlocEnd c) = rest.takeWhile fun c =>
      !isNetlocEnd c
    exact (takeWhile_append_stop (fun c => !isNetlocEnd c) (by decide) _).1
  | [c] =>
    by_cases hc : c = '/'
    · rw [hc]
      rfl
    · rw [hnone (by simp [hc]), hnone (by simp)]
  | c :: d :: rest =>
    by_cases hcd : c = '/' ∧ d = '/'
    · rw [hcd.1, hcd.2]
      exact (takeWhile_append_stop (fun c => !isNetlocEnd c) (by decide) _).1
    · rw [hnone (by simpa using hcd), hnone (by simpa using hcd)]

theorem locationOf_append_slash (url default : Str) :
    locationOf (url ++ ['/']) default = locationOf url default := by
  unfold locationOf
  simp only
  rw [cleanUrl_append_slash, splitScheme_append_slash]
  cases splitScheme (cleanUrl url) with
  | none => exact Prod.ext rfl (splitNetloc_append_slash _)
  | some split => exact Prod.ext rfl (splitNetloc_append_slash _)

/-- One slash at the end instead of any number of them. -/
theorem locationOf_rstripChar (url default : Str) :
    locationOf (rstripChar '/' url ++ ['/']) default = locationOf url default := by
  rw [locationOf_append_slash]
  -- what was stripped is put back one by one
  obtain ⟨n, hn⟩ : ∃ n, url = rstripChar '/' url ++ List.replicate n '/' := by
    have hreverse := List.takeWhile_append_dropWhile (p := (· == '/')) (l := url.reverse)
    refine ⟨(url.reverse.takeWhile (· == '/')).length, ?_⟩
    have hslashes : url.reverse.takeWhile (· == '/') =
        List.replicate (url.reverse.takeWhile (· == '/')).length '/' := by
      refine List.eq_replicate_of_mem fun c hc => ?_
      simpa using List.mem_takeWhile_imp hc
    have hurl := congrArg List.reverse hreverse
    rw [List.reverse_append, List.reverse_reverse, hslashes, List.reverse_replicate] at hurl
    rw [rstripChar]
    exact hurl.symm
  have hall : ∀ n, locationOf (rstripChar '/' url ++ List.replicate n '/') default =
      locationOf (rstripChar '/' url) default := by
    intro n
    induction n with
    | zero => rw [List.replicate_zero, List.append_nil]
    | succ n ih => rw [List.replicate_succ', ← List.append_assoc, locationOf_append_slash, ih]
  rw [← hall n, ← hn]

/-- The network location does not depend on the scheme that is taken when there is none. -/
theorem locationOf_snd (url default default' : Str) :
    (locationOf url default).2 = (locationOf url default').2 := by
  unfold locationOf
  cases splitScheme (cleanUrl url) <;> rfl

/-- The scheme is one, or the one that is taken when there is none. -/
theorem locationOf_fst (url default : Str) :
    (locationOf url default).1 = default ∨ IsScheme (locationOf url default).1 := by
  unfold locationOf
  cases hscheme : splitScheme (cleanUrl url) with
  | none => exact .inl rfl
  | some split => exact .inr (isScheme_of_splitScheme hscheme)

theorem netlocOf_append_stop {c : Char} (hc : isNetlocEnd c = true) (host path : Str) :
    netlocOf (host ++ c :: path) = netlocOf host := by
  have hsafe : isUnsafeUrlChar c = false := by
    simp only [isNetlocEnd, Bool.or_eq_true, decide_eq_true_eq] at hc
    rcases hc with (rfl | rfl) | rfl <;> rfl
  rw [netlocOf, List.filter_append, List.filter_cons_of_pos (by rw [hsafe]; rfl)]
  exact (takeWhile_append_stop (fun c => !isNetlocEnd c) (by rw [hc]; rfl) _).1

/-- What is put together leads to its scheme and network location. -/
theorem locationOf_urlunsplit (hscheme : parts.scheme = [] ∨ IsScheme parts.scheme)
    (hnetloc : netlocOf parts.netloc = parts.netloc)
    (hlocated : parts.netloc ≠ [] ∨ (parts.scheme ≠ [] ∧ parts.scheme ∈ usesNetloc)) :
    locationOf (urlunsplit parts) [] = (parts.scheme, parts.netloc) := by
  -- what follows the network location ends it
  obtain ⟨rest, hrest, hurl⟩ :
    ∃ rest : Str, (rest = [] ∨ ∃ c tail, rest = c :: tail ∧ isNetlocEnd c) ∧
      urlunsplit parts = (if parts.scheme = [] then [] else parts.scheme ++ [':']) ++
        '/' :: '/' :: (parts.netloc ++ rest) := by
    have hslashes : "//".toList = ['/', '/'] := rfl
    have hcond : parts.netloc ≠ [] ∨ (parts.scheme ≠ [] ∧ parts.scheme ∈ usesNetloc) ∨
        "//".toList <+: parts.path := hlocated.imp_right .inl
    obtain ⟨path, hpath, hpathText⟩ : ∃ path : Str, (path = [] ∨ ∃ tail, path = '/' :: tail) ∧
        path = if parts.path ≠ [] ∧ parts.path.head? ≠ some '/' then '/' :: parts.path
          else parts.path := by
      refine ⟨_, ?_, rfl⟩
      cases hparts : parts.path with
      | nil => exact .inl rfl
      | cons c tail =>
        by_cases hc : c = '/'
        · exact .inr ⟨tail, by simp [hc]⟩
        · exact .inr ⟨c :: tail, by simp [hc]⟩
    refine ⟨path ++ (queryText parts.query ++ fragmentText parts.fragment), ?_, ?_⟩
    · rcases hpath with rfl | ⟨tail, rfl⟩
      · unfold queryText fragmentText
        split
        · split
          · exact .inl rfl
          · exact .inr ⟨'#', parts.fragment, rfl, rfl⟩
        · exact .inr ⟨'?', _, rfl, rfl⟩
      · exact .inr ⟨'/', _, rfl, rfl⟩
    · unfold urlunsplit queryText fragmentText
      simp only
      rw [if_pos hcond, ← hpathText, hslashes]
      by_cases hempty : parts.scheme = [] <;> by_cases hquery : parts.query = [] <;>
        by_cases hfragment : parts.fragment = [] <;> simp [hempty, hquery, hfragment]
  have hends : netlocOf (parts.netloc ++ rest) = parts.netloc := by
    rcases hrest with rfl | ⟨c, tail, rfl, hc⟩
    · rw [List.append_nil, hnetloc]
    · rw [netlocOf_append_stop hc, hnetloc]
  have hfilter : ∀ url : Str, (splitNetloc
    (('/' :: '/' :: url).filter fun c => !isUnsafeUrlChar c)).1 =
      netlocOf url := fun _ => rfl
  unfold locationOf
  simp only
  rcases hscheme with hempty | hscheme
  · rw [hurl, hempty, if_pos rfl, List.nil_append]
    have hclean : cleanUrl ('/' :: '/' :: (parts.netloc ++ rest)) =
        ('/' :: '/' :: (parts.netloc ++ rest)).filter fun c => !isUnsafeUrlChar c := rfl
    have hnone : splitScheme (('/' :: '/' :: (parts.netloc ++ rest)).filter
        fun c => !isUnsafeUrlChar c) = none := by
      rw [List.filter_cons_of_pos (by decide)]
      unfold splitScheme
      rw [cut, if_neg (by decide)]
      split
      · next heq =>
        obtain ⟨rfl, -⟩ := List.cons.inj (Prod.mk.inj heq).1
        rfl
      · rfl
    rw [hclean, hnone, Option.getD_none, hfilter, hends]
  · have hne : parts.scheme ≠ [] := by
      obtain ⟨c, cs, hcons, -⟩ := hscheme.head
      rw [hcons]
      exact List.cons_ne_nil c cs
    rw [hurl, if_neg hne, List.append_assoc, List.singleton_append, hscheme.splitScheme_cleanUrl,
      hfilter, hends]

/-- **Splitting again.** A URL that was split can be put together with a longer path, and what
comes out can be split. -/
theorem exists_urlsplit_urlunsplit (h : urlsplit U url [] = .ok parts) (hne : parts.scheme ≠ [])
    {suffix : Str} (hsuffix : ∀ c ∈ suffix, (!isUnsafeUrlChar c) = true)
    (hlength : 1 < suffix.length) :
    ∃ parts', urlsplit U (urlunsplit { parts with path := parts.path ++ suffix, fragment := [] })
      [] = .ok parts' := by
  obtain ⟨hnetloc, haccepted⟩ := netlocOf_of_urlsplit h
  have hscheme : IsScheme parts.scheme := isScheme_of_urlsplit h hne
  have hsafe : ∀ c ∈ parts.path ++ suffix, (!isUnsafeUrlChar c) = true := by
    intro c hc
    rcases List.mem_append.mp hc with hc | hc
    · exact safe_path_of_urlsplit h c hc
    · exact hsuffix c hc
  have hlonger : ∃ c d rest, parts.path ++ suffix = c :: d :: rest := by
    match hpath : parts.path ++ suffix with
    | c :: d :: rest => exact ⟨c, d, rest, rfl⟩
    | [] | [c] =>
      have hle := congrArg List.length hpath
      simp only [List.length_append, List.length_nil, List.length_cons] at hle
      omega
  generalize parts.path ++ suffix = path at hsafe hlonger
  suffices hlocation : netlocAccepted U
      (locationOf (urlunsplit { parts with path, fragment := [] }) []).2 = true by
    rcases urlsplit_cases U (urlunsplit { parts with path, fragment := [] }) [] with
      ⟨-, _, _, _, hsplit⟩ | ⟨hrejected, -⟩
    · exact ⟨_, hsplit⟩
    · rw [hlocation] at hrejected
      cases hrejected
  by_cases hlocated : parts.netloc ≠ [] ∨ (parts.scheme ≠ [] ∧ parts.scheme ∈ usesNetloc)
  · rw [@locationOf_urlunsplit { parts with path, fragment := [] } (.inr hscheme) hnetloc hlocated]
    exact haccepted
  · -- there is no network location before, and none afterwards
    obtain ⟨hempty, huses⟩ := not_or.mp hlocated
    have huses : parts.scheme ∉ usesNetloc := fun hmem => huses ⟨hne, hmem⟩
    obtain ⟨c, d, rest, rfl⟩ := hlonger
    have hslashes : "//".toList = ['/', '/'] := rfl
    have hurl : urlunsplit { parts with path := c :: d :: rest, fragment := [] } =
        parts.scheme ++ ':' :: ((if c = '/' ∧ d = '/' then '/' :: '/' :: c :: d :: rest
          else c :: d :: rest) ++ queryText parts.query) := by
      have hprefix : ['/', '/'] <+: c :: d :: rest ↔ c = '/' ∧ d = '/' := by
        simp [List.cons_prefix_cons, eq_comm]
      unfold urlunsplit queryText
      simp only [hslashes, not_not.mp hempty, huses, hprefix, ne_eq, not_true, false_or, hne,
        and_false]
      by_cases hcd : c = '/' ∧ d = '/' <;> by_cases hquery : parts.query = [] <;>
        simp [hcd, hquery]
    have hc : isUnsafeUrlChar c = false := by simpa using hsafe c (by simp)
    have hd : isUnsafeUrlChar d = false := by simpa using hsafe d (by simp)
    have hnone : (locationOf (urlunsplit { parts with path := c :: d :: rest, fragment := [] })
        []).2 = [] := by
      unfold locationOf
      rw [hurl, hscheme.splitScheme_cleanUrl]
      by_cases hcd : c = '/' ∧ d = '/'
      · rw [if_pos hcd, hcd.1, hcd.2]
        rfl
      · rw [if_neg hcd]
        simp only [List.cons_append, List.filter_cons, hc, hd, Bool.not_false, if_true]
        unfold splitNetloc
        split
        · next heq =>
          obtain ⟨hc, heq⟩ := List.cons.inj heq
          exact absurd ⟨hc, (List.cons.inj heq).1⟩ hcd
        · rfl
    rw [hnone]
    rfl

end ProxyCache.Python
