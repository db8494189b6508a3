import ProxyCache.Python.UrlSplit

/-!
# Fragments of URLs

A fragment passes through `urlsplit`, `urlunsplit` and `urljoin` as it is, except that `urlsplit`
removes tabs and line breaks from it. What stands in front of a fragment holds no `#`.
-/

namespace ProxyCache.Python

open ProxyCache.Lib

/-- The characters of a URL that `urlsplit` keeps. -/
def safeChars (url : Str) : Str := url.filter fun c => !isUnsafeUrlChar c

/-- The fragment that `urlsplit` finds in a URL. -/
def fragmentOf (url : Str) : Str := (cut '#' (safeChars url)).2.getD []

variable {U : Unicode} {url default : Str} {parts : SplitResult}

/-- No part in front of the fragment holds a `#`, and the fragment is safe. -/
structure Hashless (parts : SplitResult) : Prop where
  scheme : '#' ∉ parts.scheme
  netloc : '#' ∉ parts.netloc
  path : '#' ∉ parts.path
  query : '#' ∉ parts.query
  fragment : ∀ c ∈ parts.fragment, isUnsafeUrlChar c = false

theorem safeChars_of_safe {text : Str} (h : ∀ c ∈ text, isUnsafeUrlChar c = false) :
    safeChars text = text :=
  List.filter_eq_self.mpr fun c hc => by rw [h c hc]; rfl

theorem not_mem_safeChars {c : Char} {text : Str} (h : c ∉ text) : c ∉ safeChars text :=
  fun hc => h (List.mem_of_mem_filter hc)

/-! ## Taking apart -/

/-- What `urlsplit` removes in front does not reach the fragment. -/
theorem cut_cleanUrl (url : Str) : (cut '#' (cleanUrl url)).2.getD [] = fragmentOf url := by
  have hfront : '#' ∉ safeChars (url.takeWhile isC0OrSpace) := by
    refine not_mem_safeChars fun hmem => ?_
    exact absurd (List.mem_takeWhile_imp hmem) (by decide)
  have hurl : safeChars url = safeChars (url.takeWhile isC0OrSpace) ++ cleanUrl url := by
    unfold safeChars cleanUrl
    rw [← List.filter_append, List.takeWhile_append_dropWhile]
  rw [fragmentOf, hurl, cut_snd_append hfront]

theorem IsScheme.hash_not_mem {scheme : Str} (h : IsScheme scheme) : '#' ∉ scheme :=
  fun hmem => absurd (h.all '#' hmem) (by decide)

/-- What `urlsplit` cuts off as the scheme holds no `#`. -/
theorem exists_scheme (url default : Str) (hdefault : '#' ∉ default) :
    ∃ before after scheme, (splitScheme (cleanUrl url)).getD (default, cleanUrl url) =
      (scheme, after) ∧ cleanUrl url = before ++ after ∧ '#' ∉ before ∧ '#' ∉ scheme := by
  cases hsplit : splitScheme (cleanUrl url) with
  | none => exact ⟨[], cleanUrl url, default, rfl, rfl, List.not_mem_nil, hdefault⟩
  | some split =>
    have hscheme : IsScheme split.1 := isScheme_of_splitScheme hsplit
    unfold splitScheme at hsplit
    split at hsplit
    · next c cs rest hcut =>
      split at hsplit
      · next hok =>
        obtain rfl := Option.some.inj hsplit
        refine ⟨c :: cs ++ [':'], rest, _, rfl, ?_, ?_, hscheme.hash_not_mem⟩
        · rw [cut_eq_some hcut, List.append_assoc, List.singleton_append]
        · intro hmem
          rcases List.mem_append.mp hmem with hmem | hmem
          · have hall := List.all_eq_true.mp (Bool.and_eq_true_iff.mp hok).2
            exact absurd (hall '#' hmem) (by decide)
          · exact absurd (List.mem_singleton.mp hmem) (by decide)
      · cases hsplit
    · cases hsplit

/-- Neither does the network location. -/
theorem exists_netloc (rest : Str) : '#' ∉ (splitNetloc rest).1 ∧
    ∃ before, rest = before ++ (splitNetloc rest).2 ∧ '#' ∉ before := by
  unfold splitNetloc
  split
  · next rest =>
    have hnot : '#' ∉ rest.takeWhile fun c => !isNetlocEnd c := fun hmem =>
      absurd (List.mem_takeWhile_imp hmem) (by decide)
    refine ⟨hnot, '/' :: '/' :: rest.takeWhile fun c => !isNetlocEnd c, ?_, ?_⟩
    · simp only [List.cons_append, List.takeWhile_append_dropWhile]
    · simpa using hnot
  · exact ⟨List.not_mem_nil, [], rfl, List.not_mem_nil⟩

/-- The parts of a URL. -/
theorem hashless_of_urlsplit (h : urlsplit U url default = .ok parts) (hdefault : '#' ∉ default) :
    Hashless parts ∧ parts.fragment = fragmentOf url := by
  obtain ⟨before, after, scheme, hafter, hclean, hbefore, hscheme⟩ :=
    exists_scheme url default hdefault
  obtain ⟨hnetloc, front, hfront, hnot⟩ := exists_netloc after
  rw [urlsplit_eq hafter] at h
  split at h
  · obtain rfl := Except.ok.inj h
    have hhash := not_mem_cut_fst '#' (splitNetloc after).2
    have hfragment : (cut '#' (splitNetloc after).2).2.getD [] = fragmentOf url := by
      rw [← cut_cleanUrl, hclean, cut_snd_append hbefore, hfront, cut_snd_append hnot, ← hfront]
    refine ⟨⟨hscheme, hnetloc, ?_, ?_, ?_⟩, hfragment⟩
    · exact fun hmem => hhash ((prefix_of_cut_fst _ _).mem hmem)
    · exact fun hmem => hhash (mem_of_mem_cut_snd hmem)
    · intro c hc
      rw [hfragment] at hc
      have hsafe := (List.mem_filter.mp (mem_of_mem_cut_snd hc)).2
      simpa using hsafe
  · cases h

/-! ## Putting together -/

theorem fragmentOf_append {before fragment : Str} (h : '#' ∉ before)
    (hfragment : ∀ c ∈ fragment, isUnsafeUrlChar c = false) :
    fragmentOf (before ++ fragmentText fragment) = fragment := by
  have hsafe : safeChars (fragmentText fragment) = fragmentText fragment := by
    refine safeChars_of_safe fun c hc => ?_
    unfold fragmentText at hc
    split at hc
    · cases hc
    · rcases List.mem_cons.mp hc with rfl | hc
      · decide
      · exact hfragment c hc
  have hsplit : safeChars (before ++ fragmentText fragment) =
      safeChars before ++ fragmentText fragment := by
    conv_rhs => rw [← hsafe]
    exact List.filter_append ..
  rw [fragmentOf, hsplit]
  exact (cut_fragmentText (not_mem_safeChars h) fragment).2

/-- A URL ends with its fragment. -/
theorem fragmentOf_urlunsplit (h : Hashless parts) :
    fragmentOf (urlunsplit parts) = parts.fragment := by
  have hurl : urlunsplit parts =
      urlunsplit { parts with fragment := [] } ++ fragmentText parts.fragment := by
    unfold urlunsplit fragmentText
    by_cases hfragment : parts.fragment = []
    · simp [hfragment]
    · simp [hfragment]
  have hnot : '#' ∉ urlunsplit { parts with fragment := [] } := by
    obtain ⟨hscheme, hnetloc, hpath, hquery, -⟩ := h
    unfold urlunsplit
    simp only [ne_eq, not_true_eq_false, if_false]
    split_ifs <;> simp_all
  rw [hurl]
  exact fragmentOf_append hnot h.fragment

/-! ## Joining -/

/-- What `urlparse` makes of a URL: no `#` in front, and its fragment. -/
structure ParsedFrom (url : Str) (p : ParseResult) : Prop where
  scheme : '#' ∉ p.scheme
  netloc : '#' ∉ p.netloc
  path : '#' ∉ p.path
  params : '#' ∉ p.params
  query : '#' ∉ p.query
  fragment : p.fragment = fragmentOf url

theorem mem_of_mem_splitParams {c : Char} {path : Str}
    (h : c ∈ (splitParams path).1 ∨ c ∈ (splitParams path).2) : c ∈ path := by
  unfold splitParams at h
  split at h
  · next dir last hlast =>
    have hpath : path = dir ++ '/' :: last := (rcut_eq_some hlast).1
    split at h
    · next segment params hcut =>
      rw [hpath, cut_eq_some hcut]
      simp only [List.mem_append, List.mem_cons] at h ⊢
      tauto
    · exact h.resolve_right List.not_mem_nil
  · split at h
    · next segment params hcut =>
      rw [cut_eq_some hcut]
      simp only [List.mem_append, List.mem_cons] at h ⊢
      tauto
    · exact h.resolve_right List.not_mem_nil

theorem parsedFrom_of_urlparse {p : ParseResult} (h : urlparse U url default = .ok p)
    (hdefault : '#' ∉ default) : ParsedFrom url p := by
  obtain ⟨parts, hsplit, path, params, rfl, hpath⟩ := urlparse_eq_ok.mp h
  obtain ⟨hhashless, hfragment⟩ := hashless_of_urlsplit hsplit hdefault
  have hmem : ∀ c, c ∈ path ∨ c ∈ params → c ∈ parts.path := by
    intro c hc
    split at hpath
    · refine mem_of_mem_splitParams ?_
      rw [← hpath]
      exact hc
    · obtain ⟨rfl, rfl⟩ := Prod.mk.inj hpath
      exact hc.resolve_right List.not_mem_nil
  exact ⟨hhashless.scheme, hhashless.netloc, fun h => hhashless.path (hmem _ (.inl h)),
    fun h => hhashless.path (hmem _ (.inr h)), hhashless.query, hfragment⟩

theorem fragmentOf_safe : ∀ c ∈ fragmentOf url, isUnsafeUrlChar c = false := by
  intro c hc
  simpa using (List.mem_filter.mp (mem_of_mem_cut_snd hc)).2

/-- What is parsed is put together with its fragment. -/
theorem ParsedFrom.urlunparse {p : ParseResult} (h : ParsedFrom url p) :
    fragmentOf (urlunparse p) = fragmentOf url := by
  unfold Python.urlunparse
  have hpath : '#' ∉ if p.params ≠ [] then p.path ++ ';' :: p.params else p.path := by
    split
    · simpa using ⟨h.path, h.params⟩
    · exact h.path
  rw [fragmentOf_urlunsplit ⟨h.scheme, h.netloc, hpath, h.query, ?_⟩]
  · exact h.fragment
  · intro c hc
    rw [h.fragment] at hc
    exact fragmentOf_safe c hc

theorem mem_of_mem_segment {c : Char} {segment sep : Str} {segments : List Str}
    (hsegment : segment ∈ segments) (hc : c ∈ segment) : c ∈ List.intercalate sep segments := by
  induction segments with
  | nil => cases hsegment
  | cons first rest ih =>
    cases rest with
    | nil =>
      rw [List.mem_singleton.mp hsegment] at hc
      simpa using hc
    | cons next rest =>
      rw [List.intercalate_cons_cons, List.mem_append, List.mem_append]
      rcases List.mem_cons.mp hsegment with rfl | hsegment
      · exact .inl (.inl hc)
      · exact .inr (ih hsegment)

/-- The segments of a path hold what the path holds. -/
theorem mem_of_mem_splitOn {c : Char} {segment path : Str} (hsegment : segment ∈ path.splitOn '/')
    (hc : c ∈ segment) : c ∈ path := by
  have hpath : List.intercalate ['/'] (path.splitOn '/') = path := List.intercalate_splitOn '/'
  rw [← hpath]
  exact mem_of_mem_segment hsegment hc

theorem mem_resolveSegments {segment : Str} {segments : List Str}
    (h : segment ∈ resolveSegments segments) : segment ∈ segments ∨ segment = [] := by
  have hfold : ∀ (rest out : List Str), segment ∈ rest.foldl (fun out seg =>
      if seg = "..".toList then out.dropLast
      else if seg = ".".toList then out
      else out ++ [seg]) out → segment ∈ rest ∨ segment ∈ out := by
    intro rest
    induction rest with
    | nil => exact fun out h => .inr h
    | cons first rest ih =>
      intro out h
      rcases ih _ h with h | h
      · exact .inl (List.mem_cons_of_mem _ h)
      · dsimp only at h
        split at h
        · exact .inr ((List.dropLast_sublist _).mem h)
        split at h
        · exact .inr h
        rcases List.mem_append.mp h with h | h
        · exact .inr h
        · exact .inl (List.mem_singleton.mp h ▸ List.mem_cons_self)
  unfold resolveSegments at h
  dsimp only at h
  split at h
  · rcases List.mem_append.mp h with h | h
    · exact .inl ((hfold _ _ h).resolve_right List.not_mem_nil)
    · exact .inr (List.mem_singleton.mp h)
  · exact .inl ((hfold _ _ h).resolve_right List.not_mem_nil)

theorem mem_joinSegments {segment basePath path : Str} (h : segment ∈ joinSegments basePath path) :
    segment ∈ basePath.splitOn '/' ∨ segment ∈ path.splitOn '/' := by
  have hbase : ∀ {seg : Str} {parts : List Str}, parts = basePath.splitOn '/' →
      seg ∈ (if parts.getLast? ≠ some [] then parts.dropLast else parts) →
        seg ∈ basePath.splitOn '/' := by
    rintro seg parts rfl hseg
    split at hseg
    · exact (List.dropLast_sublist _).mem hseg
    · exact hseg
  unfold joinSegments at h
  dsimp only at h
  split at h
  · exact .inr h
  have hsegments : segment ∈ (if (basePath.splitOn '/').getLast? ≠ some [] then
      (basePath.splitOn '/').dropLast else basePath.splitOn '/') ++ path.splitOn '/' := by
    split at h
    · next first second rest hsegs =>
      rw [hsegs]
      rcases List.mem_cons.mp h with rfl | h
      · exact List.mem_cons_self
      refine List.mem_cons_of_mem _ ?_
      rcases List.mem_append.mp h with h | h
      · exact (List.dropLast_sublist _).mem (List.mem_of_mem_filter h)
      · rw [List.mem_singleton.mp h]
        have hlast : (second :: rest).getLast? = some ((second :: rest).getLastD []) := by
          simp [List.getLast?_cons]
        exact List.mem_of_getLast? hlast
    · exact h
  rcases List.mem_append.mp hsegments with h | h
  · exact .inl (hbase rfl h)
  · exact .inr h

/-- A path that is joined holds nothing new. -/
theorem not_mem_joined {basePath path : Str} (hbase : '#' ∉ basePath) (hpath : '#' ∉ path) :
    '#' ∉ List.intercalate ['/'] (resolveSegments (joinSegments basePath path)) := by
  intro hmem
  rcases mem_intercalate hmem with hsep | ⟨segment, hsegment, hmem⟩
  · exact absurd (List.mem_singleton.mp hsep) (by decide)
  rcases mem_resolveSegments hsegment with hsegment | rfl
  · rcases mem_joinSegments hsegment with hsegment | hsegment
    · exact hbase (mem_of_mem_splitOn hsegment hmem)
    · exact hpath (mem_of_mem_splitOn hsegment hmem)
  · cases hmem

/-- **A URL that is joined to a base keeps its fragment.** -/
theorem fragmentOf_urljoin {base joined : Str} (hurl : url ≠ [])
    (h : urljoin U base url = .ok joined) : fragmentOf joined = fragmentOf url := by
  unfold urljoin at h
  split at h
  · exact Except.ok.inj h ▸ rfl
  obtain ⟨b, hb, h⟩ := ok_of_bind h
  obtain ⟨p, hp, h⟩ := ok_of_bind h
  have hb := parsedFrom_of_urlparse hb List.not_mem_nil
  have hp := parsedFrom_of_urlparse hp hb.scheme
  split at h
  · exact Except.ok.inj h ▸ rfl
  split at h
  · obtain rfl := Except.ok.inj h
    exact hp.urlunparse
  -- the network location may be that of the base
  have hown : ParsedFrom url
      (if p.scheme ∈ usesNetloc then { p with netloc := b.netloc } else p) := by
    split
    · exact ⟨hp.scheme, hb.netloc, hp.path, hp.params, hp.query, hp.fragment⟩
    · exact hp
  dsimp only at h
  generalize (if p.scheme ∈ usesNetloc then { p with netloc := b.netloc } else p) = own at h hown
  split at h
  · obtain rfl := Except.ok.inj h
    refine ParsedFrom.urlunparse ⟨hown.scheme, hown.netloc, hb.path, hb.params, ?_, hown.fragment⟩
    dsimp only
    split
    · exact hb.query
    · exact hown.query
  · obtain rfl := Except.ok.inj h
    refine ParsedFrom.urlunparse ⟨hown.scheme, hown.netloc, ?_, hown.params, hown.query,
      hown.fragment⟩
    dsimp only
    split
    · decide
    · exact not_mem_joined hb.path hown.path

end ProxyCache.Python
