import Mathlib.Data.List.Basic
import Mathlib.Data.List.Induction
import Mathlib.Data.List.TakeWhile
import Mathlib.Data.Nat.Notation

/-!
# URI references

The scheme and the path of a URI reference, and the removal of dot segments
(RFC 3986, appendix B and section 5.2.4). A path is taken segment by segment.
What a list of segments does to the directory it starts in depends on two things
only: how many levels it climbs, and what it goes down again (`climb`).
-/

namespace ProxyCache.Lib

/-! ## Taking a prefix of a concatenation -/

section TakeWhile

variable {α : Type} (p : α → Bool) {xs : List α}

/-- A prefix that ends within `xs` does not see what follows. -/
theorem takeWhile_append_of_mem {x : α} (hx : x ∈ xs) (hp : p x = false) (ys : List α) :
    (xs ++ ys).takeWhile p = xs.takeWhile p ∧ (xs ++ ys).dropWhile p = xs.dropWhile p ++ ys := by
  induction xs with
  | nil => cases hx
  | cons y xs ih =>
    cases hy : p y with
    | false => simp [hy]
    | true =>
      have hmem : x ∈ xs := (List.mem_cons.mp hx).resolve_left fun h => by simp [h, hy] at hp
      simpa [hy] using ih hmem

/-- A prefix ends at the first element that is not taken. -/
theorem takeWhile_append_stop {y : α} (hp : p y = false) (ys : List α) :
    (xs ++ y :: ys).takeWhile p = xs.takeWhile p ∧
      (xs ++ y :: ys).dropWhile p = xs.dropWhile p ++ y :: ys := by
  induction xs with
  | nil => simp [hp]
  | cons x xs ih => cases hx : p x <;> simp [hx, ih.1, ih.2]

end TakeWhile

/-! ## Dot segments -/

section DotSegments

variable {α : Type} [DecidableEq α] (dot up empty : α)

/-- One segment further: `dot` stays, `up` goes back a level, if there is one. -/
def walk (out : List α) (seg : α) : List α :=
  if seg = up then out.dropLast else if seg = dot then out else out ++ [seg]

/-- The directory that the segments lead to. -/
def settle (segments : List α) : List α := segments.foldl (walk dot up) []

/-- A path that ends in a dot segment ends in a slash afterwards. -/
def trail (segments : List α) : List α :=
  if segments.getLast? = some dot ∨ segments.getLast? = some up then [empty] else []

/-- The segments of a path without its dot segments. -/
def removeDots (segments : List α) : List α := settle dot up segments ++ trail dot up empty segments

/-- An `up` cancels the segment before it, or climbs one level more. -/
def climbStep (climbed : ℕ × List α) (seg : α) : ℕ × List α :=
  if seg = up then
    if climbed.2 = [] then (climbed.1 + 1, []) else (climbed.1, climbed.2.dropLast)
  else if seg = dot then climbed
  else (climbed.1, climbed.2 ++ [seg])

/-- What is left when every `up` has been cancelled against the segment before
it: the levels that are climbed, and the segments that are gone down again. -/
def climb (segments : List α) : ℕ × List α := segments.foldl (climbStep dot up) (0, [])

variable {dot up empty}

theorem climb_concat (segments : List α) (seg : α) :
    climb dot up (segments ++ [seg]) = climbStep dot up (climb dot up segments) seg :=
  List.foldl_concat ..

/-- Walking on from a directory. -/
theorem foldl_walk (dir segments : List α) :
    segments.foldl (walk dot up) dir =
      dir.take (dir.length - (climb dot up segments).1) ++ (climb dot up segments).2 := by
  induction segments using List.reverseRecOn with
  | nil => simp [climb]
  | append_singleton segments seg ih =>
    rw [List.foldl_concat, ih, climb_concat]
    generalize climb dot up segments = climbed
    obtain ⟨levels, rest⟩ := climbed
    unfold walk climbStep
    split
    · split
      · next hrest =>
        -- nothing to cancel against: one more level is climbed
        rw [show rest = [] from hrest, List.append_nil, List.append_nil, List.dropLast_eq_take,
          List.take_take, List.length_take]
        congr 1
        omega
      · next hrest => exact List.dropLast_append_of_ne_nil hrest
    · split
      · rfl
      · exact List.append_assoc ..

theorem settle_append (dir segments : List α) :
    settle dot up (dir ++ segments) =
      (settle dot up dir).take ((settle dot up dir).length - (climb dot up segments).1) ++
        (climb dot up segments).2 := by
  rw [settle, List.foldl_append]
  exact foldl_walk _ _

/-- An ordinary segment is one more level. -/
theorem settle_concat {seg : α} (hdot : seg ≠ dot) (hup : seg ≠ up) (dir : List α) :
    settle dot up (dir ++ [seg]) = settle dot up dir ++ [seg] := by
  simp [settle, List.foldl_append, walk, hdot, hup]

theorem trail_append (dir : List α) {segments : List α} (h : segments ≠ []) :
    trail dot up empty (dir ++ segments) = trail dot up empty segments := by
  simp [trail, List.getLast?_append_of_ne_nil _ h]

theorem trail_length_le (segments : List α) : (trail dot up empty segments).length ≤ 1 := by
  unfold trail
  split <;> simp

/-- Without dot segments nothing is climbed. -/
theorem climb_of_forall {segments : List α} (h : ∀ seg ∈ segments, seg ≠ dot ∧ seg ≠ up) :
    climb dot up segments = (0, segments) := by
  induction segments using List.reverseRecOn with
  | nil => rfl
  | append_singleton segments seg ih =>
    obtain ⟨hdot, hup⟩ := h seg (by simp)
    rw [climb_concat, ih fun x hx => h x (List.mem_append_left _ hx)]
    simp [climbStep, hdot, hup]

/-- A path without its dot segments is below a directory `dir ++ below`, given
that it starts in `dir`, exactly when it spells the levels again that it climbs
and goes on below. -/
theorem removeDots_append_eq {dir segments below : List α} (h : segments ≠ []) :
    removeDots dot up empty (dir ++ segments) = settle dot up dir ++ below ↔
      (climb dot up segments).2 ++ trail dot up empty segments =
        (settle dot up dir).drop ((settle dot up dir).length - (climb dot up segments).1) ++
          below := by
  rw [removeDots, settle_append, trail_append dir h]
  generalize (settle dot up dir).length - (climb dot up segments).1 = n
  conv_lhs => rhs; rw [← List.take_append_drop n (settle dot up dir)]
  rw [List.append_assoc, List.append_assoc, List.append_cancel_left_eq]

end DotSegments

/-! ## Components -/

/-- What ends a path. -/
def isPathEnd (c : Char) : Bool := c = '?' || c = '#'

/-- What ends an authority. -/
def isAuthorityEnd (c : Char) : Bool := c = '/' || isPathEnd c

/-- What ends a scheme. -/
def isSchemeEnd (c : Char) : Bool := c = ':' || isAuthorityEnd c

/-- The scheme, and what follows it. -/
def splitUriScheme (uri : List Char) : List Char × List Char :=
  match uri.takeWhile (!isSchemeEnd ·), uri.dropWhile (!isSchemeEnd ·) with
  | c :: cs, ':' :: rest => (c :: cs, rest)
  | _, _ => ([], uri)

/-- What follows the authority. -/
def dropAuthority (rest : List Char) : List Char :=
  if rest.take 2 = ['/', '/'] then (rest.drop 2).dropWhile (!isAuthorityEnd ·) else rest

def uriScheme (uri : List Char) : List Char := (splitUriScheme uri).1

def uriPath (uri : List Char) : List Char :=
  (dropAuthority (splitUriScheme uri).2).takeWhile (!isPathEnd ·)

/-- The segments of a path; a slash in front of them is no segment. -/
def segments : List Char → List (List Char)
  | [] => []
  | '/' :: path => path.splitOn '/'
  | path => path.splitOn '/'

theorem segments_append (path rest : List Char) :
    segments (path ++ '/' :: rest) = segments path ++ rest.splitOn '/' := by
  unfold segments
  split
  · next h => simp at h
  · next path' h =>
    cases path with
    | nil =>
      obtain rfl : rest = path' := by simpa using h
      rfl
    | cons c cs =>
      obtain ⟨rfl, rfl⟩ : c = '/' ∧ cs ++ '/' :: rest = path' := by simpa using h
      exact List.splitOn_append_cons_self ..
  · next hnot =>
    cases path with
    | nil => exact absurd rfl (hnot rest)
    | cons c cs =>
      have hc : c ≠ '/' := by
        rintro rfl
        exact hnot _ rfl
      split
      · next h => cases h
      · next h => exact absurd (List.cons.inj h).1 hc
      · exact List.splitOn_append_cons_self ..

/-! ## What is put behind a base -/

section Base

variable {base : List Char}

/-- An element that is not taken is not lost. -/
theorem mem_dropWhile_of_mem {α : Type} {p : α → Bool} {x : α} {xs : List α} (hx : x ∈ xs)
    (hp : p x = false) : x ∈ xs.dropWhile p := by
  have hsplit : x ∈ xs.takeWhile p ++ xs.dropWhile p := by rwa [List.takeWhile_append_dropWhile]
  refine (List.mem_append.mp hsplit).resolve_left fun h => ?_
  rw [List.mem_takeWhile_imp h] at hp
  cases hp

/-- A path behind a base leaves the scheme alone. -/
theorem splitUriScheme_append_path (path : List Char) :
    splitUriScheme (base ++ '/' :: path) =
      ((splitUriScheme base).1, (splitUriScheme base).2 ++ '/' :: path) := by
  have hslash : (!isSchemeEnd '/') = false := by decide
  obtain ⟨htake, hdrop⟩ := takeWhile_append_stop (!isSchemeEnd ·) hslash path
  unfold splitUriScheme
  rw [htake, hdrop]
  cases base.takeWhile (!isSchemeEnd ·) with
  | nil => rfl
  | cons c cs =>
    cases base.dropWhile (!isSchemeEnd ·) with
    | nil => rfl
    | cons d rest =>
      by_cases hd : d = ':'
      · rw [hd]
        rfl
      · simp [hd]

/-- What stays of a base behind its scheme. -/
theorem splitUriScheme_suffix (uri : List Char) : (splitUriScheme uri).2 <:+ uri := by
  unfold splitUriScheme
  split
  · next c cs rest _ hrest =>
    have htail : rest <:+ ':' :: rest := List.suffix_cons ..
    exact htail.trans (hrest ▸ List.dropWhile_suffix _)
  · exact List.suffix_rfl

theorem dropAuthority_suffix (rest : List Char) : dropAuthority rest <:+ rest := by
  unfold dropAuthority
  split
  · exact (List.dropWhile_suffix _).trans (List.drop_suffix ..)
  · exact List.suffix_rfl

/-- A path does not begin an authority. -/
theorem dropAuthority_append_path {rest path : List Char} (hslash : rest.getLast? ≠ some '/')
    (hpath : path.head? ≠ some '/') :
    dropAuthority (rest ++ '/' :: path) = dropAuthority rest ++ '/' :: path := by
  unfold dropAuthority
  match rest with
  | [] =>
    have hnot : (['/'] ++ path).take 2 ≠ ['/', '/'] := by
      cases path with
      | nil => simp
      | cons c path => simpa using hpath
    rw [if_neg (by simpa using hnot), if_neg (by simp)]
  | [c] =>
    have hc : c ≠ '/' := by simpa using hslash
    rw [if_neg (by simp [hc]), if_neg (by simp)]
  | c :: d :: rest =>
    by_cases h : [c, d] = ['/', '/']
    · rw [if_pos (by simpa using h), if_pos (by simpa using h)]
      exact (takeWhile_append_stop (!isAuthorityEnd ·) (by decide) path).2
    · rw [if_neg (by simpa using h), if_neg (by simpa using h)]

/-- Behind a base that does not end in a slash, and has no query and no fragment,
a path is the rest of the path. -/
theorem uriPath_append_path {path : List Char} (hquery : ∀ c ∈ base, isPathEnd c = false)
    (hslash : base.getLast? ≠ some '/') (hpath : path.head? ≠ some '/') :
    uriPath (base ++ '/' :: path) = uriPath base ++ '/' :: path.takeWhile (!isPathEnd ·) := by
  have hsuffix := splitUriScheme_suffix base
  unfold uriPath
  rw [splitUriScheme_append_path]
  generalize (splitUriScheme base).2 = rest at hsuffix ⊢
  have hlast : rest.getLast? ≠ some '/' := by
    intro h
    obtain ⟨scheme, rfl⟩ := hsuffix
    have hne : rest ≠ [] := by
      rintro rfl
      cases h
    rw [List.getLast?_append_of_ne_nil _ hne] at hslash
    exact hslash h
  have hrest : ∀ c ∈ dropAuthority rest, (!isPathEnd c) = true := by
    intro c hc
    rw [hquery c (hsuffix.mem ((dropAuthority_suffix rest).mem hc))]
    rfl
  rw [dropAuthority_append_path hlast hpath, List.takeWhile_append_of_pos hrest,
    List.takeWhile_eq_self_iff.mpr hrest]
  rfl

theorem uriScheme_append_path (path : List Char) :
    uriScheme (base ++ '/' :: path) = uriScheme base := by
  rw [uriScheme, splitUriScheme_append_path]
  rfl

/-- A query or a fragment is behind the scheme and the authority. -/
theorem splitUriScheme_append_of_query {c : Char} (hmem : c ∈ base) (hc : isPathEnd c = true)
    (rest : List Char) :
    splitUriScheme (base ++ rest) = ((splitUriScheme base).1, (splitUriScheme base).2 ++ rest) ∧
      c ∈ (splitUriScheme base).2 := by
  have hend : (!isSchemeEnd c) = false := by simp [isSchemeEnd, isAuthorityEnd, hc]
  obtain ⟨htake, hdrop⟩ := takeWhile_append_of_mem (!isSchemeEnd ·) hmem hend rest
  have hbehind : c ∈ base.dropWhile (!isSchemeEnd ·) := mem_dropWhile_of_mem hmem hend
  have hcolon : c ≠ ':' := by
    rintro rfl
    cases hc
  unfold splitUriScheme
  rw [htake, hdrop]
  cases base.takeWhile (!isSchemeEnd ·) with
  | nil => exact ⟨rfl, hmem⟩
  | cons d ds =>
    cases hbase : base.dropWhile (!isSchemeEnd ·) with
    | nil =>
      rw [hbase] at hbehind
      cases hbehind
    | cons e es =>
      rw [hbase] at hbehind
      by_cases he : e = ':'
      · rw [he] at hbehind ⊢
        exact ⟨rfl, (List.mem_cons.mp hbehind).resolve_left hcolon⟩
      · simp [he, hmem]

theorem dropAuthority_append_of_query {c : Char} {rest : List Char} (hmem : c ∈ rest)
    (hc : isPathEnd c = true) (more : List Char) :
    dropAuthority (rest ++ more) = dropAuthority rest ++ more ∧ c ∈ dropAuthority rest := by
  have hend : (!isAuthorityEnd c) = false := by simp [isAuthorityEnd, hc]
  have hslash : c ≠ '/' := by
    rintro rfl
    cases hc
  unfold dropAuthority
  match rest with
  | [d] =>
    obtain rfl : c = d := by simpa using hmem
    rw [if_neg (by cases more <;> simp [hslash]), if_neg (by simp)]
    exact ⟨rfl, hmem⟩
  | d :: e :: rest =>
    by_cases h : [d, e] = ['/', '/']
    · rw [if_pos (by simpa using h), if_pos (by simpa using h)]
      obtain ⟨rfl, rfl⟩ : d = '/' ∧ e = '/' := by simpa using h
      have hmem' : c ∈ rest := by simpa [hslash] using hmem
      exact ⟨(takeWhile_append_of_mem _ hmem' hend more).2, mem_dropWhile_of_mem hmem' hend⟩
    · rw [if_neg (by simpa using h), if_neg (by simpa using h)]
      exact ⟨rfl, hmem⟩

/-- Behind a base with a query or a fragment, nothing is path. -/
theorem uriPath_append_of_query {c : Char} (hmem : c ∈ base) (hc : isPathEnd c = true)
    (rest : List Char) : uriPath (base ++ rest) = uriPath base := by
  obtain ⟨hscheme, hmem₁⟩ := splitUriScheme_append_of_query hmem hc rest
  obtain ⟨hauthority, hmem₂⟩ := dropAuthority_append_of_query hmem₁ hc rest
  unfold uriPath
  rw [hscheme, hauthority]
  exact (takeWhile_append_of_mem _ hmem₂ (by simp [hc]) rest).1

end Base

example : List.intercalate ['/']
    (removeDots ['.'] ['.', '.'] [] (segments "/a/b/c/./../../g".toList)) =
    "a/g".toList := by decide

end ProxyCache.Lib
