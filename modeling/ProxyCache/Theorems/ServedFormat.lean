import ProxyCache.App.SimpleProject
import ProxyCache.Lib.Negotiation
import ProxyCache.Theorems.Allowlist
import Mathlib.Data.List.TakeWhile
import Mathlib.Tactic.IntervalCases

/-!
# The served format

A response of the project route is HTML or JSON. What an `Accept` header says about the two is
read here from its text, and decided by the most specific ranges. `want_json` looks at the first
range that names JSON and at nothing else, so a client that takes JSON by a wildcard only is served
HTML, also when its header excludes HTML.
-/

namespace ProxyCache.Theorems.ServedFormat

open ProxyCache.Lib ProxyCache.Python ProxyCache.App

/-! ## `Accept` headers -/

structure MediaType where
  type : Str
  subtype : Str

def MediaType.text (t : MediaType) : Str := t.type ++ '/' :: t.subtype

def jsonType : MediaType := ⟨("application" : Str), ("vnd.pypi.simple.v1+json" : Str)⟩

def htmlType : MediaType := ⟨("text" : Str), ("html" : Str)⟩

/-- A media range in lower case, with its weight. -/
structure WeightedRange where
  type : Str
  subtype : Str
  weight : ℚ

namespace WeightedRange

variable (r : WeightedRange) (t : MediaType)

def IsExactly : Prop := r.type = t.type ∧ r.subtype = t.subtype

instance : Decidable (r.IsExactly t) := inferInstanceAs (Decidable (_ ∧ _))

/-- How specifically the range names a media type, if it does. -/
def specificity : Option ℕ :=
  if r.IsExactly t then some 2
  else if r.type = t.type ∧ r.subtype = ['*'] then some 1
  else if r.type = ['*'] ∧ r.subtype = ['*'] then some 0
  else none

end WeightedRange

/-- Optional white space. -/
def IsOws (text : Str) : Prop := ∀ c ∈ text, c = ' ' ∨ c = '\t'

instance (text : Str) : Decidable (IsOws text) := inferInstanceAs (Decidable (∀ c ∈ text, _))

/-- The visible characters but for the delimiters. -/
def isTokenChar (c : Char) : Bool :=
  33 ≤ c.toNat && c.toNat ≤ 126 && !("\"(),/:;<=>?@[\\]\x7b\x7d" : Str).contains c

def IsToken (text : Str) : Prop := text ≠ [] ∧ ∀ c ∈ text, isTokenChar c = true

instance (text : Str) : Decidable (IsToken text) := inferInstanceAs (Decidable (_ ∧ _))

/-- The value of a decimal number, exactly. -/
def decimalOf (text : Str) : Option ℚ :=
  let (whole, fraction) := cut '.' text
  let digits := whole ++ fraction.getD []
  if whole ≠ [] ∧ digits.all Char.isDigit then
    some (Nat.ofDigitChars 10 digits 0 / 10 ^ (fraction.getD []).length)
  else none

/-- Decimal numbers are read as exact decimals. -/
def ReadsDecimals (float : Str → Option ℚ) : Prop :=
  ∀ text q, decimalOf text = some q → float text = some q

/-- A weight as it is written after a range. -/
inductive WeightText : ℚ → Str → Prop
  | absent : WeightText 1 []
  | given {before after value : Str} {q : Char} {weight : ℚ} (hbefore : IsOws before)
      (hafter : IsOws after) (hq : q = 'q' ∨ q = 'Q') (hvalue : decimalOf value = some weight) :
      WeightText weight (before ++ ';' :: (after ++ q :: '=' :: value))

/-- A range as it is written: in any case. -/
inductive RangeText : WeightedRange → Str → Prop
  | intro {before after type subtype weightText : Str} {weight : ℚ} (hbefore : IsOws before)
      (hafter : IsOws after) (htype : IsToken type) (hsubtype : IsToken subtype)
      (hweight : WeightText weight weightText) :
      RangeText ⟨type.map Char.toLower, subtype.map Char.toLower, weight⟩
        (before ++ ((type ++ '/' :: subtype) ++ weightText) ++ after)

/-- The parts of a header between its commas. An empty one is ignored. -/
inductive Reads : List Str → List WeightedRange → Prop
  | nil : Reads [] []
  | blank {part : Str} {parts : List Str} {ranges : List WeightedRange} (hpart : IsOws part)
      (hparts : Reads parts ranges) : Reads (part :: parts) ranges
  | range {part : Str} {r : WeightedRange} {parts : List Str} {ranges : List WeightedRange}
      (hpart : RangeText r part) (hparts : Reads parts ranges) : Reads (part :: parts) (r :: ranges)

/-- The header, which may be absent, has these ranges. -/
inductive ReadsHeader : Option Str → Option (List WeightedRange) → Prop
  | absent : ReadsHeader none none
  | present {accept : Str} {ranges : List WeightedRange} (h : Reads (accept.splitOn ',') ranges) :
      ReadsHeader (some accept) (some ranges)

/-- A media type is acceptable if there is no header, or by a most specific range. -/
def Acceptable (header : Option (List WeightedRange)) (t : MediaType) : Prop :=
  ∀ ranges, header = some ranges →
    Negotiation.Acceptable (fun r : WeightedRange => r.specificity t) WeightedRange.weight ranges

/-- The first range that names JSON gives it a positive weight. -/
def AsksForJson (header : Option (List WeightedRange)) : Prop :=
  ∃ ranges r, header = some ranges ∧
    ranges.find? (fun r => r.IsExactly jsonType) = some r ∧ 0 < r.weight

/-- If one of the two formats is acceptable, then so is whatever is served. -/
def ServesAcceptable (s : Site) (pid : ℕ) (project : Str) (accept : Option Str)
    (header : Option (List WeightedRange)) : Prop :=
  Acceptable header jsonType ∨ Acceptable header htmlType →
    (simpleProject s pid project accept).Returns fun outcome => ∀ reply, outcome = .ok reply →
      ∃ t, (t = jsonType ∨ t = htmlType) ∧ reply.mediaType = t.text ∧ Acceptable header t

/-! ## Characters -/

section Characters

variable {c : Char}

theorem isSpace_of_isTokenChar (h : isTokenChar c = true) : isSpace c = false := by
  simp only [isTokenChar, Bool.and_eq_true, decide_eq_true_eq] at h
  obtain ⟨⟨hlo, hhi⟩, -⟩ := h
  unfold isSpace
  generalize c.toNat = n at hlo hhi ⊢
  interval_cases n <;> decide

theorem isAscii_of_isTokenChar (h : isTokenChar c = true) : isAscii c = true := by
  simp only [isTokenChar, Bool.and_eq_true, decide_eq_true_eq] at h
  exact decide_eq_true (by omega)

/-- A token has no delimiters. -/
theorem ne_of_isTokenChar (h : isTokenChar c = true) : c ≠ '/' ∧ c ≠ ';' := by
  refine ⟨?_, ?_⟩
  · rintro rfl
    exact absurd h (by decide)
  · rintro rfl
    exact absurd h (by decide)

theorem isSpace_of_ows (h : c = ' ' ∨ c = '\t') : isSpace c = true := by
  rcases h with rfl | rfl
  · decide
  · decide

/-- Nothing but the slash becomes a slash in lower case. -/
theorem toLower_ne_slash (h : c ≠ '/') : c.toLower ≠ '/' := by
  intro hlower
  unfold Char.toLower at hlower
  split at hlower
  · next hupper =>
    have hlo : 65 ≤ c.toNat := UInt32.le_iff_toNat_le.mp hupper.1
    have hhi : c.toNat ≤ 90 := UInt32.le_iff_toNat_le.mp hupper.2
    -- a letter becomes a letter
    have hval : (c.toNat + 32) % 2 ^ 32 = 47 := congrArg Char.toNat hlower
    omega
  · exact h hlower

end Characters

/-! ## Stripping -/

section Stripping

variable {text : Str}

/-- Text that neither starts nor ends with a space. -/
structure Trimmed (text : Str) : Prop where
  head : ∀ c ∈ text.head?, isSpace c = false
  last : ∀ c ∈ text.getLast?, isSpace c = false

theorem dropWhile_isSpace {ws : Str} (hws : IsOws ws)
    (hhead : ∀ c ∈ text.head?, isSpace c = false) :
    (ws ++ text).dropWhile isSpace = text := by
  rw [List.dropWhile_append_of_pos fun c hc => isSpace_of_ows (hws c hc)]
  cases text with
  | nil => rfl
  | cons c rest =>
    rw [List.dropWhile_cons_of_neg]
    rw [hhead c rfl]
    exact Bool.false_ne_true

theorem isOws_reverse {ws : Str} (hws : IsOws ws) : IsOws ws.reverse :=
  fun c hc => hws c (List.mem_reverse.mp hc)

theorem rstrip_ows {ws : Str} (hws : IsOws ws) (hlast : ∀ c ∈ text.getLast?, isSpace c = false) :
    rstrip (text ++ ws) = text := by
  have hhead : ∀ c ∈ text.reverse.head?, isSpace c = false := by
    rw [List.head?_reverse]
    exact hlast
  rw [rstrip, List.reverse_append, dropWhile_isSpace (isOws_reverse hws) hhead,
    List.reverse_reverse]

/-- White space around a text is stripped. -/
theorem strip_ows {before after : Str} (hbefore : IsOws before) (hafter : IsOws after)
    (htext : Trimmed text) : strip (before ++ text ++ after) = text := by
  rw [strip, lstrip, List.append_assoc]
  by_cases hnil : text = []
  · subst hnil
    have hnone : (before ++ ([] ++ after)).dropWhile isSpace = [] := by
      refine List.dropWhile_eq_nil_iff.mpr fun c hc => isSpace_of_ows ?_
      rcases List.mem_append.mp hc with hc | hc
      · exact hbefore c hc
      · exact hafter c hc
    rw [hnone]
    rfl
  · have hhead : ∀ c ∈ (text ++ after).head?, isSpace c = false := by
      rw [List.head?_append_of_ne_nil _ hnil]
      exact htext.head
    rw [dropWhile_isSpace hbefore hhead, rstrip_ows hafter htext.last]

theorem trimmed_of_forall (h : ∀ c ∈ text, isSpace c = false) : Trimmed text where
  head c hc := h c (List.mem_of_mem_head? hc)
  last c hc := h c (List.mem_of_getLast? hc)

end Stripping

/-! ## One range -/

section Range

variable {U : Unicode} {float : Str → Option ℚ}
    {value weightText : Str} {weight : ℚ} {r : WeightedRange}
  {part : Str} {t : MediaType}

/-- The characters of a decimal number. -/
theorem chars_decimalOf (h : decimalOf value = some weight) :
    value ≠ [] ∧ ∀ c ∈ value, c.isDigit = true ∨ c = '.' := by
  unfold decimalOf at h
  cases hcut : cut '.' value with
  | mk whole fraction =>
    rw [hcut] at h
    simp only at h
    split at h
    · next hvalid =>
      obtain ⟨hwhole, hdigits⟩ := hvalid
      rw [List.all_eq_true] at hdigits
      cases fraction with
      | none =>
        obtain ⟨rfl, -⟩ := cut_eq_none hcut
        exact ⟨hwhole, fun c hc => .inl (hdigits c (List.mem_append_left _ hc))⟩
      | some fraction =>
        obtain rfl := cut_eq_some hcut
        refine ⟨by simp, fun c hc => ?_⟩
        rcases List.mem_append.mp hc with hc | hc
        · exact .inl (hdigits c (List.mem_append_left _ hc))
        · rcases List.mem_cons.mp hc with rfl | hc
          · exact .inr rfl
          · exact .inl (hdigits c (List.mem_append_right _ hc))
    · cases h

/-- A character of a number is neither a space nor a semicolon. -/
theorem char_decimalOf {c : Char} (h : c.isDigit = true ∨ c = '.') :
    isSpace c = false ∧ c ≠ ';' := by
  have htoken : isTokenChar c = true := by
    rcases h with h | rfl
    · obtain ⟨hlo, hhi⟩ : 48 ≤ c.toNat ∧ c.toNat ≤ 57 := by
        simpa [Char.isDigit, UInt32.le_iff_toNat_le] using h
      have hdigit : c = Char.ofNat c.toNat := (Char.ofNat_toNat c).symm
      rw [hdigit]
      generalize c.toNat = n at hlo hhi
      interval_cases n <;> decide
    · decide
  exact ⟨isSpace_of_isTokenChar htoken, (ne_of_isTokenChar htoken).2⟩

/-- The part of a header that a range is written as, without the white space around it. -/
theorem strip_range {before after type subtype : Str} (hbefore : IsOws before)
    (hafter : IsOws after)
    (htype : IsToken type) (hsubtype : IsToken subtype) (hweight : WeightText weight weightText) :
    strip (before ++ ((type ++ '/' :: subtype) ++ weightText) ++ after) =
      (type ++ '/' :: subtype) ++ weightText := by
  refine strip_ows hbefore hafter ⟨?_, ?_⟩
  · intro c hc
    rw [List.append_assoc, List.head?_append_of_ne_nil _ htype.1] at hc
    exact isSpace_of_isTokenChar (htype.2 c (List.mem_of_mem_head? hc))
  · intro c hc
    cases hweight with
    | absent =>
      rw [List.append_nil, List.getLast?_append_of_ne_nil _ (List.cons_ne_nil _ _),
        List.getLast?_cons_of_ne_nil hsubtype.1] at hc
      exact isSpace_of_isTokenChar (hsubtype.2 c (List.mem_of_getLast? hc))
    | @given before' after' value q _ _ _ _ hvalue =>
      obtain ⟨hne, hchars⟩ := chars_decimalOf hvalue
      have hlast : (before' ++ ';' :: (after' ++ q :: '=' :: value)).getLast? = value.getLast? := by
        rw [show before' ++ ';' :: (after' ++ q :: '=' :: value) =
          (before' ++ ';' :: (after' ++ [q, '='])) ++ value by simp,
          List.getLast?_append_of_ne_nil _ hne]
      rw [List.getLast?_append_of_ne_nil _ (by simp), hlast] at hc
      exact (char_decimalOf (hchars c (List.mem_of_getLast? hc))).1

/-- The name of a range has no semicolon and no space. -/
theorem char_name {type subtype : Str} (htype : IsToken type) (hsubtype : IsToken subtype) :
    ∀ c ∈ type ++ '/' :: subtype, isSpace c = false ∧ c ≠ ';' ∧ isAscii c = true := by
  intro c hc
  have htoken : isTokenChar c = true ∨ c = '/' := by
    rcases List.mem_append.mp hc with hc | hc
    · exact .inl (htype.2 c hc)
    · rcases List.mem_cons.mp hc with rfl | hc
      · exact .inr rfl
      · exact .inl (hsubtype.2 c hc)
  rcases htoken with h | rfl
  · exact ⟨isSpace_of_isTokenChar h, (ne_of_isTokenChar h).2, isAscii_of_isTokenChar h⟩
  · decide

/-- What the route reads as the name of a range, in lower case. -/
def WeightedRange.name (r : WeightedRange) : Str := r.type ++ '/' :: r.subtype

/-- How a weight is read: by the last `q` and by the first one. -/
structure ReadsWeight (U : Unicode) (float : Str → Option ℚ) (params : List Str) (weight : ℚ) :
    Prop where
  quality : rangeQuality U float params = weight
  positive : jsonAcceptable U float params = true ↔ 0 < weight

theorem readsWeight_absent : ReadsWeight U float [[]] 1 := by
  have hparam : qParam U [] = none := by
    have hname : lower U (strip []) = [] := lower_ascii U (by decide)
    unfold qParam
    rw [cut_nil]
    simp only [hname]
    rfl
  refine ⟨?_, ?_⟩
  · simp only [rangeQuality, List.foldl_cons, List.foldl_nil, hparam]
  · simp only [jsonAcceptable, List.findSome?_cons, List.findSome?_nil, hparam]
    exact iff_of_true trivial one_pos

/-- A `q` parameter after white space. -/
theorem qParam_given {ws : Str} {q : Char} (hws : IsOws ws) (hq : q = 'q' ∨ q = 'Q')
    (hvalue : decimalOf value = some weight) : qParam U (ws ++ q :: '=' :: value) = some value := by
  have hspace : ∀ c, (c = ' ' ∨ c = '\t') → c ≠ '=' := by
    rintro c (rfl | rfl)
    · decide
    · decide
  have hmem : '=' ∉ ws ++ [q] := by
    intro hmem
    rcases List.mem_append.mp hmem with hmem | hmem
    · exact hspace _ (hws _ hmem) rfl
    · rcases hq with rfl | rfl
      · exact absurd hmem (by decide)
      · exact absurd hmem (by decide)
  have hcut : cut '=' (ws ++ q :: '=' :: value) = (ws ++ [q], some value) := by
    rw [show ws ++ q :: '=' :: value = (ws ++ [q]) ++ '=' :: value by simp]
    exact cut_append hmem value
  have hname : lower U (strip (ws ++ [q])) = ("q" : Str) := by
    have hstrip : strip (ws ++ [q]) = [q] := by
      have h : strip (ws ++ [q] ++ []) = [q] :=
        strip_ows hws nofun (trimmed_of_forall fun c hc => by
        rw [List.mem_singleton.mp hc]
        rcases hq with rfl | rfl
        · decide
        · decide)
      rwa [List.append_nil] at h
    rw [hstrip]
    rcases hq with rfl | rfl
    · exact lower_ascii U (by decide)
    · exact lower_ascii U (by decide)
  have hstrip : strip value = value := by
    have h : strip ([] ++ value ++ []) = value := strip_ows nofun nofun
      (trimmed_of_forall fun c hc => (char_decimalOf ((chars_decimalOf hvalue).2 c hc)).1)
    rwa [List.append_nil, List.nil_append] at h
  unfold qParam
  rw [hcut]
  simp only [hname, if_true, Option.getD_some, hstrip]

theorem readsWeight_given (hfloat : ReadsDecimals float)
    {ws : Str} {q : Char} (hws : IsOws ws) (hq : q = 'q' ∨ q = 'Q')
    (hvalue : decimalOf value = some weight) :
    ReadsWeight U float [ws ++ q :: '=' :: value] weight := by
  have hparam := qParam_given (U := U) hws hq hvalue
  have hread := hfloat value weight hvalue
  refine ⟨?_, ?_⟩
  · simp only [rangeQuality, List.foldl_cons, List.foldl_nil, hparam, hread, Option.getD_some]
  · simp only [jsonAcceptable, List.findSome?_cons, hparam, hread, Option.elim_some,
      decide_eq_true_eq]

/-- A range is read as it was written. -/
theorem mediaRange_range (hfloat : ReadsDecimals float)
    (h : RangeText r part) : ∃ params, mediaRange U part = (r.name, params) ∧
      ReadsWeight U float params r.weight := by
  cases h with
  | @intro before after type subtype weightText weight hbefore hafter htype hsubtype hweight =>
    have hchars := char_name htype hsubtype
    have hlower : lower U (type ++ '/' :: subtype) =
        type.map Char.toLower ++ '/' :: subtype.map Char.toLower := by
      rw [lower_ascii U (List.all_eq_true.mpr fun c hc => (hchars c hc).2.2), List.map_append,
        List.map_cons]
      rfl
    have hsemicolon : ';' ∉ type ++ '/' :: subtype := fun hmem => (hchars _ hmem).2.1 rfl
    have htrimmed : Trimmed (type ++ '/' :: subtype) :=
      trimmed_of_forall fun c hc => (hchars c hc).1
    unfold mediaRange
    rw [strip_range hbefore hafter htype hsubtype hweight]
    cases hweight with
    | absent =>
      have hstrip : strip ([] ++ (type ++ '/' :: subtype) ++ []) = type ++ '/' :: subtype :=
        strip_ows nofun nofun htrimmed
      rw [List.nil_append, List.append_nil] at hstrip
      rw [List.append_nil, cut_of_not_mem hsemicolon]
      simp only [hstrip, hlower]
      exact ⟨[[]], rfl, readsWeight_absent⟩
    | @given before' after' value q _ hbefore' hafter' hq hvalue =>
      have hmem : ';' ∉ (type ++ '/' :: subtype) ++ before' := by
        intro hmem
        rcases List.mem_append.mp hmem with hmem | hmem
        · exact hsemicolon hmem
        · rcases hbefore' _ hmem with h | h
          · cases h
          · cases h
      have hstrip : strip ([] ++ (type ++ '/' :: subtype) ++ before') = type ++ '/' :: subtype :=
        strip_ows nofun hbefore' htrimmed
      rw [List.nil_append] at hstrip
      -- there is one parameter only
      have hparams : (after' ++ q :: '=' :: value).splitOn ';' = [after' ++ q :: '=' :: value] := by
        refine List.splitOnP_eq_singleton fun c hc => beq_eq_false_iff_ne.mpr ?_
        rintro rfl
        rcases List.mem_append.mp hc with hmem | hmem
        · rcases hafter' _ hmem with h | h
          · cases h
          · cases h
        · rcases List.mem_cons.mp hmem with rfl | hmem
          · rcases hq with h | h
            · cases h
            · cases h
          · rcases List.mem_cons.mp hmem with h | hmem
            · cases h
            · exact (char_decimalOf ((chars_decimalOf hvalue).2 _ hmem)).2 rfl
      rw [← List.append_assoc, cut_append hmem]
      simp only [hstrip, hlower, Option.getD_some, hparams]
      exact ⟨_, rfl, readsWeight_given hfloat hafter' hq hvalue⟩

/-- The name of a range is read without ambiguity. -/
theorem noSlash_range (h : RangeText r part) : '/' ∉ r.type ∧ '/' ∉ r.subtype := by
  have hmap : ∀ {token : Str}, IsToken token → '/' ∉ token.map Char.toLower := by
    intro token htoken hmem
    obtain ⟨c, hc, hslash⟩ := List.mem_map.mp hmem
    exact toLower_ne_slash (ne_of_isTokenChar (htoken.2 c hc)).1 hslash
  cases h with
  | intro _ _ htype hsubtype _ => exact ⟨hmap htype, hmap hsubtype⟩

theorem name_eq_iff (h : RangeText r part) (type subtype : Str) :
    r.name = type ++ '/' :: subtype ↔ r.type = type ∧ r.subtype = subtype := by
  obtain ⟨htype, hsubtype⟩ := noSlash_range h
  rw [WeightedRange.name, List.append_cons_inj_of_notMem htype hsubtype]
  exact ⟨fun h => ⟨h.1, h.2.2⟩, fun h => ⟨h.1, rfl, h.2⟩⟩

/-- The route matches a range as it is written. -/
theorem specificity_name (h : RangeText r part) (ht : '/' ∉ t.type) :
    App.specificity r.name t.text = r.specificity t := by
  have hmajor : (cut '/' t.text).1 ++ ("/*" : Str) = t.type ++ '/' :: ['*'] := by
    rw [MediaType.text, cut_append ht]
    rfl
  have hany : ("*/*" : Str) = ['*'] ++ '/' :: ['*'] := rfl
  unfold App.specificity WeightedRange.specificity
  rw [hmajor, hany, MediaType.text]
  exact if_congr (name_eq_iff h t.type t.subtype) rfl (if_congr (name_eq_iff h t.type ['*']) rfl
    (if_congr (name_eq_iff h ['*'] ['*']) rfl rfl))

theorem ne_nil_of_rangeText (h : RangeText r part) : part ≠ [] := by
  cases h with
  | intro _ _ _ _ _ => simp

/-- A blank part names nothing. -/
theorem mediaRange_blank (h : IsOws part) : (mediaRange U part).1 = [] := by
  have hstrip : strip part = [] := by
    have h : strip (part ++ [] ++ []) = [] := strip_ows h nofun ⟨nofun, nofun⟩
    rwa [List.append_nil, List.append_nil] at h
  have hlower : lower U [] = [] := lower_ascii U (by decide)
  unfold mediaRange
  rw [hstrip]
  exact hlower

theorem specificity_blank (t : MediaType) : App.specificity [] t.text = none := by
  have htext : [] ≠ t.text := by
    rw [MediaType.text]
    exact (List.append_ne_nil_of_right_ne_nil _ (List.cons_ne_nil _ _)).symm
  have hmajor : [] ≠ (cut '/' t.text).1 ++ ("/*" : Str) :=
    (List.append_ne_nil_of_right_ne_nil _ (by decide)).symm
  unfold App.specificity
  rw [if_neg htext, if_neg hmajor, if_neg (by decide)]

end Range

/-! ## The header -/

section Header

variable {U : Unicode} {float : Str → Option ℚ} {parts : List Str} {ranges : List WeightedRange}
  {accept : Option Str} {header : Option (List WeightedRange)} {t : MediaType}

/-- `_quality` is one pass over the parts of a header. -/
theorem quality_eq (accept mediaType : Str) : quality U float accept mediaType =
    (Negotiation.best (fun part => App.specificity (mediaRange U part).1 mediaType)
      (fun part => rangeQuality U float (mediaRange U part).2) (accept.splitOn ',')).map (·.2) := by
  unfold quality Negotiation.best
  congr 2
  funext best part
  unfold Negotiation.improve
  simp only
  cases App.specificity (mediaRange U part).1 mediaType with
  | none => rfl
  | some n => cases best <;> rfl

/-- The ranges of a header say what its parts say. -/
theorem covers_ranges (hfloat : ReadsDecimals float)
    (h : Reads parts ranges) (ht : '/' ∉ t.type) :
    Negotiation.Covers (fun r : WeightedRange => r.specificity t) WeightedRange.weight ranges
      (fun part => App.specificity (mediaRange U part).1 t.text)
      (fun part => rangeQuality U float (mediaRange U part).2) parts := by
  induction h with
  | nil => exact nofun
  | blank _ _ ih =>
    intro r hr n hn
    obtain ⟨part, hpart, hsays⟩ := ih r hr n hn
    exact ⟨part, List.mem_cons_of_mem _ hpart, hsays⟩
  | @range part _ _ _ hrange _ ih =>
    intro r hr n hn
    rcases List.mem_cons.mp hr with rfl | hr
    · obtain ⟨params, hmedia, hweight⟩ := mediaRange_range (U := U) hfloat hrange
      refine ⟨part, List.mem_cons_self, ?_⟩
      simp only [hmedia]
      exact ⟨(specificity_name hrange ht).trans hn, hweight.quality⟩
    · obtain ⟨part, hpart, hsays⟩ := ih r hr n hn
      exact ⟨part, List.mem_cons_of_mem _ hpart, hsays⟩

/-- And the other way round. -/
theorem covers_parts (hfloat : ReadsDecimals float)
    (h : Reads parts ranges) (ht : '/' ∉ t.type) :
    Negotiation.Covers (fun part => App.specificity (mediaRange U part).1 t.text)
      (fun part => rangeQuality U float (mediaRange U part).2) parts
      (fun r : WeightedRange => r.specificity t) WeightedRange.weight ranges := by
  induction h with
  | nil => exact nofun
  | blank hblank _ ih =>
    intro part hpart n hn
    rcases List.mem_cons.mp hpart with rfl | hpart
    · have hnone := specificity_blank t
      rw [← mediaRange_blank (U := U) hblank] at hnone
      cases hn.symm.trans hnone
    · exact ih part hpart n hn
  | @range _ r _ _ hrange _ ih =>
    intro part hpart n hn
    rcases List.mem_cons.mp hpart with rfl | hpart
    · obtain ⟨params, hmedia, hweight⟩ := mediaRange_range (U := U) hfloat hrange
      simp only [hmedia] at hn ⊢
      exact ⟨r, List.mem_cons_self, (specificity_name hrange ht).symm.trans hn,
        hweight.quality.symm⟩
    · obtain ⟨r', hr', hsays⟩ := ih part hpart n hn
      exact ⟨r', List.mem_cons_of_mem _ hr', hsays⟩

/-- `_quality` of a media type is positive exactly when the type is acceptable. -/
theorem quality_pos_iff (hfloat : ReadsDecimals float)
    {accept : Str} (h : Reads (accept.splitOn ',') ranges) (ht : '/' ∉ t.type) :
    (quality U float accept t.text).getD 0 > 0 ↔ Acceptable (some ranges) t := by
  have hranges : Acceptable (some ranges) t ↔
      Negotiation.Acceptable (fun r : WeightedRange => r.specificity t)
      WeightedRange.weight ranges :=
    ⟨fun h => h ranges rfl, fun h _ hsame => Option.some.inj hsame ▸ h⟩
  rw [hranges, Negotiation.acceptable_congr (covers_ranges (U := U) hfloat h ht)
    (covers_parts hfloat h ht), quality_eq]
  exact Negotiation.getD_best_pos_iff

/-- HTML that `accepts_html` finds acceptable is acceptable, unless nothing is. -/
theorem acceptable_of_acceptsHtml (hfloat : ReadsDecimals float)
    (hreads : ReadsHeader accept header)
    (hsome : Acceptable header jsonType ∨ Acceptable header htmlType)
    (h : acceptsHtml U float accept = true) : Acceptable header htmlType := by
  cases hreads with
  | absent => exact nofun
  | @present accept ranges hreads =>
    simp only [acceptsHtml, Bool.or_eq_true, decide_eq_true_eq] at h
    rcases h with rfl | h
    · -- an empty header accepts nothing
      cases hreads with
      | blank _ hparts =>
        cases hparts
        rcases hsome with hsome | hsome
        · obtain ⟨a, ⟨ha, -⟩, -⟩ := hsome [] rfl
          cases ha
        · exact hsome
      | range hpart _ => exact absurd rfl (ne_nil_of_rangeText hpart)
    · exact (quality_pos_iff hfloat hreads (t := htmlType) (by decide)).mp h

/-- `want_json` looks at the first range that names JSON. -/
theorem find_parts (hfloat : ReadsDecimals float)
    (h : Reads parts ranges) :
    (match (parts.map (mediaRange U)).find? (·.1 == contentTypeJson) with
      | some (_, params) => jsonAcceptable U float params
      | none => false) = true ↔ AsksForJson (some ranges) := by
  have htext : contentTypeJson = jsonType.text := by decide
  have hasks : AsksForJson (some ranges) ↔
      ∃ r, ranges.find? (fun r => r.IsExactly jsonType) = some r ∧ 0 < r.weight := by
    constructor
    · rintro ⟨ranges', r, hranges, hfind⟩
      obtain rfl := Option.some.inj hranges
      exact ⟨r, hfind⟩
    · rintro ⟨r, hfind⟩
      exact ⟨ranges, r, rfl, hfind⟩
  rw [hasks, htext]
  clear hasks
  induction h with
  | nil => simp
  | @blank part _ _ hblank _ ih =>
    have hne : ((mediaRange U part).1 == jsonType.text) = false := by
      rw [mediaRange_blank hblank]
      decide
    rw [List.map_cons, List.find?_cons, hne]
    exact ih
  | @range part r _ _ hrange _ ih =>
    obtain ⟨params, hmedia, hweight⟩ := mediaRange_range (U := U) hfloat hrange
    rw [List.map_cons, List.find?_cons, List.find?_cons, hmedia]
    by_cases hexact : r.IsExactly jsonType
    · have hname : (r.name == jsonType.text) = true :=
        beq_iff_eq.mpr ((name_eq_iff hrange _ _).mpr hexact)
      simp only [hname, hexact, decide_true]
      rw [hweight.positive]
      exact ⟨fun h => ⟨r, rfl, h⟩, fun ⟨r', hr', h⟩ => Option.some.inj hr' ▸ h⟩
    · have hname : (r.name == jsonType.text) = false :=
        beq_eq_false_iff_ne.mpr fun h => hexact ((name_eq_iff hrange _ _).mp h)
      simp only [hname, hexact, decide_false]
      exact ih

/-- `want_json` of a header. -/
theorem wantJson_iff (hfloat : ReadsDecimals float)
    (hreads : ReadsHeader accept header) : wantJson U float accept = true ↔ AsksForJson header := by
  cases hreads with
  | absent => exact iff_of_false Bool.false_ne_true nofun
  | @present accept ranges hreads =>
    have hfind := find_parts (U := U) hfloat hreads
    unfold wantJson
    dsimp only
    by_cases hempty : accept = []
    · subst hempty
      refine iff_of_false Bool.false_ne_true fun hasks => ?_
      have hnone : (match (([] : Str).splitOn ',' |>.map (mediaRange U)).find?
          (·.1 == contentTypeJson) with
        | some (_, params) => jsonAcceptable U float params
        | none => false) = false := by
        have hblank : (mediaRange U []).1 = [] := mediaRange_blank nofun
        have hne : ((mediaRange U []).1 == contentTypeJson) = false := by
          rw [hblank]
          decide
        simp only [List.splitOn_nil, List.map_cons, List.map_nil, List.find?_cons, hne,
          List.find?_nil]
      rw [hnone] at hfind
      exact Bool.false_ne_true (hfind.mpr hasks)
    · have hne : (accept != []) = true := bne_iff_ne.mpr hempty
      constructor
      · intro h
        exact hfind.mp ((Bool.and_eq_true _ _).mp h).2
      · intro h
        exact (Bool.and_eq_true _ _).mpr ⟨hne, hfind.mpr h⟩

end Header

/-! ## What the route serves -/

section Serving

variable {s : Site} {r : ProjectRequest}

/-- The format is the wanted one, or HTML that is passed through. -/
def MayServe (r : ProjectRequest) (isJson : Bool) : Prop :=
  isJson = r.wantsJson ∨ (isJson = false ∧ r.allowHtmlPassthrough = true)

/-- A reply, if there is one, is of such a format. -/
def ServesFormat (r : ProjectRequest) (outcome : Outcome) : Prop :=
  ∀ reply, outcome = .ok reply → ∃ isJson, MayServe r isJson ∧ reply.mediaType = mediaTypeOf isJson

def ServesCached (r : ProjectRequest) (outcome : Except Failure (Option Reply)) : Prop :=
  ∀ reply, outcome = .ok (some reply) → ServesFormat r (.ok reply)

theorem servesFormat_ok {reply : Reply} {isJson : Bool} (hserve : MayServe r isJson)
    (h : reply.mediaType = mediaTypeOf isJson) : ServesFormat r (.ok reply) := by
  rintro reply' hsame
  obtain rfl := Except.ok.inj hsame
  exact ⟨isJson, hserve, h⟩

theorem servesFormat_error (e : Failure) : ServesFormat r (.error e) := nofun

theorem mayServe_passthrough (h : (r.wantsJson && r.allowHtmlPassthrough) = true) :
    MayServe r false :=
  .inr ⟨rfl, (Bool.and_eq_true_iff.mp h).2⟩

theorem cachedResponse_mediaType (canonical body : Str) (isJson : Bool) :
    (cachedResponse s canonical body isJson).Returns fun reply => reply.mediaType =
    mediaTypeOf isJson := by
  unfold cachedResponse
  split
  · simp only [metadataResponseCacheTtl, Prog.op_bind, Prog.returns_call]
    intro ttl
    cases ttl with
    | none => exact Prog.Returns.bind_of_forall _ fun _ => rfl
    | some ttl => rfl
  · rfl

/-- A cached response, when its format may be served. -/
theorem cachedResponse_serves {isJson : Bool} (hserve : MayServe r isJson) (body : Str) :
    (do let reply ← cachedResponse s r.canonical body isJson
        return .ok (some reply) : Program (Except Failure (Option Reply))).Returns
          (ServesCached r) := by
  refine (cachedResponse_mediaType r.canonical body isJson).bind fun reply hreply => ?_
  rintro reply' hsame
  obtain rfl := Option.some.inj (Except.ok.inj hsame)
  exact servesFormat_ok hserve hreply

theorem tryServeFromCache_serves : (tryServeFromCache s r).Returns (ServesCached r) := by
  unfold tryServeFromCache
  refine Prog.Returns.bind_of_forall _ fun ⟨notFound, cached⟩ => ?_
  dsimp only
  split
  · exact nofun
  split
  · exact cachedResponse_serves (.inl rfl) _
  refine Prog.Returns.bind_of_forall _ fun other => ?_
  split
  · unfold serveOther
    split
    · next hpassthrough => exact cachedResponse_serves (mayServe_passthrough hpassthrough) _
    · refine Prog.Returns.bind_of_forall _ fun _ => ?_
      split
      · unfold storeConversion
        refine Prog.Returns.bind_of_forall _ fun otherTtl => ?_
        cases otherTtl with
        | none => exact nofun
        | some otherTtl =>
          refine Prog.Returns.bind_of_forall _ fun otherStaleTtl => ?_
          refine Prog.Returns.bind_of_forall _ fun committed => ?_
          cases committed with
          | false => exact nofun
          | true =>
            refine Prog.Returns.bind_of_forall _ fun _ => ?_
            rintro reply hsame
            obtain rfl := Option.some.inj (Except.ok.inj hsame)
            exact servesFormat_ok (.inl rfl) rfl
      · show ServesCached r (if _ then _ else _)
        split
        · exact nofun
        · exact nofun
  · exact nofun

/-- A 200 is passed through or converted to what is wanted. -/
theorem answer_serves (response : UpstreamResponse) :
    (answer s r response).Returns (ServesFormat r) := by
  unfold answer
  split
  · exact Prog.Returns.bind_of_forall _ fun _ => servesFormat_error _
  split
  · exact servesFormat_error _
  unfold storeFill
  dsimp only
  split
  · next hpassthrough =>
    split
    · exact servesFormat_error _
    · refine Prog.Returns.bind_of_forall _ fun _ => ?_
      refine Prog.Returns.bind_of_forall _ fun _ => servesFormat_ok ?_ rfl
      rcases Bool.or_eq_true_iff.mp hpassthrough with hwanted | hhtml
      · exact .inl (beq_iff_eq.mp hwanted)
      · obtain ⟨hhtml, hallow⟩ := Bool.and_eq_true_iff.mp hhtml
        exact .inr ⟨by simpa using hhtml, hallow⟩
  · next hother =>
    split
    · exact servesFormat_error _
    · refine Prog.Returns.bind_of_forall _ fun _ => ?_
      refine Prog.Returns.bind_of_forall _ fun _ => servesFormat_ok (.inl ?_) rfl
      -- the upstream does not have the wanted format
      have hne : isUpstreamJson response ≠ r.wantsJson := fun h => hother (by simp [h])
      exact Bool.not_eq.mpr hne

theorem refetch_serves : (refetch s r).Returns (ServesFormat r) := by
  unfold refetch
  refine Prog.Returns.bind_of_forall _ fun response => ?_
  cases response with
  | none => exact servesFormat_error _
  | some response =>
    dsimp only
    split
    · exact servesFormat_error _
    · exact answer_serves response

theorem refresh_serves {isJson : Bool} (hserve : MayServe r isJson) (etag lastMod : Option Str)
    (response : UpstreamResponse) (body : Str) (otherStale : Option Str) :
    (refresh s r etag lastMod response isJson body otherStale).Returns (ServesFormat r) := by
  unfold refresh
  refine Prog.Returns.bind_of_forall _ fun _ => ?_
  split
  · refine Prog.Returns.bind_of_forall _ fun _ => ?_
    exact (cachedResponse_mediaType _ _ _).bind fun reply hreply => servesFormat_ok hserve hreply
  · exact (cachedResponse_mediaType _ _ _).bind fun reply hreply => servesFormat_ok hserve hreply

theorem notModified_serves (etag lastMod : Option Str) (response : UpstreamResponse) :
    (notModified s r etag lastMod response).Returns (ServesFormat r) := by
  unfold notModified
  refine Prog.Returns.bind_of_forall _ ?_
  rintro ⟨_ | body, otherStale⟩
  · cases otherStale with
    | none => exact refetch_serves
    | some other =>
      dsimp only
      unfold synthesizeStale
      split
      · next hpassthrough => exact refresh_serves (mayServe_passthrough hpassthrough) _ _ _ _ _
      split
      · split
        · exact refetch_serves
        · exact servesFormat_error _
      · exact Prog.Returns.bind_of_forall _ fun _ => refresh_serves (.inl rfl) _ _ _ _ _
  · exact refresh_serves (.inl rfl) _ _ _ _ _

theorem fetchUpstream_serves : (fetchUpstream s r).Returns (ServesFormat r) := by
  have hget : ∀ etag lastMod, (conditionalGet s r etag lastMod).Returns (ServesFormat r) := by
    intro etag lastMod
    unfold conditionalGet
    refine Prog.Returns.bind_of_forall _ fun response => ?_
    cases response with
    | none => exact servesFormat_error _
    | some response =>
      dsimp only
      split
      · exact notModified_serves etag lastMod response
      · exact answer_serves response
  unfold fetchUpstream
  refine Prog.Returns.bind_of_forall _ fun found => ?_
  split
  · exact Prog.Returns.bind_of_forall _ fun _ => hget _ _
  · exact hget _ _

/-- Whatever the calls answer, only such a format is served. -/
theorem serveProject_serves (pid : ℕ) : (serveProject s pid r).Returns (ServesFormat r) := by
  unfold serveProject
  refine tryServeFromCache_serves.bind ?_
  rintro (e | _ | hit) hserves
  · exact servesFormat_error e
  · unfold withLock
    refine Prog.Returns.bind_of_forall _ fun _ => Prog.Returns.bind ?_
      fun result hresult _ => hresult
    unfold fill
    refine tryServeFromCache_serves.bind ?_
    rintro (e | _ | hit) hserves
    · exact servesFormat_error e
    · exact fetchUpstream_serves
    · exact hserves hit rfl
  · exact hserves hit rfl

/-- A cached body of the wanted format is served. -/
theorem exists_cached {P : Outcome → Prop} {pid : ℕ} (h : (serveProject s pid r).Returns P) :
    ∃ reply : Reply, reply.mediaType = mediaTypeOf r.wantsJson ∧ P (.ok reply) := by
  -- neither a 404 nor a miss
  have hcached := h [none, some ("body" : Str)]
  unfold cachedResponse at hcached
  split at hcached
  · -- the metadata is ready
    exact ⟨_, rfl, hcached (some 0)⟩
  · exact ⟨_, rfl, hcached⟩

end Serving

/-! ## Accepted and served -/

section Main

variable {s : Site} {accept : Option Str} {header : Option (List WeightedRange)}

/-- JSON that is asked for is acceptable: no range is more specific. -/
theorem acceptable_of_asksForJson (hasks : AsksForJson header) : Acceptable header jsonType := by
  obtain ⟨ranges, r, rfl, hfind, hpos⟩ := hasks
  intro ranges' hranges
  obtain rfl := Option.some.inj hranges
  have hexact : r.IsExactly jsonType := by simpa using List.find?_some hfind
  refine ⟨r, ⟨List.mem_of_find?_eq_some hfind, 2, if_pos hexact, fun r' _ m hm => ?_⟩, hpos⟩
  simp only [WeightedRange.specificity] at hm
  split at hm
  · exact (Option.some.inj hm).symm.le
  split at hm
  · exact (Option.some.inj hm) ▸ one_le_two
  split at hm
  · exact (Option.some.inj hm) ▸ Nat.zero_le 2
  · cases hm

/-- A reply of an acceptable format. -/
theorem acceptable_of_mayServe (hfloat : ReadsDecimals s.float) (hreads : ReadsHeader accept header)
    (hsome : Acceptable header jsonType ∨ Acceptable header htmlType)
    (hasks : Acceptable header jsonType → ¬ Acceptable header htmlType → AsksForJson header)
    {project : Str} {isJson : Bool} (hserve : MayServe (projectRequest s project accept) isJson) :
    ∃ t, (t = jsonType ∨ t = htmlType) ∧ mediaTypeOf isJson = t.text ∧ Acceptable header t := by
  have hwant := wantJson_iff (U := s.U) hfloat hreads
  rcases hserve with hwanted | ⟨hhtml, hallow⟩
  · cases isJson with
    | true =>
      exact ⟨jsonType, .inl rfl, by decide, acceptable_of_asksForJson (hwant.mp hwanted.symm)⟩
    | false =>
      refine ⟨htmlType, .inr rfl, by decide, ?_⟩
      have hnot : ¬ AsksForJson header := by
        intro h
        exact Bool.false_ne_true (hwanted.trans (hwant.mpr h))
      -- without a range for JSON, HTML is acceptable or neither is
      by_contra hhtml
      exact hnot (hasks (hsome.resolve_right hhtml) hhtml)
  · refine ⟨htmlType, .inr rfl, ?_, acceptable_of_acceptsHtml hfloat hreads hsome hallow⟩
    rw [hhtml]
    decide

/-- HTML is served from the cache to a client that does not ask for JSON. -/
theorem acceptable_html (hfloat : ReadsDecimals s.float) (hreads : ReadsHeader accept header)
    {pid : ℕ} {project : Str} (h : ServesAcceptable s pid project accept header)
    (hsome : Acceptable header jsonType ∨ Acceptable header htmlType)
    (hnot : ¬ AsksForJson header) :
    Acceptable header htmlType := by
  have hwant : wantJson s.U s.float accept = false := by
    rw [Bool.eq_false_iff]
    exact fun hwant => hnot ((wantJson_iff hfloat hreads).mp hwant)
  obtain ⟨reply, hmedia, hreply⟩ := exists_cached (h hsome)
  obtain ⟨t, ht, htext, hacceptable⟩ := hreply reply rfl
  rw [hmedia, show (projectRequest s project accept).wantsJson = false from hwant] at htext
  rcases ht with rfl | rfl
  · exact absurd htext (by decide)
  · exact hacceptable

/-- **The served format.** Whatever is served is acceptable when one of the formats is, exactly when
a client that accepts JSON and not HTML has a first range for JSON of a positive weight. -/
theorem servesAcceptable_iff (hfloat : ReadsDecimals s.float) (hreads : ReadsHeader accept header)
    (pid : ℕ) (project : Str) :
    ServesAcceptable s pid project accept header ↔
      (Acceptable header jsonType → ¬ Acceptable header htmlType → AsksForJson header) := by
  constructor
  · intro h hjson hhtml
    by_contra hnot
    exact hhtml (acceptable_html hfloat hreads h (.inl hjson) hnot)
  · intro hasks hsome
    have hserves := serveProject_serves (s := s) (r := projectRequest s project accept) pid
    refine hserves.mono fun outcome houtcome reply hreply => ?_
    obtain ⟨isJson, hserve, hmedia⟩ := houtcome reply hreply
    rw [hmedia]
    exact acceptable_of_mayServe hfloat hreads hsome hasks hserve

end Main

/-! ## Two headers -/

section Example

/-- A site that reads decimals. -/
def decimalSite : Site := { Allowlist.cachedSite with float := decimalOf }

/-- A client of PEP 691. -/
def pipAccept : Str := ("application/vnd.pypi.simple.v1+json, text/html;q=0.5" : Str)

def pipRanges : List WeightedRange :=
  [⟨jsonType.type, jsonType.subtype, 1⟩, ⟨htmlType.type, htmlType.subtype, 1 / 2⟩]

/-- HTML is excluded, and everything else is taken. -/
def excludingAccept : Str := ("text/html;q=0, */*" : Str)

def excludingRanges : List WeightedRange :=
  [⟨htmlType.type, htmlType.subtype, 0⟩, ⟨['*'], ['*'], 1⟩]

theorem reads_pipAccept : ReadsHeader (some pipAccept) (some pipRanges) := by
  refine .present ?_
  have hsplit : pipAccept.splitOn ',' =
      [jsonType.text, ' ' :: htmlType.text ++ (";q=0.5" : Str)] := by decide
  rw [hsplit]
  have hhalf : decimalOf ("0.5" : Str) = some (1 / 2) := by decide +kernel
  have hjson : RangeText ⟨jsonType.type, jsonType.subtype, 1⟩ jsonType.text :=
    @RangeText.intro [] [] jsonType.type jsonType.subtype _ _ nofun nofun
    (by decide) (by decide) .absent
  have hhtml : RangeText ⟨htmlType.type, htmlType.subtype, 1 / 2⟩
    (' ' :: htmlType.text ++ (";q=0.5" : Str)) :=
    @RangeText.intro [' '] [] htmlType.type htmlType.subtype _ _
    (by decide) nofun (by decide) (by decide)
      (@WeightText.given [] [] ("0.5" : Str) 'q' (1 / 2) nofun nofun (.inl rfl) hhalf)
  exact .range hjson (.range hhtml .nil)

theorem reads_excludingAccept : ReadsHeader (some excludingAccept) (some excludingRanges) := by
  refine .present ?_
  have hsplit : excludingAccept.splitOn ',' =
      [htmlType.text ++ (";q=0" : Str), (" */*" : Str)] := by decide
  rw [hsplit]
  have hzero : decimalOf ("0" : Str) = some 0 := by decide +kernel
  have hhtml : RangeText ⟨htmlType.type, htmlType.subtype, 0⟩ (htmlType.text ++ (";q=0" : Str)) :=
    @RangeText.intro [] [] htmlType.type htmlType.subtype _ _ nofun nofun (by decide) (by decide)
      (@WeightText.given [] [] ("0" : Str) 'q' 0 nofun nofun (.inl rfl) hzero)
  have hany : RangeText ⟨['*'], ['*'], 1⟩ (" */*" : Str) :=
    @RangeText.intro [' '] [] ['*'] ['*'] _ _ (by decide) nofun (by decide) (by decide) .absent
  exact .range hhtml (.range hany .nil)

theorem servesAcceptable_pipAccept :
    ServesAcceptable decimalSite 0 ("one" : Str) (some pipAccept) (some pipRanges) := by
  refine (servesAcceptable_iff (fun _ _ h => h) reads_pipAccept 0 _).mpr fun _ _ => ?_
  exact ⟨pipRanges, _, rfl, rfl, one_pos⟩

/-- The excluded HTML is served. -/
theorem not_servesAcceptable :
    ¬ ∀ (s : Site) (accept : Option Str) (header : Option (List WeightedRange))
    (pid : ℕ) (project : Str),
      ReadsDecimals s.float → ReadsHeader accept header →
        ServesAcceptable s pid project accept header := by
  intro h
  have hserves := h decimalSite (some excludingAccept) (some excludingRanges) 0 ("one" : Str)
    (fun _ _ h => h) reads_excludingAccept
  have hjson : Acceptable (some excludingRanges) jsonType := by
    rintro _ ⟨⟩
    refine ⟨⟨['*'], ['*'], 1⟩, ⟨List.mem_cons_of_mem _ (List.mem_singleton_self _), 0,
      by decide, ?_⟩,
      one_pos⟩
    intro r hr m hm
    rcases List.mem_cons.mp hr with rfl | hr
    · cases hm
    · rw [List.mem_singleton.mp hr] at hm
      exact (Option.some.inj hm).symm.le
  have hnot : ¬ AsksForJson (some excludingRanges) := by
    rintro ⟨_, r, ⟨⟩, hfind, -⟩
    cases hfind
  obtain ⟨r, ⟨hr, n, hn, hmost⟩, hpos⟩ :=
    acceptable_html (fun _ _ h => h) reads_excludingAccept hserves (.inl hjson) hnot _ rfl
  have htwo := hmost _ List.mem_cons_self 2 (by decide)
  rcases List.mem_cons.mp hr with rfl | hr
  · exact lt_irrefl 0 hpos
  · -- the wildcard is less specific
    rw [List.mem_singleton.mp hr] at hn
    obtain rfl := Option.some.inj hn
    exact absurd htwo (by decide)

end Example

end ProxyCache.Theorems.ServedFormat
