import ProxyCache.App.Ttl
import ProxyCache.Theorems.ServedFormat

/-!
# The lifetime that the upstream asks for (`app/ttl.py`)

A `Cache-Control` value is a list of directives, each a name and perhaps an argument. The
expression `max-age\s*=\s*(\d+)` looks at the text only. Here its first match is found among
the directives: at a name that ends in `max-age`, or inside a quoted argument.
-/

namespace ProxyCache.Theorems.MaxAge

open ProxyCache.Lib ProxyCache.Python ProxyCache.App
open ServedFormat (IsOws IsToken isTokenChar isSpace_of_isTokenChar dropWhile_isSpace)

/-! ## Directives -/

/-- Optional white space around the parts of a directive. -/
abbrev Blanks := { text : Str // IsOws text }

/-- A character of a quoted string, as it is written. -/
inductive QuotedChar where
  | plain (c : Char) (h : c ≠ '"' ∧ c ≠ '\\')
  | escaped (c : Char)

namespace QuotedChar

def text : QuotedChar → Str
  | plain c _ => [c]
  | escaped c => ['\\', c]

def value : QuotedChar → Char
  | plain c _ => c
  | escaped c => c

end QuotedChar

inductive Argument where
  | token (name : Str) (h : IsToken name)
  | quoted (chars : List QuotedChar)

namespace Argument

/-- The argument as it is written. -/
def text : Argument → Str
  | token name _ => name
  | quoted chars => '"' :: (chars.flatMap QuotedChar.text ++ ['"'])

/-- The argument that is meant. -/
def value : Argument → Str
  | token name _ => name
  | quoted chars => chars.map QuotedChar.value

end Argument

/-- A directive, with its spacing. -/
structure Directive where
  before : Blanks
  name : Str
  isToken : IsToken name
  /-- The blanks around the equals sign, and the argument. -/
  argument : Option (Blanks × Blanks × Argument)
  after : Blanks

namespace Directive

/-- What follows the name. -/
def argumentText (d : Directive) : Str :=
  match d.argument with
  | none => []
  | some (left, right, argument) => left.1 ++ '=' :: (right.1 ++ argument.text)

def text (d : Directive) : Str := d.before.1 ++ (d.name ++ (d.argumentText ++ d.after.1))

/-- The directive is named `max-age`, in any case. -/
def IsMaxAge (d : Directive) : Prop := d.name.map Char.toLower = ("max-age" : Str)

instance (d : Directive) : Decidable d.IsMaxAge := inferInstanceAs (Decidable (_ = _))

/-- A decimal argument. -/
def seconds (d : Directive) : Option ℕ :=
  match d.argument with
  | some (_, _, argument) =>
    if argument.value ≠ [] ∧ argument.value.all Char.isDigit then
      some (Nat.ofDigitChars 10 argument.value 0)
    else none
  | none => none

end Directive

/-- A `Cache-Control` value. -/
def headerText (ds : List Directive) : Str := [','].intercalate (ds.map Directive.text)

/-- What a header asks for: the value of its first `max-age` directive if that is decimal, and
nothing if there is none. -/
def Asks (ds : List Directive) : Option ℕ → Prop
  | none => ∀ d ∈ ds, ¬ d.IsMaxAge
  | some m => ∃ d, ds.find? (·.IsMaxAge) = some d ∧ d.seconds = some m

/-- **The upstream only ever caps the lifetime.** -/
structure CapsOnly (settings : Settings) (ds : List Directive) : Prop where
  capped : effectiveProjectTtl settings (some (headerText ds)) ≤ settings.cacheProjectTtlSeconds
  absent : Asks ds none →
    effectiveProjectTtl settings (some (headerText ds)) = settings.cacheProjectTtlSeconds
  given : ∀ m, Asks ds (some m) →
    effectiveProjectTtl settings (some (headerText ds)) =
      min settings.cacheProjectTtlSeconds (max m minUpstreamTtlSeconds)
  legal : 1 ≤ effectiveProjectTtl settings (some (headerText ds))

/-! ## What the expression finds -/

/-- The digits behind blanks, an equals sign and blanks. -/
def digitsBehind (text : Str) : Option Str :=
  match text.dropWhile isSpace with
  | '=' :: rest =>
    let digits := (rest.dropWhile isSpace).takeWhile isDecimal
    if digits = [] then none else some digits
  | _ => none

/-- A text that starts with `max-age`, in any case, and has digits behind it. -/
def maxAgeAt (text : Str) : Option Str :=
  if (text.take 7).map Char.toLower = ("max-age" : Str) then digitsBehind (text.drop 7) else none

/-- The digits that are taken from a directive: of a token argument, under any name that ends in
`max-age`, or from inside a quoted argument, under any name. -/
def Directive.taken (d : Directive) : Option Str :=
  match d.argument with
  | none => none
  | some (_, _, .token argument _) =>
    if ("max-age" : Str).isSuffixOf (d.name.map Char.toLower) then
      if argument.takeWhile isDecimal = [] then none else some (argument.takeWhile isDecimal)
    else none
  | some (_, _, .quoted chars) => (chars.flatMap QuotedChar.text).tails.findSome? maxAgeAt

/-- The number that is taken from a header. -/
def takenSeconds (ds : List Directive) : Option ℕ :=
  (ds.findSome? Directive.taken).bind intOfDigits

/-! ## The search, place by place -/

theorem matchesChar_eq {p c : Char} (h : p ∉ ("isk" : Str)) :
    matchesChar p c = (c.toLower == p) := by
  obtain ⟨hi, hs, hk⟩ : p ≠ 'i' ∧ p ≠ 's' ∧ p ≠ 'k' := by simpa using h
  rw [matchesChar, beq_eq_false_iff_ne.mpr hi, beq_eq_false_iff_ne.mpr hs,
    beq_eq_false_iff_ne.mpr hk]
  simp only [Bool.false_and, Bool.or_false]

theorem matchWord_eq {word : Str} (h : ∀ p ∈ word, p ∉ ("isk" : Str)) (text : Str) :
    matchWord word text =
      if (text.take word.length).map Char.toLower = word then
        some (text.take word.length, text.drop word.length)
      else none := by
  induction word generalizing text with
  | nil => rfl
  | cons p word ih =>
    cases text with
    | nil => rfl
    | cons c text =>
      rw [matchWord, matchesChar_eq (h p List.mem_cons_self),
        ih (fun q hq => h q (List.mem_cons_of_mem p hq))]
      simp only [List.length_cons, List.take_succ_cons, List.drop_succ_cons, List.map_cons,
        List.cons.injEq, beq_iff_eq]
      by_cases hc : c.toLower = p
      · by_cases htext : (text.take word.length).map Char.toLower = word
        · rw [if_pos hc, if_pos htext, if_pos ⟨hc, htext⟩]
          rfl
        · rw [if_pos hc, if_neg htext, if_neg (fun h => htext h.2)]
          rfl
      · rw [if_neg hc, if_neg fun h => hc h.1]

theorem searchMaxAge_cons (c : Char) (text : Str) :
    searchMaxAge (c :: text) = (maxAgeAt (c :: text)).or (searchMaxAge text) := by
  rw [searchMaxAge, matchWord_eq (by decide)]
  congr 1
  unfold maxAgeAt
  by_cases h : ((c :: text).take 7).map Char.toLower = ("max-age" : Str)
  · rw [if_pos h]
    exact (if_pos h).symm ▸ rfl
  · rw [if_neg h]
    exact (if_neg h).symm ▸ rfl

theorem searchMaxAge_eq (text : Str) : searchMaxAge text = text.tails.findSome? maxAgeAt := by
  induction text with
  | nil => rfl
  | cons c text ih =>
    rw [searchMaxAge_cons, ih, List.tails_cons, List.findSome?_cons]
    cases maxAgeAt (c :: text) <;> rfl

theorem length_of_word {text : Str} (h : text.map Char.toLower = ("max-age" : Str)) :
    text.length = 7 :=
  (List.length_map _).symm.trans (congrArg List.length h)

/-! ## Separators -/

/-- No match goes over the character. -/
structure Separates (q : Char) : Prop where
  space : isSpace q = false
  decimal : isDecimal q = false
  equals : q ≠ '='
  word : q.toLower ∉ ("max-age" : Str)

theorem digitsBehind_append {q : Char} (hq : Separates q) (text rest : Str) :
    digitsBehind (text ++ q :: rest) = digitsBehind text := by
  unfold digitsBehind
  rw [(takeWhile_append_stop isSpace hq.space rest).2]
  cases text.dropWhile isSpace with
  | nil =>
    rw [List.nil_append]
    split
    · next h => exact absurd (List.cons.inj h).1 hq.equals
    · rfl
  | cons c behind =>
    by_cases hc : c = '='
    · subst hc
      simp only [List.cons_append, (takeWhile_append_stop isSpace hq.space rest).2,
        (takeWhile_append_stop isDecimal hq.decimal rest).1]
    · rw [List.cons_append]
      split
      · next h => exact absurd (List.cons.inj h).1 hc
      · split
        · next h => exact absurd (List.cons.inj h).1 hc
        · rfl

/-- Nothing shorter than the word matches it, whatever stands behind a separator. -/
theorem maxAgeAt_append {q : Char} (hq : Separates q) (text rest : Str) :
    maxAgeAt (text ++ q :: rest) = maxAgeAt text := by
  unfold maxAgeAt
  by_cases hlength : 7 ≤ text.length
  · rw [List.take_append_of_le_length hlength, List.drop_append_of_le_length hlength,
      digitsBehind_append hq]
  · obtain ⟨n, hn⟩ : ∃ n, 7 - text.length = n + 1 := ⟨6 - text.length, by omega⟩
    rw [if_neg, if_neg]
    · intro h
      have hlen := length_of_word h
      rw [List.length_take] at hlen
      omega
    · intro h
      refine hq.word (h ▸ List.mem_map_of_mem ?_)
      rw [List.take_append, hn, List.take_succ_cons]
      exact List.mem_append_right _ List.mem_cons_self

/-- Before and behind a separator are searched one after the other. -/
theorem searchMaxAge_append {q : Char} (hq : Separates q) (text rest : Str) :
    searchMaxAge (text ++ q :: rest) = (searchMaxAge text).or (searchMaxAge rest) := by
  induction text with
  | nil =>
    rw [List.nil_append, searchMaxAge_cons]
    have hnone : maxAgeAt (q :: rest) = none := maxAgeAt_append hq [] rest
    rw [hnone]
    rfl
  | cons c text ih =>
    rw [List.cons_append, searchMaxAge_cons, ih, ← List.cons_append, maxAgeAt_append hq,
      searchMaxAge_cons, Option.or_assoc]

theorem separates_comma : Separates ',' := ⟨by decide, by decide, by decide, by decide⟩

theorem separates_quote : Separates '"' := ⟨by decide, by decide, by decide, by decide⟩

/-! ## Names and tokens -/

/-- What may follow a token: blanks, the equals sign, or nothing. -/
def Stops (rest : Str) : Prop := ∀ c ∈ rest.head?, c = ' ' ∨ c = '\t' ∨ c = '='

theorem digitsBehind_of_tokenChar {text : Str} (h : ∀ c ∈ text, isTokenChar c = true)
    (hne : text ≠ []) (rest : Str) : digitsBehind (text ++ rest) = none := by
  obtain ⟨c, text, rfl⟩ := List.exists_cons_of_ne_nil hne
  have hc := h c List.mem_cons_self
  unfold digitsBehind
  rw [List.cons_append, List.dropWhile_cons, isSpace_of_isTokenChar hc]
  split
  · next heq =>
    obtain rfl := (List.cons.inj heq).1
    exact absurd hc (by decide)
  · rfl

/-- Inside a token there is a match only at its very end. -/
theorem maxAgeAt_token {text rest : Str} (h : ∀ c ∈ text, isTokenChar c = true)
    (hrest : Stops rest) :
    maxAgeAt (text ++ rest) =
      if text.map Char.toLower = ("max-age" : Str) then digitsBehind rest else none := by
  unfold maxAgeAt
  rcases Nat.lt_trichotomy text.length 7 with hlt | heq | hgt
  · obtain ⟨n, hn⟩ : ∃ n, 7 - text.length = n + 1 := ⟨6 - text.length, by omega⟩
    have hshort : text.map Char.toLower ≠ ("max-age" : Str) := fun hword => by
      have hlen := length_of_word hword
      omega
    rw [if_neg hshort, if_neg]
    intro hword
    cases rest with
    | nil =>
      rw [List.append_nil, List.take_of_length_le hlt.le] at hword
      exact hshort hword
    | cons c rest =>
      have hmem : c.toLower ∈ ("max-age" : Str) := by
        refine hword ▸ List.mem_map_of_mem ?_
        rw [List.take_append, hn, List.take_succ_cons]
        exact List.mem_append_right _ List.mem_cons_self
      rcases hrest c rfl with rfl | rfl | rfl <;> exact absurd hmem (by decide)
  · rw [List.take_left' heq, List.drop_left' heq]
  · have hlong : text.map Char.toLower ≠ ("max-age" : Str) := fun hword => by
      have hlen := length_of_word hword
      omega
    rw [if_neg hlong, List.drop_append_of_le_length hgt.le, digitsBehind_of_tokenChar, ite_self]
    · exact fun c hc => h c (List.mem_of_mem_drop hc)
    · exact fun hnil => absurd (List.drop_eq_nil_iff.mp hnil) (by omega)

theorem searchMaxAge_token {text rest : Str} (h : ∀ c ∈ text, isTokenChar c = true)
    (hrest : Stops rest) :
    searchMaxAge (text ++ rest) =
      (if ("max-age" : Str).isSuffixOf (text.map Char.toLower) then digitsBehind rest
        else none).or (searchMaxAge rest) := by
  induction text with
  | nil => rfl
  | cons c text ih =>
    have hword : (("max-age" : Str).isSuffixOf ((c :: text).map Char.toLower) = true) ↔
        (c :: text).map Char.toLower = ("max-age" : Str) ∨
          ("max-age" : Str).isSuffixOf (text.map Char.toLower) = true := by
      rw [List.isSuffixOf_iff_suffix, List.isSuffixOf_iff_suffix, List.map_cons,
        List.suffix_cons_iff]
      exact or_congr_left eq_comm
    rw [List.cons_append, searchMaxAge_cons, ← List.cons_append,
      maxAgeAt_token h hrest,
      ih fun d hd => h d (List.mem_cons_of_mem c hd)]
    by_cases hfull : (c :: text).map Char.toLower = ("max-age" : Str)
    · have hnot : ¬ ("max-age" : Str).isSuffixOf (text.map Char.toLower) = true := fun hsuffix => by
        have hle := (List.isSuffixOf_iff_suffix.mp hsuffix).length_le
        have heq := length_of_word hfull
        rw [List.length_map, show ("max-age" : Str).length = 7 from rfl] at hle
        rw [List.length_cons] at heq
        omega
      rw [if_pos hfull, if_neg hnot, if_pos (hword.mpr (.inl hfull))]
      rfl
    · by_cases hsuffix : ("max-age" : Str).isSuffixOf (text.map Char.toLower) = true
      · rw [if_neg hfull, if_pos hsuffix, if_pos (hword.mpr (.inr hsuffix))]
        rfl
      · rw [if_neg hfull, if_neg hsuffix, if_neg fun h => (hword.mp h).elim hfull hsuffix]
        rfl

/-! ## A directive -/

theorem searchMaxAge_skip {c : Char} (h : c.toLower ≠ 'm') (text : Str) :
    searchMaxAge (c :: text) = searchMaxAge text := by
  have hnone : maxAgeAt (c :: text) = none := by
    unfold maxAgeAt
    rw [if_neg]
    rw [List.take_succ_cons, List.map_cons]
    exact fun hword => h (List.cons.inj hword).1
  rw [searchMaxAge_cons, hnone]
  rfl

theorem searchMaxAge_blanks {blanks : Str} (h : IsOws blanks) (text : Str) :
    searchMaxAge (blanks ++ text) = searchMaxAge text := by
  induction blanks with
  | nil => rfl
  | cons c blanks ih =>
    rw [List.cons_append, searchMaxAge_skip, ih fun d hd => h d (List.mem_cons_of_mem c hd)]
    rcases h c List.mem_cons_self with rfl | rfl <;> decide

theorem stops_of_isOws {blanks rest : Str} (h : IsOws blanks) (hrest : Stops rest) :
    Stops (blanks ++ rest) := by
  cases blanks with
  | nil => exact hrest
  | cons c blanks =>
    rintro d hd
    obtain rfl : c = d := Option.some.inj hd
    rcases h c List.mem_cons_self with hc | hc
    · exact .inl hc
    · exact .inr (.inl hc)

theorem stops_nil : Stops [] := nofun

theorem searchMaxAge_isOws {blanks : Str} (h : IsOws blanks) : searchMaxAge blanks = none := by
  have hblanks := searchMaxAge_blanks h []
  rw [List.append_nil] at hblanks
  exact hblanks

theorem digitsBehind_isOws {blanks : Str} (h : IsOws blanks) : digitsBehind blanks = none := by
  have hdrop : (blanks ++ []).dropWhile isSpace = [] := dropWhile_isSpace h nofun
  rw [List.append_nil] at hdrop
  unfold digitsBehind
  rw [hdrop]

/-- A directive without an argument has no match. -/
theorem searchMaxAge_noArgument {name blanks : Str} (hname : IsToken name) (h : IsOws blanks) :
    searchMaxAge (name ++ blanks) = none := by
  have hstops : Stops blanks := by simpa using stops_of_isOws h stops_nil
  rw [searchMaxAge_token hname.2 hstops, digitsBehind_isOws h, searchMaxAge_isOws h, ite_self]
  rfl

/-- Blanks, the equals sign and blanks. -/
theorem digitsBehind_equals {left right text : Str} (hleft : IsOws left) (hright : IsOws right)
    (htext : ∀ c ∈ text.head?, isSpace c = false) :
    digitsBehind (left ++ '=' :: (right ++ text)) =
      if text.takeWhile isDecimal = [] then none else some (text.takeWhile isDecimal) := by
  have hequals : ∀ c ∈ ('=' :: (right ++ text)).head?, isSpace c = false := by
    rintro c hc
    obtain rfl : '=' = c := Option.some.inj hc
    decide
  unfold digitsBehind
  rw [dropWhile_isSpace hleft hequals]
  simp only [dropWhile_isSpace hright htext]

theorem takeWhile_isOws (text : Str) {blanks : Str} (h : IsOws blanks) :
    (text ++ blanks).takeWhile isDecimal = text.takeWhile isDecimal := by
  cases blanks with
  | nil => rw [List.append_nil]
  | cons c blanks =>
    have hc : isDecimal c = false := by
      rcases h c List.mem_cons_self with rfl | rfl <;> decide
    exact (takeWhile_append_stop isDecimal hc blanks).1

/-- Behind the equals sign there are matches inside a quoted argument only. -/
theorem searchMaxAge_argument (argument : Argument) {after : Str} (h : IsOws after) :
    searchMaxAge (argument.text ++ after) =
      match argument with
      | .token _ _ => none
      | .quoted chars => (chars.flatMap QuotedChar.text).tails.findSome? maxAgeAt := by
  cases argument with
  | token name hname => exact searchMaxAge_noArgument hname h
  | quoted chars =>
    show searchMaxAge ('"' :: (chars.flatMap QuotedChar.text ++ ['"'] ++ after)) = _
    rw [searchMaxAge_skip (by decide), List.append_assoc, List.singleton_append,
      searchMaxAge_append separates_quote, searchMaxAge_isOws h, Option.or_none, searchMaxAge_eq]

/-- What is found in a directive is what is taken from it. -/
theorem searchMaxAge_text (d : Directive) : searchMaxAge d.text = d.taken := by
  obtain ⟨before, name, hname, argument, after⟩ := d
  unfold Directive.text Directive.argumentText Directive.taken
  rw [searchMaxAge_blanks before.2]
  cases argument with
  | none => exact searchMaxAge_noArgument hname after.2
  | some parts =>
    obtain ⟨left, right, argument⟩ := parts
    simp only [List.append_assoc, List.cons_append]
    have hstops : Stops (left.1 ++ '=' :: (right.1 ++ (argument.text ++ after.1))) := by
      refine stops_of_isOws left.2 ?_
      rintro c hc
      exact .inr (.inr (Option.some.inj hc).symm)
    have hbehind : searchMaxAge (left.1 ++ '=' :: (right.1 ++ (argument.text ++ after.1))) =
        searchMaxAge (argument.text ++ after.1) := by
      rw [searchMaxAge_blanks left.2, searchMaxAge_skip (by decide), searchMaxAge_blanks right.2]
    rw [searchMaxAge_token hname.2 hstops, hbehind, searchMaxAge_argument argument after.2]
    cases argument with
    | token value hvalue =>
      have hhead : ∀ c ∈ ((Argument.token value hvalue).text ++ after.1).head?,
          isSpace c = false := by
        intro c hc
        obtain ⟨d, value, rfl⟩ := List.exists_cons_of_ne_nil hvalue.1
        obtain rfl : d = c := Option.some.inj hc
        exact isSpace_of_isTokenChar (hvalue.2 d List.mem_cons_self)
      rw [digitsBehind_equals left.2 right.2 hhead, takeWhile_isOws _ after.2, Option.or_none]
      rfl
    | quoted chars =>
      have hhead : ∀ c ∈ ((Argument.quoted chars).text ++ after.1).head?, isSpace c = false := by
        intro c hc
        obtain rfl : '"' = c := Option.some.inj hc
        decide
      have hnone : ((Argument.quoted chars).text ++ after.1).takeWhile isDecimal = [] := rfl
      rw [digitsBehind_equals left.2 right.2 hhead, if_pos hnone, ite_self]
      rfl

/-- A header is searched directive by directive. -/
theorem searchMaxAge_headerText (ds : List Directive) :
    searchMaxAge (headerText ds) = ds.findSome? Directive.taken := by
  induction ds with
  | nil => rfl
  | cons d ds ih =>
    cases ds with
    | nil =>
      show searchMaxAge ([','].intercalate [d.text]) = _
      rw [List.intercalate_singleton, searchMaxAge_text]
      cases h : d.taken <;> simp [h]
    | cons e ds =>
      have hcons : headerText (d :: e :: ds) = d.text ++ ',' :: headerText (e :: ds) := by
        simp [headerText, List.intercalate_cons_cons]
      have hfirst : (d :: e :: ds).findSome? Directive.taken =
          d.taken.or ((e :: ds).findSome? Directive.taken) := by
        rw [List.findSome?_cons]
        cases d.taken <;> rfl
      rw [hcons, searchMaxAge_append separates_comma, searchMaxAge_text, ih, hfirst]

/-! ## The lifetime -/

/-- The lifetime is made of the number that is taken. -/
theorem effectiveProjectTtl_headerText (settings : Settings) (ds : List Directive) :
    effectiveProjectTtl settings (some (headerText ds)) =
      match takenSeconds ds with
      | some n =>
        if (n : ℤ) < settings.cacheProjectTtlSeconds then max (n : ℤ) minUpstreamTtlSeconds
        else settings.cacheProjectTtlSeconds
      | none => settings.cacheProjectTtlSeconds := by
  have htaken : parseMaxAge (some (headerText ds)) = takenSeconds ds :=
    congrArg (Option.bind · intOfDigits) (searchMaxAge_headerText ds)
  cases h : takenSeconds ds with
  | none => simp only [effectiveProjectTtl, htaken, h]
  | some n => simp only [effectiveProjectTtl, htaken, h]

/-- A number of seconds that shortens the lifetime, once it is raised to the floor. -/
def Shortens (base : ℤ) (seconds : Option ℕ) : Prop :=
  ∃ n, seconds = some n ∧ max (n : ℤ) minUpstreamTtlSeconds < base

/-- Two numbers ask for the same lifetime: neither shortens it, or they are equal above the
floor. -/
def SameLifetime (base : ℤ) (a b : Option ℕ) : Prop :=
  (¬ Shortens base a ∧ ¬ Shortens base b) ∨
    ∃ m n, a = some m ∧ b = some n ∧
      max (m : ℤ) minUpstreamTtlSeconds = max (n : ℤ) minUpstreamTtlSeconds

/-- The number that is taken does no harm: it is not below a lifetime that is itself below the
floor, and it asks for the lifetime that the header asks for. -/
structure TakenRight (settings : Settings) (ds : List Directive) : Prop where
  floor : minUpstreamTtlSeconds ≤ settings.cacheProjectTtlSeconds ∨
    ∀ n, takenSeconds ds = some n → settings.cacheProjectTtlSeconds ≤ n
  asked : ∀ x, Asks ds x → SameLifetime settings.cacheProjectTtlSeconds (takenSeconds ds) x

/-- What becomes of a lifetime by a number of seconds. -/
def cappedBy (base : ℤ) : Option ℕ → ℤ
  | none => base
  | some n => min base (max (n : ℤ) minUpstreamTtlSeconds)

theorem cappedBy_le (base : ℤ) (x : Option ℕ) : cappedBy base x ≤ base := by
  cases x with
  | none => exact le_refl _
  | some n => exact min_le_left _ _

theorem cappedBy_of_not_shortens {base : ℤ} {x : Option ℕ} (h : ¬ Shortens base x) :
    cappedBy base x = base := by
  cases x with
  | none => rfl
  | some n => exact min_eq_left (not_lt.mp fun hlt => h ⟨n, rfl, hlt⟩)

theorem sameLifetime_iff {base : ℤ} {a b : Option ℕ} :
    SameLifetime base a b ↔ cappedBy base a = cappedBy base b := by
  constructor
  · rintro (⟨ha, hb⟩ | ⟨m, n, rfl, rfl, heq⟩)
    · rw [cappedBy_of_not_shortens ha, cappedBy_of_not_shortens hb]
    · exact congrArg (min base) heq
  · intro heq
    by_cases ha : Shortens base a
    · obtain ⟨m, rfl, hm⟩ := ha
      have hcap : cappedBy base (some m) = max (m : ℤ) minUpstreamTtlSeconds := min_eq_right hm.le
      have hb : Shortens base b := by
        by_contra hb
        rw [hcap, cappedBy_of_not_shortens hb] at heq
        omega
      obtain ⟨n, rfl, hn⟩ := hb
      exact .inr ⟨m, n, rfl, rfl, hcap ▸ heq.trans (min_eq_right hn.le)⟩
    · refine .inl ⟨ha, fun hb => ?_⟩
      obtain ⟨n, rfl, hn⟩ := hb
      have hcap : cappedBy base (some n) = max (n : ℤ) minUpstreamTtlSeconds := min_eq_right hn.le
      rw [cappedBy_of_not_shortens ha, hcap] at heq
      omega

/-- A base below the floor is exceeded by any smaller number, and only then is the number that
is taken no cap. -/
theorem effectiveProjectTtl_eq_cappedBy {settings : Settings} {ds : List Directive}
    (h : minUpstreamTtlSeconds ≤ settings.cacheProjectTtlSeconds ∨
      ∀ n, takenSeconds ds = some n → settings.cacheProjectTtlSeconds ≤ n) :
    effectiveProjectTtl settings (some (headerText ds)) =
      cappedBy settings.cacheProjectTtlSeconds (takenSeconds ds) := by
  rw [effectiveProjectTtl_headerText]
  cases htaken : takenSeconds ds with
  | none => rfl
  | some n =>
    simp only [cappedBy]
    split
    · next hlt =>
      have hfloor := h.resolve_right fun h => absurd (h n htaken) (not_le.mpr hlt)
      exact (min_eq_right (max_le hlt.le hfloor)).symm
    · next hle => exact (min_eq_left ((not_lt.mp hle).trans (le_max_left _ _))).symm

/-- **When `max-age` is a cap.** -/
theorem capsOnly_iff (settings : Settings) (hbase : 1 ≤ settings.cacheProjectTtlSeconds)
    (ds : List Directive) : CapsOnly settings ds ↔ TakenRight settings ds := by
  constructor
  · intro h
    have hfloor : minUpstreamTtlSeconds ≤ settings.cacheProjectTtlSeconds ∨
        ∀ n, takenSeconds ds = some n → settings.cacheProjectTtlSeconds ≤ n := by
      refine or_iff_not_imp_right.mpr fun hbelow => ?_
      obtain ⟨n, hn⟩ := not_forall.mp hbelow
      obtain ⟨htaken, hlt⟩ := Classical.not_imp.mp hn
      have hcapped := h.capped
      rw [effectiveProjectTtl_headerText, htaken] at hcapped
      simp only [not_le.mp hlt, if_true] at hcapped
      exact (le_max_right _ _).trans hcapped
    have heq := effectiveProjectTtl_eq_cappedBy hfloor
    refine ⟨hfloor, fun x hx => sameLifetime_iff.mpr ?_⟩
    rw [← heq]
    cases x with
    | none => exact h.absent hx
    | some m => exact h.given m hx
  · intro h
    have heq := effectiveProjectTtl_eq_cappedBy h.floor
    exact
      { capped := heq ▸ cappedBy_le _ _
        absent := fun hx => heq.trans (sameLifetime_iff.mp (h.asked none hx))
        given := fun m hx => heq.trans (sameLifetime_iff.mp (h.asked (some m) hx))
        legal := by
          rw [heq]
          cases takenSeconds ds with
          | none => exact hbase
          | some n => exact le_min hbase (le_max_of_le_right (by decide)) }

/-- A directive with a token argument and no spacing. -/
def tokenDirective (name argument : Str) (hname : IsToken name) (h : IsToken argument) :
    Directive where
  before := ⟨[], nofun⟩
  name := name
  isToken := hname
  argument := some (⟨[], nofun⟩, ⟨[], nofun⟩, .token argument h)
  after := ⟨[], nofun⟩

/-- Five minutes are kept. -/
theorem capsOnly_minutes :
    CapsOnly {} [tokenDirective "max-age".toList "300".toList (by decide) (by decide)] := by
  refine (capsOnly_iff {} (by decide) _).mpr ⟨.inl (by decide), fun x hx => ?_⟩
  cases x with
  | none => exact absurd rfl (hx _ List.mem_cons_self)
  | some m =>
    obtain ⟨d, hd, hm⟩ := hx
    obtain rfl := Option.some.inj hd
    obtain rfl : 300 = m := Option.some.inj hm
    exact .inr ⟨300, 300, rfl, rfl, rfl⟩

/-- A lifetime of three seconds becomes five by `max-age=0`, and another directive is taken for
`max-age`. -/
theorem not_capsOnly :
    ¬ CapsOnly { cacheProjectTtlSeconds := 3 }
        [tokenDirective "max-age".toList "0".toList (by decide) (by decide)] ∧
      ¬ CapsOnly {} [tokenDirective "x-max-age".toList "7".toList (by decide) (by decide)] := by
  constructor
  · exact fun h => absurd h.capped (by decide)
  · intro h
    have habsent :
        Asks [tokenDirective "x-max-age".toList "7".toList (by decide) (by decide)] none :=
      List.forall_mem_singleton.mpr (by decide)
    exact absurd (h.absent habsent) (by decide)

end ProxyCache.Theorems.MaxAge
