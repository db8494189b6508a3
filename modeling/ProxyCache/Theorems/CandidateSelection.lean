import ProxyCache.App.Metadata
import ProxyCache.Lib.StableSort

/-!
# Which wheels are extracted (`_extraction_candidate_indexes`)

The pass over the files collects one item for each eligible file; sorting these is stable,
so the selected indexes are the first ones by version, newest first, and then by position.
-/

namespace ProxyCache.App

open ProxyCache.Lib ProxyCache.Python

variable {s : Site} {files : List File}

/-! ## The eligible files -/

/-- The version of a file that is eligible: it needs a probe and has a valid wheel filename. -/
def eligibleVersion (s : Site) (f : File) : Option s.packaging.Version :=
  match f.filename with
  | .str name =>
    if needsProbe f && (".whl" : Str).isSuffixOf (lower s.U name) then
      match s.packaging.parseWheelFilename name with
      | .ok (_, version) => some version
      | .error _ => none
    else none
  | _ => none

/-- File `i` is eligible, with version `v`. -/
def Eligible (s : Site) (files : List File) (v : s.packaging.Version) (i : ℕ) : Prop :=
  ∃ f, files[i]? = some f ∧ eligibleVersion s f = some v

/-- The filename is a string and, if it is that of a wheel, has no number that is too long. -/
def NameReadable (s : Site) (f : File) : Prop :=
  ∃ name, f.filename = .str name ∧ ((".whl" : Str).isSuffixOf (lower s.U name) = true →
    s.packaging.parseWheelFilename name ≠ .error .valueError)

/-- Every file that needs a probe has a filename that can be read. -/
def NamesReadable (s : Site) (files : List File) : Prop :=
  ∀ f ∈ files, needsProbe f = true → NameReadable s f

/-- Newer versions come first, and files of one version by position. -/
def Before (a b : s.packaging.Version × ℕ) : Prop := b.1 < a.1 ∨ (a.1 = b.1 ∧ a.2 < b.2)

instance : Std.Irrefl (Before (s := s)) where
  irrefl a h := by
    rcases h with h | ⟨-, h⟩
    · exact lt_irrefl _ h
    · exact lt_irrefl _ h

instance : Std.Antisymm (Before (s := s)) where
  antisymm a b hab hba := by
    rcases hab with h | ⟨heq, h⟩ <;> rcases hba with h' | ⟨heq', h'⟩
    · exact absurd h' (lt_asymm h)
    · exact absurd h (heq' ▸ lt_irrefl _)
    · exact absurd h' (heq ▸ lt_irrefl _)
    · exact absurd h' (lt_asymm h)

/-! ## The pass over the files -/

/-- The items for the eligible files, in file order. -/
def eligibleItems (s : Site) (start : ℕ) (files : List File) :
    List (s.packaging.Version × ℕ) :=
  (files.zipIdx start).filterMap fun item => (eligibleVersion s item.1).map (·, item.2)

theorem eligibleItems_cons (start : ℕ) (f : File) :
    eligibleItems s start (f :: files) =
      ((eligibleVersion s f).map (·, start)).toList ++ eligibleItems s (start + 1) files := by
  unfold eligibleItems
  rw [List.zipIdx_cons, List.filterMap_cons]
  cases eligibleVersion s f <;> rfl

theorem mem_eligibleItems {v : s.packaging.Version} {i : ℕ} :
    (v, i) ∈ eligibleItems s 0 files ↔ Eligible s files v i := by
  unfold eligibleItems Eligible
  rw [List.mem_filterMap]
  constructor
  · rintro ⟨⟨f, j⟩, hmem, hv⟩
    obtain ⟨w, hw, heq⟩ := Option.map_eq_some_iff.mp hv
    obtain ⟨rfl, rfl⟩ := Prod.mk.inj heq
    exact ⟨f, List.mk_mem_zipIdx_iff_getElem?.mp hmem, hw⟩
  · rintro ⟨f, hf, hv⟩
    exact ⟨(f, i), List.mk_mem_zipIdx_iff_getElem?.mpr hf, by rw [hv]; rfl⟩

theorem start_le_of_mem_eligibleItems {start : ℕ} {a : s.packaging.Version × ℕ}
    (h : a ∈ eligibleItems s start files) : start ≤ a.2 := by
  obtain ⟨⟨f, j⟩, hmem, hv⟩ := List.mem_filterMap.mp h
  obtain ⟨w, -, rfl⟩ := Option.map_eq_some_iff.mp hv
  exact (List.mem_zipIdx hmem).1

/-- The items stand in the order of their positions. -/
theorem pairwise_eligibleItems (start : ℕ) :
    (eligibleItems s start files).Pairwise fun a b => a.2 < b.2 := by
  induction files generalizing start with
  | nil => exact List.Pairwise.nil
  | cons f files ih =>
    rw [eligibleItems_cons]
    cases eligibleVersion s f with
    | none => exact ih (start + 1)
    | some v =>
      refine List.pairwise_cons.mpr ⟨fun b hb => ?_, ih (start + 1)⟩
      exact start_le_of_mem_eligibleItems hb

theorem isWheelName_of_str {f : File} {name : Str} (h : f.filename = .str name) :
    isWheelName s f = .ok ((".whl" : Str).isSuffixOf (lower s.U name)) := by
  unfold isWheelName
  rw [h]
  rfl

/-- A file that is not eligible is passed over. -/
theorem rankedFiles_cons_of_none {start : ℕ} {f : File} (hv : eligibleVersion s f = none)
    (hname : needsProbe f = true → NameReadable s f) :
    rankedFiles s start (f :: files) = rankedFiles s (start + 1) files := by
  rw [rankedFiles]
  by_cases hneeds : needsProbe f = true
  · obtain ⟨name, hname, hparses⟩ := hname hneeds
    rw [isWheelName_of_str hname, hname, hneeds]
    simp only [eligibleVersion, hname, hneeds, Bool.true_and] at hv
    split at hv
    · next hwhl =>
      rw [hwhl]
      cases hparse : s.packaging.parseWheelFilename name with
      | ok parsed =>
        rw [hparse] at hv
        cases hv
      | error e =>
        cases e with
        | invalid =>
          simp only [Json.asStr_str, bind, Except.bind, hparse]
          rfl
        | valueError => exact absurd hparse (hparses hwhl)
    · next hwhl =>
      rw [Bool.eq_false_of_not_eq_true hwhl]
      rfl
  · rw [if_pos (by simpa using hneeds)]

/-- An eligible file is collected. -/
theorem rankedFiles_cons_of_some {start : ℕ} {f : File} {v : s.packaging.Version}
    (hv : eligibleVersion s f = some v) :
    rankedFiles s start (f :: files) = ((v, start) :: ·) <$> rankedFiles s (start + 1) files := by
  unfold eligibleVersion at hv
  split at hv
  · next name hname =>
    split at hv
    · next hcond =>
      obtain ⟨hneeds, hwhl⟩ := Bool.and_eq_true_iff.mp hcond
      split at hv
      · next distribution version hparse =>
        obtain rfl := Option.some.inj hv
        rw [rankedFiles, isWheelName_of_str hname, hname, hneeds, hwhl]
        simp only [Json.asStr_str, bind, Except.bind, hparse]
        cases rankedFiles s (start + 1) files <;> rfl
      · cases hv
    · cases hv
  · cases hv

/-- A name that cannot be read stops the pass. -/
theorem rankedFiles_cons_of_not_readable {start : ℕ} {f : File} (hneeds : needsProbe f = true)
    (hname : ¬ NameReadable s f) {ranked : List (s.packaging.Version × ℕ)} :
    rankedFiles s start (f :: files) ≠ .ok ranked := by
  by_cases hstr : ∃ name, f.filename = .str name
  · -- the name of a wheel with a number that is too long
    obtain ⟨name, hstr⟩ := hstr
    obtain ⟨hwhl, hparse⟩ : (".whl" : Str).isSuffixOf (lower s.U name) = true ∧
        s.packaging.parseWheelFilename name = .error .valueError := by
      by_contra hnot
      exact hname ⟨name, hstr, fun hwhl hparse => hnot ⟨hwhl, hparse⟩⟩
    rw [rankedFiles, isWheelName_of_str hstr, hstr, hneeds, hwhl]
    simp only [Json.asStr_str, bind, Except.bind, hparse]
    rintro ⟨⟩
  · have hraises : f.filename.asStr = .error .attributeError := by
      cases hf : f.filename with
      | str name => exact absurd ⟨name, hf⟩ hstr
      | _ => rfl
    rw [rankedFiles, isWheelName, hraises, hneeds]
    rintro ⟨⟩

/-- The pass fails only at a name that cannot be read, and collects the eligible files else. -/
theorem rankedFiles_eq_ok_iff {start : ℕ} {ranked : List (s.packaging.Version × ℕ)} :
    rankedFiles s start files = .ok ranked ↔
      NamesReadable s files ∧ ranked = eligibleItems s start files := by
  induction files generalizing start ranked with
  | nil =>
    constructor
    · intro h
      exact ⟨fun f hf => absurd hf List.not_mem_nil, (Except.ok.inj h).symm⟩
    · rintro ⟨-, rfl⟩
      rfl
  | cons f files ih =>
    rw [eligibleItems_cons, NamesReadable, List.forall_mem_cons]
    by_cases hname : needsProbe f = true → NameReadable s f
    · rw [and_iff_right hname]
      cases hv : eligibleVersion s f with
      | none =>
        rw [rankedFiles_cons_of_none hv hname]
        exact ih
      | some v =>
        rw [rankedFiles_cons_of_some hv]
        constructor
        · intro h
          cases hrest : rankedFiles s (start + 1) files with
          | error e =>
            rw [hrest] at h
            cases h
          | ok rest =>
            rw [hrest] at h
            obtain ⟨hnames, rfl⟩ := ih.mp hrest
            exact ⟨hnames, (Except.ok.inj h).symm⟩
        · rintro ⟨hnames, rfl⟩
          rw [ih.mpr ⟨hnames, rfl⟩]
          rfl
    · obtain ⟨hneeds, hnot⟩ := Classical.not_imp.mp hname
      constructor
      · exact fun h => absurd h (rankedFiles_cons_of_not_readable hneeds hnot)
      · exact fun h => absurd h.1.1 hname

/-! ## The order of the selection -/

theorem mem_newestFirst {ranked : List (s.packaging.Version × ℕ)} {a : s.packaging.Version × ℕ} :
    a ∈ newestFirst s ranked ↔ a ∈ ranked :=
  List.mem_insertionSort _

theorem pairwise_newestFirst {ranked : List (s.packaging.Version × ℕ)}
    (h : ranked.Pairwise fun a b => a.2 < b.2) : (newestFirst s ranked).Pairwise Before := by
  have htotal : Std.Total fun a b : s.packaging.Version × ℕ => b.1 ≤ a.1 :=
    ⟨fun a b => le_total b.1 a.1⟩
  have htrans : IsTrans (s.packaging.Version × ℕ) fun a b => b.1 ≤ a.1 :=
    ⟨fun a b c hab hbc => hbc.trans hab⟩
  refine (pairwise_insertionSort_stably h).imp fun {a b} hab => ?_
  rcases lt_or_eq_of_le hab.1 with hlt | heq
  · exact .inl hlt
  · exact .inr ⟨heq.symm, hab.2 heq.ge⟩

/-! ## The selection -/

/-- `indexes` are the positions of the first `n` of `ordered`, and `ordered` lists the eligible
files: by version, newest first, and files of one version by position. -/
structure StableTop (s : Site) (files : List File) (n : ℕ)
    (ordered : List (s.packaging.Version × ℕ)) (indexes : List ℕ) : Prop where
  eligible : ∀ v i, (v, i) ∈ ordered ↔ Eligible s files v i
  order : ordered.Pairwise Before
  selected : ∀ i, i ∈ indexes ↔ i ∈ (ordered.take n).map Prod.snd
  ascending : indexes.Pairwise (· < ·)
  length : indexes.length = min n ordered.length
  /-- What is selected stands before what is not. -/
  excluded : ∀ v i w j, Eligible s files v i → i ∈ indexes → Eligible s files w j → j ∉ indexes →
    Before (v, i) (w, j)

theorem Eligible.unique {v w : s.packaging.Version} {i : ℕ} (hv : Eligible s files v i)
    (hw : Eligible s files w i) : v = w := by
  obtain ⟨f, hf, hv⟩ := hv
  obtain ⟨g, hg, hw⟩ := hw
  obtain rfl := Option.some.inj (hf.symm.trans hg)
  exact Option.some.inj (hv.symm.trans hw)

/-- The positions of the eligible files differ, in any order. -/
theorem nodup_newestFirst : ((newestFirst s (eligibleItems s 0 files)).map Prod.snd).Nodup := by
  have hitems : ((eligibleItems s 0 files).map Prod.snd).Nodup :=
    List.pairwise_map.mpr ((pairwise_eligibleItems 0).imp fun h => h.ne)
  exact ((List.perm_insertionSort _ _).map Prod.snd).nodup_iff.mpr hitems

/-- The first `n` of the sorted items, as a set of positions. -/
theorem stableTop_newestFirst (n : ℕ) :
    StableTop s files n (newestFirst s (eligibleItems s 0 files))
      ((((newestFirst s (eligibleItems s 0 files)).take n).map (·.2)).insertionSort (· ≤ ·)) where
  eligible v i := mem_newestFirst.trans mem_eligibleItems
  order := pairwise_newestFirst (pairwise_eligibleItems 0)
  selected i := List.mem_insertionSort _
  ascending := by
    have hnodup : (((newestFirst s (eligibleItems s 0 files)).take n).map Prod.snd).Nodup :=
      nodup_newestFirst.sublist ((List.take_sublist n _).map Prod.snd)
    have hle := List.pairwise_insertionSort (· ≤ ·)
      (((newestFirst s (eligibleItems s 0 files)).take n).map Prod.snd)
    refine (hle.and ((List.perm_insertionSort _ _).nodup_iff.mpr hnodup)).imp fun h => ?_
    exact lt_of_le_of_ne h.1 h.2
  length := by
    rw [List.length_insertionSort, List.length_map, List.length_take]
  excluded v i w j hv hi hw hj := by
    have horder : (newestFirst s (eligibleItems s 0 files)).Pairwise Before :=
      pairwise_newestFirst (pairwise_eligibleItems 0)
    obtain ⟨⟨v', i'⟩, hmem, rfl⟩ := List.mem_map.mp ((List.mem_insertionSort _).mp hi)
    have hv' := mem_eligibleItems.mp (mem_newestFirst.mp (List.mem_of_mem_take hmem))
    obtain rfl := hv'.unique hv
    refine rel_take_of_not_mem horder hmem (mem_newestFirst.mpr (mem_eligibleItems.mpr hw)) ?_
    exact fun hin => hj ((List.mem_insertionSort _).mpr (List.mem_map_of_mem hin))

/-- The conditions leave one selection. -/
theorem StableTop.unique {n : ℕ} {ordered ordered' : List (s.packaging.Version × ℕ)}
    {indexes indexes' : List ℕ} (h : StableTop s files n ordered indexes)
    (h' : StableTop s files n ordered' indexes') : indexes = indexes' := by
  have hordered : ordered = ordered' :=
    h.order.eq_of_mem_iff h'.order fun a => (h.eligible a.1 a.2).trans (h'.eligible a.1 a.2).symm
  subst hordered
  exact h.ascending.eq_of_mem_iff h'.ascending fun i => (h.selected i).trans (h'.selected i).symm

/-- What is returned, when something is. -/
theorem candidates_eq_ok_iff (s : Site) (files : List File) (indexes : List ℕ) :
    extractionCandidateIndexes s files = .ok indexes ↔
      NamesReadable s files ∧
        ∃ ordered, StableTop s files (max 0 s.settings.metadataMaxExtractFilesPerProject).toNat
          ordered indexes := by
  have hlimit : (max 0 s.settings.metadataMaxExtractFilesPerProject).toNat =
      s.settings.metadataMaxExtractFilesPerProject.toNat := by omega
  rw [hlimit]
  unfold extractionCandidateIndexes
  constructor
  · intro h
    cases hranked : rankedFiles s 0 files with
    | error e =>
      rw [hranked] at h
      cases h
    | ok ranked =>
      rw [hranked] at h
      obtain ⟨hnames, rfl⟩ := rankedFiles_eq_ok_iff.mp hranked
      obtain rfl := Except.ok.inj h
      exact ⟨hnames, _, stableTop_newestFirst _⟩
  · rintro ⟨hnames, ordered, htop⟩
    rw [rankedFiles_eq_ok_iff.mpr ⟨hnames, rfl⟩, htop.unique (stableTop_newestFirst _)]
    rfl

/-- The selection returns the positions of the stable top. -/
def SelectsTop (s : Site) (files : List File) : Prop :=
  ∃ indexes ordered, extractionCandidateIndexes s files = .ok indexes ∧
    StableTop s files (max 0 s.settings.metadataMaxExtractFilesPerProject).toNat ordered indexes

/-- **The candidates are the stable top `n`**: the first `n` eligible files by version, newest
first, and by position among equal versions. They are returned exactly if every filename can be
read. -/
theorem selectsTop_iff (s : Site) (files : List File) :
    SelectsTop s files ↔ NamesReadable s files := by
  constructor
  · rintro ⟨indexes, ordered, hindexes, -⟩
    exact ((candidates_eq_ok_iff s files indexes).mp hindexes).1
  · intro hnames
    have htop : StableTop s files _ _ _ :=
      stableTop_newestFirst (max 0 s.settings.metadataMaxExtractFilesPerProject).toNat
    exact ⟨_, _, (candidates_eq_ok_iff s files _).mpr ⟨hnames, _, htop⟩, htop⟩

/-! ## A release that is too long -/

/-- A site without documents. -/
def releaseSite : Site where
  U := asciiOnly
  D := ⟨fun _ => .error .valueError, fun _ => .error .valueError, fun _ => [], fun _ => [],
    fun _ => [], fun _ => .ok [], fun text _ => text⟩
  float _ := none
  packaging := plainReleases
  settings := {}

/-- A wheel whose release has 4301 digits. -/
def longName : Str := ("one-" : Str) ++ List.replicate 4301 '9' ++ ("-py3-none-any.whl" : Str)

/-- The other wheel is not selected either. -/
def longFiles : List File :=
  [{ filename := .str ("one-1.0-py3-none-any.whl" : Str), url := .str [] },
    { filename := .str longName, url := .str [] }]

/-- What `int` refuses is not caught: nothing is returned. -/
theorem not_selectsTop_longName : ¬ ∀ (s : Site) (files : List File), SelectsTop s files := by
  intro h
  obtain ⟨indexes, ordered, hindexes, -⟩ := h releaseSite longFiles
  have hnames := ((candidates_eq_ok_iff releaseSite longFiles indexes).mp hindexes).1
  obtain ⟨name, hname, hparses⟩ := hnames _ (List.mem_cons_of_mem _ List.mem_cons_self) rfl
  obtain rfl := Json.str.inj hname
  have hwhl : (".whl" : Str).isSuffixOf (lower releaseSite.U longName) = true := by decide +kernel
  have hlong : releaseSite.packaging.parseWheelFilename longName = .error .valueError := by
    decide +kernel
  exact hparses hwhl hlong

end ProxyCache.App
