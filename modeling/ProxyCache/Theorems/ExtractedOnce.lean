import ProxyCache.Lib.Outline
import ProxyCache.Theorems.StoredMetadata

/-!
# Extracted once

Any number of resolutions of one artifact, in one process. Who extracts holds the URL's lock, and
nobody else writes while it is held. The failure marker and the stored metadata that a resolution
has not found before it extracts are therefore not there while it does, either.
-/

namespace ProxyCache.Theorems.ExtractedOnce

open ProxyCache.Lib ProxyCache.Python ProxyCache.Python.JsonText ProxyCache.App
open ProxyCache.Theorems.StoredMetadata ProxyCache.Theorems.JsonPassthrough

/-! ## The tasks -/

/-- A call of `_resolve_metadata_for_url`, for an artifact URL up to its query and fragment. Without
the hash of a wheel it is a recovery. -/
structure Resolution (url : Str) where
  fileUrl : Str
  wheelSha256 : Option Str
  allowExtraction : Bool
  checkNative : Bool
  sameUrl : normaliseArtifactUrl fileUrl = normaliseArtifactUrl url

variable (s : Site) (B : Backend) (url : Str)

/-- Resolutions in one process, over a cache with expiry and eviction that may hold anything at
first. -/
def resolutions : System Op Ret World (Resolution url) Resolved where
  toEffects := effects B fun _ _ _ => False
  prog r := resolveMetadataForUrl s 0 r.fileUrl r.wheelSha256 r.allowExtraction r.checkNative
  init w := ∀ lock, w.held lock = none
  env := Drift

/-- The task extracts, or waits for the permit to do so. -/
def Extracting {url : Str} (c : Config Op Ret World (Resolution url) Resolved) (t : ℕ)
    (r : Resolution url) : Prop :=
  ∃ artifactUrl k, c.task t = some (r, .call (.extractWheelMetadata artifactUrl) k)

/-- The metadata of an extraction is recorded for the URL, and live; and the resolution expects no
wheel or the recorded one. -/
def Recorded {url : Str} (r : Resolution url) (w : World) : Prop :=
  ∃ text wheelSha256, ValidWheel s wheelSha256 ∧ Published s r.fileUrl text wheelSha256 w ∧
    (r.wheelSha256 = none ∨
      ∃ wheel, wheelSha256.map (lower s.U) = some wheel ∧ r.wheelSha256 = some wheel)

/-! ## What a task relies on -/

def Holds (t : ℕ) (w : World) : Prop := w.held (0, metadataFillLockKey url) = some t

/-- Nothing is written. -/
def Shrinks (w w' : World) : Prop := ∀ key value, w'.get key = some value → w.get key = some value

/-- While the task holds the lock, it keeps it and nothing is written. -/
def Rely (t : ℕ) (w w' : World) : Prop := Holds url t w → Holds url t w' ∧ Shrinks w w'

/-- Where a resolution makes its calls. -/
def Pre {url : Str} (t : ℕ) (r : Resolution url) : Op → World → Prop
  | .extractWheelMetadata _, w =>
    Holds url t w ∧ w.get (metadataFailureKey s.U r.fileUrl r.wheelSha256) = none ∧ ¬ Recorded s r w
  | .setexMany _, w => Holds url t w
  | .setexManyIfUnchanged .., _ => False
  | .release lock, w => lock = (0, metadataFillLockKey url) ∧ Holds url t w
  | _, _ => True

/-- The outline of a part of a resolution. -/
abbrev Follows {url : Str} {α : Type} (t : ℕ) (r : Resolution url) (Q : α → World → Prop)
    (p : Program α)
    (w : World) : Prop :=
  (effects B fun _ _ _ => False).Outline (Rely url t) (Pre s t r) t Q p w

section Worlds

variable {s B url} {t u : ℕ} {w w' w'' : World} {r : Resolution url}

theorem Shrinks.refl : Shrinks w w := fun _ _ h => h

theorem Rely.trans (h : Rely url t w w') (h' : Rely url t w' w'') : Rely url t w w'' := by
  intro hholds
  obtain ⟨hholds', hshrinks⟩ := h hholds
  obtain ⟨hholds'', hshrinks'⟩ := h' hholds'
  exact ⟨hholds'', fun key value hget => hshrinks key value (hshrinks' key value hget)⟩

/-- A step that neither touches the locks nor writes. -/
theorem rely_of_held (hheld : w'.held = w.held) (hshrinks : Shrinks w w') : Rely url t w w' := by
  intro hholds
  exact ⟨(congrFun hheld _).trans hholds, hshrinks⟩

theorem rely_of_drift (h : Drift w w') : Rely url t w w' :=
  rely_of_held h.held fun _ _ hget => h.get hget

/-- Only one task holds the lock. -/
theorem Holds.unique (h : Holds url t w) (h' : Holds url u w) : t = u :=
  Option.some.inj (h.symm.trans h')

/-- What a resolution does at a call where it makes it leaves the others what they rely on. -/
theorem rely_of_pre {o : Op} {a : Ret o} (hne : u ≠ t) (hpre : Pre s t r o w)
    (hexec : exec B (fun _ _ _ => False) t o w a w') : Rely url u w w' := by
  cases o with
  | getMany | existsAny | ttl | ttlIfValues =>
    obtain ⟨-, rfl⟩ := hexec
    exact rely_of_held rfl Shrinks.refl
  | httpHead | extractWheelMetadata | suspend | unfinished | schedule =>
    obtain rfl : w' = w := hexec
    exact rely_of_held rfl Shrinks.refl
  | httpGet => exact absurd hexec.1 not_false
  | elapse =>
    obtain ⟨now, hnow, rfl⟩ := hexec
    exact rely_of_held rfl fun _ _ hget => World.get_of_elapse hnow hget
  | setexMany => exact fun hholds => absurd (hholds.unique hpre) hne
  | setexManyIfUnchanged => exact hpre.elim
  | release => exact fun hholds => absurd (hholds.unique hpre.2) hne
  | acquire lock =>
    obtain ⟨hfree, rfl⟩ := hexec
    intro hholds
    refine ⟨?_, Shrinks.refl⟩
    have hother : (0, metadataFillLockKey url) ≠ lock := by
      rintro rfl
      exact absurd (hfree.symm.trans hholds) nofun
    exact (Function.update_of_ne hother ..).trans hholds

/-- An assertion that holds on while nothing is written. -/
def Lasting (A : World → Prop) : Prop := ∀ w w', A w → Shrinks w w' → A w'

theorem Lasting.stable {A : World → Prop} (hA : Lasting A) :
    ∀ w w', Holds url t w ∧ A w → Rely url t w w' → Holds url t w' ∧ A w' := by
  rintro w w' ⟨hholds, h⟩ hrely
  obtain ⟨hholds', hshrinks⟩ := hrely hholds
  exact ⟨hholds', hA w w' h hshrinks⟩

/-- A key that is not read is not read later. -/
theorem lasting_get (key : Str) (found : Option Str) :
    Lasting fun w => ∀ value, w.get key = some value → found = some value :=
  fun _ _ h hshrinks value hget => h value (hshrinks key value hget)

theorem Lasting.and {A A' : World → Prop} (hA : Lasting A) (hA' : Lasting A') :
    Lasting fun w => A w ∧ A' w :=
  fun w w' h hshrinks => ⟨hA w w' h.1 hshrinks, hA' w w' h.2 hshrinks⟩

theorem lasting_true : Lasting fun _ => True := fun _ _ _ _ => trivial

theorem lasting_notRecorded (r : Resolution url) : Lasting fun w => ¬ Recorded s r w := by
  rintro w w' hnot hshrinks ⟨text, wheel, hvalid, ⟨hcontent, hrecord⟩, hexpected⟩
  exact hnot ⟨text, wheel, hvalid, ⟨hshrinks _ _ hcontent, hshrinks _ _ hrecord⟩, hexpected⟩

end Worlds

/-! ## Reading under the lock -/

section Reading

variable {s B url} {t : ℕ} {w : World} {r : Resolution url}

/-- The rule of a read under the lock: what is found there is all that can be found from then on. -/
theorem outline_cacheGet {α : Type} {A : World → Prop} {Q : α → World → Prop} {key : Str}
    {f : Option Str → Program α} (hA : Lasting A) (hholds : Holds url t w ∧ A w)
    (h : ∀ w found, Holds url t w ∧ A w ∧ (∀ value, w.get key = some value → found = some value) →
      Follows s B t r Q (f found) w) :
    Follows s B t r Q (cacheGet key >>= f) w := by
  refine Effects.outline_call hholds hA.stable (fun _ _ => trivial) ?_
  rintro w₁ values w₂ hholds₁ ⟨rfl, rfl⟩
  exact h w₂ (w₂.get key) ⟨hholds₁.1, hholds₁.2, fun value hget => hget⟩

/-- The content behind a record: if the content key is tried first, nothing else can be found there
from then on. -/
theorem outline_loadContent {A : World → Prop} {expected : Str} {wheelSha256 : Option Str}
    {contentFirst : Bool} (hA : Lasting A) (hholds : Holds url t w ∧ A w) :
    Follows s B t r
      (fun body w => Holds url t w ∧ A w ∧ (contentFirst = true → ∀ value,
        w.get (metadataContentKey s.U expected) = some value → body = some value))
      (loadContent s r.fileUrl expected wheelSha256 contentFirst) w := by
  -- the blob is read where there is no content, so that it is not in its place
  have hblob : ∀ (wheel : Str) (w : World), Holds url t w ∧ A w → (contentFirst = true → ∀ value,
      w.get (metadataContentKey s.U expected) ≠ some value) →
      Follows s B t r
        (fun body w => Holds url t w ∧ A w ∧ (contentFirst = true → ∀ value,
          w.get (metadataContentKey s.U expected) = some value → body = some value))
        (cacheGet (metadataBlobKey s.U r.fileUrl wheel)) w := by
    intro wheel w h hnone
    have hlasting : Lasting fun w => A w ∧ (contentFirst = true → ∀ value,
        w.get (metadataContentKey s.U expected) ≠ some value) := by
      rintro w w' ⟨hAw, hnone⟩ hshrinks
      exact ⟨hA w w' hAw hshrinks, fun hfirst value hget => hnone hfirst value
        (hshrinks _ _ hget)⟩
    refine outline_cacheGet (f := fun body => (pure body : Program (Option Str))) hlasting
      ⟨h.1, h.2, hnone⟩ ?_
    rintro w' found ⟨hholds', ⟨hAw', hnone'⟩, -⟩
    exact ⟨hholds', hAw', fun hfirst value hget => absurd hget (hnone' hfirst value)⟩
  unfold loadContent
  cases contentFirst with
  | true =>
    refine outline_cacheGet hA hholds fun w found hfound => ?_
    dsimp only
    split
    · refine hblob _ w ⟨hfound.1, hfound.2.1⟩ fun _ value hget => ?_
      cases hfound.2.2 value hget
    · exact ⟨hfound.1, hfound.2.1, fun _ => hfound.2.2⟩
  | false =>
    cases wheelSha256 with
    | none => exact ⟨hholds.1, hholds.2, fun h => by cases h⟩
    | some wheel => exact hblob wheel w hholds fun h => by cases h

/-- What is recorded is read back. -/
theorem read_of_recorded {F : FloatRepr} {s : Site} {r : Resolution url} {raw : Str}
    (h : Recorded (jsonSite F s) r w)
    (hraw : ∀ value, w.get (metadataUrlKey r.fileUrl) = some value → some raw = some value) :
    ∃ text record wheelSha256,
      recordDigest ((jsonSite F s).D.loads raw) = .ok (some (record, sha256Hex (utf8 text))) ∧
      recordSource record r.wheelSha256 = some (wheelSha256, true) ∧
      w.get (metadataContentKey (jsonSite F s).U (sha256Hex (utf8 text))) = some text := by
  obtain ⟨text, wheelSha256, hvalid, ⟨hcontent, hrecord⟩, hexpected⟩ := h
  obtain rfl := Option.some.inj (hraw _ hrecord)
  refine ⟨text, recordMembers (sha256Hex (utf8 text)) (wheelSha256.map (lower (jsonSite F s).U)),
    wheelSha256.map (lower (jsonSite F s).U), ?_, ?_, hcontent⟩
  · rw [loads_record, recordDigest_members, if_pos (isSha256_sha256Hex _)]
  · exact recordSource_published hvalid hexpected

/-- A load under the lock that finds nothing: nothing is recorded, from then on. -/
theorem outline_loadMetadataForUrl {F : FloatRepr} {s : Site} {r : Resolution url}
    (hholds : Holds url t w) :
    Follows (jsonSite F s) B t r
      (fun a w => Holds url t w ∧ (a = .ok none → ¬ Recorded (jsonSite F s) r w))
      (loadMetadataForUrl (jsonSite F s) r.fileUrl r.wheelSha256) w := by
  unfold loadMetadataForUrl
  refine outline_cacheGet lasting_true ⟨hholds, trivial⟩ fun w found hfound => ?_
  obtain ⟨hholds, -, hraw⟩ := hfound
  cases found with
  | none =>
    refine ⟨hholds, fun _ => ?_⟩
    rintro ⟨_, _, _, ⟨-, hrecord⟩, _⟩
    exact absurd (hraw _ hrecord) nofun
  | some raw =>
    dsimp only
    split
    · exact ⟨hholds, nofun⟩
    · next hnone =>
      refine ⟨hholds, fun _ hrecorded => ?_⟩
      obtain ⟨text, record, wheelSha256, hdigest, -⟩ := read_of_recorded hrecorded hraw
      cases hdigest.symm.trans hnone
    · next record expected hsome =>
      split
      · next hnone =>
        refine ⟨hholds, fun _ hrecorded => ?_⟩
        obtain ⟨text, record', wheelSha256, hdigest, hsource, -⟩ := read_of_recorded hrecorded hraw
        obtain ⟨rfl, -⟩ := Prod.mk.inj (Option.some.inj (Except.ok.inj (hdigest.symm.trans hsome)))
        cases hsource.symm.trans hnone
      · next wheelSha256 contentFirst hsource =>
        -- if something is recorded, then it is what has been read
        have hsame : ∀ w, (∀ value, w.get (metadataUrlKey r.fileUrl) = some value →
          some raw = some value) →
            Recorded (jsonSite F s) r w → contentFirst = true ∧
            ∃ text, sha256Hex (utf8 text) = expected ∧
              w.get (metadataContentKey (jsonSite F s).U expected) = some text := by
          intro w hraw hrecorded
          obtain ⟨text, record', wheel, hdigest, hsource', hcontent⟩ :=
            read_of_recorded hrecorded hraw
          obtain ⟨rfl, rfl⟩ := Prod.mk.inj (Option.some.inj
            (Except.ok.inj (hdigest.symm.trans hsome)))
          obtain ⟨-, hfirst⟩ := Prod.mk.inj (Option.some.inj (hsource'.symm.trans hsource))
          exact ⟨hfirst.symm, text, rfl, hcontent⟩
        refine Effects.outline_bind.mpr (Effects.outline_mono
          (outline_loadContent (lasting_get _ (some raw)) ⟨hholds, hraw⟩) ?_)
        rintro body w ⟨hholds, hraw, hbody⟩
        cases body with
        | none =>
          refine ⟨hholds, fun _ hrecorded => ?_⟩
          obtain ⟨hfirst, text, -, hcontent⟩ := hsame w hraw hrecorded
          cases hbody hfirst text hcontent
        | some body =>
          refine ⟨hholds, fun hnone hrecorded => ?_⟩
          obtain ⟨hfirst, text, hdigest, hcontent⟩ := hsame w hraw hrecorded
          obtain rfl := Option.some.inj (hbody hfirst text hcontent)
          rw [if_pos hdigest] at hnone
          cases Except.ok.inj hnone

end Reading

/-! ## Extracting under the lock -/

section Extracting

variable {s B url} {t : ℕ} {w : World} {r : Resolution url}

theorem holds_stable : ∀ w w', Holds url t w → Rely url t w w' → Holds url t w' :=
  fun _ _ hholds hrely => (hrely hholds).1

/-- The rule of a part that only writes. -/
theorem outline_writes {α : Type} {p : Program α}
    (hp : p.Calls fun o => ∃ values, o = .setexMany values)
    (hholds : Holds url t w) : Follows s B t r (fun _ => Holds url t) p w := by
  refine Effects.outline_of_calls hholds hp holds_stable ?_ ?_
  · rintro o w ⟨values, rfl⟩ hholds
    exact hholds
  · rintro o w a w' ⟨values, rfl⟩ hholds rfl
    exact hholds

theorem storeMetadataContent_writes (fileUrl text : Str) (wheelSha256 : Option Str) :
    (storeMetadataContent s fileUrl text wheelSha256).Calls fun o =>
      ∃ values, o = .setexMany values := by
  refine (storeMetadataContent_calls s fileUrl text wheelSha256).mono fun o ho => ?_
  obtain ⟨x, -, rfl⟩ := ho
  exact ⟨[x], rfl⟩

theorem extractionFailed_writes (artifactUrl failureKey : Str) :
    (extractionFailed s artifactUrl failureKey).Calls fun o => ∃ values, o = .setexMany values := by
  unfold extractionFailed
  split
  · trivial
  · exact ⟨⟨_, rfl⟩, fun _ => trivial⟩

/-- The extraction starts where neither the marker nor the metadata is there. -/
theorem outline_extractMissing (hholds : Holds url t w) (hnot : ¬ Recorded s r w) :
    Follows s B t r (fun _ => Holds url t)
      (extractMissing s r.fileUrl r.wheelSha256 r.allowExtraction) w := by
  unfold extractMissing
  split
  · exact hholds
  refine outline_cacheGet (lasting_notRecorded r) ⟨hholds, hnot⟩ fun w found hfound => ?_
  obtain ⟨hholds, hnot, hmarker⟩ := hfound
  cases found with
  | some _ => exact hholds
  | none =>
    dsimp only
    split
    · exact hholds
    · exact hholds
    refine Effects.outline_call (A := fun w => Holds url t w ∧ ((¬ Recorded s r w) ∧
      ∀ value, w.get (metadataFailureKey s.U r.fileUrl r.wheelSha256) = some value →
      none = some value))
      ⟨hholds, hnot, hmarker⟩ ((lasting_notRecorded r).and (lasting_get _ none)).stable ?_ ?_
    · rintro w ⟨hholds, hnot, hmarker⟩
      refine ⟨hholds, Option.eq_none_iff_forall_ne_some.mpr fun value hget => ?_, hnot⟩
      exact absurd (hmarker value hget) nofun
    · rintro w₁ content w₂ ⟨hholds, -⟩ rfl
      cases content with
      | none => exact outline_writes (extractionFailed_writes _ _) hholds
      | some text =>
        refine Effects.outline_bind.mpr (Effects.outline_mono
          (outline_writes (storeMetadataContent_writes r.fileUrl text r.wheelSha256) hholds) ?_)
        intro stored w hholds
        cases stored with
        | error _ => exact outline_writes (extractionFailed_writes _ _) hholds
        | ok stored => exact hholds

theorem outline_checkNativeThenExtract (hholds : Holds url t w) (hnot : ¬ Recorded s r w) :
    Follows s B t r (fun _ => Holds url t)
      (checkNativeThenExtract s r.fileUrl r.wheelSha256 r.allowExtraction) w := by
  unfold checkNativeThenExtract
  split
  · exact hholds
  · exact hholds
  refine Effects.outline_call (A := fun w => Holds url t w ∧ ¬ Recorded s r w) ⟨hholds, hnot⟩
    (lasting_notRecorded r).stable (fun _ _ => trivial) ?_
  rintro w₁ status w₂ ⟨hholds, hnot⟩ rfl
  split
  · split
    · exact hholds
    · exact outline_extractMissing hholds hnot
  · split
    · exact hholds
    · exact outline_extractMissing hholds hnot

theorem outline_resolveMissing {F : FloatRepr} (hholds : Holds url t w) :
    Follows (jsonSite F s) B t r (fun _ => Holds url t)
      (resolveMissing (jsonSite F s) r.fileUrl r.wheelSha256 r.allowExtraction
        r.checkNative) w := by
  unfold resolveMissing
  refine Effects.outline_bind.mpr (Effects.outline_mono (outline_loadMetadataForUrl hholds) ?_)
  rintro stored w ⟨hholds, hnot⟩
  match stored with
  | .error _ => exact hholds
  | .ok (some _) => exact hholds
  | .ok none =>
    dsimp only
    split
    · exact outline_checkNativeThenExtract hholds (hnot rfl)
    · exact outline_extractMissing hholds (hnot rfl)

end Extracting

/-! ## The resolution -/

section Resolutions

variable {s B url} {t : ℕ} {w : World}

/-- All resolutions take one lock. -/
theorem lock_of_resolution (r : Resolution url) :
    metadataFillLockKey r.fileUrl = metadataFillLockKey url := by
  unfold metadataFillLockKey artifactUrlDigest
  rw [r.sameUrl]

theorem outline_resolveMetadataForUrl {F : FloatRepr} (r : Resolution url) :
    Follows (jsonSite F s) B t r (fun _ _ => True)
      (resolveMetadataForUrl (jsonSite F s) 0 r.fileUrl r.wheelSha256 r.allowExtraction
        r.checkNative)
      w := by
  unfold resolveMetadataForUrl
  -- the load before the lock is taken
  refine Effects.outline_bind.mpr
    (Effects.outline_mono (Effects.outline_of_calls (A := fun _ => True) trivial
    (loadMetadataForUrl_calls (jsonSite F s) r.fileUrl r.wheelSha256) (fun _ _ _ _ => trivial) ?_
    fun _ _ _ _ _ _ _ => trivial) ?_)
  · rintro o w ⟨key, rfl⟩ -
    trivial
  rintro stored w -
  match stored with
  | .error _ => trivial
  | .ok (some _) => trivial
  | .ok none =>
    dsimp only
    unfold withLock
    rw [lock_of_resolution r]
    refine Effects.outline_call (A := fun _ => True) trivial (fun _ _ _ _ => trivial)
      (fun _ _ => trivial) ?_
    rintro w₁ _ w₂ - ⟨-, rfl⟩
    have hholds : Holds url t (w₁.setHeld (0, metadataFillLockKey url) (some t)) :=
      Function.update_self ..
    refine Effects.outline_bind.mpr (Effects.outline_mono (outline_resolveMissing hholds) ?_)
    intro a w hholds
    refine Effects.outline_call hholds holds_stable (fun _ hholds => ⟨rfl, hholds⟩) ?_
    intro _ _ _ _ _
    trivial

/-- The outlines of all resolutions. -/
def outlines (F : FloatRepr) (s : Site) (B : Backend) (url : Str) :
    Outlines (resolutions (jsonSite F s) B url) where
  rely t _ := Rely url t
  pre t r := Pre (jsonSite F s) t r
  rely_refl _ _ _ := fun hholds => ⟨hholds, Shrinks.refl⟩
  rely_trans _ _ _ _ _ := Rely.trans
  env _ _ _ _ := rely_of_drift
  others _ _ _ _ _ _ _ _ := rely_of_pre
  start _ r _ := outline_resolveMetadataForUrl r

/-- **Extracted once.** At every point of every interleaving: at most one of the resolutions
extracts; where one does, its failure marker is not there, and neither is metadata that it could
have taken. -/
theorem extracted_once {F : FloatRepr} {s : Site} {B : Backend} {url : Str}
    {c : Config Op Ret World (Resolution url) Resolved}
    (h : (resolutions (jsonSite F s) B url).Reachable c) :
    (∀ t u r r', Extracting c t r → Extracting c u r' → t = u) ∧
    ∀ t r, Extracting c t r →
      c.world.get (metadataFailureKey s.U r.fileUrl r.wheelSha256) = none ∧
      ¬ Recorded (jsonSite F s) r c.world := by
  have hpre : ∀ t r, Extracting c t r →
      Holds url t c.world ∧ c.world.get (metadataFailureKey s.U r.fileUrl r.wheelSha256) = none ∧
        ¬ Recorded (jsonSite F s) r c.world := by
    rintro t r ⟨artifactUrl, k, htask⟩
    exact (outlines F s B url).sound h htask
  constructor
  · intro t u r r' hextracting hextracting'
    exact (hpre t r hextracting).1.unique (hpre u r' hextracting').1
  · intro t r hextracting
    exact (hpre t r hextracting).2

/-! ## A recovery -/

/-- Nobody has stored the metadata of the wheel: its recovery, and a second one that may only
look. -/
def demoResolution (allowExtraction : Bool) : Resolution demoUrl where
  fileUrl := demoUrl
  wheelSha256 := none
  allowExtraction := allowExtraction
  checkNative := false
  sameUrl := rfl

abbrev demoResolutions : System Op Ret World (Resolution demoUrl) Resolved :=
  resolutions (jsonSite noFloat demoSite) .memory demoUrl

def recoveryDriver : Driver demoResolutions Unit where
  respond
    | _, _, .getMany keys, w => some (keys.map w.get, w)
    | _, t, .acquire lock, w =>
      if w.held lock = none then some ((), w.setHeld lock (some t)) else none
    | _, _, _, _ => none
  drift _ _ := none
  respond_sound {_ t o w r w'} h := by
    cases o with
    | getMany keys =>
      obtain ⟨rfl, rfl⟩ := Prod.mk.inj (Option.some.inj h)
      exact ⟨rfl, rfl⟩
    | acquire lock =>
      dsimp only at h
      split at h
      · next hfree =>
        obtain ⟨-, rfl⟩ := Prod.mk.inj (Option.some.inj h)
        exact ⟨hfree, rfl⟩
      · cases h
    | _ => cases h
  drift_sound h := by cases h

/-- The second task waits for the lock while the first one extracts. -/
def racing : List (Move (Resolution demoUrl) Unit) :=
  [.start 0 (demoResolution true) (), .start 1 (demoResolution false) (), .call 0 ()]

/-- The wheel that a task extracts. -/
def extracts (c : Config Op Ret World (Resolution demoUrl) Resolved) (t : ℕ) : Option Str :=
  match c.task t with
  | some (_, .call (.extractWheelMetadata artifactUrl) _) => some artifactUrl
  | _ => none

theorem extracting_of_extracts {c : Config Op Ret World (Resolution demoUrl) Resolved} {t : ℕ}
    (h : (extracts c t).isSome = true) : ∃ r, Extracting c t r := by
  unfold extracts at h
  split at h
  · next r artifactUrl k htask => exact ⟨r, artifactUrl, k, htask⟩
  · cases h

theorem racing_extracts :
    (recoveryDriver.replay racing (Driver.boot emptyWorld)).any (fun c => (extracts c 0).isSome) =
      true := by
  decide +kernel

theorem extracted_once_racing : ∃ c r, demoResolutions.Reachable c ∧ Extracting c 0 r ∧
    c.world.get (metadataFailureKey demoSite.U r.fileUrl r.wheelSha256) = none ∧
    ¬ Recorded (jsonSite noFloat demoSite) r c.world := by
  obtain ⟨c, hreplay, hextracts⟩ := (Option.any_eq_true _ _).mp racing_extracts
  obtain ⟨r, hextracting⟩ := extracting_of_extracts hextracts
  have hreach : demoResolutions.Reachable c := (Driver.replay_boot (fun _ => rfl) hreplay).1
  obtain ⟨hmarker, hnot⟩ := (extracted_once hreach).2 0 r hextracting
  exact ⟨c, r, hreach, hextracting, hmarker, hnot⟩

end Resolutions

end ProxyCache.Theorems.ExtractedOnce
