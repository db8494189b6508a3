import ProxyCache.App.Systems
import ProxyCache.Theorems.JsonPassthrough
import ProxyCache.Theorems.KeySeparation

/-!
# Stored metadata

Stores and loads of generated metadata, interleaved write by write. A load returns
nothing, or the content of a store for that URL; and after a store that was not
interrupted it returns that content for as long as nothing of it expires and no
other store for the URL comes.
-/

namespace ProxyCache.Theorems.StoredMetadata

open ProxyCache.Lib ProxyCache.Python ProxyCache.Python.JsonText ProxyCache.App
open ProxyCache.Theorems.KeySeparation ProxyCache.Theorems.JsonPassthrough

/-! ## The tasks -/

inductive MetadataCall where
  | storeExtracted (fileUrl wheelSha256 : Str) (content : Bytes)
  | storeRecovered (fileUrl : Str) (content : Bytes)
  | load (fileUrl : Str) (expectedWheelSha256 : Option Str)

/-- What a store call is given. -/
structure Offer where
  fileUrl : Str
  wheelSha256 : Option Str
  content : Bytes

namespace MetadataCall

def fileUrl : MetadataCall → Str
  | storeExtracted fileUrl _ _ | storeRecovered fileUrl _ | load fileUrl _ => fileUrl

def offer : MetadataCall → Option Offer
  | storeExtracted fileUrl wheelSha256 content => some ⟨fileUrl, some wheelSha256, content⟩
  | storeRecovered fileUrl content => some ⟨fileUrl, none, content⟩
  | load .. => none

/-- A store returns nothing that is of interest here. -/
def prog (s : Site) : MetadataCall → Program (Except Raised (Option (Str × Str)))
  | storeExtracted fileUrl wheelSha256 content => do
    let stored ← storeExtractedMetadata s fileUrl wheelSha256 content
    return stored.map fun _ => none
  | storeRecovered fileUrl content => do
    let stored ← storeRecoveredMetadata s fileUrl content
    return stored.map fun _ => none
  | load fileUrl expectedWheelSha256 => loadMetadataForUrl s fileUrl expectedWheelSha256

end MetadataCall

/-- Any number of calls over one cache, with expiry and eviction. -/
def metadataService (s : Site) (B : Backend) :
    System Op Ret World MetadataCall (Except Raised (Option (Str × Str))) where
  toEffects := effects B fun _ _ _ => False
  prog := MetadataCall.prog s
  init := Fresh
  env := Drift

theorem jsonSite_loads (F : FloatRepr) (s : Site) : (jsonSite F s).D.loads = JsonText.loads F := rfl

theorem jsonSite_dumpsCompact (F : FloatRepr) (s : Site) :
    (jsonSite F s).D.dumpsCompact = dumpsWith (",".toList) (":".toList) := rfl

/-! ## What a store writes -/

section Writes

variable (s : Site)

/-- The entries that a store writes one by one, with the record of the URL last. -/
def storeWrites (fileUrl text : Str) (wheelSha256 : Option Str) : List Write :=
  let metadataSha256 := sha256Hex (utf8 text)
  let ttl := s.settings.metadataCacheTtlSeconds
  ⟨metadataContentKey s.U metadataSha256, ttl, text⟩ ::
    (match wheelSha256.map (lower s.U) with
      | some digest => [⟨metadataBlobKey s.U fileUrl digest, ttl, text⟩]
      | none => []) ++
    [⟨metadataUrlKey fileUrl, ttl,
      s.D.dumpsCompact (metadataRecord metadataSha256 (wheelSha256.map (lower s.U)))⟩]

/-- The call writes the entry. -/
def Writes (call : MetadataCall) (x : Write) : Prop :=
  ∃ offer text, call.offer = some offer ∧ decodeUtf8Strict offer.content = some text ∧
    x ∈ storeWrites s offer.fileUrl text offer.wheelSha256

/-- The calls of the cache that a task makes. -/
def Makes (call : MetadataCall) (o : Op) : Prop :=
  o.isRead = true ∨ ∃ x, Writes s call x ∧ o = .setexMany [x]

theorem storeMetadataContent_calls (fileUrl text : Str) (wheelSha256 : Option Str) :
    (storeMetadataContent s fileUrl text wheelSha256).Calls fun o =>
      ∃ x ∈ storeWrites s fileUrl text wheelSha256, o = .setexMany [x] := by
  unfold storeMetadataContent storeWrites
  cases wheelSha256 with
  | none =>
    refine ⟨⟨_, List.mem_cons_self, rfl⟩, fun _ => ⟨⟨_, ?_, rfl⟩, fun _ => trivial⟩⟩
    simp
  | some wheel =>
    dsimp only [Option.map_some]
    split
    · trivial
    · refine ⟨⟨_, List.mem_cons_self, rfl⟩, fun _ => ⟨⟨_, ?_, rfl⟩, fun _ => ⟨⟨_, ?_, rfl⟩,
        fun _ => trivial⟩⟩⟩
      · simp
      · simp

theorem loadMetadataForUrl_calls (fileUrl : Str) (expectedWheelSha256 : Option Str) :
    (loadMetadataForUrl s fileUrl expectedWheelSha256).Calls fun o => ∃ key, o = .getMany [key] :=
  loadMetadataForUrl_calls_of s (fun key => ⟨⟨key, rfl⟩, fun _ => trivial⟩) fileUrl
    expectedWheelSha256

theorem prog_calls (call : MetadataCall) : (call.prog s).Calls (Makes s call) := by
  cases call with
  | storeExtracted fileUrl wheelSha256 content =>
    refine Prog.Calls.bind ?_ fun _ => trivial
    unfold storeExtractedMetadata
    split
    · trivial
    · next text htext =>
      refine Prog.Calls.bind ?_ fun _ => trivial
      refine (storeMetadataContent_calls s fileUrl text (some wheelSha256)).mono fun o ho => ?_
      obtain ⟨x, hx, ho⟩ := ho
      exact .inr ⟨x, ⟨_, text, rfl, htext, hx⟩, ho⟩
  | storeRecovered fileUrl content =>
    refine Prog.Calls.bind ?_ fun _ => trivial
    unfold storeRecoveredMetadata
    split
    · trivial
    · next text htext =>
      refine (storeMetadataContent_calls s fileUrl text none).mono fun o ho => ?_
      obtain ⟨x, hx, ho⟩ := ho
      exact .inr ⟨x, ⟨_, text, rfl, htext, hx⟩, ho⟩
  | load fileUrl expectedWheelSha256 =>
    refine (loadMetadataForUrl_calls s fileUrl expectedWheelSha256).mono fun o ho => ?_
    obtain ⟨key, rfl⟩ := ho
    exact .inl rfl

end Writes

/-! ## What is cached was written -/

/-- The entry was stored by some task. -/
def Logged (w : World) (x : Write) : Prop := ∃ t values, .stored t values ∈ w.log ∧ x ∈ values

/-- Whatever is read was stored. -/
def Inv (w : World) : Prop :=
  ∀ key value, w.get key = some value → ∃ x, Logged w x ∧ x.key = key ∧ x.value = value

/-- The log only grows. -/
def Grows (w w' : World) : Prop := ∀ r ∈ w.log, r ∈ w'.log

theorem Grows.refl (w : World) : Grows w w := fun _ h => h

theorem Grows.trans {w₁ w₂ w₃ : World} (h : Grows w₁ w₂) (h' : Grows w₂ w₃) : Grows w₁ w₃ :=
  fun r hr => h' r (h r hr)

theorem Logged.grow {w w' : World} {x : Write} (h : Logged w x) (hgrows : Grows w w') :
    Logged w' x := by
  obtain ⟨t, values, hmem, hx⟩ := h
  exact ⟨t, values, hgrows _ hmem, hx⟩

section Calls

variable {s : Site} {B : Backend} {t : ℕ} {w w' : World} {call : MetadataCall}

/-- What a task of the service does to the world. -/
theorem made_cases {o : Op} {r : Ret o} (hmakes : Makes s call o)
    (hexec : exec B (fun _ _ _ => False) t o w r w') :
    w' = w ∨ ∃ x, Writes s call x ∧ o = .setexMany [x] ∧
      w' = (w.write [x]).record (.stored t [x]) := by
  rcases hmakes with hread | ⟨x, hx, rfl⟩
  · exact .inl (eq_of_isRead hread hexec)
  · exact .inr ⟨x, hx, rfl, hexec⟩

theorem inv_of_made {o : Op} {r : Ret o} (hmakes : Makes s call o) (hinv : Inv w)
    (hexec : (metadataService s B).exec t o w r w') : Inv w' ∧ Grows w w' := by
  rcases made_cases hmakes hexec with rfl | ⟨x, -, -, rfl⟩
  · exact ⟨hinv, Grows.refl _⟩
  have hgrows : Grows w ((w.write [x]).record (.stored t [x])) :=
    fun _ hr => List.mem_cons_of_mem _ hr
  refine ⟨?_, hgrows⟩
  intro key value hget
  rcases World.get_write hget with ⟨hold, -⟩ | ⟨y, hy, hkey, hvalue⟩
  · obtain ⟨y, hy, hkey, hvalue⟩ := hinv key value hold
    exact ⟨y, hy.grow hgrows, hkey, hvalue⟩
  · exact ⟨y, ⟨t, [x], List.mem_cons_self, hy⟩, hkey, hvalue⟩

theorem inv_of_drift (hinv : Inv w) (h : Drift w w') : Inv w' ∧ Grows w w' := by
  have hlog := h.log
  have hgrows : Grows w w' := by
    intro r hr
    rw [hlog]
    exact hr
  refine ⟨?_, hgrows⟩
  intro key value hget
  obtain ⟨x, hx, hkey, hvalue⟩ := hinv key value (h.get hget)
  exact ⟨x, hx.grow hgrows, hkey, hvalue⟩

/-- What was stored was written by a task that was started. -/
theorem writes_of_logged {c : Config Op Ret World MetadataCall (Except Raised (Option (Str × Str)))}
    (h : (metadataService s B).Reachable c) {x : Write} (hx : Logged c.world x) :
    ∃ t call p, c.task t = some (call, p) ∧ Writes s call x := by
  induction h with
  | init hinit =>
    obtain ⟨t, values, hmem, -⟩ := hx
    rw [hinit.1.2.2] at hmem
    cases hmem
  | @step c c' ev hreach hstep ih =>
    have hold : Logged c.world x → ∃ t call p, c'.task t = some (call, p) ∧ Writes s call x := by
      intro hlogged
      obtain ⟨t, call, p, htask, hwrites⟩ := ih hlogged
      obtain ⟨p', htask'⟩ := System.task_of_step hstep htask
      exact ⟨t, call, p', htask', hwrites⟩
    cases hstep with
    | start => exact hold hx
    | @call t call o k r w hwait htask hexec =>
      have hmakes : Makes s call o := (hreach.calls (prog_calls s) htask).1
      rcases made_cases hmakes hexec with rfl | ⟨y, hy, -, rfl⟩
      · exact hold hx
      · obtain ⟨u, values, hmem, hxs⟩ := hx
        rcases List.mem_cons.mp hmem with heq | hmem
        · -- the entry is the one that has just been written
          obtain ⟨rfl, rfl⟩ := Record.stored.inj heq
          obtain rfl := List.mem_singleton.mp hxs
          exact ⟨u, call, k r, Function.update_self .., hy⟩
        · exact hold ⟨u, values, hmem, hxs⟩
    | env hquiet henv =>
      obtain ⟨t, values, hmem, hxs⟩ := hx
      rw [Drift.log henv] at hmem
      exact hold ⟨t, values, hmem, hxs⟩

end Calls

/-! ## What a load returns -/

/-- What a load returns comes from a record of the URL, and from a content whose
digest is the one in the record. -/
def LoadedFrom (s : Site) (fileUrl : Str) (expectedWheelSha256 : Option Str) (w : World)
    (text digest : Str) : Prop :=
  ∃ x record source y, Logged w x ∧ x.key = metadataUrlKey fileUrl ∧
    recordDigest (s.D.loads x.value) = .ok (some (record, digest)) ∧
    recordSource record expectedWheelSha256 = some source ∧
    Logged w y ∧ y.value = text ∧ (∀ other, y.key ≠ metadataUrlKey other) ∧
    sha256Hex (utf8 text) = digest

section Loads

variable {s : Site} {B : Backend} {t : ℕ} {w : World} {fileUrl : Str}

/-- A key is read, while the log grows. -/
theorem wp_read {α : Type} {A : World → Prop} {Q : α → World → Prop} {key : Str}
    {f : Option Str → Program α} (hA : A w) (hstable : ∀ w w', A w → Grows w w' → A w')
    (h : ∀ w value, A w → (∀ v, value = some v → ∃ x, Logged w x ∧ x.key = key ∧ x.value = v) →
      (metadataService s B).wp Inv Grows Grows t Q (f value) w) :
    (metadataService s B).wp Inv Grows Grows t Q (cacheGet key >>= f) w := by
  apply wp_cacheGet id A hA hstable Grows.refl
  · intro w values w' hexec
    exact hexec
  · intro w hA hinv
    exact h w _ hA fun v hv => hinv key v hv

/-- The record of a URL has a key of its own. -/
theorem contentKey_ne_urlKey (U : Unicode) (digest fileUrl : Str) :
    metadataContentKey U digest ≠ metadataUrlKey fileUrl := by
  intro h
  have hfamily := family_eq_of_key_eq (U := U)
    (show (CacheObject.metadataContent digest).key U =
      (CacheObject.metadataUrl fileUrl).key U from h)
  cases hfamily

theorem blobKey_ne_contentKey (U : Unicode) (fileUrl wheelSha256 digest : Str) :
    metadataBlobKey U fileUrl wheelSha256 ≠ metadataContentKey U digest := by
  intro h
  have hfamily := family_eq_of_key_eq (U := U)
    (show (CacheObject.metadataBlob fileUrl wheelSha256).key U =
      (CacheObject.metadataContent digest).key U from h)
  cases hfamily

/-- The content is read, under either of its keys. -/
theorem wp_loadContent {α : Type} {A : World → Prop} {Q : α → World → Prop} {expected : Str}
    {wheelSha256 : Option Str} {contentFirst : Bool} {f : Option Str → Program α} (hA : A w)
    (hstable : ∀ w w', A w → Grows w w' → A w')
    (h : ∀ w body, A w → (∀ v, body = some v →
        ∃ y, Logged w y ∧ y.value = v ∧ ∀ other, y.key ≠ metadataUrlKey other) →
      (metadataService s B).wp Inv Grows Grows t Q (f body) w) :
    (metadataService s B).wp Inv Grows Grows t Q
      (loadContent s fileUrl expected wheelSha256 contentFirst >>= f) w := by
  have hget : ∀ (key : Str) (w : World), A w → (∀ other, key ≠ metadataUrlKey other) →
      (metadataService s B).wp Inv Grows Grows t
        (fun body w => (metadataService s B).wp Inv Grows Grows t Q (f body) w)
        (cacheGet key) w := by
    intro key w hA hkey
    refine Effects.wp_bind.mp (wp_read hA hstable fun w value hA hvalue => ?_)
    apply h w value hA
    intro v hv
    obtain ⟨y, hy, rfl, hv⟩ := hvalue v hv
    exact ⟨y, hy, hv, hkey⟩
  have hblob : ∀ wheel other : Str, metadataBlobKey s.U fileUrl wheel ≠ metadataUrlKey other :=
    fun wheel _ heq => metadataUrlKey_ne_blobKey wheel heq.symm
  rw [Effects.wp_bind]
  cases contentFirst with
  | false =>
    -- the record of an older schema, with the content under the wheel's key alone
    cases wheelSha256 with
    | none => exact h w none hA nofun
    | some wheel => exact hget _ w hA (hblob wheel)
  | true =>
    refine Effects.wp_bind.mpr ?_
    refine Effects.wp_bind.mp (wp_read hA hstable fun w body hA hbody => ?_)
    cases body with
    | none =>
      cases wheelSha256 with
      | none => exact h w none hA nofun
      | some wheel => exact hget _ w hA (hblob wheel)
    | some body =>
      have hcontent : (metadataService s B).wp Inv Grows Grows t Q (f (some body)) w := by
        apply h w (some body) hA
        intro v hv
        obtain ⟨y, hy, hkey, hv⟩ := hbody v hv
        exact ⟨y, hy, hv, fun other => hkey ▸ contentKey_ne_urlKey s.U expected other⟩
      cases wheelSha256 <;> exact hcontent

/-- What is known of what a load ends with. -/
def Returned (s : Site) (fileUrl : Str) (expectedWheelSha256 : Option Str)
    (a : Except Raised (Option (Str × Str))) (w : World) : Prop :=
  match a with
  | .ok none => True
  | .ok (some (text, digest)) => LoadedFrom s fileUrl expectedWheelSha256 w text digest
  | .error e => ∃ x, Logged w x ∧ x.key = metadataUrlKey fileUrl ∧
      recordDigest (s.D.loads x.value) = .error e

/-- A load returns what it read. -/
theorem wp_loadMetadataForUrl (expectedWheelSha256 : Option Str) :
    (metadataService s B).wp Inv Grows Grows t (Returned s fileUrl expectedWheelSha256)
      (loadMetadataForUrl s fileUrl expectedWheelSha256) w := by
  apply wp_read (A := fun _ => True) trivial fun _ _ _ _ => trivial
  intro w rawRecord _ hraw
  split
  · trivial
  next raw =>
  obtain ⟨x, hx, hkey, rfl⟩ := hraw raw rfl
  split
  · next e hrecord => exact ⟨x, hx, hkey, hrecord⟩
  · trivial
  next record digest hrecord =>
  split
  · trivial
  next wheelSha256 contentFirst hsource =>
  apply wp_loadContent (A := fun w => Logged w x) hx fun _ _ hx hgrows => hx.grow hgrows
  intro w body hx hbody
  split
  · trivial
  next body =>
  obtain ⟨y, hy, rfl, hne⟩ := hbody body rfl
  by_cases hdigest : sha256Hex (utf8 y.value) = digest
  · rw [if_pos hdigest]
    exact ⟨x, record, _, y, hx, hkey, hrecord, hsource, hy, rfl, hne, hdigest⟩
  · rw [if_neg hdigest]
    trivial

end Loads

/-! ## Soundness -/

/-- What holds when a call has returned. -/
def Post (s : Site) (call : MetadataCall) (a : Except Raised (Option (Str × Str))) (w : World) :
    Prop :=
  match call with
  | .load fileUrl expectedWheelSha256 => Returned s fileUrl expectedWheelSha256 a w
  | _ => True

theorem LoadedFrom.grow {s : Site} {fileUrl : Str} {expectedWheelSha256 : Option Str} {w w' : World}
    {text digest : Str} (h : LoadedFrom s fileUrl expectedWheelSha256 w text digest)
    (hgrows : Grows w w') : LoadedFrom s fileUrl expectedWheelSha256 w' text digest := by
  obtain ⟨x, record, source, y, hx, hkey, hrecord, hsource, hy, hrest⟩ := h
  exact ⟨x, record, source, y, hx.grow hgrows, hkey, hrecord, hsource, hy.grow hgrows, hrest⟩

theorem Returned.grow {s : Site} {fileUrl : Str} {expectedWheelSha256 : Option Str} {w w' : World}
    {a : Except Raised (Option (Str × Str))} (h : Returned s fileUrl expectedWheelSha256 a w)
    (hgrows : Grows w w') : Returned s fileUrl expectedWheelSha256 a w' := by
  match a, h with
  | .ok none, _ => trivial
  | .ok (some _), h => exact LoadedFrom.grow h hgrows
  | .error _, ⟨x, hx, hrest⟩ => exact ⟨x, hx.grow hgrows, hrest⟩

def metadataDiscipline (s : Site) (B : Backend) : Discipline (metadataService s B) where
  Inv := Inv
  rely _ _ := Grows
  guar _ _ := Grows
  post _ := Post s
  rely_refl _ _ := Grows.refl
  rely_trans _ _ _ _ _ := Grows.trans
  init w hfresh := by
    intro key value hget
    obtain ⟨entry, hentry, -⟩ := Store.get_eq_some.mp hget
    rw [hfresh.1] at hentry
    cases hentry
  env w w' hinv hdrift := by
    obtain ⟨hinv', hgrows⟩ := inv_of_drift hinv hdrift
    exact ⟨hinv', fun _ _ => hgrows⟩
  others _ _ _ _ _ _ _ _ _ := id
  post_stable t call a w w' hpost _ hgrows := by
    cases call with
    | load => exact Returned.grow hpost hgrows
    | storeExtracted | storeRecovered => trivial
  start t call w hinv := by
    have hstores : (metadataService s B).wp Inv Grows Grows t (fun _ _ => True) (call.prog s) w :=
      Effects.wp_of_calls (prog_calls s call) fun o w₁ r w₂ hmakes hinv hexec =>
        inv_of_made hmakes hinv hexec
    cases call with
    | load => exact wp_loadMetadataForUrl _
    | storeExtracted | storeRecovered => exact hstores

/-- The digests of the URLs, and of the contents, that the calls of a run are given do
not collide. -/
structure CollisionFreeCalls
    (c : Config Op Ret World MetadataCall (Except Raised (Option (Str × Str)))) : Prop where
  urls : ∀ t t' call call' p p', c.task t = some (call, p) → c.task t' = some (call', p') →
    CollisionFree (utf8 (normaliseArtifactUrl call.fileUrl))
      (utf8 (normaliseArtifactUrl call'.fileUrl))
  contents : ∀ t t' call call' p p' offer offer', c.task t = some (call, p) →
    c.task t' = some (call', p') → call.offer = some offer → call'.offer = some offer' →
    CollisionFree (offer.content.map UInt8.toNat) (offer'.content.map UInt8.toNat)

section Records

variable {F : FloatRepr} {s : Site} {fileUrl text : Str} {wheelSha256 : Option Str} {x : Write}

theorem fileUrl_of_offer {call : MetadataCall} {offer : Offer} (h : call.offer = some offer) :
    call.fileUrl = offer.fileUrl := by
  cases call with
  | load => cases h
  | storeExtracted | storeRecovered =>
    obtain rfl := Option.some.inj h
    rfl

/-- The record that a store writes under the key of a URL is of that URL. -/
theorem record_of_write (h : x ∈ storeWrites s fileUrl text wheelSha256) {other : Str}
    (hkey : x.key = metadataUrlKey other) :
    artifactUrlDigest fileUrl = artifactUrlDigest other ∧
      x.value = s.D.dumpsCompact
        (metadataRecord (sha256Hex (utf8 text)) (wheelSha256.map (lower s.U))) := by
  unfold storeWrites at h
  rw [List.cons_append, List.mem_cons, List.mem_append, List.mem_singleton] at h
  rcases h with rfl | h | rfl
  · exact absurd hkey (contentKey_ne_urlKey _ _ _)
  · split at h
    · obtain rfl := List.mem_singleton.mp h
      exact absurd hkey.symm (metadataUrlKey_ne_blobKey _)
    · cases h
  · exact ⟨(digest_append_inj.mp (List.append_cancel_left hkey)).1, rfl⟩

/-- Everything else that it writes is the content. -/
theorem value_of_write (h : x ∈ storeWrites s fileUrl text wheelSha256)
    (hkey : x.key ≠ metadataUrlKey fileUrl) : x.value = text := by
  unfold storeWrites at h
  rw [List.cons_append, List.mem_cons, List.mem_append, List.mem_singleton] at h
  rcases h with rfl | h | rfl
  · rfl
  · split at h
    · obtain rfl := List.mem_singleton.mp h
      rfl
    · cases h
  · exact absurd rfl hkey

/-- What it writes under the key of a content is that content. -/
theorem content_of_write (h : x ∈ storeWrites s fileUrl text wheelSha256) {stored : Str}
    (hkey : x.key = metadataContentKey s.U (sha256Hex (utf8 stored))) :
    x.value = text ∧ sha256Hex (utf8 text) = sha256Hex (utf8 stored) := by
  unfold storeWrites at h
  rw [List.cons_append, List.mem_cons, List.mem_append, List.mem_singleton] at h
  rcases h with rfl | h | rfl
  · have hdigest := List.append_cancel_left hkey
    rw [lower_sha256Hex, lower_sha256Hex] at hdigest
    exact ⟨rfl, hdigest⟩
  · split at h
    · obtain rfl := List.mem_singleton.mp h
      exact absurd hkey (blobKey_ne_contentKey _ _ _ _)
    · cases h
  · exact absurd hkey.symm (contentKey_ne_urlKey _ _ _)

/-- The members of a record. -/
def recordMembers (metadataSha256 : Str) (wheelSha256 : Option Str) : List (Str × Json) :=
  [(("schema" : Str), .int 2), (("metadata-sha256" : Str), .str metadataSha256)] ++
    match wheelSha256 with
    | some digest => [(("wheel-sha256" : Str), .str digest)]
    | none => []

theorem valid_record (metadataSha256 : Str) (wheelSha256 : Option Str) :
    Valid F (metadataRecord metadataSha256 wheelSha256) := by
  refine .dict (recordMembers metadataSha256 wheelSha256) ?_ ?_
  · cases wheelSha256 with
    | none =>
      show [("schema" : Str), ("metadata-sha256" : Str)].Nodup
      decide
    | some wheel =>
      show [("schema" : Str), ("metadata-sha256" : Str), ("wheel-sha256" : Str)].Nodup
      decide
  · intro kv hkv
    have hint : Valid F (.int 2) := .int 2 (by decide)
    cases wheelSha256 <;> simp [recordMembers] at hkv
    · rcases hkv with rfl | rfl
      · exact hint
      · exact .str _
    · rcases hkv with rfl | rfl | rfl
      · exact hint
      · exact .str _
      · exact .str _

/-- A record that was stored is read as it was written. -/
theorem loads_record (metadataSha256 : Str) :
    (jsonSite F s).D.loads ((jsonSite F s).D.dumpsCompact
      (metadataRecord metadataSha256 wheelSha256)) =
      .ok (.dict (recordMembers metadataSha256 wheelSha256)) := by
  have hcomma : IsSeparator ',' (",".toList) := ⟨[], rfl, rfl⟩
  have hcolon : IsSeparator ':' (":".toList) := ⟨[], rfl, rfl⟩
  have hvalid : Valid F (metadataRecord metadataSha256 wheelSha256) := valid_record _ _
  rw [jsonSite_loads, jsonSite_dumpsCompact, loads_dumpsWith hcomma hcolon hvalid]
  rfl

theorem recordDigest_members (metadataSha256 : Str) :
    recordDigest (.ok (.dict (recordMembers metadataSha256 wheelSha256))) =
      .ok (if isSha256 metadataSha256 then
        some (recordMembers metadataSha256 wheelSha256, metadataSha256) else none) := by
  cases wheelSha256 <;> rfl

theorem recordSource_members (metadataSha256 : Str) (expectedWheelSha256 : Option Str) :
    recordSource (recordMembers metadataSha256 wheelSha256) expectedWheelSha256 =
      match wheelSha256 with
      | none => if expectedWheelSha256.isNone then some (none, true) else none
      | some wheel => if isSha256 wheel && expectedWheelSha256.all (· == wheel) then
          some (some wheel, true) else none := by
  cases wheelSha256 <;> rfl

end Records

/-- The content is of a store for the URL, and for the wheel that was expected. -/
def StoredFor (s : Site) (c : Config Op Ret World MetadataCall (Except Raised (Option (Str × Str))))
    (fileUrl : Str) (expectedWheelSha256 : Option Str) (text : Str) : Prop :=
  ∃ u call p offer, c.task u = some (call, p) ∧ call.offer = some offer ∧
    normaliseArtifactUrl offer.fileUrl = normaliseArtifactUrl fileUrl ∧
    offer.content.map UInt8.toNat = utf8 text ∧
    ∀ expected, expectedWheelSha256 = some expected →
      ∃ wheelSha256, offer.wheelSha256 = some wheelSha256 ∧ lower s.U wheelSha256 = expected

theorem storedFor_of_loaded {F : FloatRepr} {s : Site} {B : Backend}
    {c : Config Op Ret World MetadataCall (Except Raised (Option (Str × Str)))}
    (h : (metadataService (jsonSite F s) B).Reachable c) (hfree : CollisionFreeCalls c)
    {t : ℕ} {fileUrl text digest : Str} {expectedWheelSha256 : Option Str}
    {q : Program (Except Raised (Option (Str × Str)))}
    (htask : c.task t = some (.load fileUrl expectedWheelSha256, q))
    (hloaded : LoadedFrom (jsonSite F s) fileUrl expectedWheelSha256 c.world text digest) :
    ∃ text', (.ok (some (text, digest)) : Except Raised (Option (Str × Str))) =
        .ok (some (text', sha256Hex (utf8 text'))) ∧
      StoredFor s c fileUrl expectedWheelSha256 text' := by
  obtain ⟨x, record, source, y, hx, hkey, hrecord, hsource, hy, rfl, hcontent, rfl⟩ := hloaded
  obtain ⟨u, call, p, hcall, offer, stored, hoffer, hdecode, hwrite⟩ := writes_of_logged h hx
  obtain ⟨v, call', p', hcall', offer', stored', hoffer', hdecode', hwrite'⟩ :=
    writes_of_logged h hy
  obtain ⟨hdigest, hvalue⟩ := record_of_write hwrite hkey
  have htext : y.value = stored' := value_of_write hwrite' (hcontent _)
  rw [hvalue, loads_record, recordDigest_members] at hrecord
  -- the record names the content of its own store
  have hsame : sha256Hex (utf8 stored) = sha256Hex (utf8 y.value) ∧
      record = recordMembers (sha256Hex (utf8 stored)) (offer.wheelSha256.map (lower s.U)) := by
    split at hrecord
    · obtain ⟨rfl, hsame⟩ := Prod.mk.inj (Option.some.inj (Except.ok.inj hrecord))
      exact ⟨hsame, rfl⟩
    · cases hrecord
  obtain ⟨hsha, rfl⟩ := hsame
  refine ⟨y.value, rfl, u, call, p, offer, hcall, hoffer, ?_, ?_, ?_⟩
  · have hurls := hfree.urls u t call _ p _ hcall htask
    rw [fileUrl_of_offer hoffer] at hurls
    exact normalise_eq_of_digest hurls hdigest
  · have hcontents := hfree.contents u v call call' p p' offer offer' hcall hcall' hoffer hoffer'
    rw [← utf8_of_decode hdecode, ← utf8_of_decode hdecode', ← htext] at hcontents
    rw [← utf8_of_decode hdecode, hcontents hsha]
  · intro expected hexpected
    rw [recordSource_members, hexpected] at hsource
    cases hwheel : offer.wheelSha256 with
    | none =>
      rw [hwheel] at hsource
      cases hsource
    | some wheel =>
      rw [hwheel] at hsource
      simp only [Option.map_some, Option.all_some] at hsource
      split at hsource
      · next hall =>
        rw [Bool.and_eq_true, beq_iff_eq] at hall
        exact ⟨wheel, rfl, hall.2.symm⟩
      · cases hsource

/-- **Soundness.** A load returns nothing, or the content of a store for its URL with its
digest; when a wheel digest was expected, the store was given that one. -/
theorem load_sound {F : FloatRepr} {s : Site} {B : Backend}
    {c : Config Op Ret World MetadataCall (Except Raised (Option (Str × Str)))}
    (h : (metadataService (jsonSite F s) B).Reachable c) (hfree : CollisionFreeCalls c)
    {t : ℕ} {fileUrl : Str} {expectedWheelSha256 : Option Str}
    {a : Except Raised (Option (Str × Str))}
    (htask : c.task t = some (.load fileUrl expectedWheelSha256, .ret a)) :
    a = .ok none ∨ ∃ text, a = .ok (some (text, sha256Hex (utf8 text))) ∧
      StoredFor s c fileUrl expectedWheelSha256 text := by
  have hpost : Returned (jsonSite F s) fileUrl expectedWheelSha256 a c.world :=
    (metadataDiscipline (jsonSite F s) B).returned h htask
  match a, hpost with
  | .ok none, _ => exact .inl rfl
  | .ok (some (text, digest)), hloaded => exact .inr (storedFor_of_loaded h hfree htask hloaded)
  | .error e, ⟨x, hx, hkey, herror⟩ =>
    -- a record that a store has written is never refused
    obtain ⟨u, call, p, -, offer, stored, -, -, hwrite⟩ := writes_of_logged h hx
    rw [(record_of_write hwrite hkey).2, loads_record, recordDigest_members] at herror
    cases herror

/-! ## After a store -/

section AfterStore

variable {s : Site} {B : Backend} {t : ℕ} {w w' : World} {fileUrl text : Str}
  {wheelSha256 : Option Str}

/-- The record and the content, under their keys. -/
def Published (s : Site) (fileUrl text : Str) (wheelSha256 : Option Str) (w : World) : Prop :=
  w.get (metadataContentKey s.U (sha256Hex (utf8 text))) = some text ∧
    w.get (metadataUrlKey fileUrl) = some (s.D.dumpsCompact
      (metadataRecord (sha256Hex (utf8 text)) (wheelSha256.map (lower s.U))))

/-- The two entries, live or not. -/
def Written (s : Site) (fileUrl text : Str) (wheelSha256 : Option Str) (w : World) : Prop :=
  ((w.store (metadataContentKey s.U (sha256Hex (utf8 text)))).map Entry.value = some text) ∧
    (w.store (metadataUrlKey fileUrl)).map Entry.value = some (s.D.dumpsCompact
      (metadataRecord (sha256Hex (utf8 text)) (wheelSha256.map (lower s.U))))

/-- The two entries are live. -/
def Live (s : Site) (fileUrl text : Str) (w : World) : Prop :=
  (w.get (metadataContentKey s.U (sha256Hex (utf8 text)))).isSome = true ∧
    (w.get (metadataUrlKey fileUrl)).isSome = true

theorem published_of_written (h : Written s fileUrl text wheelSha256 w)
    (hlive : Live s fileUrl text w) :
    Published s fileUrl text wheelSha256 w := by
  have hget : ∀ {key value : Str}, (w.store key).map Entry.value = some value →
      (w.get key).isSome = true → w.get key = some value := by
    intro key value hstore hsome
    obtain ⟨entry, hentry, rfl⟩ := Option.map_eq_some_iff.mp hstore
    obtain ⟨value, hvalue⟩ := Option.isSome_iff_exists.mp hsome
    obtain ⟨entry', hentry', -, rfl⟩ := Store.get_eq_some.mp hvalue
    rw [hentry] at hentry'
    obtain rfl := Option.some.inj hentry'
    exact hvalue
  exact ⟨hget h.1 hlive.1, hget h.2 hlive.2⟩

/-- An entry that has just been written. -/
theorem store_write_self (key value : Str) (ttl : ℤ) (r : Record) :
    ((((w.write [⟨key, ttl, value⟩]).record r).store key).map Entry.value) = some value := by
  have hstore : (w.write [⟨key, ttl, value⟩]).store key = some ⟨w.now + ttl, value⟩ :=
    World.store_write_of_mem
      (show ([⟨key, ttl, value⟩].map Write.key).Nodup from List.nodup_singleton key)
      List.mem_cons_self
  show Option.map Entry.value ((w.write [⟨key, ttl, value⟩]).store key) = some value
  rw [hstore]
  rfl

/-- The other entries, after a write. -/
theorem store_write_other {key value other : Str} {ttl : ℤ} {r : Record} (h : key ≠ other) :
    ((w.write [⟨key, ttl, value⟩]).record r).store other = w.store other := by
  apply World.store_write_of_not_mem
  intro x hx
  obtain rfl := List.mem_singleton.mp hx
  exact h

/-- A task that runs alone writes an entry. -/
theorem wp_write_alone {α : Type} {Q : α → World → Prop} {key value : Str} {ttl : ℤ}
    {f : Unit → Program α}
    (h : (metadataService s B).wp (fun _ => True) (fun w w' => w = w') (fun _ _ => True) t Q (f ())
      ((w.write [⟨key, ttl, value⟩]).record (.stored t [⟨key, ttl, value⟩]))) :
    (metadataService s B).wp (fun _ => True) (fun w w' => w = w') (fun _ _ => True) t Q
      (cacheSetex key ttl value >>= f) w := by
  intro w₁ hsame _ r w₂ hexec
  have heq : w₁ = w := by
    split at hsame
    · exact hsame.symm
    · exact hsame
  subst heq
  obtain rfl : w₂ = (w₁.write [⟨key, ttl, value⟩]).record (.stored t [⟨key, ttl, value⟩]) := hexec
  exact ⟨trivial, trivial, h⟩

/-- The digest of the wheel, if there is one, is one. -/
def ValidWheel (s : Site) (wheelSha256 : Option Str) : Prop :=
  ∀ wheel ∈ wheelSha256.map (lower s.U), isSha256 wheel = true

/-- A store that runs alone has written both entries when it returns. -/
theorem wp_storeMetadataContent :
    (metadataService s B).wp (fun _ => True) (fun w w' => w = w') (fun _ _ => True) t
      (fun a w => ∀ stored, a = .ok stored →
        ValidWheel s wheelSha256 ∧ Written s fileUrl text wheelSha256 w)
      (storeMetadataContent s fileUrl text wheelSha256) w := by
  have hurl : ∀ digest, metadataContentKey s.U digest ≠ metadataUrlKey fileUrl :=
    fun digest => contentKey_ne_urlKey s.U digest fileUrl
  have hblob : ∀ wheel digest, metadataBlobKey s.U fileUrl wheel ≠ metadataContentKey s.U digest :=
    fun wheel digest => blobKey_ne_contentKey s.U fileUrl wheel digest
  unfold storeMetadataContent
  dsimp only
  split
  · intro stored h
    cases h
  next hany =>
  have hvalid : ValidWheel s wheelSha256 := by
    intro wheel hwheel
    rw [Option.mem_def.mp hwheel] at hany
    simpa using hany
  -- the content, the blob of the wheel when there is one, and then the record
  apply wp_write_alone
  split
  · apply wp_write_alone
    apply wp_write_alone
    intro _ _
    refine ⟨hvalid, ?_, store_write_self ..⟩
    rw [store_write_other (hurl _).symm, store_write_other (hblob _ _)]
    exact store_write_self ..
  · apply wp_write_alone
    intro _ _
    refine ⟨hvalid, ?_, store_write_self ..⟩
    rw [store_write_other (hurl _).symm]
    exact store_write_self ..

/-- The content that a call is given, and a store that it makes of it. -/
theorem wp_store_alone {call : MetadataCall} {offer : Offer} (hoffer : call.offer = some offer)
    (htext : decodeUtf8Strict offer.content = some text) :
    (metadataService s B).wp (fun _ => True) (fun w w' => w = w') (fun _ _ => True) t
      (fun a w => a = .ok none →
        ValidWheel s offer.wheelSha256 ∧ Written s offer.fileUrl text offer.wheelSha256 w)
      (call.prog s) w := by
  cases call with
  | load => cases hoffer
  | storeExtracted fileUrl wheelSha256 content =>
    obtain rfl := Option.some.inj hoffer
    have hstore : storeExtractedMetadata s fileUrl wheelSha256 content = do
        let stored ← storeMetadataContent s fileUrl text (some wheelSha256)
        return stored.map Prod.snd := by
      rw [storeExtractedMetadata, show decodeUtf8Strict content = some text from htext]
    show (metadataService s B).wp _ _ _ _ _
      (storeExtractedMetadata s fileUrl wheelSha256 content >>= _) w
    rw [hstore, Effects.wp_bind, Effects.wp_bind]
    refine Effects.wp_mono wp_storeMetadataContent fun stored w hwritten => ?_
    cases stored with
    | error e => exact nofun
    | ok stored => exact fun _ => hwritten stored rfl
  | storeRecovered fileUrl content =>
    obtain rfl := Option.some.inj hoffer
    have hstore : storeRecoveredMetadata s fileUrl content =
        storeMetadataContent s fileUrl text none := by
      rw [storeRecoveredMetadata, show decodeUtf8Strict content = some text from htext]
    show (metadataService s B).wp _ _ _ _ _ (storeRecoveredMetadata s fileUrl content >>= _) w
    rw [hstore, Effects.wp_bind]
    refine Effects.wp_mono wp_storeMetadataContent fun stored w hwritten => ?_
    cases stored with
    | error e => exact nofun
    | ok stored => exact fun _ => hwritten stored rfl

theorem isSha256_sha256Hex (message : List ℕ) : isSha256 (sha256Hex message) = true := by
  unfold isSha256
  rw [sha256Hex_length, beq_self_eq_true, Bool.true_and, List.all_eq_true]
  intro c hc
  obtain ⟨n, hn, rfl⟩ := Sha256.exists_of_mem_sha256Hex hc
  have hall : ∀ n < 16, isHexDigit (Sha256.hexChar n) = true := by decide
  exact hall n hn

/-- The record of a store names its source to a load that expects no wheel or this one. -/
theorem recordSource_published {digest : Str} {expectedWheelSha256 : Option Str}
    (hwheel : ValidWheel s wheelSha256)
    (hexpected : expectedWheelSha256 = none ∨
      ∃ wheel, wheelSha256.map (lower s.U) = some wheel ∧ expectedWheelSha256 = some wheel) :
    recordSource (recordMembers digest (wheelSha256.map (lower s.U))) expectedWheelSha256 =
      some (wheelSha256.map (lower s.U), true) := by
  rw [recordSource_members]
  cases hmap : wheelSha256.map (lower s.U) with
  | none =>
    rw [hmap] at hexpected
    obtain rfl | ⟨wheel, hnone, -⟩ := hexpected
    · rfl
    · cases hnone
  | some wheel =>
    rw [hmap] at hexpected
    have hvalid : isSha256 wheel = true := hwheel wheel hmap
    obtain rfl | ⟨wheel', heq, rfl⟩ := hexpected
    · simp [hvalid]
    · obtain rfl := Option.some.inj heq
      simp [hvalid]

/-- A load of what is published, whatever the others do to the rest. -/
theorem wp_load_published {F : FloatRepr} {other : Str} {expectedWheelSha256 : Option Str}
    (hkey : metadataUrlKey other = metadataUrlKey fileUrl)
    (hwheel : ValidWheel (jsonSite F s) wheelSha256)
    (hexpected : expectedWheelSha256 = none ∨
      ∃ wheel, wheelSha256.map (lower (jsonSite F s).U) = some wheel ∧
      expectedWheelSha256 = some wheel) :
    (metadataService (jsonSite F s) B).wp (Published (jsonSite F s) fileUrl text wheelSha256)
      (fun _ _ => True) (fun _ _ => True) t
      (fun a _ => a = .ok (some (text, sha256Hex (utf8 text))))
      (loadMetadataForUrl (jsonSite F s) other expectedWheelSha256) w := by
  have hread : ∀ {α : Type} {Q : α → World → Prop} {key value : Str} {f : Option Str → Program α}
      {w : World}, (∀ w, Published (jsonSite F s) fileUrl text wheelSha256 w →
        w.get key = some value) →
      (∀ w, (metadataService (jsonSite F s) B).wp
        (Published (jsonSite F s) fileUrl text wheelSha256)
        (fun _ _ => True) (fun _ _ => True) t Q (f (some value)) w) →
      (metadataService (jsonSite F s) B).wp (Published (jsonSite F s) fileUrl text wheelSha256)
        (fun _ _ => True) (fun _ _ => True) t Q (cacheGet key >>= f) w := by
    intro α Q key value f w hvalue hf
    apply wp_cacheGet id (fun _ => True) trivial (fun _ _ _ _ => trivial) fun _ => trivial
    · intro w values w' hexec
      exact hexec
    · intro w _ hpublished
      rw [id, hvalue w hpublished]
      exact hf w
  have hdigest : recordDigest ((jsonSite F s).D.loads ((jsonSite F s).D.dumpsCompact
      (metadataRecord (sha256Hex (utf8 text)) (wheelSha256.map (lower (jsonSite F s).U))))) =
      .ok (some (recordMembers (sha256Hex (utf8 text)) (wheelSha256.map (lower (jsonSite F s).U)),
        sha256Hex (utf8 text))) := by
    rw [loads_record, recordDigest_members, if_pos (isSha256_sha256Hex _)]
  unfold loadMetadataForUrl
  -- the record, and then the content that it names
  apply hread fun w hpublished => hkey ▸ hpublished.2
  intro w
  simp only [hdigest, recordSource_published hwheel hexpected]
  rw [Effects.wp_bind, loadContent, if_pos rfl, Effects.wp_bind]
  refine Effects.wp_bind.mp (hread (fun w hpublished => hpublished.1) fun w => ?_)
  have hbody : (Except.ok (if sha256Hex (utf8 text) = sha256Hex (utf8 text) then
      some (text, sha256Hex (utf8 text)) else none) : Except Raised (Option (Str × Str))) =
      .ok (some (text, sha256Hex (utf8 text))) := by
    rw [if_pos rfl]
  cases Option.map (lower (jsonSite F s).U) wheelSha256 <;> exact hbody

/-- The call leaves the record of the URL alone. -/
def KeepsRecord (fileUrl : Str) (o : Op) : Prop :=
  ∀ values, o = .setexMany values → ∀ x ∈ values, x.key ≠ metadataUrlKey fileUrl

/-- What is read after a step that keeps the entries was there, or has been written. -/
theorem published_of_get (hpublished : Published s fileUrl text wheelSha256 w)
    (hlive : Live s fileUrl text w')
    (hget : ∀ key value, w'.get key = some value → w.get key = some value ∨
      key ≠ metadataUrlKey fileUrl ∧
        (key = metadataContentKey s.U (sha256Hex (utf8 text)) → value = text)) :
    Published s fileUrl text wheelSha256 w' := by
  obtain ⟨content, hcontent⟩ := Option.isSome_iff_exists.mp hlive.1
  obtain ⟨record, hrecord⟩ := Option.isSome_iff_exists.mp hlive.2
  constructor
  · rcases hget _ _ hcontent with hold | ⟨-, hnew⟩
    · rw [hcontent, ← hold, hpublished.1]
    · rw [hcontent, hnew rfl]
  · rcases hget _ _ hrecord with hold | ⟨hne, -⟩
    · rw [hrecord, ← hold, hpublished.2]
    · exact absurd rfl hne

/-- A step of the others, while the entries stay live and no record of the URL is written. -/
theorem published_of_step
    {c c' : Config Op Ret World MetadataCall (Except Raised (Option (Str × Str)))}
    {ev : Event Op Ret MetadataCall} (hreach : (metadataService s B).Reachable c)
    (hstep :
      ((metadataService s B).within (KeepsRecord fileUrl) (Live s fileUrl text)).Step c ev c')
    (hfree : ∀ u call p offer stored, c.task u = some (call, p) → call.offer = some offer →
      decodeUtf8Strict offer.content = some stored →
      sha256Hex (utf8 stored) = sha256Hex (utf8 text) → stored = text)
    (hpublished : Published s fileUrl text wheelSha256 c.world) :
    Published s fileUrl text wheelSha256 c'.world := by
  cases hstep with
  | start => exact hpublished
  | @call u call o k r w _ htask hexec =>
    obtain ⟨hexec, hkeeps, hlive⟩ := hexec
    have hmakes : Makes s call o := (hreach.calls (prog_calls s) htask).1
    rcases made_cases hmakes hexec with rfl | ⟨x, hx, rfl, rfl⟩
    · exact hpublished
    apply published_of_get hpublished hlive
    intro key value hget
    rcases World.get_write hget with ⟨hold, -⟩ | ⟨y, hy, rfl, rfl⟩
    · exact .inl hold
    obtain rfl := List.mem_singleton.mp hy
    refine .inr ⟨hkeeps _ rfl _ hy, fun hkey => ?_⟩
    obtain ⟨offer, stored, hoffer, hdecode, hwrite⟩ := hx
    obtain ⟨hvalue, hdigest⟩ := content_of_write hwrite hkey
    rw [hvalue]
    exact hfree u call _ offer stored htask hoffer hdecode hdigest
  | env _ henv =>
    apply published_of_get hpublished henv.2
    intro key value hget
    exact .inl (henv.1.get hget)

end AfterStore

/-- In `c₀` a task is about to store a text; it runs without interruption up to `c₁`. From
there to `c₂` its entries stay live and nobody writes the record of the URL, and a load of
the URL is started and returns `a`. -/
structure StoreThenLoad (F : FloatRepr) (s : Site) (B : Backend)
    (c₀ c₁ c₂ : Config Op Ret World MetadataCall (Except Raised (Option (Str × Str))))
    (offer : Offer) (text fileUrl : Str) (expectedWheelSha256 : Option Str)
    (a : Except Raised (Option (Str × Str))) : Prop where
  reachable : (metadataService (jsonSite F s) B).Reachable c₀
  decoded : decodeUtf8Strict offer.content = some text
  stored : ∃ t call evs, call.offer = some offer ∧
    c₀.task t = some (call, call.prog (jsonSite F s)) ∧
    (metadataService (jsonSite F s) B).Run c₀ evs c₁ ∧ (∀ ev ∈ evs, ∃ o r, ev = .call t o r) ∧
    c₁.task t = some (call, .ret (.ok none))
  live : Live (jsonSite F s) offer.fileUrl text c₁.world
  kept : ∃ evs, ((metadataService (jsonSite F s) B).within (KeepsRecord offer.fileUrl)
    (Live (jsonSite F s) offer.fileUrl text)).Run c₁ evs c₂
  loaded : ∃ u, c₁.task u = none ∧
    c₂.task u = some (.load fileUrl expectedWheelSha256, .ret a)
  sameUrl : normaliseArtifactUrl fileUrl = normaliseArtifactUrl offer.fileUrl
  expected : expectedWheelSha256 = none ∨
    ∃ wheel, offer.wheelSha256.map (lower s.U) = some wheel ∧ expectedWheelSha256 = some wheel

/-- **Completeness.** After a store that was not interrupted, a load returns what was stored. -/
theorem load_after_store {F : FloatRepr} {s : Site} {B : Backend}
    {c₀ c₁ c₂ : Config Op Ret World MetadataCall (Except Raised (Option (Str × Str)))}
    {offer : Offer} {text fileUrl : Str} {expectedWheelSha256 : Option Str}
    {a : Except Raised (Option (Str × Str))}
    (h : StoreThenLoad F s B c₀ c₁ c₂ offer text fileUrl expectedWheelSha256 a)
    (hfree : CollisionFreeCalls c₂) : a = .ok (some (text, sha256Hex (utf8 text))) := by
  obtain ⟨hreach, htext, hstored, hlive, hkept, hloaded, hurl, hexpected⟩ := h
  obtain ⟨t, call, evs, hoffer, hcall, hstore, halone, hstored⟩ := hstored
  obtain ⟨evs', hrun⟩ := hkept
  obtain ⟨u, hnone, hload⟩ := hloaded
  -- what the store has written is published
  obtain ⟨p, htask, -, hwp⟩ := hstore.wp_alone halone hcall trivial (wp_store_alone hoffer htext)
  obtain rfl := (Prod.mk.inj (Option.some.inj (htask.symm.trans hstored))).2
  obtain ⟨hwheel, hwritten⟩ := hwp rfl
  have hpublished : Published (jsonSite F s) offer.fileUrl text offer.wheelSha256 c₁.world :=
    published_of_written hwritten hlive
  have hkey : metadataUrlKey fileUrl = metadataUrlKey offer.fileUrl := by
    unfold metadataUrlKey artifactUrlDigest
    rw [hurl]
  -- no other content has its digest
  obtain ⟨q, hfinal⟩ := (System.run_of_within hrun).persists t call _ hstored
  have hunique : ∀ u call' p offer' stored, c₂.task u = some (call', p) →
      call'.offer = some offer' → decodeUtf8Strict offer'.content = some stored →
      sha256Hex (utf8 stored) = sha256Hex (utf8 text) → stored = text := by
    intro u call' p offer' stored hcall' hoffer' hdecode hdigest
    have hcontents := hfree.contents u t call' call p q offer' offer hcall' hfinal hoffer' hoffer
    rw [← utf8_of_decode hdecode, ← utf8_of_decode htext] at hcontents
    exact utf8_injective (hcontents hdigest)
  have hkeep : ∀ d ev d', (metadataService (jsonSite F s) B).Reachable d →
      ((metadataService (jsonSite F s) B).within (KeepsRecord offer.fileUrl)
        (Live (jsonSite F s) offer.fileUrl text)).Step d ev d' → System.Persists d' c₂ →
      Published (jsonSite F s) offer.fileUrl text offer.wheelSha256 d.world →
      Published (jsonSite F s) offer.fileUrl text offer.wheelSha256 d'.world := by
    intro d ev d' hd hstep hpersists
    apply published_of_step hd hstep
    intro u call' p offer' stored hcall'
    obtain ⟨p', hcall''⟩ := System.task_of_step (System.step_of_within hstep) hcall'
    obtain ⟨p'', hcall''⟩ := hpersists u call' p' hcall''
    exact hunique u call' p'' offer' stored hcall''
  have hpart := hrun.wp_within (e := .load fileUrl expectedWheelSha256)
    (P := fun a => a = .ok (some (text, sha256Hex (utf8 text)))) (hreach.run hstore)
    (fun u e p htask => ⟨p, htask⟩) hpublished hnone hkeep
    fun w _ => wp_load_published hkey hwheel hexpected
  exact hpart.2 _ hload

def demoSite : Site where
  U := asciiOnly
  D := noPages
  float _ := none
  packaging := plainReleases
  settings := {}

def demoUrl : Str := ("/artifacts/files.pythonhosted.org/a.whl" : Str)

def demoText : Str := ("Name: a" : Str)

def demoOffer : Offer := ⟨demoUrl, none, (utf8 demoText).map UInt8.ofNat⟩

abbrev demoService : System Op Ret World MetadataCall (Except Raised (Option (Str × Str))) :=
  metadataService (jsonSite noFloat demoSite) .memory

def demoDriver : Driver demoService Unit where
  respond
    | _, _, .getMany keys, w => some (keys.map w.get, w)
    | _, t, .setexMany values, w => some ((), (w.write values).record (.stored t values))
    | _, _, _, _ => none
  drift _ _ := none
  respond_sound {_ t o w r w'} h := by
    cases o with
    | getMany keys =>
      obtain ⟨rfl, rfl⟩ := Prod.mk.inj (Option.some.inj h)
      exact ⟨rfl, rfl⟩
    | setexMany values =>
      obtain ⟨rfl, rfl⟩ := Prod.mk.inj (Option.some.inj h)
      rfl
    | _ => cases h
  drift_sound h := by cases h

instance (w : World) : Decidable (Live (jsonSite noFloat demoSite) demoUrl demoText w) :=
  inferInstanceAs (Decidable (_ ∧ _))

abbrev demoReads : System Op Ret World MetadataCall (Except Raised (Option (Str × Str))) :=
  demoService.within (KeepsRecord demoUrl) (Live (jsonSite noFloat demoSite) demoUrl demoText)

/-- Reads, while the entries are live. -/
def readDriver : Driver demoReads Unit where
  respond
    | _, _, .getMany keys, w =>
      if Live (jsonSite noFloat demoSite) demoUrl demoText w then some (keys.map w.get, w) else none
    | _, _, _, _ => none
  drift _ _ := none
  respond_sound {_ t o w r w'} h := by
    cases o with
    | getMany keys =>
      dsimp only at h
      split at h
      · next hlive =>
        obtain ⟨rfl, rfl⟩ := Prod.mk.inj (Option.some.inj h)
        exact ⟨⟨rfl, rfl⟩, nofun, hlive⟩
      · cases h
    | _ => cases h
  drift_sound h := by cases h

/-- The store and then the load run to their ends. -/
theorem demo_finishes :
    (demoDriver.finish () 0
        ((MetadataCall.storeRecovered demoUrl demoOffer.content).prog (jsonSite noFloat demoSite))
        emptyWorld).any (fun (_, a, w) =>
      a = .ok none ∧ Live (jsonSite noFloat demoSite) demoUrl demoText w ∧
        (readDriver.finish () 1
          ((MetadataCall.load demoUrl none).prog (jsonSite noFloat demoSite)) w).isSome = true) =
      true := by
  decide +kernel

/-- The configuration before anything. -/
def demoBoot : Config Op Ret World MetadataCall (Except Raised (Option (Str × Str))) :=
  Driver.boot emptyWorld

def demoStore : MetadataCall := .storeRecovered demoUrl demoOffer.content

def demoLoad : MetadataCall := .load demoUrl none

/-- The two calls, one after the other. -/
def demoBoth (p q : Program (Except Raised (Option (Str × Str)))) (w w' : World) :
    Config Op Ret World MetadataCall (Except Raised (Option (Str × Str))) :=
  (demoBoot.set 0 demoStore p w).set 1 demoLoad q w'

theorem demoStore_task_of_ne {p : Program (Except Raised (Option (Str × Str)))} {w : World} {u : ℕ}
    (hu : u ≠ 0) : (demoBoot.set 0 demoStore p w).task u = none := Config.set_task_of_ne hu

theorem demoBoth_task {p q r : Program (Except Raised (Option (Str × Str)))} {w w' : World} {u : ℕ}
    {call : MetadataCall} (h : (demoBoth p q w w').task u = some (call, r)) :
    (u = 0 ∧ call = demoStore) ∨ (u = 1 ∧ call = demoLoad) := by
  unfold demoBoth at h
  by_cases hu : u = 1
  · rw [hu, Config.set_task_self] at h
    exact .inr ⟨hu, (Prod.mk.inj (Option.some.inj h)).1.symm⟩
  rw [Config.set_task_of_ne hu] at h
  by_cases hzero : u = 0
  · rw [hzero, Config.set_task_self] at h
    exact .inl ⟨hzero, (Prod.mk.inj (Option.some.inj h)).1.symm⟩
  · rw [demoStore_task_of_ne hzero] at h
    cases h

/-- There is one URL, and one content. -/
theorem collisionFree_demoBoth {p q : Program (Except Raised (Option (Str × Str)))} {w w' : World} :
    CollisionFreeCalls (demoBoth p q w w') := by
  constructor
  · intro t t' call call' p p' h h' _
    rcases demoBoth_task h with ⟨-, rfl⟩ | ⟨-, rfl⟩ <;>
      rcases demoBoth_task h' with ⟨-, rfl⟩ | ⟨-, rfl⟩ <;> rfl
  · intro t t' call call' p p' offer offer' h h' hoffer hoffer' _
    rcases demoBoth_task h with ⟨-, rfl⟩ | ⟨-, rfl⟩
    · rcases demoBoth_task h' with ⟨-, rfl⟩ | ⟨-, rfl⟩
      · obtain rfl := Option.some.inj hoffer
        obtain rfl := Option.some.inj hoffer'
        rfl
      · cases hoffer'
    · cases hoffer

end ProxyCache.Theorems.StoredMetadata
