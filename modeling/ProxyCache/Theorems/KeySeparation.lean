import ProxyCache.App.Rules
import ProxyCache.App.SimpleIndex

/-!
# Separation of the cache keys

Every object that is cached has a key of its own, except that the root index and
the bodies of a project called `index` share theirs. What a request reads and
writes is therefore its own, unless the project is called so.
-/

namespace ProxyCache.Theorems.KeySeparation

open ProxyCache.Lib ProxyCache.Python ProxyCache.App

/-- What is cached. -/
inductive CacheObject where
  | index (isJson : Bool)
  | project (canonical : Str) (part : ProjectPart)
  | metadataUrl (fileUrl : Str)
  | metadataBlob (fileUrl wheelSha256 : Str)
  | metadataContent (metadataSha256 : Str)
  | metadataFailure (fileUrl : Str) (wheelSha256 : Option Str)
  deriving DecidableEq

namespace CacheObject

variable (U : Unicode)

def key : CacheObject → Str
  | index isJson => indexKey isJson
  | project canonical part => projectKey canonical part
  | metadataUrl fileUrl => metadataUrlKey fileUrl
  | metadataBlob fileUrl wheelSha256 => metadataBlobKey U fileUrl wheelSha256
  | metadataContent metadataSha256 => metadataContentKey U metadataSha256
  | metadataFailure fileUrl wheelSha256 => metadataFailureKey U fileUrl wheelSha256

/-- The object itself: URLs up to query and fragment, digests up to case. -/
def normalise : CacheObject → CacheObject
  | metadataUrl fileUrl => metadataUrl (normaliseArtifactUrl fileUrl)
  | metadataBlob fileUrl wheelSha256 =>
    metadataBlob (normaliseArtifactUrl fileUrl) (lower U wheelSha256)
  | metadataContent metadataSha256 => metadataContent (lower U metadataSha256)
  | metadataFailure fileUrl wheelSha256 =>
    metadataFailure (normaliseArtifactUrl fileUrl) (wheelSha256.map (lower U))
  | o => o

/-- The artifact that the object is about. -/
def fileUrl : CacheObject → Option Str
  | metadataUrl fileUrl | metadataBlob fileUrl _ | metadataFailure fileUrl _ => some fileUrl
  | _ => none

/-- The digests of the two artifact URLs do not collide. -/
def DigestsDiffer (o o' : CacheObject) : Prop :=
  ∀ u, o.fileUrl = some u → ∀ u', o'.fileUrl = some u' →
    CollisionFree (utf8 (normaliseArtifactUrl u)) (utf8 (normaliseArtifactUrl u'))

/-- The root index, and the body of the project `index` in the same format. -/
def Clash (o o' : CacheObject) : Prop :=
  ∃ isJson, (o = index isJson ∧ o' = project ("index" : Str) (.body isJson)) ∨
    (o = project ("index" : Str) (.body isJson) ∧ o' = index isJson)

/-- Two objects have keys of their own. -/
def Separate (o o' : CacheObject) : Prop :=
  o.key U = o'.key U → o.normalise U = o'.normalise U

end CacheObject

open CacheObject

/-! ## Telling keys apart -/

section Keys

variable {U : Unicode} {c c' u u' : Str}

theorem indexKey_eq (isJson : Bool) :
    indexKey isJson = projectKey ("index" : Str) (.body isJson) := by
  cases isJson <;> rfl

theorem indexKey_eq_projectKey {isJson : Bool} {part : ProjectPart} :
    indexKey isJson = projectKey c part ↔ c = ("index" : Str) ∧ part = .body isJson := by
  rw [indexKey_eq, projectKey_inj, eq_comm, @eq_comm _ part]

theorem indexKey_inj {isJson isJson' : Bool} :
    indexKey isJson = indexKey isJson' ↔ isJson = isJson' := by
  rw [indexKey_eq isJson', indexKey_eq_projectKey]
  simp [eq_comm]

/-- A key with the digest of a URL in it tells the digest and what follows. -/
theorem digest_append_inj {rest rest' : Str} :
    artifactUrlDigest u ++ rest = artifactUrlDigest u' ++ rest' ↔
      artifactUrlDigest u = artifactUrlDigest u' ∧ rest = rest' :=
  ⟨fun h => List.append_inj h (by simp [artifactUrlDigest]), fun ⟨h, h'⟩ => by rw [h, h']⟩

theorem normalise_eq_of_digest
    (hfree : CollisionFree (utf8 (normaliseArtifactUrl u)) (utf8 (normaliseArtifactUrl u')))
    (h : artifactUrlDigest u = artifactUrlDigest u') :
    normaliseArtifactUrl u = normaliseArtifactUrl u' :=
  utf8_injective (hfree h)

/-- The four beginnings of keys. -/
inductive Family where
  | simple
  | url
  | content
  | failure
  deriving DecidableEq

def Family.text : Family → Str
  | simple => ("simple:" : Str)
  | url => ("metadata:url:" : Str)
  | content => ("metadata:content:sha256:" : Str)
  | failure => ("metadata:failure:url:" : Str)

/-- No family begins with another. -/
theorem Family.eq_of_prefix {a b : Family} (h : a.text <+: b.text) : a = b := by
  have hall : ∀ a b : Family, a.text.isPrefixOf b.text = true → a = b := by
    rintro (_ | _ | _ | _) (_ | _ | _ | _) <;> decide +kernel
  exact hall a b (List.isPrefixOf_iff_prefix.mpr h)

def family : CacheObject → Family
  | index _ | project .. => .simple
  | metadataUrl _ | metadataBlob .. => .url
  | metadataContent _ => .content
  | metadataFailure .. => .failure

theorem prefix_of_family (o : CacheObject) : (family o).text <+: o.key U := by
  cases o with
  | index isJson =>
    rw [key, indexKey_eq]
    exact List.prefix_append ..
  | _ => exact List.prefix_append ..

/-- Keys of two families differ. -/
theorem family_eq_of_key_eq {o o' : CacheObject} (h : o.key U = o'.key U) :
    family o = family o' := by
  rcases List.prefix_or_prefix_of_prefix (prefix_of_family o) (h ▸ prefix_of_family o') with hp | hp
  · exact Family.eq_of_prefix hp
  · exact (Family.eq_of_prefix hp).symm

/-- The records of an artifact differ in what follows the digest. -/
theorem metadataUrlKey_ne_blobKey (wheelSha256 : Str) :
    metadataUrlKey u ≠ metadataBlobKey U u' wheelSha256 := by
  intro h
  have hrest := (digest_append_inj.mp (List.append_cancel_left h)).2
  exact absurd hrest (by simp)

theorem failureSuffix_inj {digest digest' : Option Str}
    (h : metadataFailureKey U u digest = metadataFailureKey U u' digest') :
    artifactUrlDigest u = artifactUrlDigest u' ∧
      digest.map (lower U) = digest'.map (lower U) := by
  obtain ⟨hurl, hrest⟩ := digest_append_inj.mp (List.append_cancel_left h)
  refine ⟨hurl, ?_⟩
  cases digest <;> cases digest' <;> dsimp only at hrest
  · rfl
  · exact absurd hrest (by simp)
  · exact absurd hrest (by simp)
  · rw [Option.map_some, Option.map_some, List.append_cancel_left hrest]

/-- **Key separation.** Two objects have keys of their own exactly when they are
not the root index and the body of the project `index` in the same format. -/
theorem separate_iff {o o' : CacheObject} (hfree : DigestsDiffer o o') :
    Separate U o o' ↔ ¬ Clash o o' := by
  constructor
  · rintro h ⟨isJson, ⟨rfl, rfl⟩ | ⟨rfl, rfl⟩⟩
    · exact absurd (h (indexKey_eq isJson)) (by simp [normalise])
    · exact absurd (h (indexKey_eq isJson).symm) (by simp [normalise])
  intro hclash h
  have hfamily := family_eq_of_key_eq h
  cases o <;> cases o' <;> simp only [family, reduceCtorEq] at hfamily
  case index.index isJson isJson' =>
    rw [indexKey_inj.mp h]
  case index.project isJson c part =>
    obtain ⟨rfl, rfl⟩ := indexKey_eq_projectKey.mp h
    exact absurd ⟨isJson, .inl ⟨rfl, rfl⟩⟩ hclash
  case project.index c part isJson =>
    obtain ⟨rfl, rfl⟩ := indexKey_eq_projectKey.mp h.symm
    exact absurd ⟨isJson, .inr ⟨rfl, rfl⟩⟩ hclash
  case project.project =>
    obtain ⟨rfl, rfl⟩ := projectKey_inj.mp h
    rfl
  case metadataUrl.metadataUrl u u' =>
    obtain ⟨hurl, -⟩ := digest_append_inj.mp (List.append_cancel_left h)
    simp only [normalise, normalise_eq_of_digest (hfree u rfl u' rfl) hurl]
  case metadataUrl.metadataBlob u u' digest =>
    exact absurd h (metadataUrlKey_ne_blobKey digest)
  case metadataBlob.metadataUrl u digest u' =>
    exact absurd h.symm (metadataUrlKey_ne_blobKey digest)
  case metadataBlob.metadataBlob u digest u' digest' =>
    obtain ⟨hurl, hrest⟩ := digest_append_inj.mp (List.append_cancel_left h)
    simp only [normalise, normalise_eq_of_digest (hfree u rfl u' rfl) hurl,
      List.append_cancel_left hrest]
  case metadataContent.metadataContent digest digest' =>
    have hdigest : lower U digest = lower U digest' := List.append_cancel_left h
    simp only [normalise, hdigest]
  case metadataFailure.metadataFailure u digest u' digest' =>
    obtain ⟨hurl, hdigest⟩ := failureSuffix_inj h
    simp only [normalise, normalise_eq_of_digest (hfree u rfl u' rfl) hurl, hdigest]

/-- A project key is the key of that part of the project, and of the root index
if the project is called so. -/
theorem eq_of_key_eq_projectKey {o : CacheObject} {part : ProjectPart}
    (h : o.key U = projectKey c part) :
    o = project c part ∨ (c = ("index" : Str) ∧ ∃ isJson, o = index isJson) := by
  have hfamily := family_eq_of_key_eq (show o.key U = (project c part).key U from h)
  cases o <;> simp only [family, reduceCtorEq] at hfamily
  case index isJson => exact .inr ⟨(indexKey_eq_projectKey.mp h).1, isJson, rfl⟩
  case project c' part' =>
    obtain ⟨rfl, rfl⟩ := projectKey_inj.mp h
    exact .inl rfl

end Keys

/-! ## The keys that a request names -/

section Requests

variable (s : Site)

/-- The call names keys of the project only. -/
abbrev Within (canonical : Str) (o : Op) : Prop := ∀ k ∈ o.keys, OwnKey s canonical k

variable {s} {r : ProjectRequest} {canonical : Str}

theorem within_of_keys_nil {o : Op} (h : o.keys = []) : Within s canonical o := by
  simp [Within, h]

theorem within_of_looksAt {α : Type} {p : Program α} (h : p.Calls (Op.LooksAt s canonical)) :
    p.Calls (Within s canonical) :=
  h.mono fun _ ho => ho.2

theorem setexMany_within {values : List Write} (h : ∀ x ∈ values, OwnKey s canonical x.key) :
    Within s canonical (.setexMany values) := by
  intro k hk
  obtain ⟨x, hx, rfl⟩ := List.mem_map.mp hk
  exact h x hx

theorem ownKey_of_validatorValues {etag lastMod : Option Str} {x : Write}
    (h : x ∈ validatorValues s r etag lastMod) : OwnKey s r.canonical x.key := by
  rcases mem_validatorValues.mp h with ⟨v, -, rfl⟩ | ⟨v, -, rfl⟩
  · exact ownKey s r.canonical .etag
  · exact ownKey s r.canonical .lastmod

theorem ownKey_of_bodyValues {isJson : Bool} {ttl : ℤ} {body : Str} {x : Write}
    (h : x ∈ bodyValues s canonical isJson ttl body) : OwnKey s canonical x.key := by
  rcases mem_bodyValues.mp h with rfl | rfl
  · exact ownKey s canonical (.body isJson)
  · exact ownKey s canonical (.stale isJson)

theorem storeConversion_within (other body : Str) :
    (storeConversion s r other body).Calls (Within s r.canonical) := by
  have hone : ∀ part, ∀ k ∈ [projectKey r.canonical part], OwnKey s r.canonical k := by
    rintro part k hk
    rw [List.mem_singleton.mp hk]
    exact ownKey s _ part
  unfold storeConversion
  refine ⟨hone (.body _), fun otherTtl => ?_⟩
  cases otherTtl with
  | none => trivial
  | some otherTtl =>
    refine ⟨hone (.stale _), fun otherStaleTtl => ⟨?_, fun committed => ?_⟩⟩
    · rintro k hk
      rcases List.mem_append.mp hk with hk | hk
      · exact hone (.body _) k hk
      · obtain ⟨x, hx, rfl⟩ := List.mem_map.mp hk
        rcases mem_conversionValues.mp hx with rfl | ⟨n, -, rfl⟩
        · exact ownKey s _ (.body _)
        · exact ownKey s _ (.stale _)
    · cases committed with
      | false => trivial
      | true =>
        exact (within_of_looksAt (scheduleMetadataEnrichment_calls s _ _ _ _)).bind fun _ => trivial

theorem tryServeFromCache_within : (tryServeFromCache s r).Calls (Within s r.canonical) := by
  have hcached := fun body isJson =>
    within_of_looksAt (cachedResponse_calls s r.canonical body isJson)
  unfold tryServeFromCache
  refine Prog.Calls.bind (within_of_looksAt (cacheGetTwo_calls (ownKey s _ _) (ownKey s _ _))) ?_
  rintro ⟨notFound, cached⟩
  dsimp only
  split
  · trivial
  split
  · exact (hcached _ _).bind fun _ => trivial
  refine Prog.Calls.bind (within_of_looksAt (cacheGet_calls (ownKey s _ _))) fun other => ?_
  split
  · unfold serveOther
    split
    · exact (hcached _ _).bind fun _ => trivial
    refine ⟨within_of_keys_nil rfl, fun _ => ?_⟩
    split
    · exact storeConversion_within _ _
    · trivial
  · trivial

theorem storeFill_within (response : UpstreamResponse) :
    (storeFill s r response).Calls (Within s r.canonical) := by
  have hschedule := fun body isJson =>
    within_of_looksAt (scheduleMetadataEnrichment_calls s r.canonical r.canonical body isJson)
  have hstore : ∀ bodies : List Write, (∀ x ∈ bodies, OwnKey s r.canonical x.key) →
      Within s r.canonical
        (.setexMany (validatorValues s r response.etag response.lastModified ++ bodies)) := by
    refine fun bodies hbodies => setexMany_within fun x hx => ?_
    rcases List.mem_append.mp hx with hx | hx
    · exact ownKey_of_validatorValues hx
    · exact hbodies x hx
  unfold storeFill
  dsimp only
  split
  · split
    · trivial
    · refine ⟨hstore _ fun x hx => ownKey_of_bodyValues hx, fun _ => ?_⟩
      exact (hschedule _ _).bind fun _ => trivial
  · split
    · trivial
    · refine ⟨hstore _ fun x hx => ?_, fun _ => ?_⟩
      · split at hx <;> rcases List.mem_append.mp hx with hx | hx <;>
          exact ownKey_of_bodyValues hx
      · exact (hschedule _ _).bind fun _ => trivial

theorem answer_within (response : UpstreamResponse) :
    (answer s r response).Calls (Within s r.canonical) := by
  unfold answer
  split
  · refine ⟨setexMany_within fun x hx => ?_, fun _ => trivial⟩
    rw [List.mem_singleton.mp hx]
    exact ownKey s _ .notFound
  split
  · trivial
  · exact storeFill_within response

theorem refetch_within : (refetch s r).Calls (Within s r.canonical) := by
  simp only [refetch, Prog.op_bind, Prog.calls_call]
  refine ⟨within_of_keys_nil rfl, fun response => ?_⟩
  cases response with
  | none => trivial
  | some response =>
    dsimp only
    split
    · trivial
    · exact answer_within response

theorem refresh_within (etag lastMod : Option Str) (response : UpstreamResponse)
    (responseJson : Bool) (body : Str) (otherStale : Option Str) :
    (refresh s r etag lastMod response responseJson body otherStale).Calls
      (Within s r.canonical) := by
  have hreply := (within_of_looksAt (cachedResponse_calls s r.canonical body responseJson))
  simp only [refresh, Prog.op_bind, Prog.calls_call]
  refine ⟨setexMany_within fun x hx => ?_, fun _ => ?_⟩
  · rcases mem_refreshedValues.mp hx with rfl | hx | ⟨-, other, -, rfl⟩
    · exact ownKey s _ (.body _)
    · exact ownKey_of_validatorValues hx
    · exact ownKey s _ (.body _)
  split
  · simp only [refreshMetadataResponseReadiness, Prog.op_bind, Prog.calls_call]
    refine ⟨?_, fun _ => hreply.bind fun _ => trivial⟩
    simp only [Within, Op.keys, List.map_cons, List.map_nil, List.mem_append, List.mem_cons,
      List.not_mem_nil, or_false]
    rintro k ((rfl | rfl) | rfl)
    · exact ownKey_again s _ _
    · exact ownKey_again s _ _
    · exact ownKey_again s _ _
  · exact hreply.bind fun _ => trivial

theorem notModified_within (etag lastMod : Option Str) (response : UpstreamResponse) :
    (notModified s r etag lastMod response).Calls (Within s r.canonical) := by
  unfold notModified
  refine Prog.Calls.bind (within_of_looksAt (cacheGetTwo_calls (ownKey s _ _) (ownKey s _ _))) ?_
  rintro ⟨_ | body, otherStale⟩
  · cases otherStale with
    | none => exact refetch_within
    | some other =>
      dsimp only
      unfold synthesizeStale
      split
      · exact refresh_within ..
      split
      · split
        · exact refetch_within
        · trivial
      · refine ⟨setexMany_within fun x hx => ?_, fun _ => refresh_within ..⟩
        rw [List.mem_singleton.mp hx]
        exact ownKey s _ (.stale _)
  · exact refresh_within ..

theorem fetchUpstream_within : (fetchUpstream s r).Calls (Within s r.canonical) := by
  have hget : ∀ etag lastMod, (conditionalGet s r etag lastMod).Calls (Within s r.canonical) := by
    intro etag lastMod
    simp only [conditionalGet, Prog.op_bind, Prog.calls_call]
    refine ⟨within_of_keys_nil rfl, fun response => ?_⟩
    cases response with
    | none => trivial
    | some response =>
      dsimp only
      split
      · exact notModified_within etag lastMod response
      · exact answer_within response
  simp only [fetchUpstream, Prog.op_bind, Prog.calls_call]
  refine ⟨?_, fun found => ?_⟩
  · simp only [Within, Op.keys, List.mem_cons, List.not_mem_nil, or_false]
    rintro k (rfl | rfl)
    · exact ownKey s _ (.stale _)
    · exact ownKey s _ (.stale _)
  split
  · exact Prog.Calls.bind (within_of_looksAt (cacheGetTwo_calls (ownKey s _ _) (ownKey s _ _)))
      fun _ => hget _ _
  · exact hget _ _

/-- A request names keys of its project only. -/
theorem serveProject_within (pid : ℕ) : (serveProject s pid r).Calls (Within s r.canonical) := by
  unfold serveProject
  refine tryServeFromCache_within.bind ?_
  rintro (e | _ | hit)
  · trivial
  · simp only [withLock, Prog.op_bind, Prog.calls_call]
    refine ⟨within_of_keys_nil rfl, fun _ => Prog.Calls.bind ?_ fun _ => ?_⟩
    · refine tryServeFromCache_within.bind ?_
      rintro (e | _ | hit)
      · trivial
      · exact fetchUpstream_within
      · trivial
    · exact ⟨within_of_keys_nil rfl, fun _ => trivial⟩
  · trivial

/-- The index route names the two keys of the index only. -/
theorem simpleIndex_keys (render : Bool → UpstreamResponse → Except Raised Str)
    (accept : Option Str) :
    (simpleIndex s render accept).Calls fun o => ∀ k ∈ o.keys, ∃ isJson, k = indexKey isJson := by
  have hone : ∀ isJson, ∀ k ∈ [indexKey isJson], ∃ isJson, k = indexKey isJson :=
    fun isJson k hk => ⟨isJson, List.mem_singleton.mp hk⟩
  unfold simpleIndex
  refine Prog.Calls.bind ⟨hone _, fun _ => trivial⟩ fun cached => ?_
  split
  · trivial
  simp only [Prog.op_bind, Prog.calls_call]
  refine ⟨by simp [Op.keys], fun response => ?_⟩
  cases response with
  | none => trivial
  | some response =>
    dsimp only
    split
    · trivial
    unfold storeIndex
    split
    · trivial
    · exact ⟨hone _, fun _ => trivial⟩

end Requests

/-! ## Objects and requests -/

/-- Every object whose key the call names satisfies `P`. -/
def NamesOnly (U : Unicode) (P : CacheObject → Prop) (o : Op) : Prop :=
  ∀ k ∈ o.keys, ∀ x : CacheObject, x.key U = k → P x

section Main

variable {s : Site} {c : Str}

/-- The calls of a request name parts of its project, and the root index if the
project is called so. -/
theorem namesOnly_of_within {o : Op} (hstable : s.packaging.canonicalizeName c = c)
    (hindex : c ≠ ("index" : Str)) (h : Within s c o) :
    NamesOnly s.U (fun x => ∃ part, x = .project c part) o := by
  intro k hk x hx
  obtain ⟨part, rfl | rfl⟩ := h k hk
  · exact ⟨part, (eq_of_key_eq_projectKey hx).resolve_right fun h => hindex h.1⟩
  · rw [hstable] at hx
    exact ⟨part, (eq_of_key_eq_projectKey hx).resolve_right fun h => hindex h.1⟩

/-- The first thing a request looks up is the body of its project. -/
theorem not_namesOnly_index {pid : ℕ} {r : ProjectRequest}
    (hindex : r.canonical = ("index" : Str)) :
    ¬ (serveProject s pid r).Calls
      (NamesOnly s.U fun x => ∃ part, x = .project r.canonical part) := by
  intro h
  have hfirst : NamesOnly s.U (fun x => ∃ part, x = .project r.canonical part)
      (.getMany [r.notFoundKey, r.cacheKey]) := h.1
  obtain ⟨part, hpart⟩ := hfirst r.cacheKey (by simp [Op.keys]) (.index r.wantsJson)
    (by rw [key, indexKey_eq, ← hindex]; rfl)
  cases hpart

/-- **Key separation.** Two objects have keys of their own exactly when they are
not the root index and the body of the project `index` in the same format. A
request for a project names keys of its own only, unless the project is called
`index`, and a request for the root index names no key of any other project. -/
theorem keys_separate (s : Site) :
    (∀ o o', DigestsDiffer o o' → (Separate s.U o o' ↔ ¬ Clash o o')) ∧
    (∀ pid project accept,
      s.packaging.canonicalizeName (s.packaging.canonicalizeName project) =
        s.packaging.canonicalizeName project →
      ((simpleProject s pid project accept).Calls
          (NamesOnly s.U fun x => ∃ part,
            x = .project (s.packaging.canonicalizeName project) part) ↔
        s.packaging.canonicalizeName project ≠ ("index" : Str))) ∧
    ∀ render accept, (simpleIndex s render accept).Calls
      (NamesOnly s.U fun x => ∃ isJson, x = .index isJson ∨
        x = .project ("index" : Str) (.body isJson)) := by
  refine ⟨fun o o' hfree => separate_iff hfree, fun pid project accept hstable => ?_,
    fun render accept => ?_⟩
  · constructor
    · intro h hindex
      exact not_namesOnly_index hindex h
    · intro hindex
      exact (serveProject_within pid).mono fun o ho => namesOnly_of_within hstable hindex ho
  · refine (simpleIndex_keys render accept).mono fun o ho k hk x hx => ?_
    obtain ⟨isJson, rfl⟩ := ho k hk
    rw [indexKey_eq] at hx
    rcases eq_of_key_eq_projectKey hx with rfl | ⟨-, isJson', rfl⟩
    · exact ⟨isJson, .inr rfl⟩
    · exact ⟨isJson', .inl rfl⟩

end Main

def asciiSite : Site where
  U := asciiOnly
  D := ⟨fun _ => .error .valueError, fun _ => .error .valueError, fun _ => [], fun _ => [],
    fun _ => [], fun _ => .ok [], fun text _ => text⟩
  float _ := none
  packaging := plainReleases
  settings := {}

/-- The validators of a project do not share a key with the index, and requests
for it stay with it. -/
theorem keys_separate_one :
    Separate asciiSite.U (.index true) (.project ("one" : Str) .etag) ∧
      (simpleProject asciiSite 0 ("One" : Str) none).Calls
        (NamesOnly asciiSite.U fun x => ∃ part, x = .project ("one" : Str) part) := by
  have hfree : DigestsDiffer (.index true) (.project ("one" : Str) .etag) := nofun
  have hclash : ¬ Clash (.index true) (.project ("one" : Str) .etag) := by simp [Clash]
  exact ⟨((keys_separate asciiSite).1 _ _ hfree).mpr hclash,
    ((keys_separate asciiSite).2.1 0 ("One" : Str) none (by decide +kernel)).mpr
      (by decide +kernel)⟩

/-- A project may be called `index`. -/
theorem not_separate_index :
    ¬ ∀ (U : Unicode) (P : Packaging) (name : Str) (isJson : Bool),
      Separate U (.index isJson) (.project (P.canonicalizeName name) (.body isJson)) := by
  intro h
  have hkey : (CacheObject.index true).key asciiOnly =
      (CacheObject.project (plainReleases.canonicalizeName ("index" : Str)) (.body true)).key
        asciiOnly := by
    decide +kernel
  exact absurd (h asciiOnly plainReleases ("index" : Str) true hkey) (by simp [normalise])

end ProxyCache.Theorems.KeySeparation
