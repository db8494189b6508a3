import ProxyCache.App.SimpleProject

/-!
# Rules for the handlers

How the calls act on an assertion about the world, and what serving from the
cache does to it. The effects may be those of any system that runs the calls as
`exec` has them, seen through `view`.
-/

namespace ProxyCache.App

open ProxyCache.Lib ProxyCache.Python

/-- The call only looks. -/
def Op.isRead : Op → Bool
  | .setexMany _ | .setexManyIfUnchanged .. | .acquire _ | .release _ | .httpGet _ | .elapse =>
    false
  | _ => true

theorem eq_of_isRead {B : Backend} {upstream : Upstream} {t : ℕ} {o : Op} {w w' : World}
    {r : Ret o} (ho : o.isRead = true) (h : exec B upstream t o w r w') : w' = w := by
  cases o with
  | getMany | existsAny | ttl | ttlIfValues => exact h.2
  | httpHead | extractWheelMetadata | suspend | unfinished | schedule => exact h
  | setexMany | setexManyIfUnchanged | acquire | release | httpGet | elapse => cases ho

/-- The cache keys that a call names. -/
def Op.keys : Op → List Str
  | .getMany keys | .existsAny keys => keys
  | .setexMany values => values.map Write.key
  | .ttl key => [key]
  | .ttlIfValues key _ boundKey _ => [key, boundKey]
  | .setexManyIfUnchanged expected values => expected.map Prod.fst ++ values.map Write.key
  | _ => []

/-! ## Calls of the programs -/

variable (s : Site)

/-- A key of the project; the metadata functions canonicalise its name again. -/
def OwnKey (canonical key : Str) : Prop :=
  ∃ part, key = projectKey canonical part ∨
    key = projectKey (s.packaging.canonicalizeName canonical) part

theorem ownKey (canonical : Str) (part : ProjectPart) :
    OwnKey s canonical (projectKey canonical part) := ⟨part, .inl rfl⟩

theorem ownKey_again (canonical : Str) (part : ProjectPart) :
    OwnKey s canonical (projectKey (s.packaging.canonicalizeName canonical) part) :=
  ⟨part, .inr rfl⟩

/-- The call only looks, and at nothing but keys of the project. -/
def Op.LooksAt (canonical : Str) (o : Op) : Prop :=
  o.isRead ∧ ∀ k ∈ o.keys, OwnKey s canonical k

theorem cacheGet_calls {P : Str → Prop} {key : Str} (h : P key) :
    (cacheGet key).Calls fun o => o.isRead ∧ ∀ k ∈ o.keys, P k :=
  ⟨⟨rfl, by simpa [Op.keys] using h⟩, fun _ => trivial⟩

theorem cacheGetTwo_calls {P : Str → Prop} {key key' : Str} (h : P key) (h' : P key') :
    (cacheGetTwo key key').Calls fun o => o.isRead ∧ ∀ k ∈ o.keys, P k :=
  ⟨⟨rfl, by simpa [Op.keys] using ⟨h, h'⟩⟩, fun _ => trivial⟩

theorem loadContent_calls {P : Op → Prop} (hget : ∀ key, (cacheGet key).Calls P)
    {fileUrl expected : Str} {wheelSha256 : Option Str} {contentFirst : Bool} :
    (loadContent s fileUrl expected wheelSha256 contentFirst).Calls P := by
  unfold loadContent
  dsimp only
  split
  · refine (hget _).bind fun body => ?_
    split
    · exact hget _
    · trivial
  · cases wheelSha256 with
    | none => trivial
    | some wheel => exact hget _

/-- A record and its content are read key by key. -/
theorem loadMetadataForUrl_calls_of {P : Op → Prop} (hget : ∀ key, (cacheGet key).Calls P)
    (fileUrl : Str) (expectedWheelSha256 : Option Str) :
    (loadMetadataForUrl s fileUrl expectedWheelSha256).Calls P := by
  unfold loadMetadataForUrl
  refine (hget _).bind fun rawRecord => ?_
  split
  · trivial
  split
  · trivial
  · trivial
  split
  · trivial
  · refine (loadContent_calls s hget).bind fun body => ?_
    split <;> trivial

theorem looksAt_of_keys_nil {canonical : Str} {o : Op} (ho : o.isRead) (hkeys : o.keys = []) :
    o.LooksAt s canonical :=
  ⟨ho, by simp [hkeys]⟩

theorem scheduleMetadataEnrichment_calls (canonical canonical' body : Str) (isJson : Bool) :
    (scheduleMetadataEnrichment s canonical body isJson).Calls (Op.LooksAt s canonical') := by
  unfold scheduleMetadataEnrichment
  split
  · exact ⟨looksAt_of_keys_nil s rfl rfl, fun _ => trivial⟩
  · trivial

theorem ensureMetadataBackgroundWork_calls (canonical body : Str) (isJson : Bool) :
    (ensureMetadataBackgroundWork s canonical body isJson).Calls (Op.LooksAt s canonical) := by
  unfold ensureMetadataBackgroundWork
  split
  · trivial
  simp only [Prog.op_bind, Prog.calls_call]
  refine ⟨looksAt_of_keys_nil s rfl rfl, fun unfinished => ?_⟩
  split
  · trivial
  refine (cacheGet_calls (ownKey_again s canonical _)).bind fun discovered => ?_
  split
  · exact ⟨looksAt_of_keys_nil s rfl rfl, fun _ => trivial⟩
  refine ⟨⟨rfl, ?_⟩, fun ttl => ?_⟩
  · simpa [Op.keys] using ownKey_again s canonical (.body isJson)
  cases ttl with
  | none => trivial
  | some ttl => exact scheduleMetadataEnrichment_calls s _ _ body isJson

/-- A cached response is put together from what is read. -/
theorem cachedResponse_calls (canonical body : Str) (wantsJson : Bool) :
    (cachedResponse s canonical body wantsJson).Calls (Op.LooksAt s canonical) := by
  unfold cachedResponse
  split
  · refine ⟨⟨rfl, ?_⟩, fun ttl => ?_⟩
    · simpa [Op.keys] using
        ⟨ownKey_again s canonical (.metadataReady wantsJson), ownKey_again s canonical
          (.body wantsJson)⟩
    cases ttl with
    | none => exact (ensureMetadataBackgroundWork_calls s _ _ _).bind fun _ => trivial
    | some ttl => trivial
  · trivial

/-- A cached response carries the body and is a hit. -/
theorem cachedResponse_returns (canonical body : Str) (wantsJson : Bool) :
    (cachedResponse s canonical body wantsJson).Returns fun reply =>
      reply.body = body ∧ dictGet reply.headers ("X-Cache" : Str) = some ("HIT" : Str) := by
  unfold cachedResponse
  split
  · simp only [metadataResponseCacheTtl, Prog.op_bind, Prog.returns_call]
    intro ttl
    cases ttl with
    | none => exact Prog.Returns.bind_of_forall _ fun _ => ⟨rfl, rfl⟩
    | some ttl => exact ⟨rfl, rfl⟩
  · exact ⟨rfl, rfl⟩

/-! ## What the batches hold -/

section Batches

variable {s : Site} {r : ProjectRequest} {x : Write} {ttl : ℤ} {body : Str}

theorem mem_conversionValues {staleTtl : Option ℤ} :
    x ∈ conversionValues r ttl staleTtl body ↔
      x = ⟨r.cacheKey, ttl, body⟩ ∨ ∃ n, staleTtl = some n ∧ x = ⟨r.staleKey, n, body⟩ := by
  cases staleTtl <;> simp [conversionValues]

theorem mem_validatorValues {etag lastMod : Option Str} :
    x ∈ validatorValues s r etag lastMod ↔
      (∃ v, (etag = some v ∧ v ≠ []) ∧ x = ⟨r.etagKey, s.settings.cacheStaleTtlSeconds, v⟩) ∨
      (∃ v, (lastMod = some v ∧ v ≠ []) ∧
        x = ⟨r.lastmodKey, s.settings.cacheStaleTtlSeconds, v⟩) := by
  simp [validatorValues, Option.filter_eq_some_iff, @eq_comm _ x]

theorem mem_bodyValues {canonical : Str} {isJson : Bool} :
    x ∈ bodyValues s canonical isJson ttl body ↔
      x = ⟨projectKey canonical (.body isJson), ttl, body⟩ ∨
      x = ⟨projectKey canonical (.stale isJson), s.settings.cacheStaleTtlSeconds, body⟩ := by
  simp [bodyValues]

theorem mem_refreshedValues {etag lastMod otherStale : Option Str} {responseJson : Bool} :
    x ∈ refreshedValues s r etag lastMod ttl responseJson body otherStale ↔
      x = ⟨projectKey r.canonical (.body responseJson), ttl, body⟩ ∨
      x ∈ validatorValues s r etag lastMod ∨
      (responseJson = r.wantsJson ∧ ∃ other, (otherStale = some other ∧ other ≠ []) ∧
        x = ⟨r.otherKey, ttl, other⟩) := by
  unfold refreshedValues
  rw [List.mem_cons, List.mem_append]
  cases hother : otherStale.filter (· ≠ []) with
  | none =>
    have : ∀ o, otherStale = some o → o = [] := by
      simpa [Option.filter_eq_none_iff] using hother
    have hnone : ¬ ∃ other, (otherStale = some other ∧ other ≠ []) ∧ x = ⟨r.otherKey, ttl, other⟩ :=
      fun ⟨o, ⟨ho, hne⟩, _⟩ => hne (this o ho)
    simp [hnone]
  | some o =>
    obtain ⟨rfl, hne⟩ : otherStale = some o ∧ o ≠ [] := by
      simpa [Option.filter_eq_some_iff] using hother
    by_cases hjson : responseJson = r.wantsJson <;> simp [hjson, hne]

end Batches

/-! ## Serving from the cache -/

section Serving

variable {W : Type} {F : Effects Op Ret W} {I : W → Prop} {R G : W → W → Prop} {t : ℕ} {w : W}
  {s : Site} {r : ProjectRequest}

/-- A part that only reads, and what follows it. -/
theorem wp_read_bind {α β : Type} {A : W → Prop} {Q : β → W → Prop} {P : Op → Prop}
    {p : Program α} {f : α → Program β} (hread : ∀ o : Op, o.isRead → F.Keeps I R G t A o)
    (hp : p.Calls fun o => o.isRead ∧ P o) (hA : A w)
    (hf : ∀ a w, A w → F.wp I R G t Q (f a) w) : F.wp I R G t Q (p >>= f) w :=
  Effects.wp_bind.mpr
    (Effects.wp_mono (Effects.wp_of_keeps hA (hp.mono fun o ho => hread o ho.1))
      fun a w hw => hf a w hw)

/-- A key is read in a world where the assertion holds. -/
theorem wp_cacheGet {α : Type} (view : W → World) (A : W → Prop) {Q : α → W → Prop} {key : Str}
    {f : Option Str → Program α} (hA : A w) (hstable : ∀ w w', A w → R w w' → A w')
    (hG : ∀ w, G w w)
    (hexec : ∀ w values w', F.exec t (.getMany [key]) w values w' →
      values = [(view w).get key] ∧ w' = w)
    (h : ∀ w, A w → I w → F.wp I R G t Q (f ((view w).get key)) w) :
    F.wp I R G t Q (cacheGet key >>= f) w := by
  refine Effects.wp_call_of_stable hA hstable fun w₁ values w₂ hA₁ hI hex => ?_
  obtain ⟨rfl, rfl⟩ := hexec w₁ values w₂ hex
  exact ⟨hI, hG _, h _ hA₁ hI⟩

/-- Two keys are read in a world where the assertion holds. -/
theorem wp_cacheGetTwo {α : Type} (view : W → World) (A : W → Prop) {Q : α → W → Prop}
    {key key' : Str} {f : Option Str × Option Str → Program α} (hA : A w)
    (hstable : ∀ w w', A w → R w w' → A w') (hG : ∀ w, G w w)
    (hexec : ∀ w values w', F.exec t (.getMany [key, key']) w values w' →
      values = [(view w).get key, (view w).get key'] ∧ w' = w)
    (h : ∀ w, A w → I w → F.wp I R G t Q (f ((view w).get key, (view w).get key')) w) :
    F.wp I R G t Q (cacheGetTwo key key' >>= f) w := by
  refine Effects.wp_call_of_stable hA hstable fun w₁ values w₂ hA₁ hI hex => ?_
  obtain ⟨rfl, rfl⟩ := hexec w₁ values w₂ hex
  exact ⟨hI, hG _, h _ hA₁ hI⟩

/-- What the calls of `_try_serve_from_cache` do to an assertion `A`: reading
keeps it, and from a sampled lifetime (`S`) the conditional write of a converted
body leads back to it. -/
structure Serves (F : Effects Op Ret W) (I : W → Prop) (R G : W → W → Prop) (t : ℕ) (s : Site)
    (r : ProjectRequest) (A : W → Prop) (S : ℤ → W → Prop) : Prop where
  read : ∀ o : Op, o.isRead → F.Keeps I R G t A o
  elapse : F.Keeps I R G t A .elapse
  sample : ∀ w, A w → F.wp I R G t (fun ttl w => A w ∧ ∀ n, ttl = some n → S n w)
    (call (.ttl r.otherKey)) w
  resample : ∀ n, F.Keeps I R G t (S n) (.ttl r.otherStaleKey)
  commit : ∀ other body n staleTtl,
    convertBody s r.canonical r.wantsJson other = .ok body → ∀ w, S n w →
      F.wp I R G t (fun _ => A)
        (call (.setexManyIfUnchanged [(r.otherKey, some other)]
          (conversionValues r n staleTtl body))) w

variable {A : W → Prop} {S : ℤ → W → Prop}

theorem Serves.wp_storeConversion (h : Serves F I R G t s r A S) {other body : Str}
    (hbody : convertBody s r.canonical r.wantsJson other = .ok body) (hA : A w) :
    F.wp I R G t (fun _ => A) (storeConversion s r other body) w := by
  unfold storeConversion
  refine Effects.wp_bind.mpr (Effects.wp_mono (h.sample w hA) ?_)
  rintro (_ | n) w₁ ⟨hA₁, hS⟩
  · exact hA₁
  refine Effects.wp_bind.mpr
    (Effects.wp_mono (h.resample n w₁ (hS n rfl)) fun staleTtl w₂ hS₂ => ?_)
  refine Effects.wp_bind.mpr (Effects.wp_mono (h.commit other body n staleTtl hbody w₂ hS₂) ?_)
  rintro (_ | _) w₃ hA₃
  · exact hA₃
  · exact wp_read_bind h.read (scheduleMetadataEnrichment_calls s _ r.canonical _ _) hA₃
      fun _ _ hA₄ => hA₄

theorem Serves.wp_serveOther (h : Serves F I R G t s r A S) (other : Str) (hA : A w) :
    F.wp I R G t (fun _ => A) (serveOther s r other) w := by
  unfold serveOther
  split
  · exact wp_read_bind h.read (cachedResponse_calls s _ _ _) hA fun _ _ hA₁ => hA₁
  refine Effects.wp_bind.mpr (Effects.wp_mono (h.elapse w hA) fun _ w₁ hA₁ => ?_)
  split
  · next body hbody => exact h.wp_storeConversion hbody hA₁
  · exact hA₁

/-- Serving from the cache keeps the assertion. -/
theorem Serves.wp_tryServeFromCache (h : Serves F I R G t s r A S) (hA : A w) :
    F.wp I R G t (fun _ => A) (tryServeFromCache s r) w := by
  unfold tryServeFromCache
  refine wp_read_bind h.read (cacheGetTwo_calls (ownKey s _ _) (ownKey s _ _)) hA ?_
  rintro ⟨notFound, cached⟩ w₁ hA₁
  dsimp only
  split
  · exact hA₁
  split
  · exact wp_read_bind h.read (cachedResponse_calls s _ _ _) hA₁ fun _ _ hA₂ => hA₂
  refine wp_read_bind h.read (cacheGet_calls (ownKey s r.canonical _)) hA₁ fun other w₂ hA₂ => ?_
  split
  · next other _ => exact h.wp_serveOther other hA₂
  · exact hA₂

end Serving

/-! ## Fetching from the upstream -/

section Fetching

variable {W : Type} {F : Effects Op Ret W} {I : W → Prop} {R G : W → W → Prop} {t : ℕ} {w : W}

/-- The batch of a 200: its validators, and bodies for as long as it allows. -/
def IsFill (s : Site) (r : ProjectRequest) (response : UpstreamResponse) (values : List Write) :
    Prop :=
  ∃ bodies, values = validatorValues s r response.etag response.lastModified ++ bodies ∧
    ∀ x ∈ bodies, ∃ isJson body, x ∈
      bodyValues s r.canonical isJson (effectiveProjectTtl s.settings response.cacheControl) body

/-- The batch of a 304. -/
def IsRefresh (s : Site) (r : ProjectRequest) (response : UpstreamResponse) (values : List Write) :
    Prop :=
  ∃ etag lastMod responseJson body otherStale, values = refreshedValues s r etag lastMod
    (effectiveProjectTtl s.settings response.cacheControl) responseJson body otherStale

/-- What the calls of a fetch do to the assertions `L`, before an answer and
after its batch, and `A response`, from the answer to its batch. -/
structure Fetches (F : Effects Op Ret W) (I : W → Prop) (R G : W → W → Prop) (t : ℕ) (s : Site)
    (r : ProjectRequest) (L : W → Prop) (A : UpstreamResponse → W → Prop) : Prop where
  read : ∀ o : Op, o.isRead → F.Keeps I R G t L o
  get : ∀ request w, L w → F.wp I R G t
    (fun answer w => L w ∧ ∀ response, answer = some response → A response w)
    (call (.httpGet request)) w
  leave : ∀ response w, A response w → L w
  lookup : ∀ response keys, F.Keeps I R G t (A response) (.getMany keys)
  mark : ∀ response w, response.status = 404 → A response w →
    F.wp I R G t (fun _ => L) (cacheSetex r.notFoundKey s.settings.cache404Ttl ("1" : Str)) w
  fill : ∀ response values w, response.status = 200 → IsFill s r response values →
    A response w → F.wp I R G t (fun _ => L) (call (.setexMany values)) w
  restale : ∀ response other w, response.status = 304 → A response w →
    F.wp I R G t (fun _ => A response)
      (cacheSetex r.otherStaleKey s.settings.cacheStaleTtlSeconds other) w
  refresh : ∀ response values w, response.status = 304 → IsRefresh s r response values →
    A response w → F.wp I R G t (fun _ => L) (call (.setexMany values)) w
  ready : ∀ body isJson ttl w, L w → F.wp I R G t (fun _ => L)
    (refreshMetadataResponseReadiness s r.canonical body isJson ttl) w

namespace Fetches

variable {s : Site} {r : ProjectRequest} {L : W → Prop} {A : UpstreamResponse → W → Prop}
  {response : UpstreamResponse}

/-- A part that only reads, and the end. -/
theorem wp_read_ret (h : Fetches F I R G t s r L A) {α β : Type} {p : Program α} {f : α → β}
    {P : Op → Prop} (hp : p.Calls fun o => o.isRead ∧ P o) (hL : L w) :
    F.wp I R G t (fun _ => L) (p >>= fun a => .ret (f a)) w :=
  wp_read_bind h.read hp hL fun _ _ hL₁ => hL₁

theorem wp_storeFill (h : Fetches F I R G t s r L A) (hstatus : response.status = 200)
    (hA : A response w) : F.wp I R G t (fun _ => L) (storeFill s r response) w := by
  unfold storeFill
  dsimp only
  split
  · split
    · exact h.leave _ _ hA
    · refine Effects.wp_bind.mpr (Effects.wp_mono (h.fill _ _ w hstatus ⟨_, rfl, ?_⟩ hA) ?_)
      · exact fun x hx => ⟨_, _, hx⟩
      · exact fun _ _ hL => h.wp_read_ret (scheduleMetadataEnrichment_calls s _ r.canonical _ _) hL
  · split
    · exact h.leave _ _ hA
    · refine Effects.wp_bind.mpr (Effects.wp_mono (h.fill _ _ w hstatus ⟨_, rfl, ?_⟩ hA) ?_)
      · intro x hx
        split at hx <;> rcases List.mem_append.mp hx with hx | hx <;> exact ⟨_, _, hx⟩
      · exact fun _ _ hL => h.wp_read_ret (scheduleMetadataEnrichment_calls s _ r.canonical _ _) hL

/-- Any answer but a 304. -/
theorem wp_answer (h : Fetches F I R G t s r L A) (hA : A response w) :
    F.wp I R G t (fun _ => L) (answer s r response) w := by
  unfold answer
  split
  · next hstatus =>
    exact Effects.wp_bind.mpr (Effects.wp_mono (h.mark _ _ hstatus hA) fun _ _ hL => hL)
  split
  · exact h.leave _ _ hA
  · next hok => exact h.wp_storeFill (not_not.mp hok) hA

/-- A GET, and what is done with the answer. -/
theorem wp_httpGet (h : Fetches F I R G t s r L A) {request : UpstreamRequest}
    {k : Option UpstreamResponse → Program Outcome} (hL : L w)
    (hnone : k none = .ret (.error upstreamError))
    (hsome : ∀ response w, A response w → F.wp I R G t (fun _ => L) (k (some response)) w) :
    F.wp I R G t (fun _ => L) (call (.httpGet request) >>= k) w := by
  refine Effects.wp_bind.mpr (Effects.wp_mono (h.get request w hL) ?_)
  rintro (_ | response) w₁ ⟨hL₁, hA⟩
  · rw [hnone]
    exact hL₁
  · exact hsome response w₁ (hA response rfl)

theorem wp_refetch (h : Fetches F I R G t s r L A) (hL : L w) :
    F.wp I R G t (fun _ => L) (refetch s r) w := by
  unfold refetch
  refine h.wp_httpGet hL rfl fun response w₁ hA => ?_
  dsimp only
  split
  · exact h.leave _ _ hA
  · exact h.wp_answer hA

/-- A 304 with a body to serve. -/
theorem wp_refresh (h : Fetches F I R G t s r L A) (hstatus : response.status = 304)
    (hA : A response w) {etag lastMod otherStale : Option Str} {responseJson : Bool} {body : Str} :
    F.wp I R G t (fun _ => L)
      (App.refresh s r etag lastMod response responseJson body otherStale) w := by
  have hreply : ∀ w, L w → F.wp I R G t (fun _ => L)
      (cachedResponse s r.canonical body responseJson >>= fun reply =>
        (.ret (.ok { reply with
          headers := dictSet reply.headers ("X-Cache" : Str) ("REVALIDATED" : Str) }) :
            Program Outcome)) w :=
    fun w hL => h.wp_read_ret (cachedResponse_calls s _ _ _) hL
  unfold App.refresh
  refine Effects.wp_bind.mpr
    (Effects.wp_mono (h.refresh _ _ w hstatus ⟨_, _, _, _, _, rfl⟩ hA) fun _ w₁ hL => ?_)
  split
  · exact Effects.wp_bind.mpr (Effects.wp_mono (h.ready _ _ _ w₁ hL) fun _ w₂ hL₂ => hreply w₂ hL₂)
  · exact hreply w₁ hL

theorem wp_synthesizeStale (h : Fetches F I R G t s r L A) (hstatus : response.status = 304)
    (hA : A response w) {etag lastMod : Option Str} {other : Str} :
    F.wp I R G t (fun _ => L) (synthesizeStale s r etag lastMod response other) w := by
  unfold synthesizeStale
  split
  · exact h.wp_refresh hstatus hA
  split
  · split
    · exact h.wp_refetch (h.leave _ _ hA)
    · exact h.leave _ _ hA
  · exact Effects.wp_bind.mpr
      (Effects.wp_mono (h.restale _ _ w hstatus hA) fun _ w₁ hA₁ => h.wp_refresh hstatus hA₁)

/-- The 304 branch. -/
theorem wp_notModified (h : Fetches F I R G t s r L A) (hstatus : response.status = 304)
    (hA : A response w) {etag lastMod : Option Str} :
    F.wp I R G t (fun _ => L) (notModified s r etag lastMod response) w := by
  have hlookup : (cacheGetTwo r.staleKey r.otherStaleKey).Calls
      (F.Keeps I R G t (A response)) := ⟨h.lookup response _, fun _ => trivial⟩
  unfold notModified
  refine Effects.wp_bind.mpr (Effects.wp_mono (Effects.wp_of_keeps hA hlookup) ?_)
  rintro ⟨stale, otherStale⟩ w₁ hA₁
  dsimp only
  split
  · exact h.wp_refresh hstatus hA₁
  · exact h.wp_synthesizeStale hstatus hA₁
  · exact h.wp_refetch (h.leave _ _ hA₁)

/-- A miss, from the validators to the batch of the answer. -/
theorem wp_fetchUpstream (h : Fetches F I R G t s r L A) (hL : L w) :
    F.wp I R G t (fun _ => L) (fetchUpstream s r) w := by
  have hget : ∀ etag lastMod w, L w →
      F.wp I R G t (fun _ => L) (conditionalGet s r etag lastMod) w := by
    intro etag lastMod w hL
    unfold conditionalGet
    refine h.wp_httpGet hL rfl fun response w₁ hA => ?_
    dsimp only
    split
    · next hstatus => exact h.wp_notModified hstatus hA
    · exact h.wp_answer hA
  have hexists : (call (.existsAny [r.staleKey, r.otherStaleKey])).Calls
      fun o => o.isRead ∧ True := ⟨⟨rfl, trivial⟩, fun _ => trivial⟩
  unfold fetchUpstream
  refine wp_read_bind h.read hexists hL fun found w₁ hL₁ => ?_
  split
  · refine wp_read_bind h.read (cacheGetTwo_calls (ownKey s _ _) (ownKey s _ _)) hL₁ ?_
    exact fun validators w₂ hL₂ => hget _ _ w₂ hL₂
  · exact hget _ _ w₁ hL₁

/-- What runs under the fill lock. -/
theorem wp_fill (h : Fetches F I R G t s r L A) {S : ℤ → W → Prop}
    (hserves : Serves F I R G t s r L S) (hL : L w) :
    F.wp I R G t (fun _ => L) (App.fill s r) w := by
  unfold App.fill
  refine Effects.wp_bind.mpr (Effects.wp_mono (hserves.wp_tryServeFromCache hL) ?_)
  rintro (e | _ | hit) w₁ hL₁
  · exact hL₁
  · exact h.wp_fetchUpstream hL₁
  · exact hL₁

end Fetches

end Fetching

/-- A reply of `_try_serve_from_cache` is a hit. -/
def IsHit (result : Except Failure (Option Reply)) : Prop :=
  ∀ reply, result = .ok (some reply) →
    dictGet reply.headers ("X-Cache" : Str) ∈ [some ("HIT" : Str), some ("HIT-synthesized" : Str)]

theorem cachedResponse_isHit (canonical body : Str) (wantsJson : Bool) :
    (do let reply ← cachedResponse s canonical body wantsJson
        return .ok (some reply) : Program (Except Failure (Option Reply))).Returns IsHit := by
  refine (cachedResponse_returns s canonical body wantsJson).bind ?_
  rintro reply ⟨-, hhit⟩ _ ⟨⟩
  exact List.mem_cons.mpr (.inl hhit)

theorem tryServeFromCache_isHit (r : ProjectRequest) :
    (tryServeFromCache s r).Returns IsHit := by
  have hnone : ∀ e : Except Failure (Option Reply), (∀ reply, e ≠ .ok (some reply)) → IsHit e :=
    fun e he reply h => absurd h (he reply)
  unfold tryServeFromCache
  refine Prog.Returns.bind_of_forall _ fun ⟨notFound, cached⟩ => ?_
  dsimp only
  split
  · exact hnone _ (by simp)
  split
  · exact cachedResponse_isHit s _ _ _
  refine Prog.Returns.bind_of_forall _ fun other => ?_
  split
  · unfold serveOther
    split
    · exact cachedResponse_isHit s _ _ _
    refine Prog.Returns.bind_of_forall _ fun _ => ?_
    split
    · unfold storeConversion
      refine Prog.Returns.bind_of_forall _ fun otherTtl => ?_
      cases otherTtl with
      | none => exact hnone _ (by simp)
      | some otherTtl =>
        refine Prog.Returns.bind_of_forall _ fun _ => Prog.Returns.bind_of_forall _
          fun committed => ?_
        split
        · refine Prog.Returns.bind_of_forall _ fun _ => ?_
          rintro _ ⟨⟩
          exact List.mem_cons_of_mem _ List.mem_cons_self
        · exact hnone _ (by simp)
    · exact hnone _ (by split <;> simp)
  · exact hnone _ (by simp)

end ProxyCache.App
