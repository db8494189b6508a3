import ProxyCache.App.BackgroundRules
import ProxyCache.App.Systems
import ProxyCache.Lib.Conditions

/-!
# A stampede on a missing project

Any number of requests for one project, with the background tasks, in one process. The
fill lock and the look at the cache inside it let one request ask the upstream; the
others find what it has stored, unless that is empty, cannot be converted, or is
replaced between the reading of it and the conditional write of its conversion.
-/

namespace ProxyCache.Theorems.Stampede

open ProxyCache.Lib ProxyCache.Python ProxyCache.App

variable (s : Site) (c : Str)

/-! ## The service -/

/-- No entry of the project has less than a second left. -/
def Unexpired (w : World) : Prop :=
  ∀ part entry, w.store (projectKey c part) = some entry → w.now + 1 ≤ entry.expiry

/-- The clock advances and the upstream publishes; nothing is evicted. -/
def Ticks (w w' : World) : Prop :=
  ∃ now version, w.now ≤ now ∧ w.version ≤ version ∧ w' = { w with now, version }

/-- Requests for the project and its background tasks, from a cache without entries for
the project, while nothing expires. -/
def service (B : Backend) (upstream : Upstream) :
    System Op Ret World (ProjectTask s c) TaskResult where
  yields := B.yields
  exec t o w r w' := exec B upstream t o w r w' ∧ Unexpired c w'
  prog task := task.prog 0
  init w := (∀ part, w.store (projectKey c part) = none) ∧ (∀ lock, w.held lock = none) ∧ w.log = []
  env w w' := Ticks w w' ∧ Unexpired c w'

/-- The step is a GET. -/
def isGet : Event Op Ret (ProjectTask s c) → Bool
  | .call _ (.httpGet _) _ => true
  | _ => false

def isExchange : Record → Bool
  | .exchange .. => true
  | _ => false

/-- How many GETs were answered. -/
def gets (log : List Record) : ℕ := log.countP isExchange

/-! ## The condition -/

/-- The answer of the first GET can be stored: it is a 404, or a 200 whose text is
rewritten, and converted if the client wants the other format, without an exception. -/
def Storable (q : ProjectRequest) (response : UpstreamResponse) : Prop :=
  response.status = 404 ∨ response.status = 200 ∧
    if isUpstreamJson response == q.wantsJson ||
        (!isUpstreamJson response && q.allowHtmlPassthrough) then
      ∃ body, rewriteSimpleBody s.U s.D s.settings response.text
      (isUpstreamJson response) = .ok body
    else
      ∃ bodies, synthesizeBodies s q.canonical (isUpstreamJson response) response.content
        response.text = .ok bodies

/-- A body of the other format serves the request: it is not empty, and the client takes
it as it is, or its conversion raises none of the exceptions that are caught. -/
def Serves (q : ProjectRequest) (other : Str) : Prop :=
  other ≠ [] ∧ ((q.wantsJson && q.allowHtmlPassthrough) = true ∨
    ∀ e, convertBody s q.canonical q.wantsJson other = .error e → isCaught e = false)

/-- The task is inside the fill lock. -/
def Holds (t : ℕ) (w : World) : Prop := w.held (0, fillLockKey c) = some t

/-- What a request is behind `project` and the `Accept` header. -/
def query {s : Site} {c : Str} (r : Request s c) : ProjectRequest :=
  projectRequest s r.project r.accept

/-- The condition on a step of a request: the first GET has a storable answer; and when
the request looks at the cache inside the fill lock, an empty body leaves the other format
to serve it, the other format does serve it, and between reading that and storing its
conversion nothing replaces it. -/
def Smooth (B : Backend) (t : ℕ) : ProjectTask s c → (o : Op) → World → Ret o → Prop
  | task, .httpGet _, w, answer => gets w.log = 0 → ∃ response, answer = some response ∧
    ∀ r, task = .request r → Storable s (query r) response
  | .request r, .getMany keys, w, _ => Holds c t w →
    (keys = [(query r).notFoundKey, (query r).cacheKey] →
      w.get (query r).cacheKey = some [] → (w.get (query r).otherKey).isSome = true) ∧
    (keys = [(query r).otherKey] →
      ∀ other, w.get (query r).otherKey = some other → Serves s (query r) other)
  | .request _, .setexManyIfUnchanged expected _, w, _ =>
    B = .redis → Holds c t w → w.store.Matches w.now expected
  | _, _, _, _ => True

/-! ## The discipline -/

/-- Something is cached that answers a request. -/
def Served (w : World) : Prop :=
  (w.store (projectKey c .notFound)).isSome = true ∨
    ∃ isJson, (w.store (projectKey c (.body isJson))).isSome = true

structure Inv (w : World) : Prop where
  unexpired : Unexpired c w
  once : gets w.log ≤ 1
  cold : gets w.log = 0 → ∀ part, w.store (projectKey c part) = none
  served : gets w.log = 1 → w.held (0, fillLockKey c) = none → Served c w

/-- What a task relies on: nothing vanishes, its lock stays its own, and inside it nobody
else asks the upstream. -/
structure Rely (t : ℕ) (w w' : World) : Prop where
  stored : ∀ key, (w.store key).isSome = true → (w'.store key).isSome = true
  holds : Holds c t w → Holds c t w'
  grows : gets w.log ≤ gets w'.log
  still : Holds c t w → gets w'.log = gets w.log

def Guar (t : ℕ) (w w' : World) : Prop := ∀ u, u ≠ t → Rely c u w w'

section Worlds

variable {c} {t u : ℕ} {w w' w'' : World} {part : ProjectPart}

theorem Rely.refl : Rely c t w w := ⟨fun _ => id, id, le_refl _, fun _ => rfl⟩

theorem Rely.trans (h : Rely c t w w') (h' : Rely c t w' w'') : Rely c t w w'' where
  stored key hkey := h'.stored key (h.stored key hkey)
  holds hw := h'.holds (h.holds hw)
  grows := h.grows.trans h'.grows
  still hw := (h'.still (h.holds hw)).trans (h.still hw)

theorem guar_refl : Guar c t w w := fun _ _ => Rely.refl

theorem Served.rely (h : Served c w) (hrely : Rely c t w w') : Served c w' := by
  rcases h with h | ⟨isJson, h⟩
  · exact .inl (hrely.stored _ h)
  · exact .inr ⟨isJson, hrely.stored _ h⟩

/-- What is stored for the project is live. -/
theorem get_of_stored (h : Unexpired c w) (hstored : (w.store (projectKey c part)).isSome = true) :
    (w.get (projectKey c part)).isSome = true := by
  obtain ⟨entry, hentry⟩ := Option.isSome_iff_exists.mp hstored
  have hlive : w.now < entry.expiry := by linarith [h part entry hentry]
  have hget : w.get (projectKey c part) = some entry.value :=
    Store.get_eq_some.mpr ⟨entry, hentry, hlive, rfl⟩
  rw [hget]
  rfl

/-- It stays live while time passes. -/
theorem get_of_later {now : ℚ} {value : Str} (h : Unexpired c { w with now })
    (hget : w.get (projectKey c part) = some value) :
    ({ w with now } : World).get (projectKey c part) = some value := by
  obtain ⟨entry, hentry, -, hvalue⟩ := Store.get_eq_some.mp hget
  have hlive : now < entry.expiry := by linarith [h part entry hentry]
  exact Store.get_eq_some.mpr ⟨entry, hentry, hlive, hvalue⟩

theorem stored_of_get {key value : Str} (h : w.get key = some value) :
    (w.store key).isSome = true := by
  obtain ⟨entry, hentry, -⟩ := Store.get_eq_some.mp h
  rw [hentry]
  rfl

/-- It has a second left at least. -/
theorem ttl_of_stored {B : Backend} (h : Unexpired c w)
    (hstored : (w.store (projectKey c part)).isSome = true) :
    ∃ n, (w.expiry (projectKey c part)).bind (fun e => B.ttl (e - w.now)) = some n := by
  obtain ⟨entry, hentry⟩ := Option.isSome_iff_exists.mp hstored
  have hleft : w.now + 1 ≤ entry.expiry := h part entry hentry
  have hexpiry : w.expiry (projectKey c part) = some entry.expiry :=
    World.expiry_eq_some.mpr ⟨entry.value, hentry, by linarith⟩
  have hone : 1 ≤ B.wholeSeconds (entry.expiry - w.now) := by
    cases B with
    | memory => exact Int.le_floor.mpr (by push_cast; linarith)
    | redis => exact Int.le_floor.mpr (by push_cast; linarith)
  rw [hexpiry]
  exact ⟨_, if_pos (by omega)⟩

/-- What is cached was asked for. -/
theorem asked_of_stored (h : Inv c w) (hstored : (w.store (projectKey c part)).isSome = true) :
    1 ≤ gets w.log := by
  by_contra hnone
  rw [h.cold (by omega) part] at hstored
  cases hstored

theorem stored_write {values : List Write} {key : Str} (h : (w.store key).isSome = true) :
    ((w.write values).store key).isSome = true := by
  rcases Store.putMany_cases w.store (w.entries values) key with ⟨hsame, -⟩ | ⟨e, -, hnew⟩
  · show (w.store.putMany (w.entries values) key).isSome = true
    rw [hsame]
    exact h
  · show (w.store.putMany (w.entries values) key).isSome = true
    rw [hnew]
    rfl

/-- An entry of the batch is stored. -/
theorem stored_of_mem {values : List Write} {x : Write} (hx : x ∈ values) :
    ((w.write values).store x.key).isSome = true := by
  rcases Store.putMany_cases w.store (w.entries values) x.key with ⟨-, hne⟩ | ⟨e, -, hnew⟩
  · exact absurd rfl (hne _ (List.mem_map_of_mem hx))
  · show (w.store.putMany (w.entries values) x.key).isSome = true
    rw [hnew]
    rfl

/-- A step that stores entries, and neither asks nor touches the fill lock. -/
structure Quiet (c : Str) (w w' : World) : Prop where
  stored : ∀ key, (w.store key).isSome = true → (w'.store key).isSome = true
  held : w'.held (0, fillLockKey c) = w.held (0, fillLockKey c)
  asks : gets w'.log = gets w.log

theorem Quiet.rely (h : Quiet c w w') : Rely c t w w' where
  stored := h.stored
  holds hw := h.held.trans hw
  grows := h.asks.ge
  still _ := h.asks

theorem Quiet.guar (h : Quiet c w w') : Guar c t w w' := fun _ _ => h.rely

theorem Quiet.inv (h : Quiet c w w') (hI : Inv c w) (hunexpired : Unexpired c w')
    (hcold : gets w.log = 0 → ∀ part, w'.store (projectKey c part) = w.store (projectKey c part)) :
    Inv c w' where
  unexpired := hunexpired
  once := h.asks ▸ hI.once
  cold hgets part := by
    rw [h.asks] at hgets
    rw [hcold hgets part]
    exact hI.cold hgets part
  served hgets hheld := by
    rw [h.asks] at hgets
    rw [h.held] at hheld
    exact (hI.served hgets hheld).rely (t := 0) h.rely

theorem quiet_write {values : List Write} {r : Record} (hr : isExchange r = false) :
    Quiet c w ((w.write values).record r) where
  stored _ := stored_write
  held := rfl
  asks := by
    show (r :: w.log).countP isExchange = w.log.countP isExchange
    rw [List.countP_cons, hr]
    rfl

end Worlds

/-! ## Looking at the cache -/

/-- A task can run `p` within the discipline, whatever the upstream answers. -/
abbrev Runs {α : Type} (B : Backend) (t : ℕ) (task : ProjectTask s c) (Q : α → World → Prop)
    (p : Program α) (w : World) : Prop :=
  ((service s c B fun _ _ _ => True).under (Smooth s c B) task).wp (Inv c) (Rely c t) (Guar c t)
    t Q p w

section Looking

variable {s c} {B : Backend} {t : ℕ} {w w' : World} {task : ProjectTask s c} {r : Request s c}
  {A : World → Prop}

theorem query_canonical (r : Request s c) : (query r).canonical = c := r.canonical

theorem query_notFoundKey (r : Request s c) : (query r).notFoundKey = projectKey c .notFound := by
  rw [ProjectRequest.notFoundKey, query_canonical]

theorem query_cacheKey (r : Request s c) :
    (query r).cacheKey = projectKey c (.body (query r).wantsJson) := by
  rw [ProjectRequest.cacheKey, query_canonical]

theorem query_otherKey (r : Request s c) :
    (query r).otherKey = projectKey c (.body !(query r).wantsJson) := by
  rw [ProjectRequest.otherKey, query_canonical]

theorem keeps_read (hstable : ∀ w w', A w → Rely c t w w' → A w') {o : Op} (ho : o.isRead) :
    ((service s c B fun _ _ _ => True).under (Smooth s c B) task).Keeps (Inv c) (Rely c t)
      (Guar c t) t A o := by
  intro w hA
  refine Effects.wp_call_of_stable hA hstable fun w₁ a w₂ hA₁ hI hex => ?_
  obtain rfl := eq_of_isRead ho hex.1.1
  exact ⟨hI, guar_refl, hA₁⟩

/-- What a look at the cache ends with: a hit, or a failure that is an answer too, means
that the upstream was asked; and where the project is served it is one of these. -/
def Found (A : World → Prop) (P : Prop) (result : Except Failure (Option Reply)) (w : World) :
    Prop :=
  A w ∧ (result = .ok none ∨ 1 ≤ gets w.log) ∧ (P → result ≠ .ok none)

/-- The other body has been read, and is still stored. -/
structure Source (A : World → Prop) (B : Backend) (r : Request s c) (other : Str) (w : World) :
    Prop where
  kept : A w
  asked : 1 ≤ gets w.log
  stored : (w.store (query r).otherKey).isSome = true
  same : B = .memory → w.get (query r).otherKey = some other

theorem Source.rely {other : Str} (hstable : ∀ w w', A w → Rely c t w w' → A w')
    (h : Source A B r other w) (hB : B ≠ .memory) (hrely : Rely c t w w') :
    Source A B r other w' where
  kept := hstable w w' h.kept hrely
  asked := h.asked.trans hrely.grows
  stored := hrely.stored _ h.stored
  same hmemory := absurd hmemory hB

/-- A response put together from the cache. -/
theorem runs_cachedResponse {P : Prop} (hstable : ∀ w w', A w → Rely c t w w' → A w') (hA : A w)
    (hasked : 1 ≤ gets w.log) {canonical body : Str} {isJson : Bool} :
    Runs s c B t task (Found A P) (do
      let reply ← cachedResponse s canonical body isJson
      return .ok (some reply)) w := by
  have hstable' : ∀ w w', (A w ∧ 1 ≤ gets w.log) → Rely c t w w' → A w' ∧ 1 ≤ gets w'.log :=
    fun w w' h hrely => ⟨hstable w w' h.1 hrely, h.2.trans hrely.grows⟩
  apply wp_read_bind (fun o ho => keeps_read hstable' ho)
    (cachedResponse_calls s canonical body isJson)
    ⟨hA, hasked⟩
  intro reply w h
  exact ⟨h.1, .inr h.2, fun _ => nofun⟩

/-- The conversion of the other body is stored, unless that has been replaced. -/
theorem runs_storeConversion {P : Prop} {other body : Str}
    (hstable : ∀ w w', A w → Rely c t w w' → A w') (hP : P → ∀ w, A w → Holds c t w)
    (h : Source A B r other w) :
    Runs s c B t (.request r) (Found A P) (storeConversion s (query r) other body) w := by
  unfold storeConversion
  -- on the memory backend nobody runs between the three calls
  refine Effects.wp_call_of_yields h (fun hyields _ _ h hrely => ?_)
    fun w₁ otherTtl w₂ h₁ hI hex => ?_
  · exact h.rely hstable (by rintro rfl; cases hyields) hrely
  obtain ⟨⟨⟨httl, hw₂⟩, -⟩, -⟩ := hex
  subst hw₂
  have hstored := h₁.stored
  rw [query_otherKey] at hstored
  obtain ⟨n, hn⟩ := ttl_of_stored (B := B) hI.unexpired hstored
  rw [query_otherKey, hn] at httl
  subst httl
  refine ⟨hI, guar_refl, ?_⟩
  refine Effects.wp_call_of_yields h₁ (fun hyields _ _ h hrely => ?_)
    fun w₁ staleTtl w₂ h₁ hI hex => ?_
  · exact h.rely hstable (by rintro rfl; cases hyields) hrely
  obtain ⟨⟨⟨-, hw₂⟩, -⟩, -⟩ := hex
  subst hw₂
  refine ⟨hI, guar_refl, ?_⟩
  refine Effects.wp_call_of_yields h₁ (fun hyields _ _ h hrely => ?_)
    fun w₁ committed w₂ h₁ hI hex => ?_
  · exact h.rely hstable (by rintro rfl; cases hyields) hrely
  obtain ⟨⟨hex, hunexpired⟩, hsmooth⟩ := hex
  have hmatches : P → w₁.store.Matches w₁.now [((query r).otherKey, some other)] := by
    intro hp
    cases B with
    | redis => exact hsmooth rfl (hP hp w₁ h₁.kept)
    | memory =>
      intro kv hkv
      rw [List.mem_singleton.mp hkv]
      exact h₁.same rfl
  simp only [exec] at hex
  split at hex
  · obtain ⟨rfl, rfl⟩ := hex
    have hquiet : Quiet c w₁ ((w₁.write (conversionValues (query r) n staleTtl body)).record
        (.committed t (conversionValues (query r) n staleTtl body))) := quiet_write rfl
    have hI₂ : Inv c ((w₁.write (conversionValues (query r) n staleTtl body)).record
        (.committed t (conversionValues (query r) n staleTtl body))) := by
      apply hquiet.inv hI hunexpired
      intro hcold
      have := h₁.asked
      omega
    refine ⟨hI₂, hquiet.guar, ?_⟩
    have hstable' : ∀ w w', (A w ∧ 1 ≤ gets w.log) → Rely c t w w' → A w' ∧ 1 ≤ gets w'.log :=
      fun w w' h hrely => ⟨hstable w w' h.1 hrely, h.2.trans hrely.grows⟩
    apply wp_read_bind (fun o ho => keeps_read hstable' ho)
      (scheduleMetadataEnrichment_calls s _ c body _)
      ⟨hstable _ _ h₁.kept hquiet.rely, h₁.asked.trans hquiet.asks.ge⟩
    intro _ w h
    exact ⟨h.1, .inr h.2, fun _ h => by cases h⟩
  · next hnot =>
    obtain ⟨rfl, rfl⟩ := hex
    exact ⟨hI, guar_refl, h₁.kept, .inl rfl, fun hp => absurd (hmatches hp) hnot⟩

/-- The other body is read, and served if it can be. -/
theorem runs_serveOther {P : Prop} {other : Str} (hstable : ∀ w w', A w → Rely c t w w' → A w')
    (hP : P → ∀ w, A w → Holds c t w) (hserves : P → Serves s (query r) other)
    (h : Source A .memory r other w) :
    Runs s c B t (.request r) (Found A P) (serveOther s (query r) other) w := by
  unfold serveOther
  split
  · exact runs_cachedResponse hstable h.kept h.asked
  next hpassthrough =>
  refine Effects.wp_call_of_not_yields rfl fun hI _ w₁ hex => ?_
  obtain ⟨⟨⟨now, hnow, rfl⟩, hunexpired⟩, -⟩ := hex
  have hquiet : Quiet c w { w with now } := ⟨fun _ => id, rfl, rfl⟩
  refine ⟨hquiet.inv hI hunexpired fun _ _ => rfl, hquiet.guar, ?_⟩
  have hkept : A { w with now } := hstable _ _ h.kept hquiet.rely
  split
  · next body hbody =>
    refine runs_storeConversion hstable hP ⟨hkept, h.asked, h.stored, fun _ => ?_⟩
    have hget := h.same rfl
    rw [query_otherKey] at hget ⊢
    exact get_of_later hunexpired hget
  · next e he =>
    refine ⟨hkept, ?_, fun hp => ?_⟩
    · split
      · exact .inl rfl
      · exact .inr h.asked
    · have hcaught := (hserves hp).2.resolve_left hpassthrough e he
      rw [hcaught]
      nofun

/-- A request looks at the cache. Inside its lock, with the project served, it finds what
answers it. -/
theorem runs_tryServeFromCache {P : Prop} (hstable : ∀ w w', A w → Rely c t w w' → A w')
    (hP : P → ∀ w, A w → Holds c t w ∧ Served c w) (hA : A w) :
    Runs s c B t (.request r) (Found A P) (tryServeFromCache s (query r)) w := by
  unfold tryServeFromCache
  refine Effects.wp_call_of_stable hA hstable fun w₁ values w₂ hA₁ hI hex => ?_
  obtain ⟨⟨⟨rfl, rfl⟩, -⟩, hsmooth⟩ := hex
  refine ⟨hI, guar_refl, ?_⟩
  show Runs s c B t (.request r) (Found A P)
    (if (w₂.get (query r).notFoundKey).isSome then _ else _) w₂
  split
  · next hnotFound =>
    obtain ⟨value, hvalue⟩ := Option.isSome_iff_exists.mp hnotFound
    have hstored := stored_of_get hvalue
    rw [query_notFoundKey] at hstored
    exact ⟨hA₁, .inr (asked_of_stored hI hstored), fun _ h => by cases h⟩
  next hnotFound =>
  split
  · next cached hcached =>
    have hget := (Option.filter_eq_some_iff.mp hcached).1
    have hstored := stored_of_get hget
    rw [query_cacheKey] at hstored
    exact runs_cachedResponse hstable hA₁ (asked_of_stored hI hstored)
  next hcached =>
  -- where the project is served, the other body is there
  have hother : P → (w₂.store (query r).otherKey).isSome = true := by
    intro hp
    obtain ⟨hholds, hserved⟩ := hP hp w₂ hA₁
    rcases hserved with hstored | ⟨isJson, hstored⟩
    · rw [query_notFoundKey] at hnotFound
      exact absurd (get_of_stored hI.unexpired hstored) hnotFound
    by_cases hjson : isJson = (query r).wantsJson
    · -- an empty body of the wanted format
      rw [hjson, ← query_cacheKey] at hstored
      have hget : w₂.get (query r).cacheKey = some [] := by
        rw [query_cacheKey] at hstored hcached ⊢
        obtain ⟨value, hvalue⟩ := Option.isSome_iff_exists.mp (get_of_stored hI.unexpired hstored)
        have hempty := Option.filter_eq_none_iff.mp hcached value hvalue
        rw [hvalue, not_not.mp fun hne => hempty (decide_eq_true hne)]
      obtain ⟨other, hother⟩ := Option.isSome_iff_exists.mp ((hsmooth hholds).1 rfl hget)
      exact stored_of_get hother
    · rw [query_otherKey, ← Bool.eq_not_of_ne hjson]
      exact hstored
  have hstable' : ∀ w w', (A w ∧ (P → (w.store (query r).otherKey).isSome = true)) → Rely c t w w' →
      A w' ∧ (P → (w'.store (query r).otherKey).isSome = true) :=
    fun w w' h hrely => ⟨hstable w w' h.1 hrely, fun hp => hrely.stored _ (h.2 hp)⟩
  refine Effects.wp_call_of_stable ⟨hA₁, hother⟩ hstable' fun w₁ values w₃ hA₂ hI hex => ?_
  obtain ⟨⟨⟨rfl, rfl⟩, -⟩, hsmooth⟩ := hex
  refine ⟨hI, guar_refl, ?_⟩
  dsimp only [Prog.bind, Prog.pure_eq]
  split
  · next other hfound =>
    obtain ⟨hget, hne⟩ := Option.filter_eq_some_iff.mp hfound
    have hstored := stored_of_get hget
    have hasked := hstored
    rw [query_otherKey] at hasked
    apply runs_serveOther hstable (fun hp w h => (hP hp w h).1)
    · intro hp
      exact (hsmooth (hP hp _ hA₂.1).1).2 rfl other hget
    · exact ⟨hA₂.1, asked_of_stored hI hasked, hstored, fun _ => hget⟩
  · next hnone =>
    refine ⟨hA₂.1, .inl rfl, fun hp => ?_⟩
    have hstored := hA₂.2 hp
    rw [query_otherKey] at hstored
    obtain ⟨other, hget⟩ := Option.isSome_iff_exists.mp (get_of_stored hI.unexpired hstored)
    rw [← query_otherKey] at hget
    have hserves : Serves s (query r) other := (hsmooth (hP hp _ hA₂.1).1).2 rfl other hget
    exact absurd (decide_eq_true hserves.1) (Option.filter_eq_none_iff.mp hnone other hget)

end Looking

/-! ## Inside the fill lock -/

/-- The task holds the lock, and what was asked for is served. -/
structure Settled (t : ℕ) (w : World) : Prop where
  holds : Holds c t w
  served : gets w.log = 1 → Served c w

section Filling

variable {s c} {B : Backend} {t : ℕ} {w w' : World} {task : ProjectTask s c} {r : Request s c}
  {response : UpstreamResponse}

theorem Settled.rely (h : Settled c t w) (hrely : Rely c t w w') : Settled c t w' where
  holds := hrely.holds h.holds
  served hgets := by
    rw [hrely.still h.holds] at hgets
    exact (h.served hgets).rely hrely

/-- Inside its lock a task stores something that answers requests. -/
theorem runs_store {values : List Write} {x : Write} (hx : x ∈ values)
    (hkey : x.key = projectKey c .notFound ∨ ∃ isJson, x.key = projectKey c (.body isJson))
    (h : Holds c t w ∧ gets w.log = 1) :
    Runs s c B t task (fun _ w => Settled c t w ∧ 1 ≤ gets w.log) (call (.setexMany values)) w := by
  have hstable : ∀ w w', (Holds c t w ∧ gets w.log = 1) → Rely c t w w' →
      Holds c t w' ∧ gets w'.log = 1 :=
    fun w w' h hrely => ⟨hrely.holds h.1, (hrely.still h.1).trans h.2⟩
  refine Effects.wp_call_of_stable h hstable fun w₁ _ w₂ h₁ hI hex => ?_
  obtain ⟨⟨hex, hunexpired⟩, -⟩ := hex
  obtain rfl : w₂ = (w₁.write values).record (.stored t values) := hex
  have hquiet : Quiet c w₁ ((w₁.write values).record (.stored t values)) := quiet_write rfl
  refine ⟨hquiet.inv hI hunexpired fun hcold => by omega, hquiet.guar, ⟨h₁.1, fun _ => ?_⟩, ?_⟩
  · have hstored : ((w₁.write values).store x.key).isSome = true := stored_of_mem hx
    rcases hkey with hkey | ⟨isJson, hkey⟩
    · rw [hkey] at hstored
      exact .inl hstored
    · rw [hkey] at hstored
      exact .inr ⟨isJson, hstored⟩
  · rw [hquiet.asks]
    exact h₁.2.ge

/-- What follows a batch that answers requests. -/
theorem runs_scheduled {canonical body : Str} {isJson : Bool} {outcome : Outcome}
    (h : Settled c t w ∧ 1 ≤ gets w.log) :
    Runs s c B t task (fun _ w => Settled c t w ∧ 1 ≤ gets w.log) (do
      scheduleMetadataEnrichment s canonical body isJson
      return outcome) w := by
  have hstable : ∀ w w', (Settled c t w ∧ 1 ≤ gets w.log) → Rely c t w w' →
      Settled c t w' ∧ 1 ≤ gets w'.log :=
    fun w w' h hrely => ⟨h.1.rely hrely, h.2.trans hrely.grows⟩
  exact wp_read_bind (fun o ho => keeps_read hstable ho)
    (scheduleMetadataEnrichment_calls s canonical c body isJson) h fun _ _ h => h

/-- The answer of the first GET is stored. -/
theorem runs_answer (hstorable : Storable s (query r) response)
    (h : Holds c t w ∧ gets w.log = 1) :
    Runs s c B t task (fun _ w => Settled c t w ∧ 1 ≤ gets w.log)
      (answer s (query r) response) w := by
  unfold answer
  split
  · refine Effects.wp_bind.mpr (runs_store List.mem_cons_self (.inl (query_notFoundKey r)) h)
  next hfound =>
  obtain ⟨hstatus, hbodies⟩ := hstorable.resolve_left hfound
  rw [if_neg (not_not.mpr hstatus)]
  unfold storeFill
  dsimp only
  split
  · next hpassthrough =>
    rw [if_pos hpassthrough] at hbodies
    obtain ⟨body, hbody⟩ := hbodies
    rw [hbody]
    refine Effects.wp_bind.mpr (Effects.wp_mono (runs_store (List.mem_append_right _
      List.mem_cons_self) (.inr ⟨_, by rw [query_canonical]⟩) h) fun _ w h => ?_)
    exact runs_scheduled h
  · next hconverts =>
    rw [if_neg hconverts] at hbodies
    obtain ⟨⟨jsonBody, htmlBody⟩, hbodies⟩ := hbodies
    rw [hbodies]
    have hmem : (⟨projectKey (query r).canonical (.body true),
        effectiveProjectTtl s.settings response.cacheControl, jsonBody⟩ : Write) ∈
        (if isUpstreamJson response then
          bodyValues s (query r).canonical true
            (effectiveProjectTtl s.settings response.cacheControl) jsonBody ++
          bodyValues s (query r).canonical false
            (effectiveProjectTtl s.settings response.cacheControl) htmlBody
        else
          bodyValues s (query r).canonical false
            (effectiveProjectTtl s.settings response.cacheControl) htmlBody ++
          bodyValues s (query r).canonical true
            (effectiveProjectTtl s.settings response.cacheControl) jsonBody) := by
      split
      · exact List.mem_append_left _ List.mem_cons_self
      · exact List.mem_append_right _ List.mem_cons_self
    refine Effects.wp_bind.mpr (Effects.wp_mono (runs_store (List.mem_append_right _ hmem)
      (.inr ⟨true, by rw [query_canonical]⟩) h) fun _ w h => ?_)
    exact runs_scheduled h

/-- The GET of a request that holds the lock and that nobody has asked for. -/
theorem runs_conditionalGet {etag lastMod : Option Str} (h : Holds c t w ∧ gets w.log = 0) :
    Runs s c B t (.request r) (fun _ w => Settled c t w ∧ 1 ≤ gets w.log)
      (conditionalGet s (query r) etag lastMod) w := by
  have hstable : ∀ w w', (Holds c t w ∧ gets w.log = 0) → Rely c t w w' →
      Holds c t w' ∧ gets w'.log = 0 :=
    fun w w' h hrely => ⟨hrely.holds h.1, (hrely.still h.1).trans h.2⟩
  unfold conditionalGet
  refine Effects.wp_call_of_stable h hstable fun w₁ answer w₂ h₁ hI hex => ?_
  obtain ⟨⟨⟨-, hw₂⟩, hunexpired⟩, hsmooth⟩ := hex
  obtain ⟨response, rfl, hstorable⟩ := hsmooth h₁.2
  have hstorable : Storable s (query r) response := hstorable r rfl
  obtain rfl : w₂ = w₁.record (.exchange t w₁.now w₁.version
    (upstreamRequest s (query r) etag lastMod) response) := hw₂
  have hone : gets (w₁.record (.exchange t w₁.now w₁.version
      (upstreamRequest s (query r) etag lastMod) response)).log = 1 := by
    show (_ :: w₁.log).countP isExchange = 1
    rw [List.countP_cons, show w₁.log.countP isExchange = 0 from h₁.2]
    rfl
  refine ⟨⟨hunexpired, hone.le, fun hcold => by omega, fun _ hfree => ?_⟩, fun u hu => ?_, ?_⟩
  · exact absurd (h₁.1.symm.trans hfree) nofun
  · -- nobody else holds the lock
    have hother : ¬ Holds c u w₁ := fun hheld => hu (Option.some.inj (hheld.symm.trans h₁.1))
    exact ⟨fun _ => id, id, by rw [h₁.2]; exact Nat.zero_le _, fun hheld => absurd hheld hother⟩
  · show Runs s c B t (.request r) _ (if response.status = 304 then _ else _) _
    rw [if_neg]
    · exact runs_answer hstorable ⟨h₁.1, hone⟩
    · rcases hstorable with h404 | ⟨h200, -⟩
      · rw [h404]
        decide
      · rw [h200]
        decide

/-- A miss inside the lock. -/
theorem runs_fetchUpstream (h : Holds c t w ∧ gets w.log = 0) :
    Runs s c B t (.request r) (fun _ w => Settled c t w ∧ 1 ≤ gets w.log)
      (fetchUpstream s (query r)) w := by
  have hread : ∀ o : Op, o.isRead →
      ((service s c B fun _ _ _ => True).under (Smooth s c B) (.request r)).Keeps (Inv c) (Rely c t)
        (Guar c t) t (fun w => Holds c t w ∧ gets w.log = 0) o :=
    fun o ho => keeps_read
      (fun w w' h hrely => ⟨hrely.holds h.1, (hrely.still h.1).trans h.2⟩) ho
  have hexists : (call (.existsAny [(query r).staleKey, (query r).otherStaleKey])).Calls
      fun o => o.isRead ∧ True := ⟨⟨rfl, trivial⟩, fun _ => trivial⟩
  unfold fetchUpstream
  refine wp_read_bind hread hexists h fun found w₁ h₁ => ?_
  split
  · refine wp_read_bind hread (cacheGetTwo_calls (ownKey s _ _) (ownKey s _ _)) h₁ ?_
    exact fun validators w₂ h₂ => runs_conditionalGet h₂
  · exact runs_conditionalGet h₁

/-- What runs under the fill lock. -/
theorem runs_fill (hI : gets w.log ≤ 1) (h : Settled c t w) :
    Runs s c B t (.request r) (fun _ w => Settled c t w ∧ 1 ≤ gets w.log) (fill s (query r)) w := by
  -- nobody else asks while the lock is held
  have hstable : ∀ w₁ w₂, (Settled c t w₁ ∧ gets w₁.log = gets w.log) → Rely c t w₁ w₂ →
      Settled c t w₂ ∧ gets w₂.log = gets w.log :=
    fun w₁ w₂ h hrely => ⟨h.1.rely hrely, (hrely.still h.1.holds).trans h.2⟩
  have hserved : gets w.log = 1 → ∀ w₁, (Settled c t w₁ ∧ gets w₁.log = gets w.log) →
      Holds c t w₁ ∧ Served c w₁ :=
    fun hone w₁ h => ⟨h.1.holds, h.1.served (h.2.trans hone)⟩
  unfold fill
  refine Effects.wp_bind.mpr (Effects.wp_mono
    (runs_tryServeFromCache hstable hserved ⟨h, rfl⟩) fun result w₁ hfound => ?_)
  obtain ⟨⟨hsettled, hgets⟩, hasked, hhit⟩ := hfound
  match result with
  | .error e => exact ⟨hsettled, hasked.resolve_left nofun⟩
  | .ok (some hit) => exact ⟨hsettled, hasked.resolve_left nofun⟩
  | .ok none =>
    apply runs_fetchUpstream
    have hnot : gets w.log ≠ 1 := fun hone => hhit hone rfl
    exact ⟨hsettled.holds, by omega⟩

/-- A task takes the lock, with what was asked for served, and gives it back. -/
theorem runs_withLock {α : Type} {p : Program α} {Q : Prop}
    (h : ∀ w, gets w.log ≤ 1 → Settled c t w →
      Runs s c B t task (fun _ w => Settled c t w ∧ (Q → 1 ≤ gets w.log)) p w) :
    Runs s c B t task (fun _ w => Q → 1 ≤ gets w.log) (withLock 0 (fillLockKey c) p) w := by
  unfold withLock
  simp only [Prog.op_bind]
  refine Effects.wp_call_of_stable trivial (fun _ _ _ _ => trivial) fun w₁ _ w₂ _ hI hex => ?_
  obtain ⟨⟨⟨hfree, rfl⟩, hunexpired⟩, -⟩ := hex
  have hholds : Holds c t (w₁.setHeld (0, fillLockKey c) (some t)) := Function.update_self ..
  refine ⟨⟨hunexpired, hI.once, hI.cold, fun _ hnone => ?_⟩, fun u hu => ?_, ?_⟩
  · exact absurd (hholds.symm.trans hnone) nofun
  · have hother : ¬ Holds c u w₁ := fun hheld => absurd (hheld.symm.trans hfree) nofun
    exact ⟨fun _ => id, fun hheld => absurd hheld hother, le_refl _, fun _ => rfl⟩
  refine Effects.wp_bind.mpr (Effects.wp_mono
    (h (w₁.setHeld (0, fillLockKey c) (some t)) hI.once ⟨hholds, fun hone => hI.served hone hfree⟩)
    fun a w₃ h₃ => ?_)
  have hstable : ∀ w w', (Settled c t w ∧ (Q → 1 ≤ gets w.log)) → Rely c t w w' →
      Settled c t w' ∧ (Q → 1 ≤ gets w'.log) :=
    fun w w' h hrely => ⟨h.1.rely hrely, fun hq => (h.2 hq).trans hrely.grows⟩
  refine Effects.wp_call_of_stable h₃ hstable fun w₄ _ w₅ h₄ hI hex => ?_
  obtain ⟨⟨hex, hunexpired⟩, -⟩ := hex
  obtain rfl : w₅ = w₄.setHeld (0, fillLockKey c) none := hex
  refine ⟨⟨hunexpired, hI.once, hI.cold, fun hone _ => h₄.1.served hone⟩, fun u hu => ?_, h₄.2⟩
  have hother : ¬ Holds c u w₄ := fun hheld =>
    hu (Option.some.inj (hheld.symm.trans h₄.1.holds))
  exact ⟨fun _ => id, fun hheld => absurd hheld hother, le_refl _, fun _ => rfl⟩

/-- A request, from its first look at the cache to its response. -/
theorem runs_serveProject :
    Runs s c B t (.request r) (fun _ w => 1 ≤ gets w.log) (serveProject s 0 (query r)) w := by
  unfold serveProject
  refine Effects.wp_bind.mpr (Effects.wp_mono (runs_tryServeFromCache (A := fun _ => True)
    (P := False) (fun _ _ _ _ => trivial) False.elim trivial) fun result w₁ hfound => ?_)
  match result with
  | .error e => exact hfound.2.1.resolve_left nofun
  | .ok (some hit) => exact hfound.2.1.resolve_left nofun
  | .ok none =>
    show Runs s c B t (.request r) _ (withLock 0 (fillLockKey (query r).canonical) _) w₁
    rw [query_canonical]
    refine Effects.wp_mono (runs_withLock (Q := True) fun w hI h => ?_) fun _ _ h => h trivial
    exact Effects.wp_mono (runs_fill hI h) fun _ _ h => ⟨h.1, fun _ => h.2⟩

end Filling

/-! ## The background tasks -/

section Background

variable {s c} {B : Backend} {t : ℕ} {w w' : World} {task : ProjectTask s c} {isJson : Bool}

/-- A call of a probe changes nothing that matters here. -/
theorem quiet_of_isProbe {o : Op} {answer : Ret o} (ho : o.IsProbe)
    (hex : exec B (fun _ _ _ => True) t o w answer w') :
    Quiet c w w' ∧ ∀ part, w'.store (projectKey c part) = w.store (projectKey c part) := by
  have hlock : ∀ lock : ℕ × Str, IsMetadataKey lock.2 → (0, fillLockKey c) ≠ lock := by
    intro lock hlock heq
    rw [← heq] at hlock
    exact hlock.ne_fillLockKey c rfl
  cases o with
  | setexMany values =>
    obtain rfl : w' = (w.write values).record (.stored t values) := hex
    refine ⟨quiet_write rfl, fun part => ?_⟩
    exact World.store_write_of_not_mem fun x hx => (ho x hx).ne_projectKey c part
  | acquire lock =>
    obtain ⟨-, rfl⟩ := hex
    refine ⟨⟨fun _ => id, Function.update_of_ne (hlock lock ho) .., rfl⟩, fun _ => rfl⟩
  | release lock =>
    obtain rfl : w' = w.setHeld lock none := hex
    refine ⟨⟨fun _ => id, Function.update_of_ne (hlock lock ho) .., rfl⟩, fun _ => rfl⟩
  | setexManyIfUnchanged | httpGet | elapse => exact ho.elim
  | _ =>
    obtain rfl := eq_of_isRead rfl hex
    exact ⟨⟨fun _ => id, rfl, rfl⟩, fun _ => rfl⟩

/-- The calls of a commit: it reads, or replaces a body that is there. -/
theorem commitLocked_calls (body completedBody : Str) (changed ready : Bool) :
    (commitLocked s c body isJson completedBody changed ready).Calls fun o => o.isRead = true ∨
      ∃ expected values part source, o = .setexManyIfUnchanged expected values ∧
        (projectKey c part, some source) ∈ expected := by
  have hbound : ∀ boundPart expected part source, (projectKey c part, some source) ∈ expected →
      (commitBound s c isJson completedBody changed ready boundPart expected).Calls fun o =>
        o.isRead = true ∨ ∃ expected values part source, o = .setexManyIfUnchanged expected values ∧
          (projectKey c part, some source) ∈ expected := by
    intro boundPart expected part source hmem
    refine ⟨.inl rfl, fun ttl => ?_⟩
    cases ttl with
    | none => trivial
    | some ttl =>
      dsimp only
      split
      · trivial
      · exact ⟨.inr ⟨expected, _, part, source, rfl, hmem⟩, fun _ => trivial⟩
  refine ⟨.inl rfl, fun values => ?_⟩
  show Prog.Calls _ (if values.getD 0 none = some body then _
    else if values.getD 0 none = none ∧ values.getD 1 none = some body then _ else _)
  split
  · exact hbound _ _ _ body List.mem_cons_self
  split
  · exact hbound _ _ _ body (List.mem_cons_of_mem _ List.mem_cons_self)
  · trivial

theorem commits (source : Str → Prop) :
    LockedCommits ((service s c B fun _ _ _ => True).under (Smooth s c B) task) (Inv c) (Rely c t)
      (Guar c t) t s 0 c isJson source where
  probe hp w := by
    refine Effects.wp_of_calls hp fun o w₁ answer w₂ ho hI hex => ?_
    obtain ⟨⟨hex, hunexpired⟩, -⟩ := hex
    obtain ⟨hquiet, hsame⟩ := quiet_of_isProbe (c := c) ho hex
    exact ⟨hquiet.inv hI hunexpired fun _ => hsame, hquiet.guar⟩
  commit body completedBody changed ready _ _ w := by
    refine Effects.wp_mono (runs_withLock (Q := False) fun w _ h => ?_) fun _ _ _ => trivial
    have hkeeps : (commitLocked s c body isJson completedBody changed ready).Calls
        (((service s c B fun _ _ _ => True).under (Smooth s c B) task).Keeps (Inv c) (Rely c t)
          (Guar c t) t (Settled c t)) := by
      refine (commitLocked_calls body completedBody changed ready).mono fun o ho => ?_
      rcases ho with hread | ⟨expected, values, part, source, rfl, hmem⟩
      · exact keeps_read (fun _ _ h hrely => h.rely hrely) hread
      intro w h
      refine Effects.wp_call_of_stable h (fun _ _ h hrely => h.rely hrely)
        fun w₁ committed w₂ h₁ hI hex => ?_
      obtain ⟨⟨hex, hunexpired⟩, -⟩ := hex
      rcases exec_setexManyIfUnchanged hex with ⟨-, hmatches, rfl⟩ | ⟨-, rfl⟩
      · have hquiet : Quiet c w₁ ((w₁.write values).record (.committed t values)) := quiet_write rfl
        refine ⟨hquiet.inv hI hunexpired fun hcold => ?_, hquiet.guar, h₁.rely hquiet.rely⟩
        have hasked := asked_of_stored hI (stored_of_get (hmatches _ hmem))
        omega
      · exact ⟨hI, guar_refl, h₁⟩
    exact Effects.wp_mono (Effects.wp_of_keeps h hkeeps) fun _ _ h => ⟨h, False.elim⟩

end Background

/-! ## Runs -/

section Main

variable {s c} {B : Backend} {upstream : Upstream}

def discipline : Discipline ((service s c B fun _ _ _ => True).meeting (Smooth s c B)) where
  Inv := Inv c
  rely t _ := Rely c t
  guar t _ := Guar c t
  post _ task _ w := ∀ r, task = .request r → 1 ≤ gets w.log
  rely_refl _ _ _ := Rely.refl
  rely_trans _ _ _ _ _ := Rely.trans
  init w h := by
    obtain ⟨hcold, hfree, hlog⟩ := h
    have hgets : gets w.log = 0 := by
      rw [hlog]
      rfl
    refine ⟨fun part entry hentry => ?_, by omega, fun _ => hcold, fun hone => by omega⟩
    rw [hcold part] at hentry
    cases hentry
  env w w' hI := by
    rintro ⟨⟨now, version, hnow, -, rfl⟩, hunexpired⟩
    have hquiet : Quiet c w { w with now, version } := ⟨fun _ => id, rfl, rfl⟩
    exact ⟨hquiet.inv hI hunexpired fun _ _ => rfl, fun _ _ => hquiet.rely⟩
  others _ _ u _ _ _ hu _ _ h := h u hu
  post_stable _ _ _ _ _ h _ hrely r hr := (h r hr).trans hrely.grows
  start := by
    intro t task w _
    refine System.wp_tag.mpr ?_
    show Runs s c B t task _ (task.prog 0) w
    cases task with
    | request r =>
      exact Effects.wp_bind.mpr (Effects.wp_mono runs_serveProject fun _ _ h _ _ => h)
    | enrich body isJson =>
      exact Effects.wp_bind.mpr (Effects.wp_mono
        ((commits fun _ => True).wp_enrich trivial) fun _ _ _ => nofun)
    | extract isJson digest =>
      exact Effects.wp_bind.mpr (Effects.wp_mono
        (commits _).wp_extractProjectAfterIdle fun _ _ _ => nofun)

/-- A task is about to make a GET only when none was made. -/
theorem gets_of_get {config : Config Op Ret World (ProjectTask s c) TaskResult} {t : ℕ}
    {task : ProjectTask s c} {request : UpstreamRequest}
    {k : Option UpstreamResponse → Program TaskResult}
    (h : (discipline (s := s) (c := c) (B := B)).Holds config.tag)
    (htask : config.task t = some (task, .call (.httpGet request) k)) :
    gets config.world.log = 0 := by
  by_contra hasked
  -- an answer would be the second one
  let response : UpstreamResponse := { status := 200 }
  have htag : config.tag.task t =
      some (task, .call (task, .httpGet request) fun answer => (k answer).tag task) := by
    show Option.map _ (config.task t) = _
    rw [htask]
    rfl
  have hsmooth : Smooth s c B t task (.httpGet request) config.world (some response) :=
    fun hnone => absurd hnone hasked
  have hex : ((service s c B fun _ _ _ => True).under (Smooth s c B) task).exec t (.httpGet request)
      config.world (some response) (config.world.record
        (.exchange t config.world.now config.world.version request response)) :=
    ⟨⟨⟨trivial, rfl⟩, h.inv.unexpired⟩, hsmooth⟩
  have honce := (h.call htag hex).1.once
  have hcount : gets (config.world.record (.exchange t config.world.now config.world.version
      request response)).log = gets config.world.log + 1 := List.countP_cons_of_pos rfl
  omega

/-- Nothing else counts as an exchange. -/
theorem gets_of_exec {t : ℕ} {o : Op} {w w' : World} {answer : Ret o}
    (hex : exec B upstream t o w answer w') (ho : ∀ request, o ≠ .httpGet request) :
    gets w'.log = gets w.log := by
  cases o with
  | setexMany values =>
    obtain rfl : w' = (w.write values).record (.stored t values) := hex
    exact (quiet_write (c := []) rfl).asks
  | setexManyIfUnchanged expected values =>
    rcases exec_setexManyIfUnchanged hex with ⟨-, -, rfl⟩ | ⟨-, rfl⟩
    · exact (quiet_write (c := []) rfl).asks
    · rfl
  | acquire lock =>
    obtain ⟨-, rfl⟩ := hex
    rfl
  | release lock =>
    obtain rfl : w' = w.setHeld lock none := hex
    rfl
  | httpGet request => exact absurd rfl (ho request)
  | elapse =>
    obtain ⟨now, -, rfl⟩ := hex
    rfl
  | _ =>
    obtain rfl := eq_of_isRead rfl hex
    rfl

variable {c₀ c₁ : Config Op Ret World (ProjectTask s c) TaskResult}
  {evs : List (Event Op Ret (ProjectTask s c))}

theorem holds_of_run (hinit : (service s c B upstream).Init c₀)
    (hrun : (service s c B upstream).RunMeeting (Smooth s c B) c₀ evs c₁) :
    (discipline (s := s) (c := c) (B := B)).Holds c₁.tag := by
  have hfree : (service s c B fun _ _ _ => True).RunMeeting (Smooth s c B) c₀ evs c₁ := by
    refine hrun.mono fun t o w answer w' hex => ⟨?_, hex.2⟩
    cases o with
    | httpGet => exact ⟨trivial, hex.1.2⟩
    | _ => exact hex.1
  exact discipline.sound (hfree.reachable hinit)

/-- The GETs of a run are the exchanges in its log. -/
theorem count_gets (hinit : (service s c B upstream).Init c₀)
    (hrun : (service s c B upstream).RunMeeting (Smooth s c B) c₀ evs c₁) :
    evs.countP (isGet s c) = gets c₁.world.log := by
  induction hrun with
  | nil =>
    rw [hinit.1.2.2]
    rfl
  | @snoc d d' evs ev hrest hstep hmeets ih =>
    rw [List.countP_append, ih]
    cases hstep with
    | start => rfl
    | @call t task o k answer w _ htask hex =>
      by_cases hget : ∃ request, o = .httpGet request
      · obtain ⟨request, rfl⟩ := hget
        have hnone : gets d.world.log = 0 := gets_of_get (holds_of_run hinit hrest) htask
        obtain ⟨response, rfl, -⟩ := hmeets task _ htask hnone
        obtain rfl : w = d.world.record (.exchange t d.world.now d.world.version
          request response) :=
          hex.1.2
        exact (List.countP_cons_of_pos rfl).symm
      · have hsame := gets_of_exec hex.1 fun request ho => hget ⟨request, ho⟩
        have hnot : isGet s c (.call t o answer) = false := by
          cases o with
          | httpGet request => exact absurd ⟨request, rfl⟩ hget
          | _ => rfl
        rw [List.countP_cons, hnot, hsame]
        rfl
    | env _ henv =>
      obtain ⟨⟨now, version, -, -, rfl⟩, -⟩ := henv
      rfl

/-- **One GET.** In every run whose steps meet the condition at most one GET is made, and
exactly one when some request has been answered. -/
theorem one_get (hinit : (service s c B upstream).Init c₀)
    (hrun : (service s c B upstream).RunMeeting (Smooth s c B) c₀ evs c₁) :
    evs.countP (isGet s c) ≤ 1 ∧ ∀ t r result, c₁.task t = some (.request r, .ret result) →
      evs.countP (isGet s c) = 1 := by
  have hholds := holds_of_run hinit hrun
  rw [count_gets hinit hrun]
  refine ⟨hholds.inv.once, fun t r result htask => ?_⟩
  have htag : c₁.tag.task t = some (.request r, .ret result) := by
    show Option.map _ (c₁.task t) = _
    rw [htask]
    rfl
  have hasked : 1 ≤ gets c₁.world.log := hholds.task t _ _ htag r rfl
  exact le_antisymm hholds.inv.once hasked

end Main

/-! ## An empty page -/

/-- The text of the first answer is accepted: it is a 404, or a 200 that is parsed. -/
def Accepted (s : Site) (c : Str) (_ : ℕ) (_ : ProjectTask s c) :
    (o : Op) → World → Ret o → Prop
  | .httpGet _, w, answer => gets w.log = 0 → ∃ response, answer = some response ∧
    (response.status = 404 ∨ response.status = 200 ∧
      ∃ project, parseProjectBody s c response.text (isUpstreamJson response) = .ok project)
  | _, _, _ => True

def one : Str := ("one" : Str)

/-- A site for pages without links. -/
def pageSite : Site where
  U := asciiOnly
  D := ⟨fun _ => .error .valueError, fun _ => .error .valueError, fun _ => [], fun _ => [],
    fun _ => [], fun _ => .ok [], fun text _ => text⟩
  float _ := none
  packaging := plainReleases
  settings := {}

/-- The upstream answers with a page. -/
def servePage (page : Str) (_ : ℕ) (_ : UpstreamRequest) : Option UpstreamResponse :=
  some { status := 200, contentType := some contentTypeHtml, text := page }

abbrev pageService (page : Str) : System Op Ret World (ProjectTask pageSite one) TaskResult :=
  service pageSite one .memory fun version request response =>
    response = servePage page version request

/-- A request for the page. -/
def pageRequest : ProjectTask pageSite one :=
  .request ⟨one, some contentTypeHtml, by decide +kernel⟩

def parts : List ProjectPart :=
  .notFound :: .etag :: .lastmod :: [true, false].flatMap fun isJson =>
    [.body isJson, .stale isJson, .metadataReady isJson, .metadataDiscovered isJson]

theorem mem_parts (part : ProjectPart) : part ∈ parts := by
  cases part with
  | body isJson | stale isJson | metadataReady isJson | metadataDiscovered isJson =>
    cases isJson <;> decide
  | _ => decide

instance (c : Str) (w : World) : Decidable (Unexpired c w) :=
  decidable_of_iff (∀ part ∈ parts, ∀ entry ∈ w.store (projectKey c part), w.now + 1 ≤ entry.expiry)
    ⟨fun h part entry hentry => h part (mem_parts part) entry hentry,
      fun h part _ entry hentry => h part entry hentry⟩

/-- Calls that are allowed, while nothing expires. -/
def pageDriver (page : Str) (allowed : Op → World → Bool) : Driver (pageService page) Choice where
  respond choice t o w :=
    (respond .memory (servePage page) choice t o w).filter fun (_, w') =>
      allowed o w ∧ Unexpired one w'
  drift _ _ := none
  respond_sound h := by
    obtain ⟨h, hallowed⟩ := Option.filter_eq_some_iff.mp h
    exact ⟨respond_sound (fun _ _ => rfl) h, (of_decide_eq_true hallowed).2⟩
  drift_sound h := by cases h

theorem pageDriver_respond {page : Str} {allowed : Op → World → Bool} {choice : Choice} {t : ℕ}
    {o : Op} {w w' : World} {answer : Ret o}
    (h : (pageDriver page allowed).respond choice t o w = some (answer, w')) :
    respond .memory (servePage page) choice t o w = some (answer, w') ∧ allowed o w = true := by
  have h : ((respond .memory (servePage page) choice t o w).filter fun (_, w') =>
    allowed o w ∧ Unexpired one w') = some (answer, w') := h
  obtain ⟨h, hallowed⟩ := Option.filter_eq_some_iff.mp h
  exact ⟨h, (of_decide_eq_true hallowed).1⟩

/-- The GETs of two requests, one after the other. -/
def countAsks (page : Str) (allowed : Op → World → Bool) : Option (ℕ × ℕ) := do
  let (evs, _, w) ← (pageDriver page allowed).finish {} 0 (pageRequest.prog 0) emptyWorld
  let (evs', _, _) ← (pageDriver page allowed).finish {} 1 (pageRequest.prog 0) w
  return (evs.countP (isGet _ _), evs'.countP (isGet _ _))

/-- Two requests run to their ends, and their steps meet a condition that the allowed calls
meet. -/
theorem run_of_countAsks {page : Str} {allowed : Op → World → Bool} {n m : ℕ}
    {ok : ℕ → ProjectTask pageSite one → (o : Op) → World → Ret o → Prop}
    (h : countAsks page allowed = some (n, m))
    (hok : ∀ t o w answer w', (pageDriver page allowed).respond {} t o w = some (answer, w') →
      ok t pageRequest o w answer) :
    ∃ c₀ c₁ evs result, (pageService page).Init c₀ ∧ (pageService page).RunMeeting ok c₀ evs c₁ ∧
      evs.countP (isGet _ _) = n + m ∧ c₁.task 1 = some (pageRequest, .ret result) := by
  obtain ⟨⟨evs, result, w⟩, hfirst, h⟩ := Option.bind_eq_some_iff.mp h
  obtain ⟨⟨evs', result', w'⟩, hsecond, h⟩ := Option.bind_eq_some_iff.mp h
  obtain ⟨rfl, rfl⟩ := Prod.mk.inj (Option.some.inj h)
  obtain ⟨boot, hboot⟩ : ∃ boot : Config Op Ret World (ProjectTask pageSite one) TaskResult,
    boot = Driver.boot emptyWorld := ⟨_, rfl⟩
  have hnone : ∀ u, boot.task u = none := fun u => hboot ▸ rfl
  have hworld : boot.world = emptyWorld := hboot ▸ rfl
  have hquiet : (pageService page).Quiet boot := by
    intro u e o k htask
    rw [hnone] at htask
    cases htask
  have hinit : (pageService page).Init boot := by
    rw [hboot]
    exact ⟨⟨fun _ => rfl, fun _ => rfl, rfl⟩, fun _ => rfl⟩
  rw [← hworld] at hfirst
  obtain ⟨hrun, hquiet'⟩ := Driver.complete_meeting (hok 0) (.nil boot) hquiet (hnone 0) hfirst
  have hnone' : (boot.set 0 pageRequest (.ret result) w).task 1 = none := by
    rw [Config.set_task_of_ne one_ne_zero, hnone]
  obtain ⟨hrun', -⟩ := Driver.complete_meeting (hok 1) hrun hquiet' hnone' hsecond
  refine ⟨boot, _, _, result', hinit, hrun', ?_, Config.set_task_self⟩
  have hstarts : ∀ t, ([.start t pageRequest] : List (Event Op Ret _)).countP (isGet _ _) = 0 :=
    fun _ => rfl
  rw [List.countP_append, List.countP_append, List.countP_append, List.countP_append,
    List.countP_nil, hstarts, hstarts]
  omega

theorem countAsks_empty : countAsks [] (fun _ _ => true) = some (1, 1) := by decide +kernel

/-- **The empty page.** It is accepted, but never served: the second request asks again. -/
theorem not_one_get : ¬ ∀ (s : Site) (c : Str) (B : Backend) (upstream : Upstream)
    (c₀ c₁ : Config Op Ret World (ProjectTask s c) TaskResult)
    (evs : List (Event Op Ret (ProjectTask s c))), (service s c B upstream).Init c₀ →
      (service s c B upstream).RunMeeting (Accepted s c) c₀ evs c₁ →
      evs.countP (isGet s c) ≤ 1 := by
  intro h
  have haccepted : ∀ t o w answer w', (pageDriver [] fun _ _ => true).respond {} t o w =
      some (answer, w') → Accepted pageSite one t pageRequest o w answer := by
    intro t o w answer w' hrespond
    cases o with
    | httpGet request =>
      obtain ⟨rfl, -⟩ := Prod.mk.inj (Option.some.inj (pageDriver_respond hrespond).1)
      exact fun _ => ⟨_, rfl, .inr ⟨rfl, _, rfl⟩⟩
    | _ => trivial
  obtain ⟨c₀, c₁, evs, -, hinit, hrun, hcount, -⟩ := run_of_countAsks countAsks_empty haccepted
  have := h pageSite one .memory _ c₀ c₁ evs hinit hrun
  omega

/-- No look at the cache finds an empty page, or a document. -/
def plain (o : Op) (w : World) : Bool :=
  match o with
  | .getMany _ => decide (w.get (projectKey one (.body false)) ≠ some [] ∧
      w.get (projectKey one (.body true)) = none)
  | _ => true

theorem countAsks_page : countAsks ("<p>" : Str) plain = some (1, 0) := by decide +kernel

/-- A page that is not empty is asked for once. -/
theorem one_get_page : ∃ c₀ c₁ evs, (pageService ("<p>" : Str)).Init c₀ ∧
    (pageService ("<p>" : Str)).RunMeeting (Smooth pageSite one .memory) c₀ evs c₁ ∧
    evs.countP (isGet pageSite one) = 1 := by
  have hsmooth : ∀ t o w answer w', (pageDriver ("<p>" : Str) plain).respond {} t o w =
      some (answer, w') → Smooth pageSite one .memory t pageRequest o w answer := by
    intro t o w answer w' hrespond
    obtain ⟨hrespond, hplain⟩ := pageDriver_respond hrespond
    cases o with
    | httpGet request =>
      obtain ⟨rfl, -⟩ := Prod.mk.inj (Option.some.inj hrespond)
      intro _
      refine ⟨_, rfl, fun r hr => .inr ⟨rfl, ?_⟩⟩
      obtain rfl := ProjectTask.request.inj hr
      rw [if_pos (by decide +kernel)]
      exact ⟨("<p>" : Str), rfl⟩
    | getMany keys =>
      obtain ⟨hpage, hdocument⟩ := of_decide_eq_true hplain
      intro _
      constructor
      · intro _ hempty
        exact absurd hempty hpage
      · intro _ other hother
        have hnone : w.get (projectKey one (.body true)) = some other := hother
        rw [hdocument] at hnone
        cases hnone
    | setexManyIfUnchanged => exact fun hredis => absurd hredis nofun
    | _ => trivial
  obtain ⟨c₀, c₁, evs, result, hinit, hrun, -, hdone⟩ := run_of_countAsks countAsks_page hsmooth
  exact ⟨c₀, c₁, evs, hinit, hrun, (one_get hinit hrun).2 1 _ result hdone⟩

end ProxyCache.Theorems.Stampede
