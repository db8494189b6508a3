import ProxyCache.App.Systems

/-!
# Coherence of revalidation

The upstream is a resource with successive versions, each with validators of its
own. The invariant of the cache is that all live bodies and validators of the
project stem from one version. A lazy conversion and a 304 keep it; a 200 that
stores one format keeps it only if what is live in the other format stems from
the version that was fetched.
-/

namespace ProxyCache.Theorems.Revalidation

open ProxyCache.Lib ProxyCache.Python ProxyCache.App

/-- The upstream project page: the validators and the texts of its versions, as bytes too. -/
structure Resource where
  etag : ℕ → Str
  lastModified : ℕ → Str
  text : ℕ → Bool → Str
  content : ℕ → Bool → Bytes
  etag_injective : Function.Injective etag
  lastModified_injective : Function.Injective lastModified
  etag_ne_nil : ∀ version, etag version ≠ []
  lastModified_ne_nil : ∀ version, lastModified version ≠ []

/-- The request names the version; `If-None-Match` takes precedence. -/
def Resource.Names (X : Resource) (version : ℕ) (request : UpstreamRequest) : Prop :=
  match request.ifNoneMatch, request.ifModifiedSince with
  | some etag, _ => etag = X.etag version
  | none, some lastModified => lastModified = X.lastModified version
  | none, none => False

/-- The upstream answers 304 exactly when the request names its current version,
and a 200 with the validators and a text of that version. Errors and other
statuses are possible at any time. -/
def Resource.upstream (X : Resource) : Upstream := fun version request response =>
  ∀ r, response = some r →
    (r.status = 304 → X.Names version request) ∧
    (r.status = 200 → ¬ X.Names version request ∧ r.etag = some (X.etag version) ∧
      r.lastModified = some (X.lastModified version) ∧
      r.text = X.text version (isUpstreamJson r) ∧
      r.content = X.content version (isUpstreamJson r))

variable (s : Site) (c : Str) (X : Resource)

/-- The body comes from a text of the version by rewriting and converting. -/
inductive Derived (version : ℕ) : Str → Prop
  | text (isJson : Bool) : Derived version (X.text version isJson)
  | rewritten {body body' : Str} {isJson : Bool} : Derived version body →
      rewriteSimpleBody s.U s.D s.settings body isJson = .ok body' → Derived version body'
  | converted {body body' : Str} {toJson : Bool} : Derived version body →
      convertBody s c toJson body = .ok body' → Derived version body'
  | synthesizedJson {body json html : Str} {isJson : Bool} : Derived version body →
      synthesizeBodies s c isJson (X.content version isJson) body = .ok (json, html) →
        Derived version json
  | synthesizedHtml {body json html : Str} {isJson : Bool} : Derived version body →
      synthesizeBodies s c isJson (X.content version isJson) body = .ok (json, html) →
        Derived version html

/-- The value cached as this part of the project stems from the version. -/
def Stems (version : ℕ) : ProjectPart → Str → Prop
  | .body _, value | .stale _, value => Derived s c X version value
  | .etag, value => value = X.etag version
  | .lastmod, value => value = X.lastModified version
  | _, _ => True

/-- Everything that is live for the project stems from the version. -/
def Coherent (version : ℕ) (w : World) : Prop :=
  ∀ part value, w.get (projectKey c part) = some value → Stems s c X version part value

/-- Every body that was stored as current after a 304 is derived from the version
that was current at that 304. -/
def RefreshesDerived : List Record → Prop
  | [] => True
  | .stored t values :: log =>
    (∀ version response, lastExchange t log = some (version, response) → response.status = 304 →
      ∀ x ∈ values, ∀ isJson, x.key = projectKey c (.body isJson) →
        Derived s c X version x.value) ∧ RefreshesDerived log
  | _ :: log => RefreshesDerived log

/-- The condition on a step: when a task stores after a 200, every live body that
the batch does not overwrite stems from the version that was fetched. -/
def FillMeetsOwnVersion (t : ℕ) (o : Op) (w : World) : Prop :=
  ∀ values version response, o = .setexMany values →
    lastExchange t w.log = some (version, response) → response.status = 200 →
      ∀ isJson, ∀ part ∈ [ProjectPart.body isJson, ProjectPart.stale isJson],
        (∀ x ∈ values, x.key ≠ projectKey c part) →
          ∀ value, w.get (projectKey c part) = some value → Derived s c X version value

/-! ## What the steps do to coherence -/

section Steps

variable {s c X} {version : ℕ} {w w' : World}

theorem coherent_write {values : List Write} (h : Coherent s c X version w)
    (hvalues : ∀ x ∈ values, ∀ part, x.key = projectKey c part → Stems s c X version part x.value) :
    Coherent s c X version (w.write values) := by
  intro part value hget
  rcases World.get_write hget with ⟨hget, -⟩ | ⟨x, hx, hkey, rfl⟩
  · exact h part value hget
  · exact hvalues x hx part hkey

theorem coherent_drift (h : Coherent s c X version w) (hdrift : Drift w w') :
    Coherent s c X version w' :=
  fun part value hget => h part value (hdrift.get hget)

theorem coherent_elapse {now : ℚ} (h : Coherent s c X version w) (hnow : w.now ≤ now) :
    Coherent s c X version { w with now } :=
  fun part value hget => h part value (World.get_of_elapse hnow hget)

/-- A lazy conversion keeps every version that its source stems from. -/
theorem coherent_conversion {r : ProjectRequest} {other body : Str} {n : ℤ} {n' : Option ℤ}
    (h : Coherent s r.canonical X version w) (hother : w.get r.otherKey = some other)
    (hbody : convertBody s r.canonical r.wantsJson other = .ok body) :
    Coherent s r.canonical X version (w.write (conversionValues r n n' body)) := by
  have hderived : Derived s r.canonical X version body :=
    .converted (h (.body _) other hother) hbody
  refine coherent_write h fun x hx part hkey => ?_
  rcases mem_conversionValues.mp hx with rfl | ⟨_, -, rfl⟩ <;>
  · obtain ⟨-, rfl⟩ := projectKey_inj.mp hkey.symm
    exact hderived

/-- What a 304 stores stems from the version of the bodies and validators in
hand. -/
theorem stems_refreshedValues {r : ProjectRequest} {etag lastMod otherStale : Option Str}
    {ttl : ℤ} {responseJson : Bool} {body : Str}
    (hetag : ∀ e, etag = some e → e = X.etag version)
    (hlastMod : ∀ l, lastMod = some l → l = X.lastModified version)
    (hbody : Derived s r.canonical X version body)
    (hother : ∀ other, otherStale = some other → Derived s r.canonical X version other) :
    ∀ x ∈ refreshedValues s r etag lastMod ttl responseJson body otherStale, ∀ part,
      x.key = projectKey r.canonical part → Stems s r.canonical X version part x.value := by
  intro x hx part hkey
  rcases mem_refreshedValues.mp hx with rfl | hx | ⟨-, other, ⟨hsome, -⟩, rfl⟩
  · obtain ⟨-, rfl⟩ := projectKey_inj.mp hkey.symm
    exact hbody
  · rcases mem_validatorValues.mp hx with ⟨v, ⟨hv, -⟩, rfl⟩ | ⟨v, ⟨hv, -⟩, rfl⟩
    · obtain ⟨-, rfl⟩ := projectKey_inj.mp hkey.symm
      exact hetag v hv
    · obtain ⟨-, rfl⟩ := projectKey_inj.mp hkey.symm
      exact hlastMod v hv
  · obtain ⟨-, rfl⟩ := projectKey_inj.mp hkey.symm
    exact hother other hsome

/-- A 200 makes everything stem from its version when it stores that version's
validators and bodies, and what it leaves alone stems from it too. -/
theorem coherent_fill {r : ProjectRequest} {values bodies : List Write}
    (hvalues : values =
      validatorValues s r (some (X.etag version)) (some (X.lastModified version)) ++ bodies)
    (hbodies : ∀ x ∈ bodies, ∃ isJson, (x.key = projectKey r.canonical (.body isJson) ∨
      x.key = projectKey r.canonical (.stale isJson)) ∧ Derived s r.canonical X version x.value)
    (hrest : ∀ isJson, ∀ part ∈ [ProjectPart.body isJson, ProjectPart.stale isJson],
      (∀ x ∈ values, x.key ≠ projectKey r.canonical part) →
        ∀ value, w.get (projectKey r.canonical part) = some value →
          Derived s r.canonical X version value) :
    Coherent s r.canonical X version (w.write values) := by
  have hetag : (⟨r.etagKey, s.settings.cacheStaleTtlSeconds, X.etag version⟩ : Write) ∈ values :=
    hvalues ▸ List.mem_append_left _
      (mem_validatorValues.mpr (.inl ⟨_, ⟨rfl, X.etag_ne_nil version⟩, rfl⟩))
  have hlastMod : (⟨r.lastmodKey, s.settings.cacheStaleTtlSeconds, X.lastModified version⟩ : Write)
      ∈ values :=
    hvalues ▸ List.mem_append_left _
      (mem_validatorValues.mpr (.inr ⟨_, ⟨rfl, X.lastModified_ne_nil version⟩, rfl⟩))
  intro part value hget
  rcases World.get_write hget with ⟨hget, hnot⟩ | ⟨x, hx, hkey, rfl⟩
  · -- not overwritten: the validators are, so it is a body or carries no version
    cases part with
    | body isJson => exact hrest isJson _ List.mem_cons_self hnot value hget
    | stale isJson =>
      exact hrest isJson _ (List.mem_cons_of_mem _ List.mem_cons_self) hnot value hget
    | etag => exact absurd rfl (hnot _ hetag)
    | lastmod => exact absurd rfl (hnot _ hlastMod)
    | notFound | metadataReady | metadataDiscovered => trivial
  · rw [hvalues] at hx
    rcases List.mem_append.mp hx with hx | hx
    · rcases mem_validatorValues.mp hx with ⟨v, ⟨hv, -⟩, rfl⟩ | ⟨v, ⟨hv, -⟩, rfl⟩
      · obtain ⟨-, rfl⟩ := projectKey_inj.mp hkey.symm
        exact (Option.some.inj hv).symm
      · obtain ⟨-, rfl⟩ := projectKey_inj.mp hkey.symm
        exact (Option.some.inj hv).symm
    · obtain ⟨isJson, hpart | hpart, hderived⟩ := hbodies x hx
      all_goals
        obtain ⟨-, rfl⟩ := projectKey_inj.mp (hkey.symm.trans hpart)
        exact hderived

end Steps

/-! ## The discipline of the requests -/

/-- The runs of one process whose every fill meets its own version. -/
abbrev guarded (B : Backend) : System Op Ret World (Request s c) Outcome :=
  (oneProcess s c B X.upstream).restrict (FillMeetsOwnVersion s c X)

/-- The task is inside the fill lock of the project. -/
def Holds (t : ℕ) (w : World) : Prop := w.held (0, fillLockKey c) = some t

/-- What every step keeps. -/
def Inv (w : World) : Prop := (∃ version, Coherent s c X version w) ∧ RefreshesDerived s c X w.log

/-- What a task relies on: nobody else answers for its exchanges, and while it
holds the fill lock the cache stays coherent with the version it was. -/
def Rely (t : ℕ) (w w' : World) : Prop :=
  lastExchange t w'.log = lastExchange t w.log ∧
    (Holds c t w → Holds c t w' ∧ ∀ version, Coherent s c X version w → Coherent s c X version w')

/-- What a task guarantees to the others. -/
def Guar (t : ℕ) (w w' : World) : Prop := ∀ u, u ≠ t → Rely s c X u w w'

/-- A revalidated reply carries a body derived from the version of the 304. -/
def RevalidatedDerived (t : ℕ) (outcome : Outcome) (w : World) : Prop :=
  ∀ reply, outcome = .ok reply →
    dictGet reply.headers ("X-Cache" : Str) = some ("REVALIDATED" : Str) →
      ∃ version response, lastExchange t w.log = some (version, response) ∧
        response.status = 304 ∧ Derived s c X version reply.body

section Tasks

variable {s c X} {B : Backend} {t : ℕ} {w w' w'' : World}

theorem rely_refl : Rely s c X t w w := ⟨rfl, fun h => ⟨h, fun _ => id⟩⟩

theorem rely_trans (h : Rely s c X t w w') (h' : Rely s c X t w' w'') : Rely s c X t w w'' := by
  refine ⟨h'.1.trans h.1, fun hholds => ?_⟩
  obtain ⟨hholds', hkeep⟩ := h.2 hholds
  obtain ⟨hholds'', hkeep'⟩ := h'.2 hholds'
  exact ⟨hholds'', fun version hv => hkeep' version (hkeep version hv)⟩

/-- A step that keeps the locks and every version is within the guarantee. -/
theorem guar_of_keeps (hlog : ∀ u, u ≠ t → lastExchange u w'.log = lastExchange u w.log)
    (hheld : w'.held = w.held)
    (hkeep : ∀ version, Coherent s c X version w → Coherent s c X version w') :
    Guar s c X t w w' :=
  fun u hu => ⟨hlog u hu, fun hholds => ⟨(congrFun hheld _).trans hholds, hkeep⟩⟩

/-- Whatever the holder of the lock does is within the guarantee: nobody else
relies on the cache. -/
theorem guar_of_holds (hholds : Holds c t w)
    (hlog : ∀ u, u ≠ t → lastExchange u w'.log = lastExchange u w.log) : Guar s c X t w w' :=
  fun u hu => ⟨hlog u hu, fun hu' => absurd (Option.some.inj (hu'.symm.trans hholds)) hu⟩

theorem guar_refl : Guar s c X t w w := fun _ _ => rely_refl

theorem guarded_exec {o : Op} {r : Ret o} (h : (guarded s c X B).exec t o w r w') :
    exec B X.upstream t o w r w' ∧ FillMeetsOwnVersion s c X t o w := h

/-- Reading keeps an assertion that the others do not disturb. -/
theorem keeps_read {A : World → Prop} (hstable : ∀ w w', A w → Rely s c X t w w' → A w') {o : Op}
    (ho : o.isRead) : (guarded s c X B).Keeps (Inv s c X) (Rely s c X t) (Guar s c X t) t A o := by
  intro w hA
  refine Effects.wp_call_of_stable hA hstable fun w₁ r w₂ hA₁ hI hex => ?_
  obtain rfl := eq_of_isRead ho (guarded_exec hex).1
  exact ⟨hI, guar_refl, hA₁⟩

/-- Serving from the cache keeps every assertion about the locks and the task's
own exchanges. -/
theorem serves {r : ProjectRequest} (A : World → Prop)
    (hstable : ∀ w w', A w → Rely s r.canonical X t w w' → A w')
    (hlocks : ∀ w w', A w → w'.held = w.held → A w') :
    Serves (guarded s r.canonical X B).toEffects (Inv s r.canonical X) (Rely s r.canonical X t)
      (Guar s r.canonical X t) t s r A (fun _ => A) where
  read _ ho := keeps_read hstable ho
  elapse := by
    intro w hA
    refine Effects.wp_call_of_stable hA hstable fun w₁ _ w₂ hA₁ hI hex => ?_
    obtain ⟨now, hnow, rfl⟩ := hex.1
    have hkeep : ∀ version, Coherent s r.canonical X version w₁ →
        Coherent s r.canonical X version { w₁ with now } := fun _ h => coherent_elapse h hnow
    exact ⟨⟨hI.1.imp hkeep, hI.2⟩, guar_of_keeps (fun _ _ => rfl) rfl hkeep, hlocks _ _ hA₁ rfl⟩
  sample w hA := by
    refine Effects.wp_mono (keeps_read hstable rfl w hA) fun _ w₁ hA₁ => ⟨hA₁, fun _ _ => hA₁⟩
  resample _ := keeps_read hstable rfl
  commit other body n n' hbody w hA := by
    refine Effects.wp_call_of_stable hA hstable fun w₁ committed w₂ hA₁ hI hex => ?_
    rcases exec_setexManyIfUnchanged (guarded_exec hex).1 with ⟨-, hmatches, rfl⟩ | ⟨-, rfl⟩
    · have hother : w₁.get r.otherKey = some other := hmatches _ List.mem_cons_self
      have hkeep : ∀ version, Coherent s r.canonical X version w₁ →
          Coherent s r.canonical X version (w₁.write (conversionValues r n n' body)) :=
        fun _ h => coherent_conversion h hother hbody
      exact ⟨⟨hI.1.imp hkeep, hI.2⟩, guar_of_keeps (fun _ _ => rfl) rfl hkeep, hlocks _ _ hA₁ rfl⟩
    · exact ⟨hI, guar_refl, hA₁⟩

end Tasks

/-! ## Under the fill lock -/

/-- The task can run `p` within the discipline, and `Q` holds when it returns. -/
abbrev Runs {α : Type} (B : Backend) (t : ℕ) (Q : α → World → Prop) (p : Program α) (w : World) :
    Prop :=
  (guarded s c X B).wp (Inv s c X) (Rely s c X t) (Guar s c X t) t Q p w

/-- Under the lock, after an exchange with this response. -/
structure Answered (t version : ℕ) (response : UpstreamResponse) (w : World) : Prop where
  holds : Holds c t w
  exchange : lastExchange t w.log = some (version, response)

/-- Under the lock, with everything live from this version. -/
structure Settled (t version : ℕ) (w : World) : Prop where
  holds : Holds c t w
  coherent : Coherent s c X version w

/-- What holds when the part under the lock ends. -/
def LockedPost (t : ℕ) (outcome : Outcome) (w : World) : Prop :=
  Holds c t w ∧ RevalidatedDerived s c X t outcome w

section Locked

variable {s X} {B : Backend} {t version : ℕ} {w : World} {r : ProjectRequest}
  {response : UpstreamResponse} {etag lastMod otherStale : Option Str} {body : Str}

theorem Answered.rely {c : Str} {w' : World} (h : Answered c t version response w)
    (hrely : Rely s c X t w w') : Answered c t version response w' :=
  ⟨(hrely.2 h.holds).1, hrely.1.trans h.exchange⟩

theorem Settled.rely {c : Str} {w' : World} (h : Settled s c X t version w)
    (hrely : Rely s c X t w w') : Settled s c X t version w' :=
  ⟨(hrely.2 h.holds).1, (hrely.2 h.holds).2 version h.coherent⟩

theorem RevalidatedDerived.rely {c : Str} {outcome : Outcome} {w' : World}
    (h : RevalidatedDerived s c X t outcome w) (hrely : Rely s c X t w w') :
    RevalidatedDerived s c X t outcome w' := by
  intro reply hreply hreval
  rw [hrely.1]
  exact h reply hreply hreval

theorem LockedPost.rely {c : Str} {outcome : Outcome} {w' : World}
    (h : LockedPost s c X t outcome w) (hrely : Rely s c X t w w') :
    LockedPost s c X t outcome w' :=
  ⟨(hrely.2 h.1).1, h.2.rely hrely⟩

theorem revalidatedDerived_error (e : Failure) :
    RevalidatedDerived s r.canonical X t (.error e) w :=
  fun _ h => absurd h (by simp)

theorem revalidatedDerived_of_ne {reply : Reply}
    (h : dictGet reply.headers ("X-Cache" : Str) ≠ some ("REVALIDATED" : Str)) :
    RevalidatedDerived s r.canonical X t (.ok reply) w := by
  rintro _ ⟨⟩ hreval
  exact absurd hreval h

/-- Storing a batch under the lock. -/
theorem runs_store {α : Type} {c : Str} (A : World → Prop) {Q : α → World → Prop}
    {values : List Write} {k : Unit → Program α} (hA : A w)
    (hstable : ∀ w w', A w → Rely s c X t w w' → A w') (hholds : ∀ w, A w → Holds c t w)
    (h : ∀ w, A w → Inv s c X w → FillMeetsOwnVersion s c X t (.setexMany values) w →
      Inv s c X ((w.write values).record (.stored t values)) ∧
        Runs s c X B t Q (k ()) ((w.write values).record (.stored t values))) :
    Runs s c X B t Q (call (.setexMany values) >>= k) w := by
  refine Effects.wp_call_of_stable hA hstable fun w₁ _ w₂ hA₁ hI hex => ?_
  obtain ⟨hex, hguard⟩ := guarded_exec hex
  obtain rfl : w₂ = (w₁.write values).record (.stored t values) := hex
  obtain ⟨hI₂, hk⟩ := h w₁ hA₁ hI hguard
  exact ⟨hI₂, guar_of_holds (hholds w₁ hA₁) fun _ _ => rfl, hk⟩

/-- A 304 with a derived body in hand refreshes the cache with its version. -/
theorem runs_refresh (hoff : s.settings.enableBackgroundMetadata = false)
    {responseJson : Bool} (hsettled : Settled s r.canonical X t version w)
    (hanswered : Answered r.canonical t version response w) (hstatus : response.status = 304)
    (hetag : ∀ e, etag = some e → e = X.etag version)
    (hlastMod : ∀ l, lastMod = some l → l = X.lastModified version)
    (hbody : Derived s r.canonical X version body)
    (hother : ∀ other, otherStale = some other → Derived s r.canonical X version other) :
    Runs s r.canonical X B t (LockedPost s r.canonical X t)
      (refresh s r etag lastMod response responseJson body otherStale) w := by
  unfold refresh
  refine runs_store (fun w => Settled s r.canonical X t version w ∧
      Answered r.canonical t version response w) ⟨hsettled, hanswered⟩
    (fun _ _ h hrely => ⟨h.1.rely hrely, h.2.rely hrely⟩) (fun _ h => h.1.holds) ?_
  rintro w₁ ⟨hsettled₁, hanswered₁⟩ hI -
  have hstems := @stems_refreshedValues s X version r etag lastMod otherStale
    (effectiveProjectTtl s.settings response.cacheControl) responseJson body hetag hlastMod hbody
    hother
  refine ⟨⟨⟨version, coherent_write hsettled₁.coherent hstems⟩, ?_, hI.2⟩, ?_⟩
  · rintro version' response' hlast - x hx isJson hkey
    obtain ⟨rfl, rfl⟩ : version = version' ∧ response = response' := by
      simpa using hanswered₁.exchange.symm.trans hlast
    exact hstems x hx (.body isJson) hkey
  · simp only [hoff, Bool.false_eq_true, if_false, cachedResponse, Prog.pure_eq, Prog.ret_bind]
    refine ⟨hsettled₁.holds, ?_⟩
    rintro _ ⟨⟩ -
    exact ⟨version, response, hanswered₁.exchange, hstatus, hbody⟩

/-- A 200 of the upstream carries the version's validators and text. -/
def Fills (X : Resource) (version : ℕ) (response : UpstreamResponse) : Prop :=
  response.etag = some (X.etag version) ∧ response.lastModified = some (X.lastModified version) ∧
    response.text = X.text version (isUpstreamJson response) ∧
    response.content = X.content version (isUpstreamJson response)

/-- Storing a 200, with bodies derived from its version. -/
theorem runs_storeBodies {α : Type} {bodies : List Write} {k : Unit → Program α}
    {Q : α → World → Prop} (hanswered : Answered r.canonical t version response w)
    (hstatus : response.status = 200) (hfills : Fills X version response)
    (hbodies : ∀ x ∈ bodies, ∃ isJson, (x.key = projectKey r.canonical (.body isJson) ∨
      x.key = projectKey r.canonical (.stale isJson)) ∧ Derived s r.canonical X version x.value)
    (hk : ∀ w, Holds r.canonical t w → Runs s r.canonical X B t Q (k ()) w) :
    Runs s r.canonical X B t Q
      (call (.setexMany (validatorValues s r response.etag response.lastModified ++ bodies)) >>= k)
      w := by
  refine runs_store (Answered r.canonical t version response) hanswered
    (fun _ _ h hrely => h.rely hrely) (fun _ h => h.holds) ?_
  intro w₁ hanswered₁ hI hguard
  have hrest := hguard _ version response rfl hanswered₁.exchange hstatus
  have hcoherent : Coherent s r.canonical X version
      (w₁.write (validatorValues s r response.etag response.lastModified ++ bodies)) :=
    coherent_fill (by rw [hfills.1, hfills.2.1]) hbodies hrest
  refine ⟨⟨⟨version, hcoherent⟩, ?_, hI.2⟩, hk _ hanswered₁.holds⟩
  intro version' response' hlast hstatus'
  obtain ⟨-, rfl⟩ : version = version' ∧ response = response' := by
    simpa using hanswered₁.exchange.symm.trans hlast
  exact absurd (hstatus.symm.trans hstatus') (by decide)

theorem miss_ne_revalidated (synthesis : Str) :
    dictGet (missHeaders response synthesis) ("X-Cache" : Str) ≠ some ("REVALIDATED" : Str) := by
  rw [show dictGet (missHeaders response synthesis) ("X-Cache" : Str) =
    some ("MISS" : Str) from rfl]
  decide

theorem derived_bodyValues {canonical : Str} {isJson : Bool} {ttl : ℤ}
    (hbody : Derived s canonical X version body) :
    ∀ x ∈ bodyValues s canonical isJson ttl body, ∃ isJson,
      (x.key = projectKey canonical (.body isJson) ∨ x.key = projectKey canonical (.stale isJson)) ∧
        Derived s canonical X version x.value := by
  intro x hx
  rcases mem_bodyValues.mp hx with rfl | rfl
  · exact ⟨isJson, .inl rfl, hbody⟩
  · exact ⟨isJson, .inr rfl, hbody⟩

/-- A 200 fills the cache with its version. -/
theorem runs_storeFill (hoff : s.settings.enableBackgroundMetadata = false)
    (hanswered : Answered r.canonical t version response w) (hstatus : response.status = 200)
    (hfills : Fills X version response) :
    Runs s r.canonical X B t (LockedPost s r.canonical X t) (storeFill s r response) w := by
  have htext : Derived s r.canonical X version response.text := hfills.2.2.1 ▸ .text _
  have hschedule : ∀ body isJson, scheduleMetadataEnrichment s r.canonical body
    isJson = .ret () := by
    intro body isJson
    simp [scheduleMetadataEnrichment, hoff]
  unfold storeFill
  dsimp only
  split
  · split
    · exact ⟨hanswered.holds, revalidatedDerived_error _⟩
    next body hbody =>
    unfold storePassthrough
    dsimp only
    refine runs_storeBodies hanswered hstatus hfills
      (derived_bodyValues (.rewritten htext hbody)) ?_
    intro w₁ hholds
    rw [hschedule]
    exact ⟨hholds, revalidatedDerived_of_ne (miss_ne_revalidated _)⟩
  · split
    · exact ⟨hanswered.holds, revalidatedDerived_error _⟩
    next json html hbodies =>
    rw [hfills.2.2.2] at hbodies
    unfold storeSynthesis
    dsimp only
    refine runs_storeBodies hanswered hstatus hfills ?_ ?_
    · have hjson : Derived s r.canonical X version json := .synthesizedJson htext hbodies
      have hhtml : Derived s r.canonical X version html := .synthesizedHtml htext hbodies
      intro x hx
      split at hx <;> rcases List.mem_append.mp hx with hx | hx
      · exact derived_bodyValues hjson x hx
      · exact derived_bodyValues hhtml x hx
      · exact derived_bodyValues hhtml x hx
      · exact derived_bodyValues hjson x hx
    · intro w₁ hholds
      rw [hschedule]
      exact ⟨hholds, revalidatedDerived_of_ne (miss_ne_revalidated _)⟩

/-- Any answer but a 304. -/
theorem runs_answer (hoff : s.settings.enableBackgroundMetadata = false)
    (hanswered : Answered r.canonical t version response w) (hstatus : response.status ≠ 304)
    (hfills : response.status = 200 → Fills X version response) :
    Runs s r.canonical X B t (LockedPost s r.canonical X t) (answer s r response) w := by
  unfold answer
  split
  · refine runs_store (Answered r.canonical t version response) hanswered
      (fun _ _ h hrely => h.rely hrely) (fun _ h => h.holds) ?_
    intro w₁ hanswered₁ hI _
    refine ⟨⟨hI.1.imp fun _ h => coherent_write h ?_, ?_, hI.2⟩, hanswered₁.holds,
      revalidatedDerived_error _⟩
    · intro x hx part hkey
      obtain rfl := List.mem_singleton.mp hx
      obtain ⟨-, rfl⟩ := projectKey_inj.mp hkey.symm
      trivial
    · intro version' response' hlast hstatus'
      obtain ⟨-, rfl⟩ : version = version' ∧ response = response' := by
        simpa using hanswered₁.exchange.symm.trans hlast
      exact absurd hstatus' hstatus
  split
  · exact ⟨hanswered.holds, revalidatedDerived_error _⟩
  · next hok => exact runs_storeFill hoff hanswered (not_not.mp hok) (hfills (not_not.mp hok))

/-- A GET under the lock: the exchange is the task's last one. -/
theorem runs_httpGet (A : World → Prop) {request : UpstreamRequest}
    {k : Option UpstreamResponse → Program Outcome} (hA : A w)
    (hstable : ∀ w w', A w → Rely s r.canonical X t w w' → A w')
    (hholds : ∀ w, A w → Holds r.canonical t w)
    (hnone : k none = .ret (.error upstreamError))
    (hsome : ∀ w response, A w → X.upstream w.version request (some response) →
      Runs s r.canonical X B t (LockedPost s r.canonical X t) (k (some response))
        (w.record (.exchange t w.now w.version request response))) :
    Runs s r.canonical X B t (LockedPost s r.canonical X t)
      (call (.httpGet request) >>= k) w := by
  refine Effects.wp_call_of_stable hA hstable fun w₁ response w₂ hA₁ hI hex => ?_
  obtain ⟨hupstream, hw₂⟩ := (guarded_exec hex).1
  cases response with
  | none =>
    obtain rfl : w₂ = w₁ := hw₂
    have hk : Runs s r.canonical X B t (LockedPost s r.canonical X t) (k none) w₂ := by
      rw [hnone]
      exact ⟨hholds _ hA₁, revalidatedDerived_error _⟩
    exact ⟨hI, guar_refl, hk⟩
  | some response =>
    obtain rfl : w₂ = w₁.record (.exchange t w₁.now w₁.version request response) := hw₂
    exact ⟨⟨hI.1, hI.2⟩, guar_of_holds (hholds w₁ hA₁) fun u hu => if_neg (Ne.symm hu),
      hsome w₁ response hA₁ hupstream⟩

theorem fills_of_upstream {request : UpstreamRequest}
    (h : X.upstream version request (some response)) (hstatus : response.status = 200) :
    Fills X version response :=
  ((h response rfl).2 hstatus).2

/-- Without a stale body the GET is repeated without validators. -/
theorem runs_refetch (hoff : s.settings.enableBackgroundMetadata = false)
    (hholds : Holds r.canonical t w) :
    Runs s r.canonical X B t (LockedPost s r.canonical X t) (refetch s r) w := by
  unfold refetch
  refine runs_httpGet (Holds r.canonical t) hholds (fun _ _ h hrely => (hrely.2 h).1)
    (fun _ h => h) rfl ?_
  intro w₁ response hholds₁ hupstream
  dsimp only
  split
  · exact ⟨hholds₁, revalidatedDerived_error _⟩
  · next hstatus =>
    exact runs_answer hoff ⟨hholds₁, if_pos rfl⟩ hstatus fun hok => fills_of_upstream hupstream hok

/-- Only the other format has a stale copy. -/
theorem runs_synthesizeStale (hoff : s.settings.enableBackgroundMetadata = false) {other : Str}
    (hsettled : Settled s r.canonical X t version w)
    (hanswered : Answered r.canonical t version response w) (hstatus : response.status = 304)
    (hetag : ∀ e, etag = some e → e = X.etag version)
    (hlastMod : ∀ l, lastMod = some l → l = X.lastModified version)
    (hother : Derived s r.canonical X version other) :
    Runs s r.canonical X B t (LockedPost s r.canonical X t)
      (synthesizeStale s r etag lastMod response other) w := by
  have hothers : ∀ o, some other = some o → Derived s r.canonical X version o := by
    rintro _ ⟨⟩
    exact hother
  unfold synthesizeStale
  split
  · exact runs_refresh hoff hsettled hanswered hstatus hetag hlastMod hother hothers
  split
  · split
    · exact runs_refetch hoff hsettled.holds
    · exact ⟨hsettled.holds, revalidatedDerived_error _⟩
  next body hbody =>
  refine runs_store (fun w => Settled s r.canonical X t version w ∧
      Answered r.canonical t version response w) ⟨hsettled, hanswered⟩
    (fun _ _ h hrely => ⟨h.1.rely hrely, h.2.rely hrely⟩) (fun _ h => h.1.holds) ?_
  rintro w₁ ⟨hsettled₁, hanswered₁⟩ hI -
  have hstems : ∀ x ∈ [(⟨r.otherStaleKey, s.settings.cacheStaleTtlSeconds, other⟩ : Write)],
      ∀ part, x.key = projectKey r.canonical part →
        part = .stale (!r.wantsJson) ∧ x.value = other := by
    intro x hx part hkey
    obtain rfl := List.mem_singleton.mp hx
    exact ⟨(projectKey_inj.mp hkey).2.symm, rfl⟩
  have hcoherent : Coherent s r.canonical X version
      (w₁.write [⟨r.otherStaleKey, s.settings.cacheStaleTtlSeconds, other⟩]) := by
    refine coherent_write hsettled₁.coherent fun x hx part hkey => ?_
    obtain ⟨rfl, hvalue⟩ := hstems x hx part hkey
    exact hvalue ▸ hother
  refine ⟨⟨⟨version, hcoherent⟩, ?_, hI.2⟩, ?_⟩
  · intro _ _ _ _ x hx isJson hkey
    exact absurd (hstems x hx _ hkey).1 (by simp)
  · exact runs_refresh hoff ⟨hsettled₁.holds, hcoherent⟩
      ⟨hanswered₁.holds, hanswered₁.exchange⟩ hstatus hetag hlastMod
      (.converted hother hbody) hothers

/-- The 304 branch. -/
theorem runs_notModified (hoff : s.settings.enableBackgroundMetadata = false)
    (hsettled : Settled s r.canonical X t version w)
    (hanswered : Answered r.canonical t version response w) (hstatus : response.status = 304)
    (hetag : ∀ e, etag = some e → e = X.etag version)
    (hlastMod : ∀ l, lastMod = some l → l = X.lastModified version) :
    Runs s r.canonical X B t (LockedPost s r.canonical X t)
      (notModified s r etag lastMod response) w := by
  unfold notModified
  refine wp_cacheGetTwo id (fun w => Settled s r.canonical X t version w ∧
      Answered r.canonical t version response w) ⟨hsettled, hanswered⟩
    (fun _ _ h hrely => ⟨h.1.rely hrely, h.2.rely hrely⟩) (fun _ => guar_refl)
    (fun _ _ _ hex => (guarded_exec hex).1) ?_
  rintro w₁ ⟨hsettled₁, hanswered₁⟩ -
  have hderived : ∀ isJson value, w₁.get (projectKey r.canonical (.stale isJson)) = some value →
      Derived s r.canonical X version value := fun isJson => hsettled₁.coherent (.stale isJson)
  dsimp only [id]
  cases hbody : w₁.get r.staleKey with
  | some body =>
    exact runs_refresh hoff hsettled₁ hanswered₁ hstatus hetag hlastMod (hderived _ _ hbody)
      fun other hother => hderived _ _ hother
  | none =>
    cases hother : w₁.get r.otherStaleKey with
    | some other =>
      exact runs_synthesizeStale hoff hsettled₁ hanswered₁ hstatus hetag hlastMod
        (hderived _ _ hother)
    | none => exact runs_refetch hoff hsettled₁.holds

/-- A request that names a version with validators of `version` names it. -/
theorem eq_version_of_names {current : ℕ}
    (hetag : ∀ e, etag = some e → e = X.etag version)
    (hlastMod : ∀ l, lastMod = some l → l = X.lastModified version)
    (h : X.Names current (upstreamRequest s r etag lastMod)) : current = version := by
  unfold Resource.Names upstreamRequest at h
  dsimp only at h
  split at h
  · next he =>
    obtain ⟨he, -⟩ := Option.filter_eq_some_iff.mp he
    exact X.etag_injective (h.symm.trans (hetag _ he))
  · next hl =>
    obtain ⟨hl, -⟩ := Option.filter_eq_some_iff.mp hl
    exact X.lastModified_injective (h.symm.trans (hlastMod _ hl))
  · exact h.elim

/-- The GET with validators of the version that is live. -/
theorem runs_conditionalGet (hoff : s.settings.enableBackgroundMetadata = false)
    (hsettled : Settled s r.canonical X t version w)
    (hetag : ∀ e, etag = some e → e = X.etag version)
    (hlastMod : ∀ l, lastMod = some l → l = X.lastModified version) :
    Runs s r.canonical X B t (LockedPost s r.canonical X t)
      (conditionalGet s r etag lastMod) w := by
  unfold conditionalGet
  refine runs_httpGet (Settled s r.canonical X t version) hsettled (fun _ _ h hrely => h.rely hrely)
    (fun _ h => h.holds) rfl ?_
  intro w₁ response hsettled₁ hupstream
  dsimp only
  split
  · next hstatus =>
    obtain rfl : w₁.version = version :=
      eq_version_of_names hetag hlastMod ((hupstream response rfl).1 hstatus)
    exact runs_notModified hoff ⟨hsettled₁.holds, hsettled₁.coherent⟩
      ⟨hsettled₁.holds, if_pos rfl⟩ hstatus hetag hlastMod
  · next hstatus =>
    exact runs_answer hoff ⟨hsettled₁.holds, if_pos rfl⟩ hstatus fun hok =>
      fills_of_upstream hupstream hok

/-- The validators that are sent are those of the version that is live. -/
theorem runs_fetchUpstream (hoff : s.settings.enableBackgroundMetadata = false)
    (hholds : Holds r.canonical t w) :
    Runs s r.canonical X B t (LockedPost s r.canonical X t) (fetchUpstream s r) w := by
  have hstable : ∀ w w', Holds r.canonical t w → Rely s r.canonical X t w w' →
      Holds r.canonical t w' := fun _ _ h hrely => (hrely.2 h).1
  simp only [fetchUpstream, Prog.op_bind]
  refine Effects.wp_call_of_stable hholds hstable fun w₁ found w₂ hholds₁ hI hex => ?_
  obtain rfl := eq_of_isRead rfl (guarded_exec hex).1
  refine ⟨hI, guar_refl, ?_⟩
  split
  · refine wp_cacheGetTwo id (Holds r.canonical t) hholds₁ hstable (fun _ => guar_refl)
      (fun _ _ _ hex => (guarded_exec hex).1) ?_
    rintro w₃ hholds₃ ⟨⟨version, hcoherent⟩, -⟩
    exact runs_conditionalGet hoff ⟨hholds₃, hcoherent⟩ (hcoherent .etag) (hcoherent .lastmod)
  · obtain ⟨version, hcoherent⟩ := hI.1
    exact runs_conditionalGet hoff ⟨hholds₁, hcoherent⟩ (by simp) (by simp)

theorem hit_ne_revalidated {result : Except Failure (Option Reply)} {reply : Reply}
    (h : IsHit result) (hresult : result = .ok (some reply)) :
    RevalidatedDerived s r.canonical X t (.ok reply) w := by
  refine revalidatedDerived_of_ne fun hreval => ?_
  have hmem := h reply hresult
  rw [hreval] at hmem
  exact absurd hmem (by decide)

/-- What runs under the fill lock. -/
theorem runs_fill (hoff : s.settings.enableBackgroundMetadata = false)
    (hholds : Holds r.canonical t w) :
    Runs s r.canonical X B t (LockedPost s r.canonical X t) (fill s r) w := by
  unfold fill
  refine Effects.wp_bind.mpr (Effects.wp_mono (Effects.wp_and_returns
    ((serves (Holds r.canonical t) (fun _ _ h hrely => (hrely.2 h).1) fun _ _ h hheld =>
      (congrFun hheld _).trans h).wp_tryServeFromCache hholds) (tryServeFromCache_isHit s r)) ?_)
  rintro (e | _ | hit) w₁ ⟨hholds₁, hhit⟩
  · exact ⟨hholds₁, revalidatedDerived_error _⟩
  · exact runs_fetchUpstream hoff hholds₁
  · exact ⟨hholds₁, hit_ne_revalidated hhit rfl⟩

end Locked

/-! ## Requests -/

section Requests

variable {s X} {B : Backend} {t : ℕ} {w : World} {r : ProjectRequest}

/-- A request, from its first look at the cache to its response. -/
theorem runs_serveProject (hoff : s.settings.enableBackgroundMetadata = false) :
    Runs s r.canonical X B t (RevalidatedDerived s r.canonical X t) (serveProject s 0 r) w := by
  unfold serveProject
  refine Effects.wp_bind.mpr (Effects.wp_mono (Effects.wp_and_returns
    ((serves (fun _ => True) (fun _ _ _ _ => trivial)
      fun _ _ _ _ => trivial).wp_tryServeFromCache trivial) (tryServeFromCache_isHit s r)) ?_)
  rintro (e | _ | hit) w₁ ⟨-, hhit⟩
  · exact revalidatedDerived_error _
  · simp only [withLock, Prog.op_bind]
    intro w₂ _ hI _ w₃ hex
    obtain ⟨hfree, rfl⟩ := (guarded_exec hex).1
    refine ⟨hI, fun u _ => ⟨rfl, fun hu => ?_⟩, ?_⟩
    · rw [Holds, hfree] at hu
      cases hu
    have hholds : Holds r.canonical t (w₂.setHeld (0, fillLockKey r.canonical) (some t)) :=
      Function.update_self ..
    refine Effects.wp_bind.mpr (Effects.wp_mono (runs_fill hoff hholds) ?_)
    rintro outcome w₄ ⟨hholds₄, hpost⟩
    have hlocked : LockedPost s r.canonical X t outcome w₄ := ⟨hholds₄, hpost⟩
    refine Effects.wp_call_of_stable hlocked (fun _ _ h hrely => h.rely hrely) ?_
    rintro w₅ _ w₆ ⟨hholds₅, hpost₅⟩ hI₅ hex
    obtain rfl : w₆ = w₅.setHeld (0, fillLockKey r.canonical) none := (guarded_exec hex).1
    exact ⟨hI₅, guar_of_holds hholds₅ fun _ _ => rfl, hpost₅⟩
  · exact hit_ne_revalidated hhit rfl

end Requests

/-! ## Runs -/

section Runs

variable {s c X} {B : Backend}

theorem rely_of_drift {t : ℕ} {w w' : World} (hdrift : Drift w w') : Rely s c X t w w' :=
  ⟨congrArg _ hdrift.log, fun hholds =>
    ⟨(congrFun hdrift.held _).trans hholds, fun _ h => coherent_drift h hdrift⟩⟩

theorem inv_of_fresh {w : World} (h : Fresh w) : Inv s c X w := by
  have hget : ∀ key, w.get key = none := fun key => by simp [World.get, Store.get, h.1 key]
  refine ⟨⟨0, fun part value hvalue => ?_⟩, h.2.2 ▸ trivial⟩
  rw [hget] at hvalue
  cases hvalue

/-- The rely-guarantee proof of coherence. -/
def discipline (hoff : s.settings.enableBackgroundMetadata = false) :
    Discipline (guarded s c X B) where
  Inv := Inv s c X
  rely t _ := Rely s c X t
  guar t _ := Guar s c X t
  post t _ := RevalidatedDerived s c X t
  rely_refl _ _ _ := rely_refl
  rely_trans _ _ _ _ _ := rely_trans
  init _ := inv_of_fresh
  env _ _ hI hdrift :=
    ⟨⟨hI.1.imp fun _ h => coherent_drift h hdrift, hdrift.log ▸ hI.2⟩, fun _ _ =>
      rely_of_drift hdrift⟩
  others _ _ u _ _ _ hu _ _ hguar := hguar u hu
  post_stable _ _ _ _ _ h _ hrely := h.rely hrely
  start := by
    rintro t ⟨project, accept, rfl⟩ w -
    exact runs_serveProject hoff

/-- **Coherent revalidation.** In every run of one process whose 200 fills leave
no live body of another version behind, everything that is live stems from one
version, and every body that a 304 serves or stores is derived from the version
that was current at it. -/
theorem revalidation_coherent (hoff : s.settings.enableBackgroundMetadata = false)
    {config : Config Op Ret World (Request s c) Outcome}
    (h : (guarded s c X B).Reachable config) :
    (∃ version, Coherent s c X version config.world) ∧
      RefreshesDerived s c X config.world.log ∧
      ∀ t outcome, config.result t = some outcome →
        RevalidatedDerived s c X t outcome config.world := by
  obtain ⟨hcoherent, hrefreshes⟩ := ((discipline hoff).sound h).inv
  refine ⟨hcoherent, hrefreshes, fun t outcome hresult => ?_⟩
  obtain ⟨e, htask⟩ := Config.result_eq_some.mp hresult
  exact (discipline hoff).returned h htask

end Runs

/-! ## A page that outlives its version -/

instance (X : Resource) (version : ℕ) : (request : UpstreamRequest) →
    Decidable (X.Names version request)
  | ⟨_, _, some etag, _⟩ => inferInstanceAs (Decidable (etag = X.etag version))
  | ⟨_, _, none, some lastModified⟩ =>
    inferInstanceAs (Decidable (lastModified = X.lastModified version))
  | ⟨_, _, none, none⟩ => inferInstanceAs (Decidable False)

/-- The response with a text of the version. -/
def Resource.page (X : Resource) (version : ℕ) (isJson : Bool) : UpstreamResponse where
  status := 200
  contentType := some (mediaTypeOf isJson)
  etag := some (X.etag version)
  lastModified := some (X.lastModified version)
  text := X.text version isJson
  content := X.content version isJson

/-- An upstream that sends JSON to whoever accepts it. -/
def Resource.serve (X : Resource) (version : ℕ) (request : UpstreamRequest) :
    Option UpstreamResponse :=
  if X.Names version request then some { status := 304 }
  else some (X.page version (contains ("json" : Str) request.accept))

theorem Resource.upstream_serve (X : Resource) (version : ℕ) (request : UpstreamRequest) :
    X.upstream version request (X.serve version request) := by
  have hjson : ∀ isJson, isUpstreamJson (X.page version isJson) = isJson := by
    rintro (_ | _) <;> rfl
  rintro r hr
  unfold Resource.serve at hr
  split at hr
  · next hnames =>
    obtain rfl := Option.some.inj hr
    exact ⟨fun _ => hnames, fun h => absurd h (by decide)⟩
  · next hnames =>
    obtain rfl := Option.some.inj hr
    refine ⟨fun h => absurd h (by simp [Resource.page]), fun _ => ⟨hnames, rfl, rfl, ?_, ?_⟩⟩
    · rw [hjson]
      rfl
    · rw [hjson]
      rfl

def oneFileName : Str := ("one-1.0.tar.gz" : Str)

def oneFileUrl : Str := ("https://files.pythonhosted.org/one-1.0.tar.gz" : Str)

def oneFile : File where
  filename := .str oneFileName
  url := .str oneFileUrl
  hashes := .dict []
  yanked := .null

/-- The texts of a project whose only file is removed with version 1. -/
def oneFileHtml : Str :=
  "<html><body><a href=\"https://files.pythonhosted.org/one-1.0.tar.gz\">".toList ++
    "one-1.0.tar.gz</a></body></html>".toList

def oneFileJson : Str :=
  "\x7b\"name\": \"one\", \"files\": [\x7b\"filename\": \"one-1.0.tar.gz\", ".toList ++
    "\"url\": \"https://files.pythonhosted.org/one-1.0.tar.gz\", \"hashes\": \x7b\x7d, ".toList ++
    "\"core-metadata\": false\x7d], \"meta\": \x7b\"api-version\": \"1.1\"\x7d\x7d".toList

def noFilesHtml : Str := "<html><body></body></html>".toList

def noFilesJson : Str :=
  "\x7b\"name\": \"one\", \"files\": [], \"meta\": \x7b\"api-version\": \"1.1\"\x7d\x7d".toList

def tally (c : Char) (n : ℕ) : Str := List.replicate (n + 1) c

theorem tally_injective (c : Char) : Function.Injective (tally c) := by
  intro n m h
  simpa [tally] using congrArg List.length h

def shrinkingText : ℕ → Bool → Str
  | 0, true => oneFileJson
  | 0, false => oneFileHtml
  | _ + 1, true => noFilesJson
  | _ + 1, false => noFilesHtml

/-- A project whose only file is removed with version 1. -/
def shrinking : Resource where
  etag := tally 'e'
  lastModified := tally 'm'
  text := shrinkingText
  content version isJson := (shrinkingText version isJson).map fun c => UInt8.ofNat c.toNat
  etag_injective := tally_injective 'e'
  lastModified_injective := tally_injective 'm'
  etag_ne_nil _ := by simp [tally]
  lastModified_ne_nil _ := by simp [tally]

def loadShrinking (text : Str) : Except Raised Json :=
  if text = noFilesJson then
    .ok (modelToJson { name := .str ("one" : Str), files := [] })
  else if text = oneFileJson then
    .ok (modelToJson { name := .str ("one" : Str), files := [oneFile] })
  else .error .valueError

/-- The documents of the project. -/
def shrinkingDocuments : Documents where
  loads := loadShrinking
  loadsBytes content := loadShrinking (asciiText content)
  dumps _ := noFilesJson
  dumpsCompact _ := noFilesJson
  format _ := []
  anchors text :=
    .ok (if text = oneFileHtml then [⟨[(("href" : Str), oneFileUrl)], oneFileName⟩] else [])
  withAnchors text _ := text

/-- A proxy of the project that does not rewrite links. -/
def plainSite : Site where
  U := asciiOnly
  D := shrinkingDocuments
  float _ := none
  packaging := plainReleases
  settings := { rewriteArtifactUrls := false }

def one : Str := ("one" : Str)

def htmlRequest : Request plainSite one := ⟨one, some contentTypeHtml, by decide +kernel⟩

def jsonRequest : Request plainSite one := ⟨one, some contentTypeJson, by decide +kernel⟩

def plainDriver : Driver (oneProcess plainSite one .memory shrinking.upstream) Choice :=
  serviceDriver _ rfl rfl shrinking.serve shrinking.upstream_serve

/-- A request that misses: the lock, the exchange, and the lock again. -/
def miss (t : ℕ) (r : Request plainSite one) : List (Move (Request plainSite one) Choice) :=
  [.start t r {}, .call t {}, .call t {}, .call t {}]

/-- The page is cached, removed from the index while it is stale, and asked for
again after the other format has been fetched. -/
def overtaken : List (Move (Request plainSite one) Choice) :=
  miss 0 htmlRequest ++ [.env { elapsed := 100, published := 1 }] ++ miss 1 jsonRequest
    ++ [.env { elapsed := 100 }] ++ miss 2 htmlRequest

/-- What a request ended with: the body, its `X-Cache`, and its exchange. -/
def ending (t : ℕ) (config : Config Op Ret World (Request plainSite one) Outcome) :
    Option (Str × Option Str × Option (ℕ × ℕ)) :=
  match config.result t with
  | some (.ok reply) => some (reply.body, dictGet reply.headers ("X-Cache" : Str),
      (lastExchange t config.world.log).map fun (version, response) => (version, response.status))
  | _ => none

theorem of_ending {t version status : ℕ} {body : Str} {xCache : Option Str}
    {config : Config Op Ret World (Request plainSite one) Outcome}
    (h : ending t config = some (body, xCache, some (version, status))) :
    ∃ reply response, config.result t = some (.ok reply) ∧ reply.body = body ∧
      dictGet reply.headers ("X-Cache" : Str) = xCache ∧
      lastExchange t config.world.log = some (version, response) ∧ response.status = status := by
  unfold ending at h
  split at h
  · next reply hresult =>
    simp only [Option.some.injEq, Prod.mk.injEq, Option.map_eq_some_iff] at h
    obtain ⟨hbody, hcache, ⟨version', response⟩, hlast, rfl, hstatus⟩ := h
    exact ⟨reply, response, hresult, hbody, hcache, hlast, hstatus⟩
  · cases h

/-- The bodies that can be made of a version without files. -/
def noFilesBodies : List Str :=
  [noFilesHtml, noFilesJson,
    List.intercalate ['\n'] (htmlHeader one ++ [("</body></html>" : Str)])]

/-- The result, if there is one, satisfies `p`. -/
def within {α : Type} (p : α → Bool) : Except Raised α → Bool
  | .ok a => p a
  | .error _ => true

def hasNoFiles (body : Str) : Bool := decide (body ∈ noFilesBodies)

/-- Rewriting and converting lead from such a body only to such a body. -/
theorem noFilesBodies_closed : ∀ body ∈ noFilesBodies, ∀ isJson : Bool,
    within hasNoFiles
      (rewriteSimpleBody plainSite.U plainSite.D plainSite.settings body isJson) = true ∧
    within hasNoFiles (convertBody plainSite one isJson body) = true ∧
    within (fun bodies => hasNoFiles bodies.1 && hasNoFiles bodies.2)
      (synthesizeBodies plainSite one isJson (shrinking.content 1 isJson) body) = true := by
  decide +kernel

theorem shrinking_content (version : ℕ) (isJson : Bool) :
    shrinking.content (version + 1) isJson = shrinking.content 1 isJson := by
  cases isJson <;> rfl

theorem hasNoFiles_of_derived {version : ℕ} {body : Str}
    (h : Derived plainSite one shrinking (version + 1) body) : body ∈ noFilesBodies := by
  induction h with
  | text isJson =>
    cases isJson
    · exact List.mem_cons_self
    · exact List.mem_cons_of_mem _ List.mem_cons_self
  | @rewritten body body' isJson _ h ih =>
    have := (noFilesBodies_closed body ih isJson).1
    rw [h] at this
    exact of_decide_eq_true this
  | @converted body body' toJson _ h ih =>
    have := (noFilesBodies_closed body ih toJson).2.1
    rw [h] at this
    exact of_decide_eq_true this
  | @synthesizedJson body json html isJson _ h ih =>
    have := (noFilesBodies_closed body ih isJson).2.2
    rw [← shrinking_content version, h] at this
    exact of_decide_eq_true (Bool.and_eq_true_iff.mp this).1
  | @synthesizedHtml body json html isJson _ h ih =>
    have := (noFilesBodies_closed body ih isJson).2.2
    rw [← shrinking_content version, h] at this
    exact of_decide_eq_true (Bool.and_eq_true_iff.mp this).2

theorem overtaken_serves_removed_page :
    (plainDriver.replay overtaken (Driver.boot emptyWorld)).bind (ending 2) =
      some (oneFileHtml, some ("REVALIDATED" : Str), some (1, 304)) := by
  decide +kernel

/-- A 304 brings a page back that was removed before the version it is for. -/
theorem not_coherent_shrinking :
    ¬ ∀ (s : Site) (c : Str) (X : Resource) (B : Backend)
      (config : Config Op Ret World (Request s c) Outcome),
      s.settings.enableBackgroundMetadata = false → (oneProcess s c B X.upstream).Reachable config →
        ∀ t outcome, config.result t = some outcome →
          RevalidatedDerived s c X t outcome config.world := by
  intro h
  obtain ⟨config, hreplay, hending⟩ := Option.bind_eq_some_iff.mp overtaken_serves_removed_page
  have hreach : (oneProcess plainSite one .memory shrinking.upstream).Reachable config :=
    (Driver.replay_boot fresh_emptyWorld hreplay).1
  obtain ⟨reply, response, hresult, hbody, hcache, hlast, -⟩ := of_ending hending
  obtain ⟨version, response', hlast', -, hderived⟩ :=
    h plainSite one shrinking .memory config rfl hreach 2 _ hresult reply rfl hcache
  obtain ⟨rfl, -⟩ := Prod.mk.inj (Option.some.inj (hlast.symm.trans hlast'))
  exact absurd (hasNoFiles_of_derived (hbody ▸ hderived)) (by decide +kernel)

/-- A fill that leaves no live body behind meets the condition. -/
def leavesNothing (c : Str) (t : ℕ) (o : Op) (w : World) : Bool :=
  match o, lastExchange t w.log with
  | .setexMany values, some (_, response) =>
    response.status != 200 ||
      [ProjectPart.body true, .body false, .stale true, .stale false].all fun part =>
        values.any (·.key = projectKey c part) || (w.get (projectKey c part)).isNone
  | _, _ => true

theorem fillMeetsOwnVersion_of_leavesNothing {s : Site} {c : Str} {X : Resource} {t : ℕ} {o : Op}
    {w : World} (h : leavesNothing c t o w = true) : FillMeetsOwnVersion s c X t o w := by
  rintro values version response rfl hlast hstatus isJson part hpart hnot value hget
  simp only [leavesNothing, hlast, hstatus, bne_self_eq_false, Bool.false_or, List.all_eq_true,
    Bool.or_eq_true, List.any_eq_true, decide_eq_true_eq, Option.isNone_iff_eq_none] at h
  have hmem : part ∈ [ProjectPart.body true, .body false, .stale true, .stale false] := by
    cases isJson <;> simp only [List.mem_cons, List.not_mem_nil, or_false] at hpart ⊢ <;> tauto
  rcases h part hmem with ⟨x, hx, hkey⟩ | hnone
  · exact absurd hkey (hnot x hx)
  · rw [hnone] at hget
    cases hget

def guardedDriver : Driver (guarded plainSite one shrinking .memory) Choice :=
  plainDriver.restrict (leavesNothing one) fillMeetsOwnVersion_of_leavesNothing

/-- A page that is still current is revalidated with its own version. -/
theorem revalidation_coherent_oneFile :
    ∃ config, (guarded plainSite one shrinking .memory).Reachable config ∧
      ending 1 config = some (oneFileHtml, some ("REVALIDATED" : Str), some (0, 304)) ∧
      ∀ t outcome, config.result t = some outcome →
        RevalidatedDerived plainSite one shrinking t outcome config.world := by
  have hreplay : (guardedDriver.replay
      (miss 0 htmlRequest ++ [.env { elapsed := 100 }] ++ miss 1 htmlRequest)
      (Driver.boot emptyWorld)).bind (ending 1) =
        some (oneFileHtml, some ("REVALIDATED" : Str), some (0, 304)) := by
    decide +kernel
  obtain ⟨config, hreplay, hending⟩ := Option.bind_eq_some_iff.mp hreplay
  have hreach : (guarded plainSite one shrinking .memory).Reachable config :=
    (Driver.replay_boot fresh_emptyWorld hreplay).1
  exact ⟨config, hreach, hending, (revalidation_coherent rfl hreach).2.2⟩

end ProxyCache.Theorems.Revalidation
