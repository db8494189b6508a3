import ProxyCache.App.BackgroundRules
import ProxyCache.App.Systems
import ProxyCache.Lib.Observe

/-!
# Freshness comes from the upstream

On the memory backend a cached body lives no longer than its last 200 or 304
allows, whatever conversions and enrichment commits copy it, and a project whose
bodies have all expired has none again before another such exchange.
-/

namespace ProxyCache.Theorems.Freshness

open ProxyCache.Lib ProxyCache.Python ProxyCache.App

variable (s : Site) (c : Str)

/-- The response lets a body be stored as current. -/
def Refreshes (response : UpstreamResponse) : Prop :=
  response.status = 200 ∨ response.status = 304

instance (response : UpstreamResponse) : Decidable (Refreshes response) :=
  inferInstanceAs (Decidable (_ ∨ _))

/-- The key of the current body in one format. -/
def primary (isJson : Bool) : Str := projectKey c (.body isJson)

/-- Every live body expires within the lifetime that a 200 or 304 has given. -/
def Bounded (w : World) : Prop :=
  ∀ isJson e, w.expiry (primary c isJson) = some e →
    ∃ t time version request response,
      Record.exchange t time version request response ∈ w.log ∧ Refreshes response ∧
        e ≤ time + effectiveProjectTtl s.settings response.cacheControl

/-- No current body is live. -/
def Dead (w : World) : Prop := ∀ isJson, w.expiry (primary c isJson) = none

/-- The call is a GET that is answered with a 200 or 304. -/
def isRefresh : (o : Op) → Ret o → Bool
  | .httpGet _, response =>
    match response with
    | some response => decide (Refreshes response)
    | none => false
  | _, _ => false

/-- The service, with a flag that is up while no body may come to life. -/
abbrev observed (upstream : Upstream) : System Op Ret (World × Bool) (ProjectTask s c) TaskResult :=
  (memoryService s c upstream).observe (Dead c) isRefresh

/-- What every step keeps. -/
structure Inv (w : World × Bool) : Prop where
  bounded : Bounded s c w.1
  dead : w.2 = true → Dead c w.1

/-- A task can run `p` while the others keep the invariant. -/
abbrev Runs {α : Type} (upstream : Upstream) (t : ℕ) (Q : α → World × Bool → Prop) (p : Program α)
    (w : World × Bool) : Prop :=
  (observed s c upstream).wp (Inv s c) (fun _ _ => True) (fun _ _ => True) t Q p w

/-! ## Steps -/

section Steps

variable {s c} {upstream : Upstream} {t : ℕ} {w w' : World × Bool}

/-- A step after which no current body is live that was not, or lives longer. -/
theorem Inv.mono (h : Inv s c w)
    (hexpiry : ∀ isJson e, w'.1.expiry (primary c isJson) = some e →
      w.1.expiry (primary c isJson) = some e)
    (hlog : ∀ r ∈ w.1.log, r ∈ w'.1.log) (hflag : w'.2 = true → w.2 = true) : Inv s c w' where
  bounded isJson e he := by
    obtain ⟨t, time, version, request, response, hmem, hrest⟩ := h.bounded isJson e (hexpiry _ _ he)
    exact ⟨t, time, version, request, response, hlog _ hmem, hrest⟩
  dead hup isJson := by
    cases he : w'.1.expiry (primary c isJson) with
    | none => rfl
    | some e =>
      have hnone := h.dead (hflag hup) isJson
      rw [hexpiry _ _ he] at hnone
      cases hnone

/-- The call stores no current body of the project. -/
def Harmless (c : Str) (o : Op) : Prop := ∀ x ∈ o.writes, ∀ isJson, x.key ≠ primary c isJson

/-- A live body after a batch without current bodies was live before. -/
theorem expiry_write_other {values : List Write} {w : World} {isJson : Bool} {e : ℚ}
    (hother : ∀ x ∈ values, ∀ isJson, x.key ≠ primary c isJson)
    (h : (w.write values).expiry (primary c isJson) = some e) :
    w.expiry (primary c isJson) = some e := by
  rcases World.expiry_write h with ⟨h, -⟩ | ⟨x, hx, hkey, -⟩
  · exact h
  · exact absurd hkey (hother x hx isJson)

theorem observed_exec {o : Op} {r : Ret o} (hex : (observed s c upstream).exec t o w r w') :
    exec .memory upstream t o w.1 r w'.1 ∧ w'.2 = (w.2 && !isRefresh o r) := hex

theorem inv_of_harmless {o : Op} {r : Ret o} (ho : Harmless c o) (hI : Inv s c w)
    (hex : (observed s c upstream).exec t o w r w') : Inv s c w' := by
  obtain ⟨hex, hfall⟩ := observed_exec hex
  have hflag : w'.2 = true → w.2 = true := by
    rw [hfall]
    exact fun h => (Bool.and_eq_true_iff.mp h).1
  have hsame : w'.1 = w.1 → Inv s c w' := by
    intro h
    exact hI.mono (by rw [h]; exact fun _ _ => id) (by rw [h]; exact fun _ => id) hflag
  cases o with
  | getMany | existsAny | ttl | ttlIfValues => exact hsame hex.2
  | httpHead | extractWheelMetadata | suspend | unfinished | schedule => exact hsame hex
  | setexMany values =>
    have hw' : w'.1 = (w.1.write values).record (.stored t values) := hex
    refine hI.mono (fun isJson e he => ?_) (fun r hr => ?_) hflag
    · rw [hw'] at he
      exact expiry_write_other ho he
    · rw [hw']
      exact List.mem_cons_of_mem _ hr
  | setexManyIfUnchanged expected values =>
    rcases exec_setexManyIfUnchanged hex with ⟨-, -, hw'⟩ | ⟨-, hw'⟩
    · refine hI.mono (fun isJson e he => ?_) (fun r hr => ?_) hflag
      · rw [hw'] at he
        exact expiry_write_other ho he
      · rw [hw']
        exact List.mem_cons_of_mem _ hr
    · exact hsame hw'
  | acquire lock =>
    have hw' : w'.1 = w.1.setHeld lock (some t) := hex.2
    exact hI.mono (by rw [hw']; exact fun _ _ => id) (by rw [hw']; exact fun _ => id) hflag
  | release lock =>
    have hw' : w'.1 = w.1.setHeld lock none := hex
    exact hI.mono (by rw [hw']; exact fun _ _ => id) (by rw [hw']; exact fun _ => id) hflag
  | elapse =>
    obtain ⟨now, hnow, hw'⟩ := hex
    refine hI.mono (fun isJson e he => ?_) (by rw [hw']; exact fun _ => id) hflag
    rw [hw'] at he
    obtain ⟨value, hstore, hlive⟩ := World.expiry_eq_some.mp he
    exact World.expiry_eq_some.mpr ⟨value, hstore, lt_of_le_of_lt hnow hlive⟩
  | httpGet request =>
    obtain ⟨-, hw'⟩ := hex
    cases r with
    | none => exact hsame hw'
    | some response =>
      have hw' : w'.1 = w.1.record (.exchange t w.1.now w.1.version request response) := hw'
      refine hI.mono (by rw [hw']; exact fun _ _ => id) (fun r hr => ?_) hflag
      rw [hw']
      exact List.mem_cons_of_mem _ hr

theorem runs_of_harmless {α : Type} {p : Program α} (hp : p.Calls (Harmless c)) :
    Runs s c upstream t (fun _ _ => True) p w :=
  Effects.wp_of_calls hp fun _ _ _ _ ho hI hex => ⟨inv_of_harmless ho hI hex, trivial⟩

theorem harmless_of_isRead {o : Op} (ho : o.isRead) : Harmless c o := by
  cases o <;> simp_all [Op.isRead, Harmless, Op.writes]

/-- What a 200 or 304 stores lives as long as that exchange allows. -/
theorem inv_write {values : List Write} {response : UpstreamResponse} {r : Record}
    (hI : Inv s c w)
    (hexchange : ∃ t version request,
      Record.exchange t w.1.now version request response ∈ w.1.log)
    (hrefreshes : Refreshes response) (hdown : w.2 = false)
    (hvalues : ∀ x ∈ values, ∀ isJson, x.key = primary c isJson →
      x.ttl = effectiveProjectTtl s.settings response.cacheControl) :
    Inv s c ((w.1.write values).record r, w.2) where
  bounded isJson e he := by
    rcases World.expiry_write he with ⟨he, -⟩ | ⟨x, hx, hkey, rfl⟩
    · obtain ⟨t, time, version, request, response, hmem, hrest⟩ := hI.bounded isJson e he
      exact ⟨t, time, version, request, response, List.mem_cons_of_mem _ hmem, hrest⟩
    · obtain ⟨t, version, request, hmem⟩ := hexchange
      refine ⟨t, w.1.now, version, request, response, List.mem_cons_of_mem _ hmem, hrefreshes, ?_⟩
      rw [hvalues x hx isJson hkey]
  dead hup := by
    rw [hdown] at hup
    cases hup

/-- A copy of a live body that lives no longer than it. -/
theorem inv_copy {values : List Write} {r : Record} {isJson : Bool} {e : ℚ} (hI : Inv s c w)
    (hlive : w.1.expiry (primary c isJson) = some e)
    (hvalues : ∀ x ∈ values, ∀ isJson, x.key = primary c isJson → w.1.now + x.ttl ≤ e) :
    Inv s c ((w.1.write values).record r, w.2) where
  bounded isJson' e' he' := by
    rcases World.expiry_write he' with ⟨he', -⟩ | ⟨x, hx, hkey, rfl⟩
    · obtain ⟨t, time, version, request, response, hmem, hrest⟩ := hI.bounded isJson' e' he'
      exact ⟨t, time, version, request, response, List.mem_cons_of_mem _ hmem, hrest⟩
    · obtain ⟨t, time, version, request, response, hmem, hrefreshes, hle⟩ :=
        hI.bounded isJson e hlive
      exact ⟨t, time, version, request, response, List.mem_cons_of_mem _ hmem, hrefreshes,
        (hvalues x hx isJson' hkey).trans hle⟩
  dead hup := by
    have hnone := hI.dead hup isJson
    rw [hlive] at hnone
    cases hnone

end Steps

/-! ## Requests -/

section Requests

variable {s c} {upstream : Upstream} {t : ℕ} {w w' : World × Bool} {r : ProjectRequest}
  {response : UpstreamResponse}

theorem keeps_true {o : Op} (ho : Harmless c o) :
    (observed s c upstream).Keeps (Inv s c) (fun _ _ => True) (fun _ _ => True) t
      (fun _ => True) o :=
  fun _ _ => runs_of_harmless ⟨ho, fun _ => trivial⟩

/-- A part that stores no current body, and what follows it. -/
theorem runs_bind_of_harmless {α β : Type} {Q : β → World × Bool → Prop} {p : Program α}
    {f : α → Program β} (hp : p.Calls (Harmless c))
    (hf : ∀ a w, Runs s c upstream t Q (f a) w) : Runs s c upstream t Q (p >>= f) w :=
  Effects.wp_bind.mpr (Effects.wp_mono (runs_of_harmless hp) fun a w _ => hf a w)

/-- Two keys are read without a pause. -/
theorem runs_cacheGetTwo {α : Type} {key key' : Str} {Q : α → World × Bool → Prop}
    {f : Option Str × Option Str → Program α}
    (hf : ∀ values w₁, w₁.1 = w.1 → w₁.2 = w.2 → Runs s c upstream t Q (f values) w₁) :
    Runs s c upstream t Q (cacheGetTwo key key' >>= f) w := by
  refine Effects.wp_call_of_not_yields rfl fun hI values w₁ hex => ?_
  obtain ⟨⟨-, hw₁⟩, hflag⟩ := observed_exec hex
  refine ⟨inv_of_harmless (harmless_of_isRead rfl) hI hex, trivial, ?_⟩
  exact hf _ w₁ hw₁ (by simpa [isRefresh] using hflag)

/-- The lifetime that a TTL call reports is that of a live entry. -/
theorem expiry_of_ttl {key : Str} {n : ℤ} {w w' : World}
    (hex : exec .memory upstream t (.ttl key) w (some n) w') :
    w' = w ∧ ∃ e, w.expiry key = some e ∧ w.now + n ≤ e := by
  obtain ⟨httl, rfl⟩ := hex
  obtain ⟨e, he, hn⟩ := Option.bind_eq_some_iff.mp httl.symm
  exact ⟨rfl, e, he, by linarith [Backend.memory_ttl_le hn]⟩

/-- A lazy conversion copies a live body for as long as it lives. -/
theorem serves (hr : r.canonical = c) :
    Serves (observed s c upstream).toEffects (Inv s c) (fun _ _ => True) (fun _ _ => True) t s r
      (fun _ => True)
      (fun n w => ∃ e, w.1.expiry (primary c (!r.wantsJson)) = some e ∧ w.1.now + n ≤ e) where
  read _ ho := keeps_true (harmless_of_isRead ho)
  elapse := keeps_true (by simp [Harmless, Op.writes])
  sample w _ := by
    refine Effects.wp_call_of_not_yields rfl fun hI ttl w₁ hex => ?_
    refine ⟨inv_of_harmless (harmless_of_isRead rfl) hI hex, trivial, trivial, ?_⟩
    rintro n rfl
    obtain ⟨hw₁, e, he, hle⟩ := expiry_of_ttl (observed_exec hex).1
    rw [hw₁]
    exact ⟨e, hr ▸ he, hle⟩
  resample n w hS := by
    refine Effects.wp_call_of_not_yields rfl fun hI ttl w₁ hex => ?_
    have hw₁ : w₁.1 = w.1 := hex.1.2
    have hS₁ : ∃ e, w₁.1.expiry (primary c (!r.wantsJson)) = some e ∧ w₁.1.now + n ≤ e := by
      rw [hw₁]
      exact hS
    exact ⟨inv_of_harmless (harmless_of_isRead rfl) hI hex, trivial, hS₁⟩
  commit other body n staleTtl hbody w hS := by
    obtain ⟨e, he, hle⟩ := hS
    refine Effects.wp_call_of_not_yields rfl fun hI committed w₁ hex => ⟨?_, trivial, trivial⟩
    obtain ⟨hex, hflag⟩ := observed_exec hex
    have hw₁ : w₁ = (w₁.1, w.2) := by rw [← show w₁.2 = w.2 by simpa [isRefresh] using hflag]
    rw [hw₁]
    rcases exec_setexManyIfUnchanged hex with ⟨-, -, hw₁⟩ | ⟨-, hw₁⟩
    · rw [hw₁]
      refine inv_copy hI he fun x hx isJson hkey => ?_
      rcases mem_conversionValues.mp hx with rfl | ⟨m, -, rfl⟩
      · exact hle
      · exact absurd (projectKey_inj.mp hkey).2 (by simp)
    · rw [hw₁]
      exact hI

/-- The response has just been received. -/
structure Answered (response : UpstreamResponse) (w : World × Bool) : Prop where
  exchange : ∃ t version request,
    Record.exchange t w.1.now version request response ∈ w.1.log
  down : Refreshes response → w.2 = false

theorem ne_primary_of_validatorValues {etag lastMod : Option Str} {x : Write} {isJson : Bool}
    (hx : x ∈ validatorValues s r etag lastMod) : x.key ≠ primary c isJson := by
  intro hkey
  rcases mem_validatorValues.mp hx with ⟨v, -, rfl⟩ | ⟨v, -, rfl⟩
  · exact absurd (projectKey_inj.mp hkey).2 (by simp)
  · exact absurd (projectKey_inj.mp hkey).2 (by simp)

/-- The current bodies of a fill live as long as its response allows. -/
theorem ttl_of_isFill {values : List Write} (hfill : IsFill s r response values) :
    ∀ x ∈ values, ∀ isJson, x.key = primary c isJson →
      x.ttl = effectiveProjectTtl s.settings response.cacheControl := by
  obtain ⟨bodies, rfl, hbodies⟩ := hfill
  intro x hx isJson hkey
  rcases List.mem_append.mp hx with hx | hx
  · exact absurd hkey (ne_primary_of_validatorValues hx)
  · obtain ⟨isJson', body, hx⟩ := hbodies x hx
    rcases mem_bodyValues.mp hx with rfl | rfl
    · rfl
    · exact absurd (projectKey_inj.mp hkey).2 (by simp)

theorem ttl_of_isRefresh {values : List Write} (hrefresh : IsRefresh s r response values) :
    ∀ x ∈ values, ∀ isJson, x.key = primary c isJson →
      x.ttl = effectiveProjectTtl s.settings response.cacheControl := by
  obtain ⟨etag, lastMod, responseJson, body, otherStale, rfl⟩ := hrefresh
  intro x hx isJson hkey
  rcases mem_refreshedValues.mp hx with rfl | hx | ⟨-, other, -, rfl⟩
  · rfl
  · exact absurd hkey (ne_primary_of_validatorValues hx)
  · rfl

/-- Storing a batch whose current bodies live as long as the response allows. -/
theorem runs_store {values : List Write} (hanswered : Answered response w)
    (hrefreshes : Refreshes response)
    (hvalues : ∀ x ∈ values, ∀ isJson, x.key = primary c isJson →
      x.ttl = effectiveProjectTtl s.settings response.cacheControl) :
    Runs s c upstream t (fun _ _ => True) (call (.setexMany values)) w := by
  refine Effects.wp_call_of_not_yields rfl fun hI _ w₁ hex => ⟨?_, trivial, trivial⟩
  obtain ⟨hex, hflag⟩ := observed_exec hex
  have hw₁ : w₁ = ((w.1.write values).record (.stored t values), w.2) := by
    rw [← show w₁.1 = (w.1.write values).record (.stored t values) from hex,
      ← show w₁.2 = w.2 by simpa [isRefresh] using hflag]
  rw [hw₁]
  exact inv_write hI hanswered.exchange hrefreshes (hanswered.down hrefreshes) hvalues

/-- The store may be written and read while an answer is in hand. -/
theorem keeps_answered {o : Op} (ho : Harmless c o) (hyields : Backend.memory.yields o = false)
    (hexec : ∀ r w w', exec .memory upstream t o w r w' →
      w'.now = w.now ∧ ∀ x ∈ w.log, x ∈ w'.log) :
    (observed s c upstream).Keeps (Inv s c) (fun _ _ => True) (fun _ _ => True) t
      (Answered response) o := by
  intro w hanswered
  refine Effects.wp_call_of_not_yields hyields fun hI a w₁ hex => ?_
  refine ⟨inv_of_harmless ho hI hex, trivial, ?_⟩
  obtain ⟨hex, hflag⟩ := observed_exec hex
  obtain ⟨hnow, hlog⟩ := hexec a w.1 w₁.1 hex
  obtain ⟨u, version, request, hmem⟩ := hanswered.exchange
  refine ⟨⟨u, version, request, hnow ▸ hlog _ hmem⟩, fun hrefreshes => ?_⟩
  rw [hflag, hanswered.down hrefreshes]
  rfl

/-- An answer is in hand from the exchange to the batch. -/
theorem fetches : Fetches (observed s c upstream).toEffects (Inv s c) (fun _ _ => True)
    (fun _ _ => True) t s r (fun _ => True) Answered where
  read _ ho := keeps_true (harmless_of_isRead ho)
  leave _ _ _ := trivial
  lookup response keys := keeps_answered (harmless_of_isRead rfl) rfl
    (by rintro _ w _ ⟨-, rfl⟩; exact ⟨rfl, fun _ => id⟩)
  get request w _ := by
    intro w₁ _ hI answer w₂ hex
    refine ⟨inv_of_harmless (by simp [Harmless, Op.writes]) hI hex, trivial, trivial, ?_⟩
    rintro response rfl
    obtain ⟨⟨-, hw₂⟩, hflag⟩ := observed_exec hex
    have hw₂ : w₂.1 = w₁.1.record (.exchange t w₁.1.now w₁.1.version request response) := hw₂
    refine ⟨⟨t, w₁.1.version, request, ?_⟩, fun hrefreshes => ?_⟩
    · rw [hw₂]
      exact List.mem_cons_self
    · rw [hflag]
      simp [isRefresh, hrefreshes]
  mark response w _ _ := by
    refine runs_of_harmless ⟨fun x hx isJson hkey => ?_, fun _ => trivial⟩
    rw [List.mem_singleton.mp hx] at hkey
    exact absurd (projectKey_inj.mp hkey).2 (by simp)
  fill response values w hstatus hfill hanswered :=
    runs_store hanswered (.inl hstatus) (ttl_of_isFill hfill)
  restale response other w _ hanswered := by
    refine keeps_answered (fun x hx isJson hkey => ?_) rfl ?_ w hanswered
    · rw [List.mem_singleton.mp hx] at hkey
      exact absurd (projectKey_inj.mp hkey).2 (by simp)
    · rintro _ w w' hex
      obtain rfl : w' = (w.write _).record (.stored t _) := hex
      exact ⟨rfl, fun _ => List.mem_cons_of_mem _⟩
  refresh response values w hstatus hrefresh hanswered :=
    runs_store hanswered (.inr hstatus) (ttl_of_isRefresh hrefresh)
  ready body isJson ttl w _ := by
    refine runs_of_harmless ⟨fun x hx isJson' hkey => ?_, fun _ => trivial⟩
    rw [List.mem_singleton.mp hx] at hkey
    exact absurd (projectKey_inj.mp hkey).2 (by simp)

/-- A request, from its first look at the cache to its response. -/
theorem runs_serveProject (hr : r.canonical = c) (pid : ℕ) :
    Runs s c upstream t (fun _ _ => True) (serveProject s pid r) w := by
  unfold serveProject
  refine Effects.wp_bind.mpr (Effects.wp_mono ((serves hr).wp_tryServeFromCache trivial) ?_)
  rintro (e | _ | hit) w₁ -
  · trivial
  · unfold withLock
    refine runs_bind_of_harmless ⟨by simp [Harmless, Op.writes], fun _ => trivial⟩ fun _ w₂ => ?_
    refine Effects.wp_bind.mpr (Effects.wp_mono (fetches.wp_fill (serves hr) trivial) ?_)
    intro outcome w₃ _
    exact runs_bind_of_harmless ⟨by simp [Harmless, Op.writes], fun _ => trivial⟩ fun _ _ => trivial
  · trivial

end Requests

/-! ## Enrichment -/

section Enrichment

variable {s c} {upstream : Upstream} {t : ℕ} {w : World × Bool} {isJson : Bool}

/-- A commit copies a live body for as long as it lives, or touches a stale one. -/
theorem runs_commitBound {completedBody : Str} {changed ready : Bool} {boundPart : ProjectPart}
    {expected : List (Str × Option Str)}
    (hbound : boundPart = .body isJson ∨ boundPart = .stale isJson) :
    Runs s c upstream t (fun _ _ => True)
      (commitBound s c isJson completedBody changed ready boundPart expected) w := by
  simp only [commitBound, Prog.op_bind]
  refine Effects.wp_call_of_not_yields rfl fun hI ttl w₁ hex => ?_
  have hI₁ : Inv s c w₁ := inv_of_harmless (harmless_of_isRead rfl) hI hex
  refine ⟨hI₁, trivial, ?_⟩
  cases ttl with
  | none => trivial
  | some n =>
    obtain ⟨hw₁, e, he, hle⟩ := expiry_of_ttl (observed_exec hex).1
    dsimp only
    split
    · trivial
    refine Effects.wp_call_of_not_yields rfl fun _ committed w₂ hex₂ => ⟨?_, trivial, trivial⟩
    rcases hbound with rfl | rfl
    · obtain ⟨hex₂, hflag⟩ := observed_exec hex₂
      have hw₂ : w₂ = (w₂.1, w₁.2) := by rw [← show w₂.2 = w₁.2 by simpa [isRefresh] using hflag]
      rw [hw₂]
      rcases exec_setexManyIfUnchanged hex₂ with ⟨-, -, hw₂⟩ | ⟨-, hw₂⟩
      · rw [hw₂]
        refine inv_copy hI₁ (hw₁ ▸ he) fun x hx isJson' hkey => ?_
        rcases mem_commitBatch.mp hx with ⟨-, rfl | ⟨-, rfl⟩⟩ | rfl | ⟨-, rfl⟩
        · exact hw₁ ▸ hle
        all_goals exact absurd (projectKey_inj.mp hkey).2 (by simp)
      · rw [hw₂]
        exact hI₁
    · refine inv_of_harmless (fun x hx isJson' hkey => ?_) hI₁ hex₂
      rcases mem_commitBatch.mp hx with ⟨-, rfl | ⟨-, rfl⟩⟩ | rfl | ⟨-, rfl⟩
      all_goals exact absurd (projectKey_inj.mp hkey).2 (by simp)

theorem harmless_of_apart {o : Op} (ho : o.Apart) : Harmless c o :=
  fun x hx isJson => ho.2 x hx c (.body isJson)

theorem commits (source : Str → Prop) :
    Commits (observed s c upstream).toEffects (Inv s c) (fun _ _ => True) (fun _ _ => True) t s c
      isJson source where
  apart hp _ := runs_of_harmless (hp.mono fun _ ho => harmless_of_apart ho)
  commit body completedBody changed ready _ _ w := by
    unfold commitLocked
    refine runs_cacheGetTwo fun values w₁ _ _ => ?_
    dsimp only
    split
    · exact runs_commitBound (.inl rfl)
    split
    · exact runs_commitBound (.inr rfl)
    · trivial

end Enrichment

/-! ## Runs -/

section Main

variable {s c} {upstream : Upstream}

theorem inv_of_fresh {w : World × Bool} (h : Fresh w.1) (hdown : w.2 = false) : Inv s c w where
  bounded isJson e he := by
    obtain ⟨value, hstore, -⟩ := World.expiry_eq_some.mp he
    rw [h.1] at hstore
    cases hstore
  dead hup := by
    rw [hdown] at hup
    cases hup

def discipline : Discipline (observed s c upstream) where
  Inv := Inv s c
  rely _ _ _ _ := True
  guar _ _ _ _ := True
  post _ _ _ _ := True
  rely_refl _ _ _ := trivial
  rely_trans _ _ _ _ _ _ _ := trivial
  init _ h := inv_of_fresh h.1 h.2
  env w w' hI := by
    rintro (⟨hdrift, hflag⟩ | ⟨hw', hdead, -⟩)
    · have hdrift : Drift w.1 w'.1 := hdrift
      refine ⟨hI.mono (fun _ _ => hdrift.expiry) ?_ (by rw [hflag]; exact id), fun _ _ => trivial⟩
      rw [hdrift.log]
      exact fun _ => id
    · exact ⟨⟨by rw [hw']; exact hI.bounded, fun _ => by rw [hw']; exact hdead⟩, fun _ _ => trivial⟩
  others _ _ _ _ _ _ _ _ _ _ := trivial
  post_stable _ _ _ _ _ _ _ _ := trivial
  start := by
    rintro t (⟨project, accept, hc⟩ | ⟨body, isJson⟩ | ⟨isJson, digest⟩) w -
    · refine Effects.wp_bind.mpr (Effects.wp_mono (runs_serveProject hc 0) fun _ _ _ => trivial)
    · exact Effects.wp_bind.mpr (Effects.wp_mono ((commits fun _ => True).wp_enrich trivial)
        fun _ _ _ => trivial)
    · exact Effects.wp_bind.mpr
        (Effects.wp_mono (commits _).wp_extractProjectAfterIdle fun _ _ _ => trivial)

/-- **Freshness.** In every run of the service on the memory backend, a current
body that is live expires within the lifetime that an exchange with a 200 or 304
has given it; and from where no current body is live, none becomes live before
the next such exchange. -/
theorem freshness_from_upstream {config : Config Op Ret World (ProjectTask s c) TaskResult}
    (hreach : (memoryService s c upstream).Reachable config) :
    Bounded s c config.world ∧
    ∀ evs config', (memoryService s c upstream).Quiet config → Dead c config.world →
      (memoryService s c upstream).Run config evs config' →
      (∀ ev ∈ evs, ¬ ev.Lowers isRefresh) → Dead c config'.world := by
  refine ⟨(discipline.sound (System.reachable_observe hreach)).inv.bounded, ?_⟩
  intro evs config' hquiet hdead hrun hkeep
  have hobserved : (observed s c upstream).Reachable (config'.withFlag true) :=
    System.reachable_raised hreach hquiet hdead hrun hkeep
  exact (discipline.sound hobserved).inv.dead rfl

end Main

/-! ## A conversion -/

def one : Str := ("one" : Str)

def emptyPage : Str := "<html><body></body></html>".toList

def pageSite : Site where
  U := asciiOnly
  D := {
    loads := fun _ => .error .valueError
    loadsBytes := fun _ => .error .valueError
    dumps := fun _ =>
      "\x7b\"name\": \"one\", \"files\": [], \"meta\": \x7b\"api-version\": \"1.1\"\x7d\x7d".toList
    dumpsCompact := fun _ => []
    format := fun _ => []
    anchors := fun _ => .ok []
    withAnchors := fun text _ => text }
  float _ := none
  packaging := plainReleases
  settings := {}

def servePage (_ : ℕ) (_ : UpstreamRequest) : Option UpstreamResponse :=
  some { status := 200, contentType := some contentTypeHtml, text := emptyPage }

def upstreamPage : Upstream := fun version request response => response = servePage version request

def pageDriver : Driver (memoryService pageSite one upstreamPage) Choice :=
  serviceDriver _ rfl rfl servePage fun _ _ => rfl

def request (accept : Str) : ProjectTask pageSite one :=
  .request ⟨one, some accept, by decide +kernel⟩

/-- A page is fetched, and later converted for a client that wants JSON. -/
def conversion : List (Move (ProjectTask pageSite one) Choice) :=
  .start 0 (request contentTypeHtml) {} :: List.replicate 3 (.call 0 {}) ++
    [.env { elapsed := 20 }, .start 1 (request contentTypeJson) {}]

/-- The converted body expires with the page, sixty seconds after the exchange. -/
theorem freshness_of_conversion :
    ∃ config, (memoryService pageSite one upstreamPage).Reachable config ∧
      config.world.expiry (primary one true) = some 60 ∧ Bounded pageSite one config.world := by
  have hreplay : (pageDriver.replay conversion (Driver.boot emptyWorld)).any
      (fun config => config.world.expiry (primary one true) = some 60) = true := by
    decide +kernel
  obtain ⟨config, hreplay, hexpiry⟩ := (Option.any_eq_true _ _).mp hreplay
  have hreach : (memoryService pageSite one upstreamPage).Reachable config :=
    (Driver.replay_boot fresh_emptyWorld hreplay).1
  exact ⟨config, hreach, of_decide_eq_true hexpiry, (freshness_from_upstream hreach).1⟩

end ProxyCache.Theorems.Freshness
