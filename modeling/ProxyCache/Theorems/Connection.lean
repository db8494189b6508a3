import ProxyCache.App.Cache
import ProxyCache.Lib.Replay
import Mathlib.Order.Basic

/-!
# The reported connection state

A ping suspends its task, and what the task does afterwards takes no notice of
what the others have done to the client meanwhile. Where it does not matter,
`connected` means that there is a client, and `degraded` that there is none.
-/

namespace ProxyCache.Theorems.Connection

open ProxyCache.Lib ProxyCache.Python ProxyCache.App.Cache
open ProxyCache.App (Cache CacheBackendName Redis)

/-- The reported state matches the client in use. -/
structure Coherent (cache : Cache) : Prop where
  connected : cache.state = .connected → cache.redis = true
  degraded : cache.state = .degraded → cache.redis = false

/-! ## The condition -/

/-- A ping that succeeds finds that there still is a client. -/
def FindsClient : (o : Op) → World → Ret o → Prop
  | .redis .ping, w, reply => reply = some () → w.self.redis = true
  | _, _, _ => True

/-- No client is built while the reported state is `degraded`. -/
def BuildsFresh (o : Op) (w : World) : Prop :=
  ∀ self, o = .assign self → self.redis = true → w.self.redis = false → w.self.state ≠ .degraded

def Careful (o : Op) (w : World) (r : Ret o) : Prop := FindsClient o w r ∧ BuildsFresh o w

/-- The runs whose every step meets the condition. -/
abbrev careful (backend : CacheBackendName) : System Op Ret World Task Unit :=
  (service backend).restrictAnswers Careful

/-! ## What the methods keep -/

/-- `P` is kept by every assignment of the methods, given the condition. -/
structure Kept (ok : (o : Op) → World → Ret o → Prop) (P : Cache → Prop) : Prop where
  mem : ∀ self mem, P self → P { self with mem }
  degraded : ∀ self, P self → P (Cache.degraded self)
  memory : ∀ self, P self → P { self with state := .memory }
  build : ∀ w : World, P w.self → ok (.assign { w.self with redis := true }) w () →
    P { w.self with redis := true }
  connected : ∀ self, P self → self.redis = true → P { self with state := .connected }
  lost : ∀ self errors, P self →
    P { self with redisProbeErrors := errors, redis := false, state := .degraded }
  ping : ∀ w : World, ok (.redis .ping) w (some ()) → w.self.redis = true

section Kept

variable {ok : (o : Op) → World → Ret o → Prop} {P : Cache → Prop} {backend : CacheBackendName}
  {t : ℕ} {w : World} {α : Type}

/-- The program keeps `P`, whatever the others do. -/
abbrev Keeps (ok : (o : Op) → World → Ret o → Prop) (P : Cache → Prop)
    (backend : CacheBackendName) (t : ℕ) (p : Program α) (w : World) : Prop :=
  ((service backend).restrictAnswers ok).wp (fun w => P w.self) (fun _ _ => True)
  (fun _ _ => True) t
    (fun _ _ => True) p w

theorem keeps_self {k : Cache → Program α} (h : P w.self → Keeps ok P backend t (k w.self) w) :
    Keeps ok P backend t (call .self >>= k) w := by
  refine Effects.wp_call_of_not_yields rfl fun hP r w₂ hex => ?_
  obtain ⟨⟨fault, hex⟩, -⟩ := hex
  obtain ⟨rfl, rfl⟩ := Prod.mk.inj hex
  exact ⟨hP, trivial, h hP⟩

theorem keeps_time {k : ℚ → Program α} (h : Keeps ok P backend t (k w.now) w) :
    Keeps ok P backend t (call .time >>= k) w := by
  refine Effects.wp_call_of_not_yields rfl fun hP r w₂ hex => ?_
  obtain ⟨⟨fault, hex⟩, -⟩ := hex
  obtain ⟨rfl, rfl⟩ := Prod.mk.inj hex
  exact ⟨hP, trivial, h⟩

theorem keeps_assign {self : Cache} {k : Unit → Program α}
    (hself : ok (.assign self) w () → P self)
    (h : P self → Keeps ok P backend t (k ()) { w with self }) :
    Keeps ok P backend t (call (.assign self) >>= k) w := by
  refine Effects.wp_call_of_not_yields rfl fun _ r w₂ hex => ?_
  obtain ⟨⟨fault, hex⟩, hok⟩ := hex
  obtain ⟨-, rfl⟩ := Prod.mk.inj hex
  exact ⟨hself hok, trivial, h (hself hok)⟩

/-- After a command, anything may have happened to the object. -/
theorem keeps_redis {command : Redis.Command} {k : Option command.Reply → Program α}
    (h : ∀ w reply, P w.self → (∃ w₀ : World, w₀.self = w.self ∧ ok (.redis command) w₀ reply) →
      Keeps ok P backend t (k reply) w) :
    Keeps ok P backend t (call (.redis command) >>= k) w := by
  intro w₁ _ hP reply w₂ hex
  obtain ⟨⟨fault, hex⟩, hok⟩ := hex
  have hself : w₁.self = w₂.self := by
    cases fault <;> obtain ⟨-, rfl⟩ := Prod.mk.inj hex <;> rfl
  have hP₂ : P w₂.self := hself ▸ hP
  exact ⟨hP₂, trivial, h w₂ reply hP₂ ⟨w₁, hself, hok⟩⟩

theorem keeps_bind {β : Type} {p : Program β} {f : β → Program α}
    (hp : Keeps ok P backend t p w) (hf : ∀ a w, Keeps ok P backend t (f a) w) :
    Keeps ok P backend t (p >>= f) w :=
  Effects.wp_bind.mpr (Effects.wp_mono hp fun a w _ => hf a w)

theorem keeps_attempt (hkept : Kept ok P) {command : Redis.Command} {answer : command.Reply → α} :
    Keeps ok P backend t (attempt command answer) w := by
  refine keeps_self fun hP => ?_
  split
  · refine keeps_redis fun w₁ reply hP₁ _ => ?_
    cases reply with
    | some reply => exact trivial
    | none =>
      refine keeps_bind (keeps_self fun hP₂ => ?_) fun _ _ => trivial
      exact keeps_assign (fun _ => hkept.degraded _ hP₂) fun _ => trivial
  · exact trivial

/-- Redis is tried, and the local entries are used when it has no answer. -/
theorem keeps_fallback {β : Type} (hkept : Kept ok P) {command : Redis.Command}
    {answer : command.Reply → β} {f : Option β → Program α}
    (hhit : ∀ b w, Keeps ok P backend t (f (some b)) w)
    (hlocal : ∀ w, Keeps ok P backend t (f none) w) :
    Keeps ok P backend t (attempt command answer >>= f) w := by
  refine keeps_bind (keeps_attempt hkept) fun hit w => ?_
  cases hit with
  | some b => exact hhit b w
  | none => exact hlocal w

/-- The local entries change. -/
theorem keeps_mem (hkept : Kept ok P) {self : Cache} {mem : Store Str ℚ Str} {k : Unit → Program α}
    (hP : P self) (h : ∀ w, Keeps ok P backend t (k ()) w) :
    Keeps ok P backend t (call (.assign { self with mem }) >>= k) w :=
  keeps_assign (fun _ => hkept.mem _ _ hP) fun _ => h _

/-- No request does more to the object than to degrade it and to change the
local entries. -/
theorem keeps_request (hkept : Kept ok P) (r : Request) : Keeps ok P backend t r.prog w := by
  cases r with
  | get key =>
    refine keeps_bind (keeps_fallback hkept (fun _ _ => trivial) fun w => ?_) fun _ _ => trivial
    refine keeps_self fun hP => ?_
    split
    · refine keeps_time ?_
      split
      · exact trivial
      · exact keeps_mem hkept hP fun _ => trivial
    · exact trivial
  | getMany keys =>
    refine keeps_bind ?_ fun _ _ => trivial
    unfold Cache.getMany
    split
    · exact trivial
    · refine keeps_fallback hkept (fun _ _ => trivial) fun w => ?_
      exact keeps_time (keeps_self fun hP => keeps_mem hkept hP fun _ => trivial)
  | existsAny keys =>
    refine keeps_bind ?_ fun _ _ => trivial
    unfold Cache.existsAny
    split
    · exact trivial
    · refine keeps_fallback hkept (fun _ _ => trivial) fun w => ?_
      exact keeps_time (keeps_self fun hP => keeps_mem hkept hP fun _ => trivial)
  | setex key seconds value =>
    refine keeps_bind (keeps_fallback hkept (fun _ _ => trivial) fun w => ?_) fun _ _ => trivial
    exact keeps_self fun hP => keeps_time (keeps_mem hkept hP fun _ => trivial)
  | setexMany values =>
    refine keeps_bind ?_ fun _ _ => trivial
    unfold Cache.setexMany
    split
    · exact trivial
    · refine keeps_fallback hkept (fun _ _ => trivial) fun w => ?_
      exact keeps_time (keeps_self fun hP => keeps_mem hkept hP fun _ => trivial)
  | ttl key =>
    refine keeps_bind (keeps_fallback hkept (fun _ _ => trivial) fun w => ?_) fun _ _ => trivial
    refine keeps_self fun hP => ?_
    split
    · exact trivial
    · refine keeps_time ?_
      dsimp only
      split
      · exact keeps_mem hkept hP fun _ => trivial
      · exact trivial
  | ttlIfValues key expected boundKey expectedBound =>
    refine keeps_bind (keeps_fallback hkept (fun _ _ => trivial) fun w => ?_) fun _ _ => trivial
    refine keeps_time (keeps_self fun _ => ?_)
    split
    · split <;> exact trivial
    · exact trivial
  | setexManyIfUnchanged expected values =>
    refine keeps_bind (keeps_fallback hkept (fun _ _ => trivial) fun w => ?_) fun _ _ => trivial
    refine keeps_time (keeps_self fun hP => ?_)
    split
    · exact keeps_mem hkept hP fun _ => trivial
    · exact trivial

/-- What a task does when its ping has succeeded. -/
theorem keeps_connected (hkept : Kept ok P) {k : Unit → Program α}
    (hping : ∃ w₀ : World, w₀.self = w.self ∧ ok (.redis .ping) w₀ (some ()))
    (hk : ∀ w, Keeps ok P backend t (k ()) w) :
    Keeps ok P backend t
      (call .self >>= fun self => call (.assign { self with state := .connected }) >>= k) w := by
  obtain ⟨w₀, hself, hok⟩ := hping
  refine keeps_self fun hP => keeps_assign (fun _ => ?_) fun _ => hk _
  exact hkept.connected _ hP (hself ▸ hkept.ping w₀ hok)

theorem keeps_reconnect (hkept : Kept ok P) : Keeps ok P backend t Cache.reconnect w := by
  refine keeps_self fun hP => ?_
  split
  · exact keeps_assign (fun _ => hkept.memory _ hP) fun _ => trivial
  · split
    · refine keeps_assign (fun hok => hkept.build w hP hok) fun _ => ?_
      refine keeps_redis fun w₁ reply _ hok => ?_
      cases reply with
      | some _ => exact keeps_connected hkept hok fun _ => trivial
      | none =>
        exact keeps_self fun hP => keeps_assign (fun _ => hkept.lost _ _ hP) fun _ => trivial
    · refine keeps_redis fun w₁ reply _ hok => ?_
      cases reply with
      | some _ => exact keeps_connected hkept hok fun _ => trivial
      | none =>
        exact keeps_self fun hP => keeps_assign (fun _ => hkept.lost _ _ hP) fun _ => trivial

theorem keeps_healthPing (hkept : Kept ok P) : Keeps ok P backend t Cache.healthPing w := by
  refine keeps_self fun hP => ?_
  split
  · exact trivial
  · split
    · exact keeps_reconnect hkept
    · refine keeps_redis fun w₁ reply _ hok => ?_
      cases reply with
      | some _ => exact keeps_connected hkept hok fun _ => trivial
      | none => exact trivial

def discipline (hkept : Kept ok P) (hinit : P (Cache.new backend)) :
    Discipline ((service backend).restrictAnswers ok) where
  Inv w := P w.self
  rely _ _ _ _ := True
  guar _ _ _ _ := True
  post _ _ _ _ := True
  rely_refl _ _ _ := trivial
  rely_trans _ _ _ _ _ _ _ := trivial
  init w hw := by
    have hself : w.self = Cache.new backend := hw
    rw [hself]
    exact hinit
  env w w' hP henv := by
    have hself : w'.self = w.self := henv.1
    exact ⟨hself ▸ hP, fun _ _ => trivial⟩
  others _ _ _ _ _ _ _ _ _ _ := trivial
  post_stable _ _ _ _ _ _ _ _ := trivial
  start t e w _ := by
    cases e with
    | request r => exact keeps_bind (keeps_request hkept r) fun _ _ => trivial
    | healthPing => exact keeps_bind (keeps_healthPing hkept) fun _ _ => trivial
    | reconnect => exact keeps_bind (keeps_reconnect hkept) fun _ _ => trivial

end Kept

/-! ## Every run -/

section Runs

variable {backend : CacheBackendName} {c : Config Op Ret World Task Unit}

theorem kept_connected :
    Kept FindsClient fun self => self.state = .connected → self.redis = true where
  mem _ _ h := h
  degraded _ _ := nofun
  memory _ _ := nofun
  build _ _ _ _ := rfl
  connected _ _ h _ := h
  lost _ _ _ := nofun
  ping _ h := h rfl

theorem kept_coherent : Kept Careful Coherent where
  mem _ _ h := ⟨h.connected, h.degraded⟩
  degraded _ _ := ⟨nofun, fun _ => rfl⟩
  memory _ _ := ⟨nofun, nofun⟩
  build w h hok := by
    refine ⟨fun _ => rfl, fun hdegraded => ?_⟩
    exact absurd hdegraded (hok.2 _ rfl rfl (h.degraded hdegraded))
  connected _ _ h := ⟨fun _ => h, nofun⟩
  lost _ _ _ := ⟨nofun, fun _ => rfl⟩
  ping _ h := h.1 rfl

theorem coherent_new : Coherent (Cache.new backend) := by
  cases backend <;> exact ⟨nofun, nofun⟩

/-- `connected` means that there is a client as long as every ping that succeeds
finds one. -/
theorem client_of_connected
    (hreach : ((service backend).restrictAnswers FindsClient).Reachable c)
    (hstate : c.world.self.state = .connected) : c.world.self.redis = true :=
  ((discipline kept_connected coherent_new.connected).sound hreach).inv hstate

/-- **The reported state.** In every run in which every ping that succeeds finds a
client, and no client is built while the state is `degraded`, the state matches
the client. -/
theorem coherent_of_careful (hreach : (careful backend).Reachable c) : Coherent c.world.self :=
  ((discipline kept_coherent coherent_new).sound hreach).inv

end Runs

/-! ## Interleavings that go wrong -/

section Scenario

def driver (backend : CacheBackendName) : Driver (service backend) Fault where
  respond fault _ o w := some (perform fault o w)
  drift _ w := some w
  respond_sound {fault _ _ _ _ _} h := ⟨fault, Option.some.inj h⟩
  drift_sound {_ w _} h := by
    obtain rfl := Option.some.inj h
    exact ⟨rfl, le_refl w.now⟩

/-- A read fails while a health check waits for its ping, which succeeds. -/
def lateSuccess : List (Move Task Fault) :=
  [.start 0 .healthPing .none, .start 1 (.request (.get [])) .none, .call 1 .lost, .call 0 .none]

/-- After an outage, a health check builds a client and waits for its ping. -/
def probing : List (Move Task Fault) :=
  [.start 0 (.request (.get [])) .none, .call 0 .lost, .start 1 .healthPing .none]

theorem lateSuccess_state :
    ((driver .redis).replay lateSuccess (Driver.boot (World.boot .redis))).any (fun c =>
      c.world.self.state = .connected && !c.world.self.redis) = true := by
  decide +kernel

theorem probing_state :
    ((driver .redis).replay probing (Driver.boot (World.boot .redis))).any (fun c =>
      c.world.self.state = .degraded && c.world.self.redis) = true := by
  decide +kernel

/-- The state is `connected` without a client, and `degraded` with one. -/
theorem not_coherent_interleaved :
    (∃ c, (service .redis).Reachable c ∧ c.world.self.state = .connected ∧
      c.world.self.redis = false) ∧
    ∃ c, (service .redis).Reachable c ∧ c.world.self.state = .degraded ∧
      c.world.self.redis = true := by
  obtain ⟨c, hreplay, hstate⟩ := (Option.any_eq_true _ _).mp lateSuccess_state
  obtain ⟨c', hreplay', hstate'⟩ := (Option.any_eq_true _ _).mp probing_state
  obtain ⟨hconnected, habsent⟩ := Bool.and_eq_true_iff.mp hstate
  obtain ⟨hdegraded, hpresent⟩ := Bool.and_eq_true_iff.mp hstate'
  refine ⟨⟨c, ?_, of_decide_eq_true hconnected, ?_⟩, c', ?_, of_decide_eq_true hdegraded, hpresent⟩
  · exact (Driver.replay_boot rfl hreplay).1
  · rwa [Bool.not_eq_true'] at habsent
  · exact (Driver.replay_boot rfl hreplay').1

/-- Does the answer to the call meet the condition? -/
def carefulCheck : (o : Op) → World → Ret o → Bool
  | .redis .ping, w, reply => reply.isNone || w.self.redis
  | .assign self, w, _ => !self.redis || w.self.redis || w.self.state != .degraded
  | _, _, _ => true

theorem careful_of_check {o : Op} {w : World} {r : Ret o} (h : carefulCheck o w r = true) :
    Careful o w r := by
  refine ⟨?_, fun self ho hredis hnone => ?_⟩
  · unfold FindsClient
    split
    · next reply =>
      rintro rfl
      simpa [carefulCheck] using h
    · trivial
  · subst ho
    simpa [carefulCheck, hredis, hnone] using h

def carefulDriver (backend : CacheBackendName) : Driver (careful backend) Fault where
  respond fault _ o w :=
    if carefulCheck o w (perform fault o w).1 then some (perform fault o w) else none
  drift _ w := some w
  respond_sound {fault _ o w r w'} h := by
    split at h
    · next hcheck =>
      obtain ⟨rfl, rfl⟩ := Prod.mk.inj (Option.some.inj h)
      exact ⟨⟨fault, rfl⟩, careful_of_check hcheck⟩
    · cases h
  drift_sound {_ w _} h := by
    obtain rfl := Option.some.inj h
    exact ⟨rfl, le_refl w.now⟩

/-- A connection, a write, a health check that fails, and a read that fails. -/
def orderly : List (Move Task Fault) :=
  [.start 0 .reconnect .none, .call 0 .none, .start 1 (.request (.setex [] 60 [])) .none,
    .call 1 .none, .start 2 .healthPing .none, .start 3 (.request (.get [])) .none, .call 2 .lost,
    .call 3 .lost]

theorem orderly_state :
    ((carefulDriver .redis).replay orderly (Driver.boot (World.boot .redis))).any (fun c =>
      c.world.self.state = .degraded) = true := by
  decide +kernel

theorem coherent_of_careful_orderly :
    ∃ c, c.world.self.state = .degraded ∧ Coherent c.world.self ∧
      (careful .redis).Reachable c := by
  obtain ⟨c, hreplay, hstate⟩ := (Option.any_eq_true _ _).mp orderly_state
  have hreach : (careful .redis).Reachable c := (Driver.replay_boot rfl hreplay).1
  exact ⟨c, of_decide_eq_true hstate, coherent_of_careful hreach, hreach⟩

end Scenario

end ProxyCache.Theorems.Connection
