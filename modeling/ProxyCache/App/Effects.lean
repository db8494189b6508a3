import ProxyCache.App.Accept
import ProxyCache.App.Artifacts
import ProxyCache.App.Keys
import ProxyCache.App.Parse
import ProxyCache.App.Ttl
import ProxyCache.Lib.Expiring
import ProxyCache.Lib.Program
import Mathlib.Algebra.Order.Floor.Ring
import Mathlib.Data.Rat.Floor

/-!
# Effects of the handlers

The calls that the handlers and the background tasks make (`app/cache.py`,
`app/singleflight.py`, the HTTP client, the event loop), and what they do to the
world: the clock, the cached entries, the locks, the upstream's current version,
and a log of exchanges and stored batches that no handler reads.

A call of the cache is one atomic step on a store that does not fail. On the
memory backend it does not suspend the caller; on Redis it does.
-/

namespace ProxyCache.App

open ProxyCache.Lib ProxyCache.Python

/-! ## Calls -/

/-- A `(key, ttl, value)` triple of a batch. -/
structure Write where
  key : Str
  ttl : ℤ
  value : Str
  deriving DecidableEq

/-- A GET to the upstream index. -/
structure UpstreamRequest where
  url : Str
  accept : Str
  ifNoneMatch : Option Str := none
  ifModifiedSince : Option Str := none
  deriving DecidableEq

/-- A response of the upstream index; a header that is not sent is `none`. -/
structure UpstreamResponse where
  status : ℕ
  contentType : Option Str := none
  etag : Option Str := none
  lastModified : Option Str := none
  cacheControl : Option Str := none
  text : Str := []
  /-- The bytes that `text` was decoded from. -/
  content : Bytes := text.flatMap String.utf8EncodeChar
  deriving DecidableEq

/-- A background task to be started. -/
inductive Job where
  | enrich (canonical body : Str) (isJson : Bool)
  | extract (canonical : Str) (isJson : Bool) (bodyDigest : Str)
  deriving DecidableEq

inductive Op where
  /-- `cache.get_many`; `cache.get` is the batch of one key. -/
  | getMany (keys : List Str)
  /-- `cache.exists_any`. -/
  | existsAny (keys : List Str)
  /-- `cache.setex_many`; `cache.setex` is the batch of one entry. -/
  | setexMany (values : List Write)
  /-- `cache.ttl`. -/
  | ttl (key : Str)
  /-- `cache.ttl_if_values`. -/
  | ttlIfValues (key expected boundKey expectedBound : Str)
  /-- `cache.setex_many_if_unchanged`. -/
  | setexManyIfUnchanged (expected : List (Str × Option Str)) (values : List Write)
  /-- Entering and leaving `miss_locks.hold(key)` in one process. -/
  | acquire (lock : ℕ × Str)
  | release (lock : ℕ × Str)
  /-- `http_client.get`. -/
  | httpGet (request : UpstreamRequest)
  /-- `http_client.head`, without redirects. -/
  | httpHead (url : Str)
  /-- `_extract_wheel_metadata`: the text of the metadata, when it is UTF-8. -/
  | extractWheelMetadata (url : Str)
  /-- A computation that takes a while on the event loop. -/
  | elapse
  /-- Waiting: for another thread, a semaphore or an idle period. -/
  | suspend
  /-- Is a background task of this project (and, for extraction, of this body)
  unfinished? -/
  | unfinished (canonical : Str) (isJson : Bool) (bodyDigest : Str)
  /-- `asyncio.create_task`, unless the task is coalesced or dropped. -/
  | schedule (job : Job)

/-- What a call answers. An HTTP call that raises answers `none`. -/
@[reducible] def Ret : Op → Type
  | .getMany _ => List (Option Str)
  | .existsAny _ => Bool
  | .setexMany _ => Unit
  | .ttl _ => Option ℤ
  | .ttlIfValues .. => Option ℤ
  | .setexManyIfUnchanged .. => Bool
  | .acquire _ => Unit
  | .release _ => Unit
  | .httpGet _ => Option UpstreamResponse
  | .httpHead _ => Option ℕ
  | .extractWheelMetadata _ => Option Str
  | .elapse => Unit
  | .suspend => Unit
  | .unfinished .. => Bool
  | .schedule _ => Unit

abbrev Program (α : Type) := Prog Op Ret α

/-- One call, as a program. -/
abbrev call (o : Op) : Program (Ret o) := Prog.op o

/-- `cache.get`. -/
def cacheGet (key : Str) : Program (Option Str) := do
  let values ← call (.getMany [key])
  return values.getD 0 none

/-- `cache.get_many` of two keys. -/
def cacheGetTwo (key key' : Str) : Program (Option Str × Option Str) := do
  let values ← call (.getMany [key, key'])
  return (values.getD 0 none, values.getD 1 none)

/-- `cache.setex`. -/
def cacheSetex (key : Str) (ttl : ℤ) (value : Str) : Program Unit :=
  call (.setexMany [⟨key, ttl, value⟩])

/-- `async with miss_locks.hold(key)`. The lock is released however the block
ends, since its exceptions are values here. -/
def withLock {α : Type} (process : ℕ) (key : Str) (block : Program α) : Program α := do
  call (.acquire (process, key))
  let result ← block
  call (.release (process, key))
  return result

/-! ## The world -/

/-- An entry of the log: an answered exchange with the upstream, or a batch that
was stored. -/
inductive Record where
  | exchange (task : ℕ) (time : ℚ) (version : ℕ) (request : UpstreamRequest)
      (response : UpstreamResponse)
  | stored (task : ℕ) (values : List Write)
  | committed (task : ℕ) (values : List Write)
  deriving DecidableEq

structure World where
  now : ℚ
  store : Store Str ℚ Str
  held : ℕ × Str → Option ℕ
  version : ℕ
  log : List Record

namespace World

variable (w : World)

/-- What a reader sees under a key. -/
def get (key : Str) : Option Str := w.store.get w.now key

/-- When a live entry expires. -/
def expiry (key : Str) : Option ℚ :=
  (w.store key).bind fun e => if w.now < e.expiry then some e.expiry else none

/-- The entries of a batch written now. -/
def entries (values : List Write) : List (Str × Entry ℚ Str) :=
  values.map fun v => (v.key, ⟨w.now + v.ttl, v.value⟩)

def write (values : List Write) : World := { w with store := w.store.putMany (w.entries values) }

def record (r : Record) : World := { w with log := r :: w.log }

def setHeld (lock : ℕ × Str) (holder : Option ℕ) : World :=
  { w with held := Function.update w.held lock holder }

end World

/-! ## What the calls do -/

inductive Backend where
  | memory
  | redis
  deriving DecidableEq

/-- Whole seconds of a remaining lifetime: rounded down in memory, to the
nearest in Redis. -/
def Backend.wholeSeconds : Backend → ℚ → ℤ
  | .memory, remaining => ⌊remaining⌋
  | .redis, remaining => ⌊remaining + 1 / 2⌋

/-- The remaining lifetime that a TTL call reports. -/
def Backend.ttl (B : Backend) (remaining : ℚ) : Option ℤ :=
  if 0 < B.wholeSeconds remaining then some (B.wholeSeconds remaining) else none

/-- The calls that suspend the caller. -/
def Backend.yields (B : Backend) : Op → Bool
  | .getMany _ | .existsAny _ | .setexMany _ | .ttl _ | .ttlIfValues .. |
      .setexManyIfUnchanged .. => B = .redis
  | .elapse | .unfinished .. | .schedule _ => false
  | _ => true

/-- How the upstream may answer a request at a version; `none` is an
`httpx.HTTPError`. -/
abbrev Upstream := ℕ → UpstreamRequest → Option UpstreamResponse → Prop

/-- One call by the task `t`: the answer and the world after it. -/
def exec (B : Backend) (upstream : Upstream) (t : ℕ) :
    (o : Op) → World → Ret o → World → Prop
  | .getMany keys, w, values, w' => values = keys.map w.get ∧ w' = w
  | .existsAny keys, w, found, w' => found = keys.any (fun k => (w.get k).isSome) ∧ w' = w
  | .setexMany values, w, _, w' => w' = (w.write values).record (.stored t values)
  | .ttl key, w, remaining, w' =>
    remaining = (w.expiry key).bind (fun e => B.ttl (e - w.now)) ∧ w' = w
  | .ttlIfValues key expected boundKey expectedBound, w, remaining, w' =>
    remaining =
      (if w.get key = some expected ∧ w.get boundKey = some expectedBound then
        (w.expiry key).bind fun e => (w.expiry boundKey).bind fun e' => B.ttl (min e e' - w.now)
      else none) ∧ w' = w
  | .setexManyIfUnchanged expected values, w, committed, w' =>
    if w.store.Matches w.now expected then
      committed = true ∧ w' = (w.write values).record (.committed t values)
    else committed = false ∧ w' = w
  | .acquire lock, w, _, w' => w.held lock = none ∧ w' = w.setHeld lock (some t)
  | .release lock, w, _, w' => w' = w.setHeld lock none
  | .httpGet request, w, response, w' =>
    upstream w.version request response ∧
      w' = (match response with
        | none => w
        | some response => w.record (.exchange t w.now w.version request response))
  | .elapse, w, _, w' => ∃ now, w.now ≤ now ∧ w' = { w with now }
  | .httpHead _, w, _, w' => w' = w
  | .extractWheelMetadata _, w, _, w' => w' = w
  | .suspend, w, _, w' => w' = w
  | .unfinished .., w, _, w' => w' = w
  | .schedule _, w, _, w' => w' = w

/-- Between two steps the clock may advance, entries may be evicted, and the
upstream may publish new versions. -/
def Drift (w w' : World) : Prop :=
  ∃ now evicted version, w.now ≤ now ∧ w.version ≤ version ∧
    w' = { w with now, store := w.store.evict evicted, version }

/-- A conditional batch is stored when everything is as expected, and changes
nothing otherwise. -/
theorem exec_setexManyIfUnchanged {B : Backend} {upstream : Upstream} {t : ℕ} {w w' : World}
    {expected : List (Str × Option Str)} {values : List Write} {committed : Bool}
    (h : exec B upstream t (.setexManyIfUnchanged expected values) w committed w') :
    (committed = true ∧ (∀ kv ∈ expected, w.get kv.1 = kv.2) ∧
      w' = (w.write values).record (.committed t values)) ∨
    (committed = false ∧ w' = w) := by
  simp only [exec] at h
  split at h
  · next hmatches => exact .inl ⟨h.1, hmatches, h.2⟩
  · exact .inr h

/-- The last exchange of a task: the version it was with, and its response. -/
def lastExchange (t : ℕ) : List Record → Option (ℕ × UpstreamResponse)
  | [] => none
  | .exchange u _ version _ response :: log =>
    if u = t then some (version, response) else lastExchange t log
  | _ :: log => lastExchange t log

/-! ## Reading the world after a step -/

section Reading

variable {w w' : World} {key value : Str}

/-- A value live after a batch was live before and not overwritten, or is one of
the batch. -/
theorem World.get_write {values : List Write} (h : (w.write values).get key = some value) :
    (w.get key = some value ∧ ∀ x ∈ values, x.key ≠ key) ∨
      ∃ x ∈ values, x.key = key ∧ x.value = value := by
  rcases Store.get_putMany h with ⟨hget, hne⟩ | ⟨e, hmem, hvalue, -⟩
  · refine .inl ⟨hget, fun x hx => ?_⟩
    exact hne (x.key, ⟨w.now + x.ttl, x.value⟩) (List.mem_map_of_mem hx)
  · obtain ⟨x, hx, hxe⟩ := List.mem_map.mp hmem
    obtain ⟨rfl, rfl⟩ := Prod.mk.inj hxe
    exact .inr ⟨x, hx, rfl, hvalue⟩

/-- A batch leaves the keys it does not name alone. -/
theorem World.store_write_of_not_mem {values : List Write} (h : ∀ x ∈ values, x.key ≠ key) :
    (w.write values).store key = w.store key := by
  refine Store.putMany_of_not_mem fun ke hke => ?_
  obtain ⟨x, hx, rfl⟩ := List.mem_map.mp hke
  exact h x hx

/-- With one entry per key, a batch stores each of its entries. -/
theorem World.store_write_of_mem {values : List Write} {x : Write}
    (hnd : (values.map Write.key).Nodup) (hx : x ∈ values) :
    (w.write values).store x.key = some ⟨w.now + x.ttl, x.value⟩ := by
  refine Store.putMany_of_mem ?_ (List.mem_map.mpr ⟨x, hx, rfl⟩)
  rwa [World.entries, List.map_map]

/-- What was stored for a positive number of seconds is live. -/
theorem World.get_of_store {ttl : ℤ} (hstore : w.store key = some ⟨w.now + ttl, value⟩)
    (httl : 0 < ttl) : w.get key = some value := by
  have hlive : w.now < w.now + ttl := lt_add_of_pos_right _ (Int.cast_pos.mpr httl)
  exact Store.get_eq_some.mpr ⟨_, hstore, hlive, rfl⟩

theorem World.expiry_eq_some {e : ℚ} :
    w.expiry key = some e ↔ ∃ value, w.store key = some ⟨e, value⟩ ∧ w.now < e := by
  unfold World.expiry
  cases w.store key with
  | none => simp
  | some entry =>
    obtain ⟨expiry, value⟩ := entry
    by_cases hlive : w.now < expiry
    · simp only [Option.bind_some, hlive, if_true, Option.some.injEq, Entry.mk.injEq]
      constructor
      · rintro rfl
        exact ⟨value, ⟨rfl, rfl⟩, hlive⟩
      · rintro ⟨_, ⟨rfl, -⟩, -⟩
        rfl
    · simp only [Option.bind_some, hlive, if_false, Option.some.injEq, Entry.mk.injEq]
      constructor
      · intro h
        cases h
      · rintro ⟨_, ⟨rfl, -⟩, he⟩
        exact absurd he hlive

/-- What is live after a batch was live before, or expires as the batch says. -/
theorem World.expiry_write {values : List Write} {e : ℚ}
    (h : (w.write values).expiry key = some e) :
    (w.expiry key = some e ∧ ∀ x ∈ values, x.key ≠ key) ∨
      ∃ x ∈ values, x.key = key ∧ e = w.now + x.ttl := by
  obtain ⟨value, hstore, hlive⟩ := World.expiry_eq_some.mp h
  rcases Store.putMany_cases w.store (w.entries values) key with ⟨hsame, hne⟩ | ⟨entry, hmem, hnew⟩
  · refine .inl ⟨World.expiry_eq_some.mpr ⟨value, hsame ▸ hstore, hlive⟩, fun x hx => ?_⟩
    exact hne (x.key, ⟨w.now + x.ttl, x.value⟩) (List.mem_map_of_mem hx)
  · obtain ⟨x, hx, hxe⟩ := List.mem_map.mp hmem
    obtain ⟨rfl, rfl⟩ := Prod.mk.inj hxe
    obtain ⟨rfl, -⟩ := Entry.mk.inj (Option.some.inj (hnew.symm.trans hstore))
    exact .inr ⟨x, hx, rfl, rfl⟩

/-- What reports a lifetime in memory does so for a longer one. -/
theorem Backend.memory_ttl_ne_none_of_le {x y : ℚ} (hxy : x ≤ y)
    (h : Backend.memory.ttl x ≠ none) : Backend.memory.ttl y ≠ none := by
  unfold Backend.ttl at h ⊢
  split at h
  · next hpos =>
    have hfloor : Backend.memory.wholeSeconds x ≤ Backend.memory.wholeSeconds y :=
      Int.floor_mono hxy
    rw [if_pos (hpos.trans_le hfloor)]
    exact nofun
  · exact absurd rfl h

/-- A lifetime that is reported is positive. -/
theorem Backend.ttl_pos {B : Backend} {remaining : ℚ} {n : ℤ} (h : B.ttl remaining = some n) :
    0 < n := by
  unfold Backend.ttl at h
  split at h
  · next hpos => exact Option.some.inj h ▸ hpos
  · cases h

/-- A lifetime in memory is rounded down. -/
theorem Backend.memory_ttl_le {remaining : ℚ} {n : ℤ} (h : Backend.memory.ttl remaining = some n) :
    (n : ℚ) ≤ remaining := by
  unfold Backend.ttl at h
  split at h
  · obtain rfl := Option.some.inj h
    exact Int.floor_le remaining
  · cases h

theorem Drift.refl (w : World) : Drift w w :=
  ⟨w.now, fun _ => false, w.version, le_refl _, le_refl _, rfl⟩

/-- Nothing comes to life between two steps. -/
theorem Drift.get (h : Drift w w') (hget : w'.get key = some value) : w.get key = some value := by
  obtain ⟨now, evicted, version, hnow, -, rfl⟩ := h
  exact Store.get_earlier hnow (Store.get_of_evict hget)

theorem Drift.expiry {e : ℚ} (h : Drift w w') (he : w'.expiry key = some e) :
    w.expiry key = some e := by
  obtain ⟨now, evicted, version, hnow, -, rfl⟩ := h
  obtain ⟨value, hstore, hlive⟩ := World.expiry_eq_some.mp he
  simp only [Store.evict] at hstore
  split at hstore
  · cases hstore
  · exact World.expiry_eq_some.mpr ⟨value, hstore, lt_of_le_of_lt hnow hlive⟩

theorem Drift.held (h : Drift w w') : w'.held = w.held := by
  obtain ⟨_, _, _, _, _, rfl⟩ := h
  rfl

theorem Drift.log (h : Drift w w') : w'.log = w.log := by
  obtain ⟨_, _, _, _, _, rfl⟩ := h
  rfl

/-- Nothing comes to life while the clock advances. -/
theorem World.get_of_elapse {now : ℚ} (hnow : w.now ≤ now)
    (hget : ({ w with now } : World).get key = some value) : w.get key = some value :=
  Store.get_earlier hnow hget

end Reading

/-- The effects of the calls. -/
def effects (B : Backend) (upstream : Upstream) : Effects Op Ret World :=
  ⟨B.yields, exec B upstream⟩

/-- A process starts with an empty cache. -/
def Fresh (w : World) : Prop :=
  (∀ k, w.store k = none) ∧ (∀ lock, w.held lock = none) ∧ w.log = []

end ProxyCache.App
