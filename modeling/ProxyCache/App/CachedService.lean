import ProxyCache.App.Cache
import ProxyCache.App.Service
import ProxyCache.Lib.Trace

/-!
# The service over its cache objects

The systems of tasks have one abstract store. Here each process has the `cache` object of
`app/cache.py` instead, with its local entries, and there may be a Redis server that does not fail.
A call of the handlers is one call of a method, carried out as the method is written. That this is
one step is justified by `Cache.Request.suspends_once`: a method suspends its caller at most once,
and only to wait for Redis.
-/

namespace ProxyCache.App

open ProxyCache.Lib ProxyCache.Python

/-! ## Methods are atomic -/

namespace Cache

/-- The commands that suspend a caller. -/
def suspensions : (o : Op) → Ret o → List Redis.Command
  | .redis command, _ => [command]
  | _, _ => []

/-- At most one call suspends. -/
abbrev Once {α : Type} (p : Program α) : Prop :=
  p.Emits suspensions fun commands _ => commands.length ≤ 1

variable {α : Type}

/-- Nothing but the attempt suspends. -/
theorem once_attempt {β : Type} {command : Redis.Command} {answer : command.Reply → α}
    {f : Option α → Program β} (hf : ∀ a, (f a).Calls (Prog.Silent suspensions)) :
    Once (attempt command answer >>= f) := by
  refine Prog.Emits.bind (P := fun commands _ => commands.length ≤ 1) ?_ fun commands a hlen => ?_
  · unfold attempt degrade
    simp only [Prog.op_bind, Prog.emits_call]
    intro self
    split
    · rintro (_ | reply)
      · exact fun _ _ => le_refl 1
      · exact le_refl 1
    · exact Nat.zero_le 1
  · refine (Prog.emits_of_silent (hf a) (Prog.returns_true _)).mono fun rest b h => ?_
    rw [h.1, List.append_nil]
    exact hlen

theorem silent_self : Prog.Silent suspensions .self := fun _ => rfl

theorem silent_assign (self : Cache) : Prog.Silent suspensions (.assign self) := fun _ => rfl

theorem silent_time : Prog.Silent suspensions .time := fun _ => rfl

/-- A method that ends with an answer. -/
theorem Once.answer {p : Program α} (h : Once p) (f : α → Answer) :
    Once (p >>= fun a => (.ret (f a) : Program Answer)) := by
  refine Prog.Emits.bind h fun commands a hlen => ?_
  rw [Prog.emits_ret, List.append_nil]
  exact hlen

theorem once_get (key : Str) : Once (get key) := by
  refine once_attempt fun value => ?_
  split
  · trivial
  simp only [Prog.op_bind, Prog.calls_call]
  refine ⟨silent_self, fun self => ?_⟩
  split
  · refine ⟨silent_time, fun now => ?_⟩
    dsimp only
    split
    · trivial
    · exact ⟨silent_assign _, fun _ => trivial⟩
  · trivial

theorem once_getMany (keys : List Str) : Once (getMany keys) := by
  unfold getMany
  split
  · exact Nat.zero_le 1
  refine once_attempt fun values => ?_
  split
  · trivial
  · exact ⟨silent_time, fun _ => ⟨silent_self, fun _ => ⟨silent_assign _, fun _ => trivial⟩⟩⟩

theorem once_existsAny (keys : List Str) : Once (existsAny keys) := by
  unfold existsAny
  split
  · exact Nat.zero_le 1
  refine once_attempt fun found => ?_
  split
  · trivial
  · exact ⟨silent_time, fun _ => ⟨silent_self, fun _ => ⟨silent_assign _, fun _ => trivial⟩⟩⟩

theorem once_setex (key : Str) (ttl : ℤ) (value : Str) : Once (setex key ttl value) := by
  refine once_attempt fun done => ?_
  split
  · trivial
  · exact ⟨silent_self, fun _ => ⟨silent_time, fun _ => ⟨silent_assign _, fun _ => trivial⟩⟩⟩

theorem once_setexMany (values : List (Str × ℤ × Str)) : Once (setexMany values) := by
  unfold setexMany
  split
  · exact Nat.zero_le 1
  refine once_attempt fun done => ?_
  split
  · trivial
  · exact ⟨silent_time, fun _ => ⟨silent_self, fun _ => ⟨silent_assign _, fun _ => trivial⟩⟩⟩

theorem once_ttl (key : Str) : Once (ttl key) := by
  refine once_attempt fun remaining => ?_
  split
  · trivial
  simp only [Prog.op_bind, Prog.calls_call]
  refine ⟨silent_self, fun self => ?_⟩
  split
  · trivial
  refine ⟨silent_time, fun now => ?_⟩
  dsimp only
  split
  · exact ⟨silent_assign _, fun _ => trivial⟩
  · trivial

theorem once_ttlIfValues (key expected boundKey expectedBound : Str) :
    Once (ttlIfValues key expected boundKey expectedBound) := by
  refine once_attempt fun remaining => ?_
  split
  · trivial
  simp only [Prog.op_bind, Prog.calls_call]
  refine ⟨silent_time, fun now => ⟨silent_self, fun self => ?_⟩⟩
  split
  · split <;> trivial
  · trivial

theorem once_setexManyIfUnchanged (expected : List (Str × Option Str))
    (values : List (Str × ℤ × Str)) : Once (setexManyIfUnchanged expected values) := by
  refine once_attempt fun stored => ?_
  split
  · trivial
  simp only [Prog.op_bind, Prog.calls_call]
  refine ⟨silent_time, fun now => ⟨silent_self, fun self => ?_⟩⟩
  split
  · exact ⟨silent_assign _, fun _ => trivial⟩
  · trivial

/-- **Each method suspends its caller at most once**, for its command to Redis. -/
theorem Request.suspends_once (r : Request) : Once r.prog := by
  cases r with
  | get key => exact (once_get key).answer .value
  | getMany keys => exact (once_getMany keys).answer .values
  | existsAny keys => exact (once_existsAny keys).answer .found
  | setex key ttl value => exact (once_setex key ttl value).answer fun _ => .done
  | setexMany values => exact (once_setexMany values).answer fun _ => .done
  | ttl key => exact (once_ttl key).answer .remaining
  | ttlIfValues key expected boundKey expectedBound =>
    exact (once_ttlIfValues key expected boundKey expectedBound).answer .remaining
  | setexManyIfUnchanged expected values =>
    exact (once_setexManyIfUnchanged expected values).answer .stored

end Cache

/-! ## Calls of the handlers -/

/-- A triple of a batch, as the methods take it. -/
def Write.triple (x : Write) : Str × ℤ × Str := (x.key, x.ttl, x.value)

/-- A call of the handlers, the method that it is made through, and how the answers correspond. A
batch of one may be a call of the method for one. -/
inductive Method : (o : Op) → Cache.Request → Cache.Answer → Ret o → Prop
  | get (key : Str) (value : Option Str) :
      Method (.getMany [key]) (.get key) (.value value) [value]
  | getMany (keys : List Str) (values : List (Option Str)) :
      Method (.getMany keys) (.getMany keys) (.values values) values
  | existsAny (keys : List Str) (found : Bool) :
      Method (.existsAny keys) (.existsAny keys) (.found found) found
  | setex (x : Write) : Method (.setexMany [x]) (.setex x.key x.ttl x.value) .done ()
  | setexMany (values : List Write) :
      Method (.setexMany values) (.setexMany (values.map Write.triple)) .done ()
  | ttl (key : Str) (remaining : Option ℤ) :
      Method (.ttl key) (.ttl key) (.remaining remaining) remaining
  | ttlIfValues (key expected boundKey expectedBound : Str) (remaining : Option ℤ) :
      Method (.ttlIfValues key expected boundKey expectedBound)
        (.ttlIfValues key expected boundKey expectedBound) (.remaining remaining) remaining
  | setexManyIfUnchanged (expected : List (Str × Option Str)) (values : List Write)
      (stored : Bool) :
      Method (.setexManyIfUnchanged expected values)
        (.setexManyIfUnchanged expected (values.map Write.triple)) (.stored stored) stored

/-- The call is one of the cache. -/
def Op.isCached : Op → Bool
  | .getMany _ | .existsAny _ | .setexMany _ | .ttl _ | .ttlIfValues .. |
      .setexManyIfUnchanged .. => true
  | _ => false

/-- What a call of the cache adds to the log that no task reads. -/
def noted (t : ℕ) : (o : Op) → Ret o → List Record
  | .setexMany values, _ => [.stored t values]
  | .setexManyIfUnchanged _ values, stored => if stored = true then [.committed t values] else []
  | _, _ => []

/-! ## The world -/

/-- The cache object of each process, the Redis server, and what else there is. -/
structure CachedWorld where
  caches : ℕ → Cache
  server : Store Str ℚ Str
  now : ℚ
  held : ℕ × Str → Option ℕ
  version : ℕ
  log : List Record

namespace CachedWorld

/-- The world without what is cached. -/
def outside (w : CachedWorld) : World := ⟨w.now, fun _ => none, w.held, w.version, w.log⟩

def setOutside (w : CachedWorld) (v : World) : CachedWorld :=
  { w with now := v.now, held := v.held, version := v.version, log := v.log }

/-- A method of the cache of one process, at one time. -/
def serve (w : CachedWorld) (process : ℕ) (r : Cache.Request) : Cache.Answer × CachedWorld :=
  let (answer, cache) := r.serve .none w.now ⟨w.caches process, w.server, w.now⟩
  (answer, { w with
    caches := Function.update w.caches process cache.self
    server := cache.server })

def note (w : CachedWorld) (records : List Record) : CachedWorld :=
  { w with log := records ++ w.log }

end CachedWorld

/-- The cache of a new process. -/
def Backend.Boots : Backend → Cache → Prop
  | .memory, cache => cache = Cache.new .memory
  | .redis, cache => cache = Cache.new .redis ∨ cache = Cache.new .redisRequired

/-- One call by the task `t`, in its process. -/
def cachedExec (B : Backend) (upstream : Upstream) (process : ℕ → ℕ) (t : ℕ) (o : Op)
    (w : CachedWorld) (r : Ret o) (w' : CachedWorld) : Prop :=
  if o.isCached then
    ∃ request answer, Method o request answer r ∧ (w.serve (process t) request).1 = answer ∧
      w' = ((w.serve (process t) request).2.note (noted t o r))
  else ∃ v, exec B upstream t o w.outside r v ∧ w' = w.setOutside v

/-- A system of tasks over the cache objects of its processes. -/
def overCaches {E α : Type} (B : Backend) (upstream : Upstream) (process : ℕ → ℕ)
    (prog : E → Program α) : System Op Ret CachedWorld E α where
  yields := B.yields
  exec := cachedExec B upstream process
  prog := prog
  init w := (∀ i, B.Boots (w.caches i)) ∧ (∀ key, w.server key = none) ∧
    (∀ lock, w.held lock = none) ∧ w.log = []
  env w w' := ∃ now evicted version, w.now ≤ now ∧ w.version ≤ version ∧
    w' = { w with now, server := w.server.evict evicted, version }

/-- The same tasks over one abstract store. -/
def overStore {E α : Type} (B : Backend) (upstream : Upstream) (prog : E → Program α) :
    System Op Ret World E α where
  toEffects := effects B upstream
  prog := prog
  init := Fresh
  env := Drift

end ProxyCache.App
