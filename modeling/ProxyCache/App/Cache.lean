import ProxyCache.App.Redis
import ProxyCache.Lib.Program

/-!
# The cache

`app/cache.py`: a `Cache` keeps its entries in Redis while it has a client, and
in a local dictionary otherwise. A command to Redis suspends the caller; what
lies between two commands runs undisturbed. A command may raise, whether or not
the server has carried it out.
-/

namespace ProxyCache.App

open ProxyCache.Lib ProxyCache.Python

inductive CacheState where
  | memory
  | disconnected
  | connected
  | degraded
  deriving DecidableEq

inductive CacheBackendName where
  | memory
  | redis
  | redisRequired
  deriving DecidableEq

/-- The attributes of the object that its methods read; `redis` says whether
`_redis` is a client. -/
structure Cache where
  backend : CacheBackendName
  redis : Bool
  mem : Store Str ℚ Str
  state : CacheState
  redisErrors : ℕ
  redisProbeErrors : ℕ

/-- `Cache(backend=...)`, with the redis package installed. -/
def Cache.new : CacheBackendName → Cache
  | .memory => ⟨.memory, false, fun _ => none, .memory, 0, 0⟩
  | backend => ⟨backend, true, fun _ => none, .disconnected, 0, 0⟩

namespace Cache

/-! ## Calls -/

inductive Op where
  /-- Reading the attributes. -/
  | self
  /-- Assigning to attributes. -/
  | assign (attributes : Cache)
  /-- `time.time()`. -/
  | time
  /-- `await self._redis....`. -/
  | redis (command : Redis.Command)

/-- What a call answers; `none` is an exception of the client. -/
@[reducible] def Ret : Op → Type
  | .self => Cache
  | .assign _ => Unit
  | .time => ℚ
  | .redis command => Option command.Reply

abbrev Program (α : Type) := Prog Op Ret α

abbrev call (o : Op) : Program (Ret o) := Prog.op o

/-! ## Connecting -/

def reconnect : Program Bool := do
  let self ← call .self
  if self.backend = .memory then
    call (.assign { self with state := .memory })
    return false
  if !self.redis then call (.assign { self with redis := true })
  match ← call (.redis .ping) with
  | some () =>
    let self ← call .self
    call (.assign { self with state := .connected })
    return true
  | none =>
    let self ← call .self
    call (.assign
      { self with
        redisProbeErrors := self.redisProbeErrors + 1
        redis := false
        state := .degraded })
    return false

/-- `_degrade`. -/
def degrade : Program Unit := do
  let self ← call .self
  call (.assign
    { self with
      redisErrors := self.redisErrors + 1
      redis := false
      state := .degraded })

def healthPing : Program Bool := do
  let self ← call .self
  if self.backend = .memory then return false
  if self.state = .degraded ∨ !self.redis then reconnect
  else
    match ← call (.redis .ping) with
    | some () =>
      let self ← call .self
      call (.assign { self with state := .connected })
      return true
    | none => return false

/-! ## Reading -/

/-- A command to Redis, when there is a client; `none` when there is none, or
when the client raises and the cache degrades. -/
def attempt {α : Type} (command : Redis.Command) (answer : command.Reply → α) :
    Program (Option α) := do
  let self ← call .self
  if self.redis then
    match ← call (.redis command) with
    | some reply => return some (answer reply)
    | none =>
      degrade
      return none
  else return none

def forget (mem : Store Str ℚ Str) (key : Str) : Store Str ℚ Str := Function.update mem key none

def get (key : Str) : Program (Option Str) := do
  match ← attempt (.get key) id with
  | some v => return v
  | none =>
    let self ← call .self
    match self.mem key with
    | some e =>
      if e.expiry > (← call .time) then return some e.value
      call (.assign { self with mem := forget self.mem key })
      return none
    | none => return none

/-- The loop of `get_many` over the local entries. -/
def localValues (now : ℚ) : List Str → Store Str ℚ Str → List (Option Str) × Store Str ℚ Str
  | [], mem => ([], mem)
  | key :: keys, mem =>
    match mem key with
    | none =>
      let (values, mem) := localValues now keys mem
      (none :: values, mem)
    | some e =>
      if e.expiry > now then
        let (values, mem) := localValues now keys mem
        (some e.value :: values, mem)
      else
        let (values, mem) := localValues now keys (forget mem key)
        (none :: values, mem)

def getMany (keys : List Str) : Program (List (Option Str)) := do
  if keys = [] then return []
  match ← attempt (.mget keys) id with
  | some values => return values
  | none =>
    let now ← call .time
    let self ← call .self
    let (values, mem) := localValues now keys self.mem
    call (.assign { self with mem })
    return values

/-- The loop of `exists_any` over the local entries. -/
def localExists (now : ℚ) : List Str → Bool → Store Str ℚ Str → Bool × Store Str ℚ Str
  | [], found, mem => (found, mem)
  | key :: keys, found, mem =>
    match mem key with
    | none => localExists now keys found mem
    | some e =>
      if e.expiry > now then localExists now keys true mem
      else localExists now keys found (forget mem key)

def existsAny (keys : List Str) : Program Bool := do
  if keys = [] then return false
  match ← attempt (.exists keys) fun n => decide (n ≠ 0) with
  | some found => return found
  | none =>
    let now ← call .time
    let self ← call .self
    let (found, mem) := localExists now keys false self.mem
    call (.assign { self with mem })
    return found

/-- `remaining if remaining > 0 else None`. -/
def positive (remaining : ℤ) : Option ℤ := if remaining > 0 then some remaining else none

def ttl (key : Str) : Program (Option ℤ) := do
  match ← attempt (.ttl key) positive with
  | some remaining => return remaining
  | none =>
    let self ← call .self
    match self.mem key with
    | none => return none
    | some e =>
      let remaining := e.expiry - (← call .time)
      if remaining ≤ 0 then
        call (.assign { self with mem := forget self.mem key })
        return none
      return positive ⌊remaining⌋

def ttlIfValues (key expected boundKey expectedBound : Str) : Program (Option ℤ) := do
  match ← attempt (.eval Redis.ttlIfValuesScript [key, boundKey] [expected, expectedBound])
    positive with
  | some remaining => return remaining
  | none =>
    let now ← call .time
    let self ← call .self
    match self.mem key, self.mem boundKey with
    | some marker, some bound =>
      if marker.expiry ≤ now ∨ marker.value ≠ expected ∨ bound.expiry ≤ now ∨
          bound.value ≠ expectedBound then return none
      return positive ⌊min marker.expiry bound.expiry - now⌋
    | _, _ => return none

/-! ## Writing -/

/-- Assignments to the local entries, in order. -/
def storeAll (now : ℚ) (values : List (Str × ℤ × Str)) (mem : Store Str ℚ Str) : Store Str ℚ Str :=
  values.foldl (fun mem (key, ttl, value) => mem.put key ⟨now + ttl, value⟩) mem

def setex (key : Str) (ttl : ℤ) (value : Str) : Program Unit := do
  match ← attempt (.set key value ttl) id with
  | some () => return ()
  | none =>
    let self ← call .self
    let now ← call .time
    call (.assign { self with mem := self.mem.put key ⟨now + ttl, value⟩ })

def setexMany (values : List (Str × ℤ × Str)) : Program Unit := do
  if values = [] then return ()
  match ← attempt (.execute values) id with
  | some () => return ()
  | none =>
    let now ← call .time
    let self ← call .self
    call (.assign { self with mem := storeAll now values self.mem })

/-- The two arguments that say what is expected of a key. -/
def presence : Option Str → List Str
  | none => [str 0, []]
  | some value => [str 1, value]

/-- The arguments of the script: how many keys are expected, with what, and the
values to be stored. -/
def scriptArgs (expected : List (Str × Option Str)) (values : List (Str × ℤ × Str)) : List Str :=
  str expected.length ::
    ((expected.flatMap fun x => presence x.2) ++ values.flatMap fun x => [str x.2.1, x.2.2])

/-- The local value under a key. -/
def current (now : ℚ) (mem : Store Str ℚ Str) (key : Str) : Option Str :=
  match mem key with
  | some e => if e.expiry > now then some e.value else none
  | none => none

/-- The local entries are as expected. -/
def localUnchanged (now : ℚ) (mem : Store Str ℚ Str) (expected : List (Str × Option Str)) : Bool :=
  expected.all fun x => current now mem x.1 == x.2

def setexManyIfUnchanged (expected : List (Str × Option Str)) (values : List (Str × ℤ × Str)) :
    Program Bool := do
  let keys := expected.map Prod.fst ++ values.map Prod.fst
  match ← attempt (.eval Redis.setexManyIfUnchangedScript keys (scriptArgs expected values))
    fun n => decide (n ≠ 0) with
  | some stored => return stored
  | none =>
    let now ← call .time
    let self ← call .self
    if localUnchanged now self.mem expected then
      call (.assign { self with mem := storeAll now values self.mem })
      return true
    return false

/-! ## What the calls do -/

/-- The object, the server's keys, and the clock. -/
structure World where
  self : Cache
  server : Store Str ℚ Str
  now : ℚ

/-- How a command to the server goes: it is answered, it is lost before or after
the server has carried it out. -/
inductive Fault where
  | none
  | lost
  | unanswered
  deriving DecidableEq

def World.redis (w : World) : Redis := ⟨w.server, w.now⟩

/-- One call: the answer and the world after it. -/
def perform (fault : Fault) : (o : Op) → World → Ret o × World
  | .self, w => (w.self, w)
  | .assign self, w => ((), { w with self })
  | .time, w => (w.now, w)
  | .redis command, w =>
    let (reply, server) := w.redis.run command
    match fault with
    | .none => (reply, { w with server := server.store })
    | .lost => (none, w)
    | .unanswered => (none, { w with server := server.store })

/-- The object after `_degrade`. -/
def degraded (self : Cache) : Cache :=
  { self with redisErrors := self.redisErrors + 1, redis := false, state := .degraded }

section Attempt

variable {α : Type} {fault : Fault} {w : World} {command : Redis.Command}
  {answer : command.Reply → α}

/-- Without a client, nothing is sent. -/
theorem attempt_absent (h : w.self.redis = false) :
    (attempt command answer).run (perform fault) w = (none, w) := by
  simp [attempt, perform, h]

theorem attempt_answered {reply : command.Reply} {server : Redis} (h : w.self.redis = true)
    (hrun : w.redis.run command = (some reply, server)) :
    (attempt command answer).run (perform .none) w =
      (some (answer reply), { w with server := server.store }) := by
  simp [attempt, perform, h, hrun]

/-- A failure leaves the object degraded; the server may have carried out the
command. -/
theorem attempt_failed (h : w.self.redis = true) (hfault : fault ≠ .none) :
    (attempt command answer).run (perform fault) w =
      (none, { w with
        self := degraded w.self
        server := if fault = .lost then w.server else (w.redis.run command).2.store }) := by
  cases fault with
  | none => exact absurd rfl hfault
  | lost | unanswered => simp [attempt, perform, h, degrade, degraded]

end Attempt

/-! ## Requests -/

/-- A call of one of the methods that read or write entries. -/
inductive Request where
  | get (key : Str)
  | getMany (keys : List Str)
  | existsAny (keys : List Str)
  | setex (key : Str) (ttl : ℤ) (value : Str)
  | setexMany (values : List (Str × ℤ × Str))
  | ttl (key : Str)
  | ttlIfValues (key expected boundKey expectedBound : Str)
  | setexManyIfUnchanged (expected : List (Str × Option Str)) (values : List (Str × ℤ × Str))
  deriving DecidableEq

inductive Answer where
  | value (v : Option Str)
  | values (vs : List (Option Str))
  | found (b : Bool)
  | done
  | remaining (n : Option ℤ)
  | stored (b : Bool)
  deriving DecidableEq

def Request.prog : Request → Program Answer
  | .get key => do return .value (← Cache.get key)
  | .getMany keys => do return .values (← Cache.getMany keys)
  | .existsAny keys => do return .found (← Cache.existsAny keys)
  | .setex key seconds value => do
    Cache.setex key seconds value
    return .done
  | .setexMany values => do
    Cache.setexMany values
    return .done
  | .ttl key => do return .remaining (← Cache.ttl key)
  | .ttlIfValues key expected boundKey expectedBound => do
    return .remaining (← Cache.ttlIfValues key expected boundKey expectedBound)
  | .setexManyIfUnchanged expected values => do
    return .stored (← Cache.setexManyIfUnchanged expected values)

/-- The entries that a request may store. -/
def Request.writes : Request → List (Str × ℤ × Str)
  | .setex key seconds value => [(key, seconds, value)]
  | .setexMany values | .setexManyIfUnchanged _ values => values
  | _ => []

/-- A request that runs alone, at the time `now`. -/
def Request.serve (r : Request) (fault : Fault) (now : ℚ) (w : World) : Answer × World :=
  r.prog.run (perform fault) { w with now }

/-- A new cache on an empty server. -/
def World.boot (backend : CacheBackendName) : World := ⟨Cache.new backend, fun _ => none, 0⟩

/-- The answers to the requests of a history, without a failure of Redis. -/
def answers : World → List (ℤ × Request) → List Answer
  | _, [] => []
  | w, (now, r) :: history =>
    (r.serve .none now w).1 :: answers (r.serve .none now w).2 history

/-! ## Tasks on one event loop -/

inductive Task where
  | request (r : Request)
  | healthPing
  | reconnect

def Task.prog : Task → Program Unit
  | .request r => do let _ ← r.prog
  | .healthPing => do let _ ← Cache.healthPing
  | .reconnect => do let _ ← Cache.reconnect

/-- Only a command to Redis suspends a task. -/
def yields : Op → Bool
  | .redis _ => true
  | _ => false

/-- One cache in one process: its tasks, and a server that others may use. -/
def service (backend : CacheBackendName) : System Op Ret World Task Unit where
  yields := yields
  exec _ o w r w' := ∃ fault, perform fault o w = (r, w')
  prog := Task.prog
  init w := w.self = Cache.new backend
  env w w' := w'.self = w.self ∧ w.now ≤ w'.now

end Cache

end ProxyCache.App
