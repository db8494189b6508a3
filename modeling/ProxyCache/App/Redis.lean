import ProxyCache.Lib.Expiring
import ProxyCache.Lib.Lua
import ProxyCache.Python.Text
import Mathlib.Algebra.Order.Floor.Ring
import Mathlib.Data.Rat.Floor

/-!
# The Redis server

What the commands of `app/cache.py` do: an atomic map from keys to values with
an expiry, and the two Lua scripts as they are written in the source.
-/

namespace ProxyCache.App

open ProxyCache.Lib ProxyCache.Python

/-- The keys of a server at a time. -/
structure Redis where
  store : Store Str ℚ Str
  now : ℚ

namespace Redis

def get (s : Redis) (key : Str) : Option Str := s.store.get s.now key

/-- When a live key expires. -/
def expiry (s : Redis) (key : Str) : Option ℚ :=
  (s.store key).bind fun e => if s.now < e.expiry then some e.expiry else none

/-- `SET key value EX ttl`; an expire time that is not positive is refused. -/
def set (s : Redis) (key value : Str) (ttl : ℤ) : Option Redis :=
  if 0 < ttl then some { s with store := s.store.put key ⟨s.now + ttl, value⟩ } else none

/-- `TTL key`: seconds to the nearest, `-2` for an absent key. -/
def ttl (s : Redis) (key : Str) : ℤ :=
  match s.expiry key with
  | some e => ⌊e - s.now + 1 / 2⌋
  | none => -2

/-- The commands of a transaction; the ones that fail do not undo the others. -/
def setAll (s : Redis) : List (Str × ℤ × Str) → Bool × Redis
  | [] => (true, s)
  | (key, ttl, value) :: values =>
    match s.set key value ttl with
    | some s' => s'.setAll values
    | none => (false, (s.setAll values).2)

/-! ## Scripts -/

abbrev Script := Lua.Chunk Redis

/-- `redis.call('GET', key)`: an absent key is `false`. -/
def callGet : Lua.Value → Script Lua.Value
  | .str key => ⟨fun s =>
    (some (match s.get key with | some v => .str v | none => .bool false), s)⟩
  | _ => Lua.Chunk.error

/-- `redis.call('TTL', key)`. -/
def callTtl : Lua.Value → Script ℤ
  | .str key => ⟨fun s => (some (s.ttl key), s)⟩
  | _ => Lua.Chunk.error

/-- `redis.call('SET', key, value, 'EX', ttl)`. -/
def callSet : Lua.Value → Lua.Value → Lua.Value → Script Unit
  | .str key, .str value, .str ttl => ⟨fun s =>
    match (Lua.decimalValue ttl).bind (s.set key value) with
    | some s' => (some (), s')
    | none => (none, s)⟩
  | _, _, _ => Lua.Chunk.error

/-- The script of `ttl_if_values`. -/
def ttlIfValuesScript (KEYS ARGV : List Str) : Script ℤ := do
  if (← callGet (Lua.index KEYS 1)) ≠ Lua.index ARGV 1 then return -1
  if (← callGet (Lua.index KEYS 2)) ≠ Lua.index ARGV 2 then return -1
  let markerTtl ← callTtl (Lua.index KEYS 1)
  let boundTtl ← callTtl (Lua.index KEYS 2)
  if markerTtl ≤ 0 ∨ boundTtl ≤ 0 then return -1
  return min markerTtl boundTtl

/-- One round of the first loop of `setex_many_if_unchanged`'s script. -/
def checkUnchanged (KEYS ARGV : List Str) (i : ℤ) : Script (Option ℤ) := do
  let current ← callGet (Lua.index KEYS i)
  let present := Lua.index ARGV (2 + (i - 1) * 2)
  let expectedValue := Lua.index ARGV (3 + (i - 1) * 2)
  if (present = .str ['0'] ∧ current.truthy) ∨ (present = .str ['1'] ∧ current ≠ expectedValue) then
    return some 0
  return none

/-- One round of its second loop. -/
def setRound (KEYS ARGV : List Str) (n offset : ℤ) (i : ℤ) : Script (Option ℤ) := do
  let ttl := Lua.index ARGV (offset + (i - 1) * 2)
  let value := Lua.index ARGV (offset + 1 + (i - 1) * 2)
  callSet (Lua.index KEYS (n + i)) value ttl
  return none

/-- The script of `setex_many_if_unchanged`. -/
def setexManyIfUnchangedScript (KEYS ARGV : List Str) : Script ℤ := do
  let n ← Lua.tonumber (Lua.index ARGV 1)
  match ← Lua.numericFor 1 n (checkUnchanged KEYS ARGV) with
  | some result => return result
  | none =>
    let offset := 2 + n * 2
    match ← Lua.numericFor 1 (KEYS.length - n) (setRound KEYS ARGV n offset) with
    | some result => return result
    | none => return 1

/-! ## Commands -/

inductive Command where
  | ping
  | get (key : Str)
  | mget (keys : List Str)
  | exists (keys : List Str)
  | set (key value : Str) (ex : ℤ)
  /-- A pipeline of `SET key value EX ttl` as one transaction. -/
  | execute (values : List (Str × ℤ × Str))
  | ttl (key : Str)
  | eval (script : List Str → List Str → Script ℤ) (keys args : List Str)

@[reducible] def Command.Reply : Command → Type
  | .ping => Unit
  | .get _ => Option Str
  | .mget _ => List (Option Str)
  | .exists _ => ℕ
  | .set .. => Unit
  | .execute _ => Unit
  | .ttl _ => ℤ
  | .eval .. => ℤ

/-- The reply to a command, and the server after it; `none` is an error reply. -/
def run (s : Redis) : (command : Command) → Option command.Reply × Redis
  | .ping => (some (), s)
  | .get key => (some (s.get key), s)
  | .mget keys => (some (keys.map s.get), s)
  | .exists keys => (some (keys.countP fun key => (s.get key).isSome), s)
  | .set key value ex =>
    match s.set key value ex with
    | some s' => (some (), s')
    | none => (none, s)
  | .execute values =>
    match s.setAll values with
    | (true, s') => (some (), s')
    | (false, s') => (none, s')
  | .ttl key => (some (s.ttl key), s)
  | .eval script keys args => (script keys args).run s

end Redis

end ProxyCache.App
