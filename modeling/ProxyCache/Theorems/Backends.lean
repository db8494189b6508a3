import ProxyCache.App.Cache
import ProxyCache.App.Effects
import Mathlib.Algebra.Order.Group.MinMax
import Mathlib.Tactic.NormNum

/-!
# The two cache backends

Each backend is compared with one abstract store of expiring entries: the memory
backend agrees with it on the live entries, Redis holds exactly it. They differ
in how they round a lifetime, so at whole seconds the two answer alike.
-/

namespace ProxyCache.Theorems.Backends

open ProxyCache.Lib ProxyCache.Python ProxyCache.App.Cache
open ProxyCache.App (Backend Cache Redis)

/-! ## The abstract store -/

/-- The live entry under a key. -/
def live (s : Store Str ℚ Str) (now : ℚ) (key : Str) : Option (Entry ℚ Str) :=
  (s key).bind fun e => if now < e.expiry then some e else none

/-- What a request answers, and the store after it. -/
def spec (B : Backend) (now : ℚ) (s : Store Str ℚ Str) : Request → Answer × Store Str ℚ Str
  | .get key => (.value (s.get now key), s)
  | .getMany keys => (.values (keys.map (s.get now)), s)
  | .existsAny keys => (.found (keys.any fun key => (s.get now key).isSome), s)
  | .setex key seconds value => (.done, storeAll now [(key, seconds, value)] s)
  | .setexMany values => (.done, storeAll now values s)
  | .ttl key => (.remaining ((live s now key).bind fun e => B.ttl (e.expiry - now)), s)
  | .ttlIfValues key expected boundKey expectedBound =>
    (.remaining ((live s now key).bind fun e => (live s now boundKey).bind fun e' =>
      if e.value = expected ∧ e'.value = expectedBound then
        B.ttl (min e.expiry e'.expiry - now)
      else none), s)
  | .setexManyIfUnchanged expected values =>
    if s.Matches now expected then (.stored true, storeAll now values s) else (.stored false, s)

/-- Two stores have the same live entries. -/
def Agree (now : ℚ) (s s' : Store Str ℚ Str) : Prop := ∀ key, live s now key = live s' now key

section Abstract

variable {now now' : ℚ} {s s' s'' : Store Str ℚ Str} {key : Str}

theorem live_eq_some {e : Entry ℚ Str} :
    live s now key = some e ↔ s key = some e ∧ now < e.expiry := by
  unfold live
  cases s key with
  | none => simp
  | some e' =>
    by_cases h : now < e'.expiry
    · simp only [Option.bind_some, if_pos h, Option.some.injEq]
      exact ⟨fun heq => ⟨heq, heq ▸ h⟩, And.left⟩
    · simp only [Option.bind_some, if_neg h, Option.some.injEq, reduceCtorEq, false_iff]
      rintro ⟨rfl, hlive⟩
      exact h hlive

theorem get_eq_live (s : Store Str ℚ Str) (now : ℚ) (key : Str) :
    s.get now key = (live s now key).map Entry.value := by
  unfold Store.get live
  cases s key with
  | none => rfl
  | some e =>
    simp only [Option.bind_some]
    split <;> rfl

theorem Agree.get (h : Agree now s s') (key : Str) : s.get now key = s'.get now key := by
  rw [get_eq_live, get_eq_live, h key]

theorem Agree.trans (h : Agree now s s') (h' : Agree now s' s'') : Agree now s s'' :=
  fun key => (h key).trans (h' key)

/-- What is live later is live now. -/
theorem Agree.later (h : Agree now s s') (hnow : now ≤ now') : Agree now' s s' := by
  have hsub : ∀ s : Store Str ℚ Str, ∀ key,
      live s now' key = (live s now key).bind fun e => if now' < e.expiry then some e
      else none := by
    intro s key
    unfold live
    cases s key with
    | none => rfl
    | some e =>
      by_cases hlive : now' < e.expiry
      · simp only [Option.bind_some, if_pos (lt_of_le_of_lt hnow hlive)]
      · by_cases hlive' : now < e.expiry
        · simp only [Option.bind_some, if_pos hlive']
        · simp only [Option.bind_some, if_neg hlive', if_neg hlive, Option.bind_none]
  intro key
  rw [hsub, hsub, h key]

theorem Agree.put (h : Agree now s s') (e : Entry ℚ Str) :
    Agree now (s.put key e) (s'.put key e) := by
  intro k
  by_cases hk : k = key
  · subst hk
    simp [live]
  · have hkey := h k
    simp only [live, Store.put_of_ne hk] at hkey ⊢
    exact hkey

theorem Agree.storeAll (h : Agree now s s') (values : List (Str × ℤ × Str)) :
    Agree now (storeAll now values s) (storeAll now values s') := by
  induction values generalizing s s' with
  | nil => exact h
  | cons x values ih => exact ih (h.put _)

/-- Forgetting what has expired changes no live entry. -/
theorem agree_forget (hdead : live s now key = none) : Agree now (forget s key) s := by
  intro k
  by_cases hk : k = key
  · subst hk
    rw [hdead]
    simp [live, forget]
  · simp [live, forget, Function.update_of_ne hk]

/-- **Congruence.** Stores with the same live entries answer alike, and have the
same live entries afterwards. -/
theorem spec_congr {B : Backend} (h : Agree now s s') (r : Request) :
    (spec B now s r).1 = (spec B now s' r).1 ∧
    Agree now (spec B now s r).2 (spec B now s' r).2 := by
  cases r with
  | get key => exact ⟨congrArg Answer.value (h.get key), h⟩
  | getMany keys => exact ⟨congrArg Answer.values (List.map_congr_left fun key _ => h.get key), h⟩
  | existsAny keys =>
    have hget : s.get now = s'.get now := funext h.get
    simp only [spec, hget]
    exact ⟨trivial, h⟩
  | setex key seconds value => exact ⟨rfl, h.storeAll _⟩
  | setexMany values => exact ⟨rfl, h.storeAll _⟩
  | ttl key =>
    simp only [spec, h key]
    exact ⟨trivial, h⟩
  | ttlIfValues key expected boundKey expectedBound =>
    simp only [spec, h key, h boundKey]
    exact ⟨trivial, h⟩
  | setexManyIfUnchanged expected values =>
    have hmatches : s.Matches now expected ↔ s'.Matches now expected := by
      simp only [Store.Matches, h.get]
    by_cases hm : s.Matches now expected
    · simp only [spec, if_pos hm, if_pos (hmatches.mp hm)]
      exact ⟨trivial, h.storeAll values⟩
    · simp only [spec, if_neg hm, if_neg fun hm' => hm (hmatches.mpr hm')]
      exact ⟨trivial, h⟩

end Abstract

/-! ## The memory backend -/

section Memory

variable {now : ℚ} {mem : Store Str ℚ Str} {key : Str} {w : World}

theorem live_of_dead {e : Entry ℚ Str} (hmem : mem key = some e) (hdead : ¬ e.expiry > now) :
    live mem now key = none := by
  simp only [live, hmem, Option.bind_some]
  exact if_neg hdead

theorem live_of_lt {e : Entry ℚ Str} (hmem : mem key = some e) (hlive : e.expiry > now) :
    live mem now key = some e := live_eq_some.mpr ⟨hmem, hlive⟩

theorem live_of_none (hmem : mem key = none) : live mem now key = none := by
  rw [live, hmem]
  rfl

/-- The loop of `get_many` reads the live values, and forgets dead entries only. -/
theorem localValues_eq (now : ℚ) (keys : List Str) (mem : Store Str ℚ Str) :
    (localValues now keys mem).1 = keys.map (mem.get now) ∧
      Agree now (localValues now keys mem).2 mem := by
  induction keys generalizing mem with
  | nil => exact ⟨rfl, fun _ => rfl⟩
  | cons key keys ih =>
    rw [List.map_cons, get_eq_live]
    cases hmem : mem key with
    | none =>
      simp only [localValues, hmem, live_of_none hmem]
      exact ⟨congrArg (none :: ·) (ih mem).1, (ih mem).2⟩
    | some e =>
      by_cases hlive : e.expiry > now
      · simp only [localValues, hmem, if_pos hlive, live_of_lt hmem hlive]
        exact ⟨congrArg (some e.value :: ·) (ih mem).1, (ih mem).2⟩
      · have hforget := agree_forget (live_of_dead hmem hlive)
        obtain ⟨hvalues, hagree⟩ := ih (forget mem key)
        simp only [localValues, hmem, if_neg hlive, live_of_dead hmem hlive]
        refine ⟨?_, hagree.trans hforget⟩
        rw [hvalues, funext hforget.get]
        rfl

/-- The loop of `exists_any`, likewise. -/
theorem localExists_eq (now : ℚ) (keys : List Str) (found : Bool) (mem : Store Str ℚ Str) :
    (localExists now keys found mem).1 = (found || keys.any fun key => (mem.get now key).isSome) ∧
      Agree now (localExists now keys found mem).2 mem := by
  induction keys generalizing found mem with
  | nil => exact ⟨(Bool.or_false found).symm, fun _ => rfl⟩
  | cons key keys ih =>
    rw [List.any_cons, get_eq_live]
    cases hmem : mem key with
    | none =>
      simp only [localExists, hmem, live_of_none hmem]
      exact ih found mem
    | some e =>
      by_cases hlive : e.expiry > now
      · simp only [localExists, hmem, if_pos hlive, live_of_lt hmem hlive]
        obtain ⟨hfound, hagree⟩ := ih true mem
        refine ⟨?_, hagree⟩
        rw [hfound]
        simp
      · have hforget := agree_forget (live_of_dead hmem hlive)
        obtain ⟨hfound, hagree⟩ := ih found (forget mem key)
        simp only [localExists, hmem, if_neg hlive, live_of_dead hmem hlive]
        refine ⟨?_, hagree.trans hforget⟩
        rw [hfound, funext hforget.get]
        rfl

theorem localUnchanged_iff {expected : List (Str × Option Str)} :
    localUnchanged now mem expected = true ↔ mem.Matches now expected := by
  have hcurrent : current now mem = mem.get now := by
    funext key
    unfold current Store.get
    cases mem key <;> rfl
  simp only [localUnchanged, hcurrent, Store.Matches, List.all_eq_true, beq_iff_eq]

/-- The shorter lifetime of two keys that hold what is expected. -/
theorem bound_ttl {boundKey expected expectedBound : Str} {marker bound : Entry ℚ Str}
    (hmem : mem key = some marker) (hbound : mem boundKey = some bound) :
    ((live mem now key).bind fun e => (live mem now boundKey).bind fun e' =>
      if e.value = expected ∧ e'.value = expectedBound then
        Backend.memory.ttl (min e.expiry e'.expiry - now)
      else none) =
    if marker.expiry ≤ now ∨ marker.value ≠ expected ∨ bound.expiry ≤ now ∨
        bound.value ≠ expectedBound then none
      else Backend.memory.ttl (min marker.expiry bound.expiry - now) := by
  by_cases hlive : marker.expiry > now
  · by_cases hlive' : bound.expiry > now
    · rw [live_of_lt hmem hlive, live_of_lt hbound hlive']
      simp only [Option.bind_some, not_le.mpr hlive, not_le.mpr hlive', false_or]
      by_cases hvalues : marker.value = expected ∧ bound.value = expectedBound
      · rw [if_pos hvalues, if_neg (by simp [hvalues])]
      · rw [if_neg hvalues, if_pos (not_and_or.mp hvalues)]
    · rw [live_of_lt hmem hlive, live_of_dead hbound hlive',
        if_pos (.inr (.inr (.inl (not_lt.mp hlive'))))]
      rfl
  · rw [live_of_dead hmem hlive, if_pos (.inl (not_lt.mp hlive))]
    rfl

theorem ttl_memory (remaining : ℚ) : Backend.memory.ttl remaining = positive ⌊remaining⌋ := rfl

/-- Without a client, a cache answers from its local entries as the abstract
store does. -/
theorem memory_refines (r : Request) (fault : Fault) (now : ℚ) (hredis : w.self.redis = false) :
    (r.serve fault now w).1 = (spec .memory now w.self.mem r).1 ∧
      Agree now (r.serve fault now w).2.self.mem (spec .memory now w.self.mem r).2 ∧
      (r.serve fault now w).2.self.redis = false := by
  have habsent : ∀ {command : Redis.Command} {α : Type} {answer : command.Reply → α},
      (attempt command answer).run (perform fault) { w with now } = (none, { w with now }) :=
    attempt_absent hredis
  cases r with
  | get key =>
    simp only [Request.serve, Request.prog, Cache.get, Prog.run_bind, habsent, spec, get_eq_live]
    cases hmem : w.self.mem key with
    | none => simp [perform, hmem, live_of_none hmem, hredis, Agree]
    | some e =>
      by_cases hlive : e.expiry > now
      · simp [perform, hmem, hlive, live_of_lt hmem hlive, hredis, Agree]
      · simp [perform, hmem, hlive, live_of_dead hmem hlive, hredis,
          agree_forget (live_of_dead hmem hlive)]
  | getMany keys =>
    by_cases hkeys : keys = []
    · subst hkeys
      exact ⟨rfl, fun _ => rfl, hredis⟩
    · obtain ⟨hvalues, hagree⟩ := localValues_eq now keys w.self.mem
      simp only [Request.serve, Request.prog, Cache.getMany, if_neg hkeys, Prog.run_bind,
        habsent, spec]
      exact ⟨congrArg Answer.values hvalues, hagree, hredis⟩
  | existsAny keys =>
    by_cases hkeys : keys = []
    · subst hkeys
      exact ⟨rfl, fun _ => rfl, hredis⟩
    · obtain ⟨hfound, hagree⟩ := localExists_eq now keys false w.self.mem
      simp only [Request.serve, Request.prog, Cache.existsAny, if_neg hkeys, Prog.run_bind,
        habsent, spec]
      exact ⟨congrArg Answer.found hfound, hagree, hredis⟩
  | setex key seconds value =>
    simp only [Request.serve, Request.prog, Cache.setex, Prog.run_bind, habsent, spec]
    exact ⟨rfl, fun _ => rfl, hredis⟩
  | setexMany values =>
    by_cases hvalues : values = []
    · subst hvalues
      exact ⟨rfl, fun _ => rfl, hredis⟩
    · simp only [Request.serve, Request.prog, Cache.setexMany, if_neg hvalues,
        Prog.run_bind, habsent,
        spec]
      exact ⟨rfl, fun _ => rfl, hredis⟩
  | ttl key =>
    simp only [Request.serve, Request.prog, Cache.ttl, Prog.run_bind, habsent, spec]
    cases hmem : w.self.mem key with
    | none => simp [perform, hmem, live_of_none hmem, hredis, Agree]
    | some e =>
      by_cases hlive : e.expiry > now
      · have hremaining : ¬ e.expiry ≤ now := not_le.mpr hlive
        simp [perform, hmem, hremaining, live_of_lt hmem hlive, hredis, Agree, ttl_memory]
      · have hremaining : e.expiry ≤ now := not_lt.mp hlive
        simp [perform, hmem, hremaining, live_of_dead hmem hlive, hredis,
          agree_forget (live_of_dead hmem hlive)]
  | ttlIfValues key expected boundKey expectedBound =>
    simp only [Request.serve, Request.prog, Cache.ttlIfValues, Prog.run_bind, habsent, spec]
    cases hmem : w.self.mem key with
    | none => simp [perform, hmem, live_of_none hmem, hredis, Agree]
    | some marker =>
      cases hbound : w.self.mem boundKey with
      | none => simp [perform, hmem, hbound, live_of_none hbound, hredis, Agree]
      | some bound =>
        rw [bound_ttl hmem hbound]
        by_cases hnot : marker.expiry ≤ now ∨ marker.value ≠ expected ∨ bound.expiry ≤ now ∨
          bound.value ≠ expectedBound
        · simp only [Prog.run_op, perform, hmem, hbound, hnot, if_true]
          exact ⟨rfl, fun _ => rfl, hredis⟩
        · simp only [Prog.run_op, perform, hmem, hbound, hnot, if_false]
          exact ⟨rfl, fun _ => rfl, hredis⟩
  | setexManyIfUnchanged expected values =>
    simp only [Request.serve, Request.prog, Cache.setexManyIfUnchanged, Prog.run_bind,
      habsent, spec]
    by_cases hmatches : w.self.mem.Matches now expected
    · simp [perform, hmatches, localUnchanged_iff.mpr hmatches, hredis, Agree]
    · have hnot : localUnchanged now w.self.mem expected = false :=
        Bool.eq_false_iff.mpr fun h => hmatches (localUnchanged_iff.mp h)
      simp [perform, hmatches, hnot, hredis, Agree]

end Memory

/-! ## The Redis backend -/

section Server

variable {server : Redis} {key : Str}

theorem callGet_str (key : Str) (s : Redis) : (Redis.callGet (.str key)).run s =
    (some (match s.get key with | some v => .str v | none => .bool false), s) := rfl

/-- A `GET` of a script against an argument. -/
theorem callGet_eq_iff {v : Str} : (match server.get key with
      | some v => Lua.Value.str v
      | none => .bool false) = .str v ↔ server.get key = some v := by
  cases server.get key with
  | none => simp
  | some v' => simp

theorem decimalValue_str {n : ℤ} (hn : 0 ≤ n) : Lua.decimalValue (str n) = some n := by
  obtain ⟨m, rfl⟩ := Int.eq_ofNat_of_zero_le hn
  exact Lua.decimalValue_repr m

theorem ttlIfValuesScript_eq (server : Redis) (key boundKey expected expectedBound : Str) :
    (Redis.ttlIfValuesScript [key, boundKey] [expected, expectedBound]).run server =
      (some (if server.get key = some expected ∧ server.get boundKey = some expectedBound ∧
        0 < server.ttl key ∧ 0 < server.ttl boundKey then
          min (server.ttl key) (server.ttl boundKey) else -1), server) := by
  have hkeys : Lua.index [key, boundKey] 1 = .str key ∧ Lua.index [key, boundKey] 2 =
    .str boundKey :=
    ⟨rfl, rfl⟩
  have hargs : Lua.index [expected, expectedBound] 1 = .str expected ∧
      Lua.index [expected, expectedBound] 2 = .str expectedBound := ⟨rfl, rfl⟩
  unfold Redis.ttlIfValuesScript
  rw [hkeys.1, hkeys.2, hargs.1, hargs.2, Lua.Chunk.bind_of_some (callGet_str key server)]
  by_cases hkey : server.get key = some expected
  · rw [if_neg (not_not.mpr (callGet_eq_iff.mpr hkey)),
      Lua.Chunk.bind_of_some (callGet_str boundKey server)]
    by_cases hbound : server.get boundKey = some expectedBound
    · rw [if_neg (not_not.mpr (callGet_eq_iff.mpr hbound)),
        Lua.Chunk.bind_of_some (show (Redis.callTtl (.str key)).run server = _ from rfl),
        Lua.Chunk.bind_of_some (show (Redis.callTtl (.str boundKey)).run server = _ from rfl)]
      by_cases hdead : server.ttl key ≤ 0 ∨ server.ttl boundKey ≤ 0
      · rw [if_pos hdead, if_neg (by omega)]
        rfl
      · rw [if_neg hdead, if_pos ⟨hkey, hbound, by omega, by omega⟩]
        rfl
    · rw [if_pos (mt callGet_eq_iff.mp hbound), if_neg fun h => hbound h.2.1]
      rfl
  · rw [if_pos (mt callGet_eq_iff.mp hkey), if_neg fun h => hkey h.1]
    rfl

/-- One round of the check, where the arguments say what is expected of `key`. -/
theorem checkUnchanged_eq (server : Redis) {KEYS ARGV : List Str} {i : ℤ} {expected : Option Str}
    {flag value : Str}
    (hkey : Lua.index KEYS i = .str key) (hflag : Lua.index ARGV (2 + (i - 1) * 2) = .str flag)
    (hvalue : Lua.index ARGV (3 + (i - 1) * 2) = .str value)
    (hexpected : presence expected = [flag, value]) :
    (Redis.checkUnchanged KEYS ARGV i).run server =
      (some (if server.get key = expected then none else some 0), server) := by
  unfold Redis.checkUnchanged
  rw [hkey, hflag, hvalue, Lua.Chunk.bind_of_some (callGet_str key server)]
  cases expected with
  | none =>
    obtain ⟨rfl, rfl⟩ : str 0 = flag ∧ [] = value := by simpa [presence] using hexpected
    have hzero : str 0 = ['0'] := rfl
    cases hget : server.get key with
    | none => simp [hzero, Lua.Value.truthy]
    | some v => simp [hzero, Lua.Value.truthy]
  | some v' =>
    obtain ⟨rfl, rfl⟩ : str 1 = flag ∧ v' = value := by simpa [presence] using hexpected
    have hone : str 1 = ['1'] := rfl
    cases hget : server.get key with
    | none => simp [hone]
    | some v =>
      by_cases hv : v = v'
      · simp [hone, hv]
      · simp [hone, hv]

/-- The check from the key number `i` on. -/
theorem rounds_checkUnchanged (server : Redis) (expected : List (Str × Option Str)) :
    ∀ (KEYS ARGV ks ks' as as' : List Str) (i : ℤ),
      KEYS = ks ++ (expected.map Prod.fst ++ ks') →
      ARGV = as ++ (expected.flatMap (fun x => presence x.2) ++ as') →
      ks.length + 1 = i → as.length + 1 = 2 * i →
      (Lua.rounds (Redis.checkUnchanged KEYS ARGV) expected.length i).run server =
        (some (if server.store.Matches server.now expected then none else some 0), server) := by
  induction expected with
  | nil =>
    intro KEYS ARGV ks ks' as as' i _ _ _ _
    rw [if_pos (show server.store.Matches server.now [] from by simp [Store.Matches])]
    rfl
  | cons x expected ih =>
    intro KEYS ARGV ks ks' as as' i hkeys hargs hks has
    obtain ⟨key, value⟩ := x
    obtain ⟨flag, arg, hpresence⟩ : ∃ flag arg, presence value = [flag, arg] := by
      cases value <;> exact ⟨_, _, rfl⟩
    have hkey : Lua.index KEYS i = .str key := by
      rw [hkeys, Lua.index_append_right (by omega), show i - ks.length = 1 by omega]
      rfl
    have hargs' : ARGV = as ++
      (flag :: arg :: (expected.flatMap (fun x => presence x.2) ++ as')) := by
      rw [hargs, List.flatMap_cons, hpresence]
      rfl
    have hflag : Lua.index ARGV (2 + (i - 1) * 2) = .str flag := by
      rw [hargs', Lua.index_append_right (by omega), show 2 + (i - 1) * 2 - as.length = 1 by omega]
      rfl
    have harg : Lua.index ARGV (3 + (i - 1) * 2) = .str arg := by
      rw [hargs', Lua.index_append_right (by omega), show 3 + (i - 1) * 2 - as.length = 2 by omega]
      rfl
    have hround := checkUnchanged_eq server hkey hflag harg hpresence
    by_cases hget : server.get key = value
    · rw [if_pos hget] at hround
      have hmatches : server.store.Matches server.now ((key, value) :: expected) ↔
          server.store.Matches server.now expected := by
        simp only [Store.Matches, List.forall_mem_cons]
        exact ⟨And.right, fun h => ⟨hget, h⟩⟩
      rw [List.length_cons, Lua.rounds_next hround,
        ih KEYS ARGV (ks ++ [key]) ks' (as ++ [flag, arg]) as' (i + 1) (by rw [hkeys]; simp)
          (by rw [hargs']; simp) (by simp; omega) (by simp; omega)]
      simp only [hmatches]
    · rw [if_neg hget] at hround
      rw [List.length_cons, Lua.rounds_return hround, if_neg fun h =>
        hget (h (key, value) List.mem_cons_self)]

/-- One round that stores, where the arguments give a positive lifetime. -/
theorem setRound_eq (server : Redis) {KEYS ARGV : List Str} {n offset i seconds : ℤ} {value : Str}
    (hkey : Lua.index KEYS (n + i) = .str key)
    (hseconds : Lua.index ARGV (offset + (i - 1) * 2) = .str (str seconds))
    (hvalue : Lua.index ARGV (offset + 1 + (i - 1) * 2) = .str value) (hpos : 1 ≤ seconds) :
    (Redis.setRound KEYS ARGV n offset i).run server =
      (some none, ⟨server.store.put key ⟨server.now + seconds, value⟩, server.now⟩) := by
  have hset : (Redis.callSet (.str key) (.str value) (.str (str seconds))).run server =
      (some (), ⟨server.store.put key ⟨server.now + seconds, value⟩, server.now⟩) := by
    have hvalue : (Lua.decimalValue (str seconds)).bind (server.set key value) =
        some ⟨server.store.put key ⟨server.now + seconds, value⟩, server.now⟩ := by
      rw [decimalValue_str (by omega), Option.bind_some, Redis.set, if_pos (by omega)]
    simp only [Redis.callSet, hvalue]
  unfold Redis.setRound
  rw [hkey, hseconds, hvalue, Lua.Chunk.bind_of_some hset]
  rfl

/-- The loop that stores, from the value number `i` on. -/
theorem rounds_setRound (values : List (Str × ℤ × Str)) :
    ∀ (KEYS ARGV ks as : List Str) (n offset i : ℤ) (server : Redis),
      KEYS = ks ++ values.map Prod.fst →
      ARGV = as ++ (values.flatMap fun x => [str x.2.1, x.2.2]) →
      (∀ x ∈ values, 1 ≤ x.2.1) → 1 ≤ i → ks.length + 1 = n + i →
      as.length + 1 = offset + (i - 1) * 2 →
      (Lua.rounds (Redis.setRound KEYS ARGV n offset) values.length i).run server =
        (some none, ⟨storeAll server.now values server.store, server.now⟩) := by
  induction values with
  | nil =>
    intro KEYS ARGV ks as n offset i server _ _ _ _ _ _
    rfl
  | cons x values ih =>
    intro KEYS ARGV ks as n offset i server hkeys hargs hpos hi hks has
    obtain ⟨key, seconds, value⟩ := x
    have hkey : Lua.index KEYS (n + i) = .str key := by
      rw [hkeys, Lua.index_append_right (by omega), show n + i - ks.length = 1 by omega]
      rfl
    have hseconds : Lua.index ARGV (offset + (i - 1) * 2) = .str (str seconds) := by
      rw [hargs, Lua.index_append_right (by omega),
        show offset + (i - 1) * 2 - as.length = 1 by omega]
      rfl
    have hvalue : Lua.index ARGV (offset + 1 + (i - 1) * 2) = .str value := by
      rw [hargs, Lua.index_append_right (by omega),
        show offset + 1 + (i - 1) * 2 - as.length = 2 by omega]
      rfl
    have hround := setRound_eq server hkey hseconds hvalue (hpos _ List.mem_cons_self)
    rw [List.length_cons, Lua.rounds_next hround,
      ih KEYS ARGV (ks ++ [key]) (as ++ [str seconds, value]) n offset (i + 1) _
      (by rw [hkeys]; simp)
        (by rw [hargs]; simp) (fun x hx => hpos x (List.mem_cons_of_mem _ hx)) (by omega)
        (by simp; omega) (by simp; omega)]
    rfl

/-- The script compares, and stores everything or nothing. -/
theorem setexManyIfUnchangedScript_eq (server : Redis) (expected : List (Str × Option Str))
    {values : List (Str × ℤ × Str)} (hpos : ∀ x ∈ values, 1 ≤ x.2.1) :
    (Redis.setexManyIfUnchangedScript (expected.map Prod.fst ++ values.map Prod.fst)
      (scriptArgs expected values)).run server =
      if server.store.Matches server.now expected then
        (some 1, ⟨storeAll server.now values server.store, server.now⟩)
      else (some 0, server) := by
  have hn : (Lua.tonumber (Lua.index (scriptArgs expected values) 1)).run server =
      (some (expected.length : ℤ), server) := by
    have hcount : Lua.decimalValue (str expected.length) = some (expected.length : ℤ) :=
      decimalValue_str (by omega)
    show (Lua.tonumber (.str (str expected.length))).run server = _
    rw [Lua.tonumber, hcount]
    rfl
  have hflags : (expected.flatMap fun x => presence x.2).length = 2 * expected.length := by
    have hpair : ∀ x : Str × Option Str, (presence x.2).length = 2 := by
      rintro ⟨_, _ | _⟩ <;> rfl
    simp [List.length_flatMap, hpair, Nat.mul_comm]
  have hcheck := rounds_checkUnchanged server expected
    (expected.map Prod.fst ++ values.map Prod.fst) (scriptArgs expected values) []
    (values.map Prod.fst)
    [str expected.length] (values.flatMap fun x => [str x.2.1, x.2.2]) 1 rfl rfl rfl rfl
  unfold Redis.setexManyIfUnchangedScript
  rw [Lua.Chunk.bind_of_some hn, Lua.numericFor_one, Lua.Chunk.bind_of_some hcheck]
  by_cases hmatches : server.store.Matches server.now expected
  · rw [if_pos hmatches, if_pos hmatches]
    have hrounds : ((expected.map Prod.fst ++ values.map Prod.fst).length : ℤ) - expected.length =
        values.length := by
      simp
    have hset := rounds_setRound values (expected.map Prod.fst ++ values.map Prod.fst)
      (scriptArgs expected values) (expected.map Prod.fst)
      (str expected.length :: expected.flatMap fun x => presence x.2) expected.length
      (2 + expected.length * 2) 1 server rfl rfl hpos (by omega) (by simp) (by simp [hflags]; omega)
    simp only [hrounds]
    rw [Lua.numericFor_one, Lua.Chunk.bind_of_some hset]
    rfl
  · rw [if_neg hmatches, if_neg hmatches]
    rfl

/-- A transaction whose lifetimes are positive is carried out. -/
theorem setAll_eq (server : Redis) {values : List (Str × ℤ × Str)}
    (hpos : ∀ x ∈ values, 1 ≤ x.2.1) :
    server.setAll values = (true, ⟨storeAll server.now values server.store, server.now⟩) := by
  induction values generalizing server with
  | nil => rfl
  | cons x values ih =>
    obtain ⟨key, seconds, value⟩ := x
    have hset : server.set key value seconds =
        some ⟨server.store.put key ⟨server.now + seconds, value⟩, server.now⟩ := by
      have : 1 ≤ seconds := hpos _ List.mem_cons_self
      rw [Redis.set, if_pos (by omega)]
    simp only [Redis.setAll, hset]
    exact ih _ fun x hx => hpos x (List.mem_cons_of_mem _ hx)

/-! ### Lifetimes -/

theorem expiry_eq_live (server : Redis) (key : Str) :
    server.expiry key = (live server.store server.now key).map Entry.expiry := by
  unfold Redis.expiry live
  cases server.store key with
  | none => rfl
  | some e =>
    simp only [Option.bind_some]
    split <;> rfl

theorem ttl_of_live {e : Entry ℚ Str} (hlive : live server.store server.now key = some e) :
    server.ttl key = Backend.redis.wholeSeconds (e.expiry - server.now) := by
  unfold Redis.ttl
  rw [expiry_eq_live, hlive]
  rfl

theorem ttl_of_dead (hdead : live server.store server.now key = none) : server.ttl key = -2 := by
  unfold Redis.ttl
  rw [expiry_eq_live, hdead]
  rfl

/-- What `ttl` reports. -/
theorem positive_ttl (server : Redis) (key : Str) :
    positive (server.ttl key) =
      (live server.store server.now key).bind fun e => Backend.redis.ttl
      (e.expiry - server.now) := by
  cases hlive : live server.store server.now key with
  | none => rw [ttl_of_dead hlive]; rfl
  | some e => rw [ttl_of_live hlive]; rfl

/-- The shorter of two rounded lifetimes is the shorter lifetime, rounded. -/
theorem wholeSeconds_min (x y : ℚ) : Backend.redis.wholeSeconds (min x y) =
    min (Backend.redis.wholeSeconds x) (Backend.redis.wholeSeconds y) := by
  have hmono : Monotone Backend.redis.wholeSeconds := by
    intro x y hxy
    exact Int.floor_mono (add_le_add_left hxy _)
  exact hmono.map_min

/-- What `ttl_if_values` reports. -/
theorem positive_ttlIfValues (server : Redis) (key expected boundKey expectedBound : Str) :
    positive (if server.get key = some expected ∧ server.get boundKey = some expectedBound ∧
        0 < server.ttl key ∧ 0 < server.ttl boundKey then
          min (server.ttl key) (server.ttl boundKey) else -1) =
      (live server.store server.now key).bind fun e =>
        (live server.store server.now boundKey).bind fun e' =>
          if e.value = expected ∧ e'.value = expectedBound then
            Backend.redis.ttl (min e.expiry e'.expiry - server.now)
          else none := by
  have hget : ∀ key, server.get key = (live server.store server.now key).map Entry.value :=
    get_eq_live server.store server.now
  rw [hget key, hget boundKey]
  cases hlive : live server.store server.now key with
  | none => rfl
  | some e =>
    cases hlive' : live server.store server.now boundKey with
    | none => simp [positive]
    | some e' =>
      rw [ttl_of_live hlive, ttl_of_live hlive']
      simp only [Option.map_some, Option.bind_some, Option.some.injEq, Backend.ttl, positive]
      by_cases hvalues : e.value = expected ∧ e'.value = expectedBound
      · rw [if_pos hvalues, ← min_sub_sub_right, wholeSeconds_min]
        by_cases hpos : 0 < Backend.redis.wholeSeconds (e.expiry - server.now) ∧
            0 < Backend.redis.wholeSeconds (e'.expiry - server.now)
        · rw [if_pos (show _ ∧ _ ∧ _ ∧ _ from ⟨hvalues.1, hvalues.2, hpos.1, hpos.2⟩)]
        · rw [if_neg (show ¬ (_ ∧ _ ∧ _ ∧ _) from fun h => hpos h.2.2), if_neg (by omega),
            if_neg (by omega)]
      · rw [if_neg hvalues, if_neg (show ¬ (_ ∧ _ ∧ _ ∧ _) from fun h => hvalues ⟨h.1, h.2.1⟩)]
        rfl

end Server

section Refinement

variable {w : World} {now : ℚ}

/-- With a client and without a failure, a cache answers from the server as the
abstract store does, and the server holds what the abstract store holds. -/
theorem redis_refines (r : Request) (hredis : w.self.redis = true)
    (hpos : ∀ x ∈ r.writes, 1 ≤ x.2.1) :
    (r.serve .none now w).1 = (spec .redis now w.server r).1 ∧
      (r.serve .none now w).2.server = (spec .redis now w.server r).2 ∧
      (r.serve .none now w).2.self.redis = true := by
  have hanswered : ∀ {command : Redis.Command} {α : Type} {answer : command.Reply → α}
      {reply : command.Reply} {server : Redis},
      (⟨w.server, now⟩ : Redis).run command = (some reply, server) →
      (attempt command answer).run (perform .none) { w with now } =
        (some (answer reply), ⟨w.self, server.store, now⟩) :=
    fun h => attempt_answered hredis h
  cases r with
  | get key =>
    have hget : (⟨w.server, now⟩ : Redis).run (.get key) =
      (some (w.server.get now key), ⟨w.server, now⟩) := rfl
    simp only [Request.serve, Request.prog, Cache.get, Prog.run_bind, hanswered hget, spec]
    exact ⟨rfl, rfl, hredis⟩
  | getMany keys =>
    by_cases hkeys : keys = []
    · subst hkeys
      exact ⟨rfl, rfl, hredis⟩
    · have hget : (⟨w.server, now⟩ : Redis).run (.mget keys) =
        (some (keys.map (w.server.get now)), ⟨w.server, now⟩) := rfl
      simp only [Request.serve, Request.prog, Cache.getMany, if_neg hkeys, Prog.run_bind,
        hanswered hget, spec]
      exact ⟨rfl, rfl, hredis⟩
  | existsAny keys =>
    by_cases hkeys : keys = []
    · subst hkeys
      exact ⟨rfl, rfl, hredis⟩
    · have hexists : (⟨w.server, now⟩ : Redis).run (.exists keys) =
        (some (keys.countP fun key => (w.server.get now key).isSome), ⟨w.server, now⟩) := rfl
      simp only [Request.serve, Request.prog, Cache.existsAny, if_neg hkeys, Prog.run_bind,
        hanswered hexists, spec]
      have hfound : decide ((keys.countP fun key => (w.server.get now key).isSome) ≠ 0) =
          keys.any fun key => (w.server.get now key).isSome := by
        rw [Bool.eq_iff_iff, decide_eq_true_iff, ← Nat.pos_iff_ne_zero, List.countP_pos_iff,
          List.any_eq_true]
      exact ⟨congrArg Answer.found hfound, rfl, hredis⟩
  | setex key seconds value =>
    have hset : (⟨w.server, now⟩ : Redis).run (.set key value seconds) =
        (some (), ⟨w.server.put key ⟨now + seconds, value⟩, now⟩) := by
      have : 1 ≤ seconds := hpos (key, seconds, value) List.mem_cons_self
      simp only [Redis.run, Redis.set, if_pos (show 0 < seconds by omega)]
    simp only [Request.serve, Request.prog, Cache.setex, Prog.run_bind, hanswered hset, spec]
    exact ⟨rfl, rfl, hredis⟩
  | setexMany values =>
    by_cases hvalues : values = []
    · subst hvalues
      exact ⟨rfl, rfl, hredis⟩
    · have hset : (⟨w.server, now⟩ : Redis).run (.execute values) =
          (some (), ⟨storeAll now values w.server, now⟩) := by
        have hall := setAll_eq ⟨w.server, now⟩ (show ∀ x ∈ values, 1 ≤ x.2.1 from hpos)
        simp only [Redis.run, hall]
      simp only [Request.serve, Request.prog, Cache.setexMany, if_neg hvalues, Prog.run_bind,
        hanswered hset, spec]
      exact ⟨rfl, rfl, hredis⟩
  | ttl key =>
    have httl : (⟨w.server, now⟩ : Redis).run (.ttl key) =
      (some (Redis.ttl ⟨w.server, now⟩ key), ⟨w.server, now⟩) := rfl
    simp only [Request.serve, Request.prog, Cache.ttl, Prog.run_bind, hanswered httl, spec]
    refine ⟨congrArg Answer.remaining ?_, rfl, hredis⟩
    exact positive_ttl ⟨w.server, now⟩ key
  | ttlIfValues key expected boundKey expectedBound =>
    have heval : (⟨w.server, now⟩ : Redis).run
        (.eval Redis.ttlIfValuesScript [key, boundKey] [expected, expectedBound]) = (some _, _) :=
      ttlIfValuesScript_eq ⟨w.server, now⟩ key boundKey expected expectedBound
    simp only [Request.serve, Request.prog, Cache.ttlIfValues, Prog.run_bind, hanswered heval, spec]
    refine ⟨congrArg Answer.remaining ?_, rfl, hredis⟩
    exact positive_ttlIfValues ⟨w.server, now⟩ key expected boundKey expectedBound
  | setexManyIfUnchanged expected values =>
    have hscript := setexManyIfUnchangedScript_eq ⟨w.server, now⟩ expected
      (show ∀ x ∈ values, 1 ≤ x.2.1 from hpos)
    by_cases hmatches : w.server.Matches now expected
    · rw [if_pos hmatches] at hscript
      have heval : (⟨w.server, now⟩ : Redis).run (.eval Redis.setexManyIfUnchangedScript
        (expected.map Prod.fst ++ values.map Prod.fst) (scriptArgs expected values)) =
        (some 1, _) :=
        hscript
      simp only [Request.serve, Request.prog, Cache.setexManyIfUnchanged, Prog.run_bind,
        hanswered heval, spec, if_pos hmatches]
      exact ⟨rfl, rfl, hredis⟩
    · rw [if_neg hmatches] at hscript
      have heval : (⟨w.server, now⟩ : Redis).run (.eval Redis.setexManyIfUnchangedScript
        (expected.map Prod.fst ++ values.map Prod.fst) (scriptArgs expected values)) =
        (some 0, _) :=
        hscript
      simp only [Request.serve, Request.prog, Cache.setexManyIfUnchanged, Prog.run_bind,
        hanswered heval, spec, if_neg hmatches]
      exact ⟨rfl, rfl, hredis⟩

end Refinement

/-! ## Whole seconds -/

/-- Every expiry is at a whole second. -/
def Whole (s : Store Str ℚ Str) : Prop := ∀ key e, s key = some e → ∃ n : ℤ, e.expiry = n

section WholeSeconds

variable {s : Store Str ℚ Str} {key : Str} {now : ℤ}

theorem Whole.put (h : Whole s) (now seconds : ℤ) (value : Str) :
    Whole (s.put key ⟨now + seconds, value⟩) := by
  intro k e hk
  by_cases heq : k = key
  · subst heq
    obtain rfl := Option.some.inj (Store.put_self.symm.trans hk)
    exact ⟨now + seconds, by push_cast; rfl⟩
  · rw [Store.put_of_ne heq] at hk
    exact h k e hk

theorem Whole.storeAll (h : Whole s) (now : ℤ) (values : List (Str × ℤ × Str)) :
    Whole (storeAll now values s) := by
  induction values generalizing s with
  | nil => exact h
  | cons x values ih => exact ih (h.put now x.2.1 x.2.2)

theorem Whole.spec {B : Backend} (h : Whole s) (now : ℤ) (r : Request) :
    Whole (spec B now s r).2 := by
  cases r with
  | setex key seconds value => exact h.storeAll now [(key, seconds, value)]
  | setexMany values => exact h.storeAll now values
  | setexManyIfUnchanged expected values =>
    simp only [Backends.spec]
    split
    · exact h.storeAll now values
    · exact h
  | _ => exact h

theorem wholeSeconds_intCast (B : Backend) (n : ℤ) : B.wholeSeconds n = n := by
  have hhalf : ⌊((1 : ℚ) / 2)⌋ = 0 := by norm_num
  cases B with
  | memory => exact Int.floor_intCast n
  | redis =>
    show ⌊(n : ℚ) + 1 / 2⌋ = n
    rw [Int.floor_intCast_add, hhalf, add_zero]

/-- At whole seconds nothing is rounded. -/
theorem spec_memory_eq_redis (h : Whole s) (now : ℤ) (r : Request) :
    spec .memory now s r = spec .redis now s r := by
  have hlifetime : ∀ n : ℤ, Backend.memory.ttl ((n : ℚ) - now) =
    Backend.redis.ttl ((n : ℚ) - now) := by
    intro n
    unfold Backend.ttl
    rw [← Int.cast_sub, wholeSeconds_intCast, wholeSeconds_intCast]
  have hexpiry : ∀ key e, live s now key = some e → ∃ n : ℤ, e.expiry = n :=
    fun key e he => h key e (live_eq_some.mp he).1
  cases r with
  | ttl key =>
    simp only [spec]
    cases hlive : live s now key with
    | none => simp only [Option.bind_none]
    | some e =>
      obtain ⟨n, hn⟩ := hexpiry key e hlive
      simp only [Option.bind_some, hn, hlifetime]
  | ttlIfValues key expected boundKey expectedBound =>
    simp only [spec]
    cases hlive : live s now key with
    | none => simp only [Option.bind_none]
    | some e =>
      cases hlive' : live s now boundKey with
      | none => simp only [Option.bind_some, Option.bind_none]
      | some e' =>
        obtain ⟨n, hn⟩ := hexpiry key e hlive
        obtain ⟨n', hn'⟩ := hexpiry boundKey e' hlive'
        simp only [Option.bind_some, hn, hn', ← Int.cast_min, hlifetime]
  | _ => rfl

end WholeSeconds

/-! ## Every history -/

/-- Caches whose stores agree whenever they are asked answer alike. -/
theorem answers_eq {history : List (ℤ × Request)} :
    ∀ {memory redis : World}, memory.self.redis = false → redis.self.redis = true →
      Whole redis.server → (∀ x ∈ history, Agree x.1 memory.self.mem redis.server) →
      (history.map Prod.fst).Pairwise (· ≤ ·) → (∀ x ∈ history, ∀ v ∈ x.2.writes, 1 ≤ v.2.1) →
      answers memory history = answers redis history := by
  induction history with
  | nil =>
    intro memory redis _ _ _ _ _ _
    rfl
  | cons x history ih =>
    intro memory redis hmemory hredis hwhole hagree htimes hpos
    obtain ⟨now, r⟩ := x
    rw [List.map_cons, List.pairwise_cons] at htimes
    obtain ⟨hanswer, hmem, hmemory'⟩ := memory_refines r .none (now : ℚ) hmemory
    obtain ⟨hanswer', hserver, hredis'⟩ :
        (r.serve .none now redis).1 = (spec .redis now redis.server r).1 ∧ _ ∧ _ :=
      redis_refines r hredis (hpos _ List.mem_cons_self)
    rw [← spec_memory_eq_redis hwhole] at hanswer' hserver
    obtain ⟨hspec, hagree'⟩ := spec_congr (hagree _ List.mem_cons_self) r
    have hagree'' : Agree now (r.serve .none now memory).2.self.mem
      (r.serve .none now redis).2.server := by
      rw [hserver]
      exact hmem.trans hagree'
    simp only [answers]
    rw [hanswer, hanswer', hspec, ih hmemory' hredis' (hserver ▸ hwhole.spec now r) ?_ htimes.2
      fun x hx => hpos x (List.mem_cons_of_mem _ hx)]
    intro x hx
    refine hagree''.later ?_
    exact_mod_cast htimes.1 x.1 (List.mem_map_of_mem hx)

/-- **The backends are observationally equal.** -/
theorem answers_memory_eq_redis (history : List (ℤ × Request))
    (htimes : (history.map Prod.fst).Pairwise (· ≤ ·))
    (hpos : ∀ x ∈ history, ∀ v ∈ x.2.writes, 1 ≤ v.2.1) :
    answers (World.boot .memory) history = answers (World.boot .redis) history :=
  answers_eq rfl rfl nofun (fun _ _ _ => rfl) htimes hpos

/-- A key is stored, pinned by its value in a conditional batch, and expires
while another one is pinned as absent. -/
theorem answers_memory_eq_redis_history :
    let history : List (ℤ × Request) :=
      [(0, .setex ['a'] 10 ['1']),
        (2, .setexManyIfUnchanged [(['a'], some ['1']), (['b'], none)]
          [(['a'], 5, ['2']), (['b'], 3, []), (['a'], 4, ['3'])]),
        (3, .ttlIfValues ['a'] ['3'] ['b'] []), (5, .getMany [['a'], ['b'], ['b']]),
        (5, .setexManyIfUnchanged [(['b'], some [])] [(['a'], 9, ['4'])]), (6, .existsAny [['a']])]
    answers (World.boot .memory) history = answers (World.boot .redis) history :=
  answers_memory_eq_redis _ (by decide) (by decide)

end ProxyCache.Theorems.Backends
