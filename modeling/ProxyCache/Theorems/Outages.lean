import ProxyCache.Theorems.Backends

/-!
# Reads across outages

Redis and the local entries each keep their own history, and every failure and
every reconnect changes which of them is read. A read is up to date as long as
no change leads to a store that holds an older value of a key.
-/

namespace ProxyCache.Theorems.Outages

open ProxyCache.Lib ProxyCache.Python ProxyCache.App.Cache ProxyCache.Theorems.Backends
open ProxyCache.App (Backend Cache Redis)

/-! ## Histories of one writer -/

/-- A request or a reconnect, and how its command to Redis goes. -/
inductive Step where
  | request (r : Request) (fault : Fault)
  | reconnect (fault : Fault)

/-- The entries that a request has stored, by its answer. -/
def written : Request → Answer → List (Str × ℤ × Str)
  | .setex key seconds value, _ => [(key, seconds, value)]
  | .setexMany values, _ => values
  | .setexManyIfUnchanged _ values, .stored true => values
  | _, _ => []

/-- The value most recently written to each key, after further writes. -/
def record (last : Str → Option Str) (values : List (Str × ℤ × Str)) : Str → Option Str :=
  values.foldl (fun last x => Function.update last x.1 (some x.2.2)) last

/-- The cache, and the value most recently written to each key. -/
structure State where
  world : World
  last : Str → Option Str

def next (s : State) (now : ℚ) : Step → State
  | .request r fault =>
    ⟨(r.serve fault now s.world).2, record s.last (written r (r.serve fault now s.world).1)⟩
  | .reconnect fault => ⟨(Cache.reconnect.run (perform fault) { s.world with now }).2, s.last⟩

/-- A new cache on an empty server. -/
def start : State := ⟨World.boot .redis, fun _ => none⟩

/-- `P` holds of every step of a history. -/
def Along (P : State → ℚ → Step → Prop) : State → List (ℚ × Step) → Prop
  | _, [] => True
  | s, (now, x) :: history => P s now x ∧ Along P (next s now x) history

/-- What a read answers is the value most recently written to its key, or nothing. -/
def UpToDate (last : Str → Option Str) : Request → Answer → Prop
  | .get key, .value (some v) => last key = some v
  | .getMany keys, .values vs => ∀ x ∈ keys.zip vs, ∀ v, x.2 = some v → last x.1 = some v
  | _, _ => True

def ReadsLatest (s : State) (now : ℚ) : Step → Prop
  | .request r fault => UpToDate s.last r (r.serve fault now s.world).1
  | .reconnect _ => True

/-! ## The condition -/

/-- The store that is read now, and the one that is not. -/
def active (w : World) : Store Str ℚ Str := if w.self.redis then w.server else w.self.mem

def inactive (w : World) : Store Str ℚ Str := if w.self.redis then w.self.mem else w.server

/-- The keys that a request overwrites in a store. -/
def overwritten (now : ℚ) (s : Store Str ℚ Str) : Request → List Str
  | .setex key _ _ => [key]
  | .setexMany values => values.map Prod.fst
  | .setexManyIfUnchanged expected values =>
    if s.Matches now expected then values.map Prod.fst else []
  | _ => []

def Step.overwrites (s : State) (now : ℚ) : Step → List Str
  | .request r _ => overwritten now s.world.self.mem r
  | .reconnect _ => []

/-- The requests that send a command. -/
def sends : Request → Prop
  | .getMany keys | .existsAny keys => keys ≠ []
  | .setexMany values => values ≠ []
  | _ => True

/-- The steps after which the other store is read: a command fails, a client is
lost, or a client is built. -/
def Step.switches (self : Cache) : Step → Prop
  | .request r fault => self.redis = true ∧ fault ≠ .none ∧ sends r
  | .reconnect fault => self.redis = true ↔ fault ≠ .none

/-- A step that changes the store finds in the other one no older value of a key,
unless it overwrites it. -/
def Clean (s : State) (now : ℚ) (x : Step) : Prop :=
  x.switches s.world.self → ∀ key v, (inactive s.world).get now key = some v →
    key ∉ x.overwrites s now → s.last key = some v

/-! ## One store -/

section OneStore

variable {B : Backend} {now : ℚ} {s : Store Str ℚ Str} {last : Str → Option Str} {key v : Str}

theorem storeAll_of_not_mem {values : List (Str × ℤ × Str)} (h : key ∉ values.map Prod.fst) :
    storeAll now values s key = s key := by
  induction values generalizing s with
  | nil => rfl
  | cons x values ih =>
    rw [List.map_cons, List.mem_cons, not_or] at h
    show storeAll now values (s.put x.1 _) key = s key
    rw [ih h.2, Store.put_of_ne h.1]

/-- After a batch, a live value is the last one of the batch, or it was live before. -/
theorem get_storeAll {values : List (Str × ℤ × Str)}
    (h : key ∉ values.map Prod.fst → s.get now key = some v → last key = some v)
    (hget : (storeAll now values s).get now key = some v) : record last values key = some v := by
  induction values generalizing s last with
  | nil => exact h (by simp) hget
  | cons x values ih =>
    refine ih (s := s.put x.1 ⟨now + x.2.1, x.2.2⟩) (fun hnot hput => ?_) hget
    by_cases hkey : key = x.1
    · subst hkey
      obtain ⟨e, he, -, rfl⟩ := Store.get_eq_some.mp hput
      obtain rfl := Option.some.inj (Store.put_self.symm.trans he)
      exact Function.update_self ..
    · show Function.update last x.1 (some x.2.2) key = some v
      rw [Function.update_of_ne hkey]
      rw [Store.get_congr (Store.put_of_ne hkey)] at hput
      exact h (by simp [hkey, hnot]) hput

/-- A store whose values are up to date, except where a request overwrites them,
is up to date after the request. -/
theorem spec_latest {r : Request}
    (h : ∀ key v, s.get now key = some v → key ∉ overwritten now s r → last key = some v)
    (hget : (spec B now s r).2.get now key = some v) :
    record last (written r (spec B now s r).1) key = some v := by
  cases r with
  | setex k seconds value =>
    exact get_storeAll (fun hnot hget => h key v hget hnot) hget
  | setexMany values => exact get_storeAll (fun hnot hget => h key v hget hnot) hget
  | setexManyIfUnchanged expected values =>
    by_cases hmatches : s.Matches now expected
    · simp only [overwritten, if_pos hmatches] at h
      simp only [spec, if_pos hmatches] at hget ⊢
      exact get_storeAll (fun hnot hget => h key v hget hnot) hget
    · simp only [overwritten, if_neg hmatches] at h
      simp only [spec, if_neg hmatches] at hget ⊢
      exact h key v hget (by simp)
  | _ => exact h key v hget (by simp [overwritten])

theorem spec_upToDate {r : Request}
    (h : ∀ key v, s.get now key = some v → key ∉ overwritten now s r → last key = some v) :
    UpToDate last r (spec B now s r).1 := by
  cases r with
  | get key =>
    simp only [spec]
    cases hget : s.get now key with
    | none => trivial
    | some v => exact h key v hget (by simp [overwritten])
  | getMany keys =>
    intro x hx v hv
    obtain ⟨i, hi, rfl⟩ := List.mem_iff_getElem.mp hx
    rw [List.getElem_zip, List.getElem_map] at hv ⊢
    exact h _ v hv (by simp [overwritten])
  | _ => trivial

end OneStore

/-! ## One step -/

section OneStep

variable {w : World} {r : Request} {fault : Fault} {now : ℚ} {last : Str → Option Str}

/-- A request that sends nothing cannot fail. -/
theorem serve_of_not_sends (h : ¬ sends r) : r.serve fault now w = r.serve .none now w := by
  cases r with
  | getMany keys | existsAny keys | setexMany keys =>
    obtain rfl : keys = [] := not_not.mp h
    rfl
  | _ => exact absurd trivial h

/-- A program whose first command fails runs as it does without a client. -/
def Fails {α : Type} (fault : Fault) (w : World) (p : Program α) : Prop :=
  ∃ server, p.run (perform fault) w =
    p.run (perform fault) { w with self := degraded w.self, server := server }

theorem fails_bind {α β : Type} {p : Program α} {f : α → Program β} (h : Fails fault w p) :
    Fails fault w (p >>= f) := by
  obtain ⟨server, h⟩ := h
  exact ⟨server, by rw [Prog.run_bind, Prog.run_bind, h]⟩

theorem fails_attempt {α : Type} {command : Redis.Command} {answer : command.Reply → α}
    (hredis : w.self.redis = true) (hfault : fault ≠ .none) :
    Fails fault w (attempt command answer) := by
  refine ⟨if fault = .lost then w.server else (w.redis.run command).2.store, ?_⟩
  rw [attempt_failed hredis hfault, attempt_absent rfl]

/-- After a failure, a request is served from the local entries. -/
theorem fails_prog (hredis : w.self.redis = true) (hfault : fault ≠ .none) (hsends : sends r) :
    Fails fault w r.prog := by
  cases r with
  | getMany keys =>
    simp only [Request.prog, Cache.getMany, if_neg hsends]
    exact fails_bind (fails_bind (fails_attempt hredis hfault))
  | existsAny keys =>
    simp only [Request.prog, Cache.existsAny, if_neg hsends]
    exact fails_bind (fails_bind (fails_attempt hredis hfault))
  | setexMany values =>
    simp only [Request.prog, Cache.setexMany, if_neg hsends]
    exact fails_bind (fails_bind (fails_attempt hredis hfault))
  | _ => exact fails_bind (fails_bind (fails_attempt hredis hfault))

/-- A request to local entries that are up to date, except where it overwrites them. -/
theorem memory_latest (hredis : w.self.redis = false)
    (h : ∀ key v, w.self.mem.get now key = some v → key ∉ overwritten now w.self.mem r →
      last key = some v) :
    UpToDate last r (r.serve fault now w).1 ∧ ∀ key v,
      (active (r.serve fault now w).2).get now key = some v →
        record last (written r (r.serve fault now w).1) key = some v := by
  obtain ⟨hanswer, hmem, hredis'⟩ := memory_refines r fault now hredis
  rw [hanswer]
  refine ⟨spec_upToDate h, fun key v hget => ?_⟩
  rw [active, if_neg (by simp [hredis']), hmem.get] at hget
  exact spec_latest h hget

/-- A request to a server whose values are up to date. -/
theorem redis_latest (hredis : w.self.redis = true) (hpos : ∀ x ∈ r.writes, 1 ≤ x.2.1)
    (h : ∀ key v, w.server.get now key = some v → last key = some v) :
    UpToDate last r (r.serve .none now w).1 ∧ ∀ key v,
      (active (r.serve .none now w).2).get now key = some v →
        record last (written r (r.serve .none now w).1) key = some v := by
  obtain ⟨hanswer, hserver, hredis'⟩ : (r.serve .none now w).1 = (spec .redis now w.server r).1 ∧
      _ ∧ _ := redis_refines r hredis hpos
  rw [hanswer]
  refine ⟨spec_upToDate fun key v hget _ => h key v hget, fun key v hget => ?_⟩
  rw [active, if_pos hredis', hserver] at hget
  exact spec_latest (fun key v hget _ => h key v hget) hget

/-- A reconnect moves no entry. -/
theorem reconnect_cases (fault : Fault) (w : World) :
    (Cache.reconnect.run (perform fault) w).2.self.mem = w.self.mem ∧
      (Cache.reconnect.run (perform fault) w).2.server = w.server ∧
      ((Cache.reconnect.run (perform fault) w).2.self.redis = w.self.redis ∨
        (Step.reconnect fault).switches w.self) := by
  by_cases hbackend : w.self.backend = .memory
  · simp [Cache.reconnect, perform, hbackend]
  · cases hredis : w.self.redis <;> cases fault <;>
      simp [Cache.reconnect, perform, hbackend, hredis, World.redis, Redis.run, Step.switches]

/-- The store that is read is the other one after a change, and the same one otherwise. -/
theorem active_cases {w' : World}
    (hmem : w'.self.mem = w.self.mem) (hserver : w'.server = w.server) :
    (w'.self.redis = w.self.redis ∧ active w' = active w) ∨
      (w'.self.redis ≠ w.self.redis ∧ active w' = inactive w) := by
  unfold active inactive
  rw [hmem, hserver]
  cases w.self.redis <;> cases w'.self.redis <;> simp

end OneStep

/-! ## Every history -/

/-- What is live in the store that is read was written last. -/
def Latest (s : State) (now : ℚ) : Prop :=
  ∀ key v, (active s.world).get now key = some v → s.last key = some v

/-- Redis takes no lifetime below one second. -/
def Step.Lasting : Step → Prop
  | .request r _ => ∀ x ∈ r.writes, 1 ≤ x.2.1
  | .reconnect _ => True

instance : DecidablePred Step.Lasting
  | .request r _ => inferInstanceAs (Decidable (∀ x ∈ r.writes, 1 ≤ x.2.1))
  | .reconnect _ => .isTrue trivial

section Histories

variable {s : State} {now now' : ℚ} {x : Step}

theorem Latest.later (h : Latest s now) (hnow : now ≤ now') : Latest s now' :=
  fun key v hget => h key v (Store.get_earlier hnow hget)

/-- **One step.** A clean step reads what was written last, and keeps the store
that is read up to date. -/
theorem latest_next (h : Latest s now) (hlasting : x.Lasting) (hclean : Clean s now x) :
    ReadsLatest s now x ∧ Latest (next s now x) now := by
  cases x with
  | reconnect fault =>
    obtain ⟨hmem, hserver, hswitch⟩ := reconnect_cases fault { s.world with now }
    refine ⟨trivial, fun key v hget => ?_⟩
    rcases active_cases hmem hserver with ⟨-, hactive⟩ | ⟨hne, hactive⟩
    · rw [show active (next s now (.reconnect fault)).world = active s.world from hactive] at hget
      exact h key v hget
    · rw [show active (next s now (.reconnect fault)).world = inactive s.world from hactive] at hget
      exact hclean (hswitch.resolve_left hne) key v hget List.not_mem_nil
  | request r fault =>
    cases hredis : s.world.self.redis with
    | false =>
      refine memory_latest hredis fun key v hget _ => h key v ?_
      rwa [active, if_neg (by simp [hredis])]
    | true =>
      have hserver : ∀ key v, s.world.server.get now key = some v → s.last key = some v := by
        intro key v hget
        refine h key v ?_
        rwa [active, if_pos hredis]
      by_cases hfails : fault ≠ .none ∧ sends r
      · -- The entries that are read from now on are the local ones.
        obtain ⟨server, hserve⟩ : Fails fault { s.world with now } r.prog :=
          fails_prog hredis hfails.1 hfails.2
        have hlocal : ∀ key v, s.world.self.mem.get now key = some v →
            key ∉ overwritten now s.world.self.mem r → s.last key = some v := by
          intro key v hget
          refine hclean ⟨hredis, hfails⟩ key v ?_
          rwa [inactive, if_pos hredis]
        rw [ReadsLatest, Latest, next, Request.serve, hserve]
        exact memory_latest (w := { s.world with self := degraded s.world.self, server }) rfl hlocal
      · have hserve : r.serve fault now s.world = r.serve .none now s.world := by
          by_cases hsends : sends r
          · obtain rfl : fault = .none := not_not.mp fun hfault => hfails ⟨hfault, hsends⟩
            rfl
          · exact serve_of_not_sends hsends
        rw [ReadsLatest, Latest, next, hserve]
        exact redis_latest hredis hlasting hserver

theorem reads_latest_from {history : List (ℚ × Step)} :
    ∀ {s : State} {now : ℚ}, Latest s now → (∀ x ∈ history, now ≤ x.1) →
      (history.map Prod.fst).Pairwise (· ≤ ·) → (∀ x ∈ history, x.2.Lasting) →
      Along Clean s history → Along ReadsLatest s history := by
  induction history with
  | nil =>
    intro s now _ _ _ _ _
    trivial
  | cons x history ih =>
    intro s now h hfrom htimes hlasting hclean
    obtain ⟨time, step⟩ := x
    rw [List.map_cons, List.pairwise_cons] at htimes
    obtain ⟨hreads, hlatest⟩ := latest_next (h.later (hfrom _ List.mem_cons_self))
      (hlasting _ List.mem_cons_self) hclean.1
    refine ⟨hreads, ih hlatest (fun x hx => ?_) htimes.2 (fun x hx => ?_) hclean.2⟩
    · exact htimes.1 x.1 (List.mem_map_of_mem hx)
    · exact hlasting x (List.mem_cons_of_mem _ hx)

/-- **Reads across outages.** In every history whose steps are clean, every read
answers the value most recently written, or nothing. -/
theorem reads_latest (history : List (ℚ × Step)) (htimes : (history.map Prod.fst).Pairwise (· ≤ ·))
    (hlasting : ∀ x ∈ history, x.2.Lasting) (hclean : Along Clean start history) :
    Along ReadsLatest start history := by
  cases history with
  | nil => trivial
  | cons x history =>
    have hempty : Latest start x.1 := nofun
    refine reads_latest_from hempty (fun y hy => ?_) htimes hlasting hclean
    rw [List.map_cons, List.pairwise_cons] at htimes
    rcases List.mem_cons.mp hy with rfl | hy
    · exact le_refl _
    · exact htimes.1 y.1 (List.mem_map_of_mem hy)

end Histories

/-- An outage leaves a value behind, which a write after the recovery does not
overwrite: the next outage finds it. -/
def twoOutages : List (ℚ × Step) :=
  [(0, .request (.get ['k']) .lost), (1, .request (.setex ['k'] 60 ['1']) .none),
    (2, .reconnect .none), (3, .request (.setex ['k'] 60 ['2']) .none),
    (4, .request (.get ['k']) .lost)]

theorem not_latest_twoOutages :
    (twoOutages.map Prod.fst).Pairwise (· ≤ ·) ∧ (∀ x ∈ twoOutages, x.2.Lasting) ∧
      ¬ Along ReadsLatest start twoOutages := by
  refine ⟨by decide, by decide, fun h => ?_⟩
  have hread : ∀ {last a}, UpToDate last (.get ['k']) a → a = .value (some ['1']) →
      last ['k'] = some ['1'] := by
    rintro last a h rfl
    exact h
  exact absurd (hread h.2.2.2.2.1 (by decide +kernel)) (by decide +kernel)

/-- The write after the recovery fails and overwrites what the first outage left. -/
def overwrittenLocally : List (ℚ × Step) :=
  [(0, .request (.get ['k']) .lost), (1, .request (.setex ['k'] 60 ['1']) .none),
    (2, .reconnect .none), (3, .request (.setex ['k'] 60 ['2']) .none),
    (4, .request (.setex ['k'] 60 ['3']) .lost), (5, .request (.get ['k']) .none)]

theorem reads_latest_overwrittenLocally : Along ReadsLatest start overwrittenLocally := by
  refine reads_latest _ (by decide) (by decide) ⟨?_, ?_, ?_, ?_, ?_, ?_, trivial⟩
  · exact fun _ _ _ => nofun
  · exact fun h => nomatch h.1
  · exact fun _ _ _ => nofun
  · exact fun h => absurd rfl h.2.1
  · intro _ key v hget hkey
    have hne : key ≠ ['k'] := fun h => hkey (List.mem_singleton.mpr h)
    have hput : Store.get (storeAll 1 [(['k'], 60, ['1'])] fun _ => none) 4 key = some v := hget
    rw [Store.get_congr (storeAll_of_not_mem (by simpa using hne))] at hput
    cases hput
  · exact fun h => absurd rfl h.2.1

end ProxyCache.Theorems.Outages
