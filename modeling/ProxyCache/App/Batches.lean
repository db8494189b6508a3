import ProxyCache.App.Systems
import ProxyCache.Lib.Trace

/-!
# What a request writes, and how it ends

The calls of one task count by what the upstream answers and by the batches that are stored. The
store after a run is the one before it with these batches, up to what expires or is evicted. A
reply is sent if its body and its headers can be encoded, which comes after everything else.
-/

namespace ProxyCache.App

open ProxyCache.Lib ProxyCache.Python

/-! ## Batches -/

/-- What counts of a call. -/
inductive Mark where
  | answered (response : Option UpstreamResponse)
  | stored (values : List Write)

/-- A GET with its answer, or a batch that was stored. -/
def mark : (o : Op) → Ret o → List Mark
  | .httpGet _, response => [.answered response]
  | .setexMany values, _ => [.stored values]
  | .setexManyIfUnchanged _ values, committed => if committed = true then [.stored values] else []
  | _, _ => []

def answers (ms : List Mark) : List (Option UpstreamResponse) :=
  ms.filterMap fun
    | .answered response => some response
    | .stored _ => none

def batches (ms : List Mark) : List (List Write) :=
  ms.filterMap fun
    | .answered _ => none
    | .stored values => some values

/-- What counts of the calls of a run. -/
def marks (cs : CallLog Op Ret) : List Mark := cs.flatMap fun c => mark c.1 c.2

/-- A call that only looks does not count. -/
theorem silent_of_isRead {o : Op} (ho : o.isRead = true) : Prog.Silent mark o := by
  cases o with
  | getMany | existsAny | ttl | ttlIfValues | httpHead | extractWheelMetadata | suspend | unfinished
  | schedule => exact fun _ => rfl
  | setexMany | setexManyIfUnchanged | acquire | release | httpGet | elapse => cases ho

/-- A call that only looks can be answered. -/
theorem exists_exec {B : Backend} {upstream : Upstream} {t : ℕ} {o : Op} (ho : o.isRead = true)
    (w : World) : ∃ r w', (effects B upstream).exec t o w r w' := by
  cases o with
  | getMany | existsAny | ttl | ttlIfValues => exact ⟨_, w, rfl, rfl⟩
  | httpHead | extractWheelMetadata => exact ⟨none, w, rfl⟩
  | suspend | schedule => exact ⟨(), w, rfl⟩
  | unfinished => exact ⟨false, w, rfl⟩
  | setexMany | setexManyIfUnchanged | acquire | release | httpGet | elapse => cases ho

/-! ## What a reader sees -/

/-- Time has passed, and entries may have been evicted. -/
def Kept (w w' : World) : Prop := w.now ≤ w'.now ∧ ∃ evicted, w'.store = w.store.evict evicted

theorem Kept.refl (w : World) : Kept w w := ⟨le_refl _, fun _ => false, rfl⟩

theorem Kept.trans {w₁ w₂ w₃ : World} (h : Kept w₁ w₂) (h' : Kept w₂ w₃) : Kept w₁ w₃ := by
  obtain ⟨hnow, evicted, hstore⟩ := h
  obtain ⟨hnow', evicted', hstore'⟩ := h'
  refine ⟨hnow.trans hnow', fun k => evicted k || evicted' k, ?_⟩
  rw [hstore', hstore]
  funext k
  by_cases hk : evicted k = true <;> by_cases hk' : evicted' k = true <;>
    simp [Store.evict, hk, hk']

theorem Kept.of_store {w w' : World} (hnow : w.now ≤ w'.now) (hstore : w'.store = w.store) :
    Kept w w' := ⟨hnow, fun _ => false, hstore⟩

theorem Drift.kept {w w' : World} (h : Drift w w') : Kept w w' := by
  obtain ⟨now, evicted, version, hnow, -, rfl⟩ := h
  exact ⟨hnow, evicted, rfl⟩

/-- Every value that is read was read before. -/
theorem Kept.get {w w' : World} (h : Kept w w') {key value : Str} (hget : w'.get key = some value) :
    w.get key = some value := by
  obtain ⟨hnow, evicted, hstore⟩ := h
  unfold World.get at hget
  rw [hstore] at hget
  exact Store.get_earlier hnow (Store.get_of_evict hget)

/-- The store is that of `w` with these batches written one after the other. -/
inductive Follows : World → List (List Write) → World → Prop
  | nil {w w' : World} : Kept w w' → Follows w [] w'
  | cons {w w₁ w₂ w' : World} {values : List Write} {rest : List (List Write)} : Kept w w₁ →
      w₂.now = w₁.now → w₂.store = (w₁.write values).store → Follows w₂ rest w' →
      Follows w (values :: rest) w'

theorem Follows.of_kept {w w₁ w' : World} {vs : List (List Write)} (hkept : Kept w w₁)
    (h : Follows w₁ vs w') : Follows w vs w' := by
  cases h with
  | nil h => exact .nil (hkept.trans h)
  | cons h hnow hstore hrest => exact .cons (hkept.trans h) hnow hstore hrest

theorem Follows.of_store {w w₁ w' : World} {vs : List (List Write)} (h : Follows w₁ vs w')
    (hnow : w.now ≤ w₁.now) (hstore : w₁.store = w.store) : Follows w vs w' :=
  Follows.of_kept (Kept.of_store hnow hstore) h

/-- A call stores the batch that counts of it, and nothing else. -/
theorem follows_call {B : Backend} {upstream : Upstream} {t : ℕ} {o : Op} {r : Ret o}
    {w w₁ w' : World} {vs : List (List Write)} (hex : exec B upstream t o w r w₁)
    (h : Follows w₁ vs w') : Follows w (batches (mark o r) ++ vs) w' := by
  by_cases hread : o.isRead = true
  · obtain rfl := eq_of_isRead hread hex
    rw [silent_of_isRead hread r]
    exact h
  cases o with
  | getMany | existsAny | ttl | ttlIfValues | httpHead | extractWheelMetadata | suspend | unfinished
  | schedule => exact absurd rfl hread
  | setexMany values =>
    obtain rfl := hex
    refine .cons (Kept.refl w) ?_ ?_ h <;> rfl
  | setexManyIfUnchanged expected values =>
    rcases exec_setexManyIfUnchanged hex with ⟨rfl, -, rfl⟩ | ⟨rfl, rfl⟩
    · refine .cons (Kept.refl w) ?_ ?_ h <;> rfl
    · exact h
  | acquire lock =>
    obtain ⟨-, rfl⟩ := hex
    show Follows w vs w'
    exact h.of_store (le_refl w.now) rfl
  | release lock =>
    obtain rfl := hex
    show Follows w vs w'
    exact h.of_store (le_refl w.now) rfl
  | httpGet request =>
    obtain ⟨-, rfl⟩ := hex
    show Follows w vs w'
    cases r with
    | none => exact h
    | some response => exact h.of_store (le_refl w.now) rfl
  | elapse =>
    obtain ⟨now, hnow, rfl⟩ := hex
    show Follows w vs w'
    exact h.of_store hnow rfl

/-- **What a run leaves in the store** are the batches of its calls. -/
theorem follows_of_performs {α : Type} {B : Backend} {upstream : Upstream} {t : ℕ} {p : Program α}
    {w w' : World} {cs : CallLog Op Ret} {a : α}
    (h : (effects B upstream).Performs Drift t p w cs a w') :
    Follows w (batches (marks cs)) w' := by
  induction h with
  | ret hdrift => exact .nil hdrift.kept
  | call hdrift hex _ ih =>
    unfold batches marks
    rw [List.flatMap_cons, List.filterMap_append]
    exact Follows.of_kept hdrift.kept (follows_call hex ih)

/-- A run with one choice for all its calls. -/
theorem performs_of_respond {α : Type} {B : Backend}
    {serve : ℕ → UpstreamRequest → Option UpstreamResponse} {choice : Choice} {t : ℕ}
    {p : Program α} {w w' : World} {cs : CallLog Op Ret} {a : α}
    (h : Effects.perform (respond B serve choice t) p w = some (cs, a, w')) :
    (effects B fun version request response => response = serve version request).Performs Drift t p
      w cs a w' := by
  refine Effects.performs_of_perform Drift.refl (fun o w r w' hcall => ?_) h
  exact @respond_sound B (fun version request response => response = serve version request) serve
    choice t o w w' r (fun _ _ => rfl) hcall

/-! ## Sending a reply -/

/-- Which texts the web framework can send as the value of a header: ASCII texts among others. -/
structure HeaderCodec where
  encodes : Str → Bool
  ascii : ∀ value : Str, value.all isAscii = true → encodes value = true

/-- Header values are sent in Latin-1. -/
def latin1 : HeaderCodec where
  encodes value := value.all fun c => c.toNat < 256
  ascii value h := by
    rw [List.all_eq_true] at h ⊢
    intro c hc
    have hlt : c.toNat < 128 := by simpa [isAscii] using h c hc
    simpa using hlt.trans (by omega)

/-- `Response(...)`: a body or a header that cannot be encoded is a `UnicodeEncodeError`. -/
def send (U : Unicode) (C : HeaderCodec) (reply : Reply) : Except Failure Reply :=
  if encodable U reply.body && reply.headers.all fun h => C.encodes h.2 then .ok reply
  else .error (.raised .valueError)

end ProxyCache.App
