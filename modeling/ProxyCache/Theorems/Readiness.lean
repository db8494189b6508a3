import ProxyCache.App.BackgroundRules
import ProxyCache.App.Service

/-!
# Lifetimes for the outer cache

A response is given a lifetime only while the body that it carries is cached, and only after
a commit has marked this body as ready. The lifetime that is given is that of the body, rounded
down in memory and to the nearest second by Redis.
-/

namespace ProxyCache.Theorems.Readiness

open ProxyCache.Lib ProxyCache.Python ProxyCache.App

variable (s : Site)

/-- The marker of a body that needs no more work. -/
abbrev readyKey (c : Str) (isJson : Bool) : Str := projectKey c (.metadataReady isJson)

/-- The key of the current body. -/
abbrev primaryKey (c : Str) (isJson : Bool) : Str := projectKey c (.body isJson)

/-- The conditional write of a commit that marks `completedBody` as ready: it replaces the
current or the stale body by this one, or is bound to it. -/
def IsReadyCommit (c : Str) (isJson : Bool) (completedBody : Str)
    (expected : List (Str × Option Str)) (values : List Write) : Prop :=
  ∃ body changed boundPart boundTtl markerTtl,
    (boundPart = .body isJson ∨ boundPart = .stale isJson) ∧
    (projectKey c boundPart, some body) ∈ expected ∧
    Completes s isJson body completedBody changed ∧
    values = commitBatch s c isJson changed true boundPart boundTtl markerTtl completedBody

/-- The event is a commit that has taken effect and marks `body` as ready. -/
def Confirms {E : Type} (c : Str) (isJson : Bool) (body : Str) : Event Op Ret E → Prop
  | .call _ (.setexManyIfUnchanged expected values) committed =>
    committed = true ∧ IsReadyCommit s c isJson body expected values
  | _ => False

/-! ## The calls that place a ready marker -/

/-- The call stores no ready marker. -/
def Unmarking (o : Op) : Prop := ∀ x ∈ o.writes, ∀ c isJson, x.key ≠ readyKey c isJson

/-- What a call of the service can do to the ready markers: nothing, prolong the one of a body
that is still marked, or mark a body with a commit. -/
inductive Marks : Op → Prop
  | other {o : Op} : Unmarking o → Marks o
  | prolong (c body : Str) (isJson : Bool) (ttl : ℤ) :
      Marks (.setexManyIfUnchanged
        [(primaryKey c isJson, some body), (readyKey c isJson, some (bodyDigest body))]
        [⟨readyKey c isJson, ttl, bodyDigest body⟩])
  | commit {c completedBody : Str} {isJson : Bool} {expected : List (Str × Option Str)}
      {values : List Write} : IsReadyCommit s c isJson completedBody expected values →
      Marks (.setexManyIfUnchanged expected values)

section Calls

variable {s} {α : Type} {p : Program α} {c : Str} {t : ℕ}

instance (o : Op) : Nonempty (Ret o) := by
  cases o <;> exact inferInstance

theorem marks_of_writes_nil {o : Op} (ho : o.writes = []) : Marks s o := by
  refine .other fun x hx => ?_
  rw [ho] at hx
  cases hx

theorem marks_of_isRead {o : Op} (ho : o.isRead = true) : Marks s o := by
  cases o with
  | setexMany | setexManyIfUnchanged => cases ho
  | _ => exact marks_of_writes_nil rfl

theorem marks_of_apart {o : Op} (ho : o.Apart) : Marks s o :=
  .other fun x hx c _ => ho.2 x hx c _

/-- Parts of a project other than the ready markers. -/
def Part.Plain (part : ProjectPart) : Prop := ∀ isJson, part ≠ .metadataReady isJson

theorem unmarking_of_parts {o : Op}
    (h : ∀ x ∈ o.writes, ∃ part, Part.Plain part ∧ x.key = projectKey c part) : Unmarking o := by
  intro x hx c' isJson hkey
  obtain ⟨part, hplain, hx'⟩ := h x hx
  exact hplain isJson (projectKey_inj.mp (hx'.symm.trans hkey)).2

theorem plain_of_bound {part : ProjectPart} {isJson : Bool}
    (h : part = .body isJson ∨ part = .stale isJson) : Part.Plain part := by
  rcases h with rfl | rfl <;> exact nofun

theorem plain_of_validatorValues {r : ProjectRequest} {etag lastMod : Option Str} {x : Write}
    (hx : x ∈ validatorValues s r etag lastMod) :
    ∃ part, Part.Plain part ∧ x.key = projectKey r.canonical part := by
  rcases mem_validatorValues.mp hx with ⟨v, -, rfl⟩ | ⟨v, -, rfl⟩
  · exact ⟨.etag, nofun, rfl⟩
  · exact ⟨.lastmod, nofun, rfl⟩

theorem marks_fill {r : ProjectRequest} {response : UpstreamResponse} {values : List Write}
    (h : IsFill s r response values) : Marks s (.setexMany values) := by
  obtain ⟨bodies, rfl, hbodies⟩ := h
  refine .other (unmarking_of_parts (c := r.canonical) fun x hx => ?_)
  rcases List.mem_append.mp hx with hx | hx
  · exact plain_of_validatorValues hx
  · obtain ⟨isJson, body, hx⟩ := hbodies x hx
    rcases mem_bodyValues.mp hx with rfl | rfl
    · exact ⟨.body isJson, nofun, rfl⟩
    · exact ⟨.stale isJson, nofun, rfl⟩

theorem marks_refresh {r : ProjectRequest} {response : UpstreamResponse} {values : List Write}
    (h : IsRefresh s r response values) : Marks s (.setexMany values) := by
  obtain ⟨etag, lastMod, responseJson, body, otherStale, rfl⟩ := h
  refine .other (unmarking_of_parts (c := r.canonical) fun x hx => ?_)
  rcases mem_refreshedValues.mp hx with rfl | hx | ⟨-, other, -, rfl⟩
  · exact ⟨.body responseJson, nofun, rfl⟩
  · exact plain_of_validatorValues hx
  · exact ⟨.body _, nofun, rfl⟩

theorem marks_conversion {r : ProjectRequest} {expected : List (Str × Option Str)} {ttl : ℤ}
    {staleTtl : Option ℤ} {body : Str} :
    Marks s (.setexManyIfUnchanged expected (conversionValues r ttl staleTtl body)) := by
  refine .other (unmarking_of_parts (c := r.canonical) fun x hx => ?_)
  rcases mem_conversionValues.mp hx with rfl | ⟨n, -, rfl⟩
  · exact ⟨.body _, nofun, rfl⟩
  · exact ⟨.stale _, nofun, rfl⟩

/-! ### By the rules of the handlers -/

/-- What the recorder keeps. -/
abbrev Recorded (s : Site) (last : Option Op) : Prop := ∀ o, last = some o → Marks s o

/-- A part of a handler that makes such calls only, for the rules. -/
abbrev Records (s : Site) {α : Type} (t : ℕ) (Q : α → Option Op → Prop) (p : Program α)
    (last : Option Op) : Prop :=
  Effects.recorder.wp (Recorded s) (fun _ _ => True) (fun _ _ => True) t Q p last

theorem records_of_calls (hp : p.Calls (Marks s)) (last : Option Op) :
    Records s t (fun _ _ => True) p last := by
  refine Effects.wp_of_calls hp fun _ _ _ _ ho _ hex => ⟨?_, trivial⟩
  rintro _ hlast
  obtain rfl := Option.some.inj (hex.symm.trans hlast)
  exact ho

theorem records_op {o : Op} (ho : Marks s o) (last : Option Op) :
    Records s t (fun _ _ => True) (call o) last :=
  records_of_calls (p := call o) ⟨ho, fun _ => trivial⟩ last

theorem calls_of_records (h : Records s 0 (fun _ _ => True) p none) : p.Calls (Marks s) :=
  (Effects.wp_recorder nofun).mp h

theorem serves (r : ProjectRequest) : Serves Effects.recorder (Recorded s) (fun _ _ => True)
    (fun _ _ => True) t s r (fun _ => True) fun _ _ => True where
  read _ ho last _ := records_op (marks_of_isRead ho) last
  elapse last _ := records_op (marks_of_writes_nil rfl) last
  sample last _ :=
    Effects.wp_mono (records_op (marks_of_isRead rfl) last)
      fun _ _ _ => ⟨trivial, fun _ _ => trivial⟩
  resample _ last _ := records_op (marks_of_isRead rfl) last
  commit _ _ _ _ _ last _ := records_op marks_conversion last

theorem fetches (r : ProjectRequest) : Fetches Effects.recorder (Recorded s) (fun _ _ => True)
    (fun _ _ => True) t s r (fun _ => True) fun _ _ => True where
  read _ ho last _ := records_op (marks_of_isRead ho) last
  get _ last _ :=
    Effects.wp_mono (records_op (marks_of_writes_nil rfl) last)
      fun _ _ _ => ⟨trivial, fun _ _ => trivial⟩
  leave _ _ _ := trivial
  lookup _ _ last _ := records_op (marks_of_isRead rfl) last
  mark _ last _ _ := by
    refine records_op (.other (unmarking_of_parts (c := r.canonical) fun x hx => ?_)) last
    rw [List.mem_singleton.mp hx]
    exact ⟨.notFound, nofun, rfl⟩
  fill _ _ last _ hfill _ := records_op (marks_fill hfill) last
  restale _ _ last _ _ := by
    refine records_op (.other (unmarking_of_parts (c := r.canonical) fun x hx => ?_)) last
    rw [List.mem_singleton.mp hx]
    exact ⟨.stale _, nofun, rfl⟩
  refresh _ _ last _ hrefresh _ := records_op (marks_refresh hrefresh) last
  ready _ _ _ last _ := records_op (.prolong ..) last

/-- The conditional write of a commit, bound to a key that holds its source. -/
theorem marks_commitBound {body completedBody : Str} {isJson changed ready : Bool}
    {boundPart : ProjectPart} {expected : List (Str × Option Str)}
    (hcompletes : Completes s isJson body completedBody changed)
    (hpart : boundPart = .body isJson ∨ boundPart = .stale isJson)
    (hbound : (projectKey c boundPart, some body) ∈ expected) :
    (commitBound s c isJson completedBody changed ready boundPart expected).Calls (Marks s) := by
  refine ⟨marks_of_isRead rfl, fun ttl => ?_⟩
  cases ttl with
  | none => trivial
  | some boundTtl =>
    dsimp only
    split
    · trivial
    refine ⟨?_, fun _ => trivial⟩
    cases ready with
    | true => exact .commit ⟨body, changed, boundPart, boundTtl, _, hpart, hbound, hcompletes, rfl⟩
    | false =>
      refine .other (unmarking_of_parts (c := c) fun x hx => ?_)
      rcases mem_commitBatch.mp hx with ⟨-, rfl | ⟨-, rfl⟩⟩ | rfl | ⟨hready, -⟩
      · exact ⟨boundPart, plain_of_bound hpart, rfl⟩
      · exact ⟨.stale isJson, nofun, rfl⟩
      · exact ⟨.metadataDiscovered isJson, nofun, rfl⟩
      · cases hready

theorem marks_commitLocked {body completedBody : Str} {isJson changed ready : Bool}
    (hcompletes : Completes s isJson body completedBody changed) :
    (commitLocked s c body isJson completedBody changed ready).Calls (Marks s) := by
  refine ⟨marks_of_isRead rfl, fun values => ?_⟩
  show Prog.Calls _ (if values.getD 0 none = some body then _
    else if values.getD 0 none = none ∧ values.getD 1 none = some body then _ else _)
  split
  · exact marks_commitBound hcompletes (.inl rfl) List.mem_cons_self
  split
  · exact marks_commitBound hcompletes (.inr rfl) (List.mem_cons_of_mem _ List.mem_cons_self)
  · trivial

theorem commits (c : Str) (isJson : Bool) (source : Str → Prop) :
    Commits Effects.recorder (Recorded s) (fun _ _ => True) (fun _ _ => True) t s c isJson
      source where
  apart hp last := records_of_calls (hp.mono fun _ => marks_of_apart) last
  commit _ _ _ _ _ hcompletes last := records_of_calls (marks_commitLocked hcompletes) last

/-! ### Every task -/

theorem marks_serveProject (pid : ℕ) (r : ProjectRequest) :
    (serveProject s pid r).Calls (Marks s) := by
  have hserve : (tryServeFromCache s r).Calls (Marks s) :=
    calls_of_records ((serves r).wp_tryServeFromCache trivial)
  have hfill : (fill s r).Calls (Marks s) :=
    calls_of_records ((fetches r).wp_fill (serves r) trivial)
  unfold serveProject
  refine hserve.bind ?_
  rintro (e | _ | hit)
  · trivial
  · refine ⟨marks_of_writes_nil rfl, fun _ => hfill.bind fun _ => ?_⟩
    exact ⟨marks_of_writes_nil rfl, fun _ => trivial⟩
  · trivial

theorem marks_simpleIndex (render : Bool → UpstreamResponse → Except Raised Str)
    (accept : Option Str) : (simpleIndex s render accept).Calls (Marks s) := by
  unfold simpleIndex
  refine Prog.Calls.bind ⟨marks_of_isRead rfl, fun _ => trivial⟩ fun cached => ?_
  split
  · trivial
  simp only [Prog.op_bind, Prog.calls_call]
  refine ⟨marks_of_writes_nil rfl, fun response => ?_⟩
  cases response with
  | none => trivial
  | some response =>
    dsimp only
    split
    · trivial
    unfold storeIndex
    split
    · trivial
    · refine ⟨.other (unmarking_of_parts (c := ("index" : Str)) fun x hx => ?_), fun _ => trivial⟩
      rw [List.mem_singleton.mp hx]
      refine ⟨.body (wantJson s.U s.float accept), by simp [Part.Plain], ?_⟩
      cases wantJson s.U s.float accept <;> rfl

theorem marks_job (pid : ℕ) (job : Job) : (job.prog s pid).Calls (Marks s) := by
  cases job with
  | enrich canonical body isJson =>
    exact calls_of_records ((commits canonical isJson (· = body)).wp_enrich rfl)
  | extract canonical isJson digest =>
    exact calls_of_records
      ((commits canonical isJson fun body => bodyDigest body = digest).wp_extractProjectAfterIdle)

theorem marks_wheelMetadata (pid : ℕ) (host path query : Str) :
    (wheelMetadata s pid host path query).Calls (Marks s) := by
  have hload : ∀ url, (loadOrRecoverMetadataForUrl s pid url).Calls Op.IsProbe := by
    intro url
    unfold loadOrRecoverMetadataForUrl
    split
    · exact loadMetadataForUrl_probe s none
    · refine (resolveMetadataForUrl_probe s pid none true true).bind fun resolved => ?_
      rcases resolved with e | _ | resolved
      · trivial
      · trivial
      · dsimp only
        split
        · trivial
        · split <;> trivial
  unfold wheelMetadata
  split
  · trivial
  split
  · trivial
  split
  · trivial
  refine ((hload _).mono fun _ ho => marks_of_apart ho.apart).bind fun loaded => ?_
  rcases loaded with e | _ | loaded <;> trivial

/-- Every call of the service is such a call. -/
theorem marks_of_task (e : ℕ × ServiceTask) : (e.2.prog s e.1).Calls (Marks s) := by
  obtain ⟨pid, task⟩ := e
  cases task with
  | project name accept => exact (marks_serveProject pid _).bind fun _ => trivial
  | index render accept => exact (marks_simpleIndex render accept).bind fun _ => trivial
  | metadata host path query =>
    exact (marks_wheelMetadata pid host path query).bind fun _ => trivial
  | background job => exact (marks_job pid job).bind fun _ => trivial

end Calls

/-! ## Where a ready marker comes from -/

section Runs

variable {s} {B : Backend} {upstream : Upstream} {c : Str} {isJson : Bool}

/-- A step of a task: a marker that is live afterwards was live before, or the call is the
commit of a body with its digest. -/
theorem ready_of_exec {E : Type} {t : ℕ} {o : Op} {r : Ret o} {w w' : World} {digest : Str}
    (ho : Marks s o) (hex : exec B upstream t o w r w')
    (hget : w'.get (readyKey c isJson) = some digest) :
    w.get (readyKey c isJson) = some digest ∨
      ∃ body, bodyDigest body = digest ∧
        Confirms s c isJson body (.call t o r : Event Op Ret E) := by
  cases ho with
  | other hother =>
    rcases get_of_exec hex hget with hbefore | ⟨x, hx, hkey, -⟩
    · exact .inl hbefore
    · exact absurd hkey (hother x hx c isJson)
  | prolong c' body isJson' ttl =>
    rcases exec_setexManyIfUnchanged hex with ⟨-, hmatches, rfl⟩ | ⟨-, rfl⟩
    · rcases World.get_write hget with ⟨hbefore, -⟩ | ⟨x, hx, hkey, hvalue⟩
      · exact .inl hbefore
      · -- the marker was there already, with this digest
        obtain rfl := List.mem_singleton.mp hx
        obtain ⟨rfl, hpart⟩ := projectKey_inj.mp hkey
        obtain rfl := ProjectPart.metadataReady.inj hpart
        exact .inl (hvalue ▸ hmatches _ (List.mem_cons_of_mem _ List.mem_cons_self))
    · exact .inl hget
  | @commit c' completedBody isJson' expected values hcommit =>
    rcases exec_setexManyIfUnchanged hex with ⟨hcommitted, -, rfl⟩ | ⟨-, rfl⟩
    · rcases World.get_write hget with ⟨hbefore, -⟩ | ⟨x, hx, hkey, hvalue⟩
      · exact .inl hbefore
      · obtain ⟨body, changed, boundPart, _, _, hpart, -, -, rfl⟩ := id hcommit
        have hplain : ∀ part, Part.Plain part → projectKey c' part ≠ readyKey c isJson :=
          fun part hpart hkey => hpart isJson (projectKey_inj.mp hkey).2
        rcases mem_commitBatch.mp hx with ⟨-, rfl | ⟨-, rfl⟩⟩ | rfl | ⟨-, rfl⟩
        · exact absurd hkey (hplain _ (plain_of_bound hpart))
        · exact absurd hkey (hplain _ nofun)
        · exact absurd hkey (hplain _ nofun)
        · obtain ⟨rfl, hpart⟩ := projectKey_inj.mp hkey
          obtain rfl := ProjectPart.metadataReady.inj hpart
          exact .inr ⟨completedBody, hvalue, hcommitted, hcommit⟩
    · exact .inl hget

/-- A ready marker that is live comes from an earlier commit of a body with its digest. -/
theorem ready_of_run {config₀ config : Config Op Ret World (ℕ × ServiceTask) TaskResult}
    {evs : List (Event Op Ret (ℕ × ServiceTask))} (hinit : (deployment s B upstream).Init config₀)
    (hrun : (deployment s B upstream).Run config₀ evs config) {digest : Str}
    (hget : config.world.get (readyKey c isJson) = some digest) :
    ∃ ev ∈ evs, ∃ body, bodyDigest body = digest ∧ Confirms s c isJson body ev := by
  have hfresh : config₀.world.get (readyKey c isJson) ≠ some digest := by
    intro h
    obtain ⟨entry, hentry, -⟩ := Store.get_eq_some.mp h
    rw [hinit.1.1] at hentry
    cases hentry
  refine System.Run.source (P := fun w => w.get (readyKey c isJson) = some digest) (.init hinit)
    hfresh (fun d ev d' hreach hstep h => ?_) hrun hget
  cases hstep with
  | start => exact .inl h
  | env hquiet hdrift => exact .inl (Drift.get hdrift h)
  | @call t e o k r w hwait htask hex =>
    have hmarks : Marks s o := (hreach.calls (fun e => marks_of_task e) htask).1
    exact ready_of_exec hmarks hex h

/-! ## The lifetime of a response -/

/-- What a lookup that answers finds. -/
theorem lookup_of_exec {t : ℕ} {w w' : World} {key expected boundKey expectedBound : Str} {T : ℤ}
    (hex : exec B upstream t (.ttlIfValues key expected boundKey expectedBound) w (some T) w') :
    w.get key = some expected ∧ w.get boundKey = some expectedBound ∧
      ∃ e e', w.expiry key = some e ∧ w.expiry boundKey = some e' ∧
        B.ttl (min e e' - w.now) = some T := by
  obtain ⟨hanswer, -⟩ := hex
  split at hanswer
  · next hlive =>
    obtain ⟨e, he, hanswer⟩ := Option.bind_eq_some_iff.mp hanswer.symm
    obtain ⟨e', he', hT⟩ := Option.bind_eq_some_iff.mp hanswer
    exact ⟨hlive.1, hlive.2, e, e', he, he', hT⟩
  · cases hanswer

/-- The lookup does not answer more than the body has left: in memory never, with Redis unless
the shorter of the two lifetimes is half a second or more above the whole seconds of the body's. -/
def Rounded (B : Backend) (c : Str) (isJson : Bool) (w : World) : Prop :=
  B = .memory ∨ ∃ e e', w.expiry (readyKey c isJson) = some e ∧
    w.expiry (primaryKey c isJson) = some e' ∧ min e e' - w.now < ⌊e' - w.now⌋ + 1 / 2

theorem ttl_le_iff {m x : ℚ} {T : ℤ} (hT : B.ttl m = some T) (hmx : m ≤ x) :
    (T : ℚ) ≤ x ↔ B = .memory ∨ m < ⌊x⌋ + 1 / 2 := by
  cases B with
  | memory => exact iff_of_true ((Backend.memory_ttl_le hT).trans hmx) (.inl rfl)
  | redis =>
    have hround : T = ⌊m + 1 / 2⌋ := by
      unfold Backend.ttl at hT
      split at hT
      · exact (Option.some.inj hT).symm
      · cases hT
    have hshift : m + 1 / 2 < ((⌊x⌋ + 1 : ℤ) : ℚ) ↔ m < ⌊x⌋ + 1 / 2 := by
      push_cast
      constructor <;> intro h <;> linarith
    rw [← Int.le_floor, ← Int.lt_add_one_iff, hround, Int.floor_lt, hshift]
    simp

variable (s) in
/-- What stands behind a lifetime of `T` seconds for a response with this body. -/
structure Backed (evs : List (Event Op Ret (ℕ × ServiceTask))) (w : World) (c : Str)
    (isJson : Bool) (body : Str) (T : ℤ) : Prop where
  positive : 1 ≤ T
  current : w.get (primaryKey c isJson) = some body
  lasts : ∃ e, w.expiry (primaryKey c isJson) = some e ∧ T ≤ e - w.now
  confirmed : ∃ ev ∈ evs, Confirms s c isJson body ev

/-- The response of `_cached_response` with the lifetime `T`. -/
def lifetimeReply (canonical body : Str) (isJson : Bool) (T : ℤ) : Reply where
  body
  mediaType := mediaTypeOf isJson
  headers := [xCache ("HIT" : Str), (("X-Cache-Key" : Str), canonical), xSynthesis ("0" : Str),
    (("Cache-Control" : Str), ("public, max-age=" : Str) ++ str T)]

variable (s) in
/-- The call of `metadata_response_cache_ttl`. -/
abbrev lookup (canonical body : Str) (isJson : Bool) : Op :=
  .ttlIfValues (readyKey (s.packaging.canonicalizeName canonical) isJson) (bodyDigest body)
    (primaryKey (s.packaging.canonicalizeName canonical) isJson) body

/-- `_cached_response` looks its lifetime up first. -/
theorem cachedResponse_eq (henabled : s.settings.enableBackgroundMetadata = true)
    (canonical body : Str) (isJson : Bool) (f : Reply → Program TaskResult) :
    ∃ k, cachedResponse s canonical body isJson >>= f = .call (lookup s canonical body isJson) k ∧
      ∀ T : ℤ, k (some T) = f (lifetimeReply canonical body isJson T) := by
  unfold cachedResponse
  rw [if_pos henabled]
  exact ⟨_, rfl, fun _ => rfl⟩

/-- **Lifetimes for the outer cache.** Whatever the routes and the background tasks interleave,
a response of `_cached_response` that is given a lifetime carries the body that is cached, which
an earlier commit has marked as ready. The body lives as long, unless Redis has rounded up. -/
theorem backed_iff {config₀ config config' : Config Op Ret World (ℕ × ServiceTask) TaskResult}
    {evs : List (Event Op Ret (ℕ × ServiceTask))} (hinit : (deployment s B upstream).Init config₀)
    (hrun : (deployment s B upstream).Run config₀ evs config)
    (henabled : s.settings.enableBackgroundMetadata = true) {t : ℕ} {e : ℕ × ServiceTask}
    {canonical body : Str} {f : Reply → Program TaskResult} {T : ℤ}
    (htask : config.task t = some (e, cachedResponse s canonical body isJson >>= f))
    (hstep : (deployment s B upstream).Step config
      (.call t (lookup s canonical body isJson) (some T)) config')
    (hfree : ∀ ev ∈ evs, ∀ body',
      Confirms s (s.packaging.canonicalizeName canonical) isJson body' ev →
        CollisionFree (utf8 body') (utf8 body)) :
    config'.task t = some (e, f (lifetimeReply canonical body isJson T)) ∧
      (Backed s evs config.world (s.packaging.canonicalizeName canonical) isJson body T ↔
        Rounded B (s.packaging.canonicalizeName canonical) isJson config.world) := by
  obtain ⟨k, hprog, hreply⟩ := cachedResponse_eq henabled canonical body isJson f
  rw [hprog] at htask
  cases hstep with
  | @call _ e' _ k' _ w hwait htask' hex =>
    obtain ⟨rfl, hcall⟩ := Prod.mk.inj (Option.some.inj (htask.symm.trans htask'))
    obtain ⟨-, hk⟩ := Prog.call.inj hcall
    obtain rfl := eq_of_heq hk
    have hex : exec B upstream t (lookup s canonical body isJson) config.world (some T) w := hex
    obtain ⟨hready, hbody, expiry, expiry', hexpiry, hexpiry', hT⟩ := lookup_of_exec hex
    have hmin : min expiry expiry' - config.world.now ≤ expiry' - config.world.now :=
      sub_le_sub_right (min_le_right expiry expiry') _
    refine ⟨(Function.update_self ..).trans (by rw [hreply]), ?_⟩
    constructor
    · rintro ⟨-, -, ⟨e₁, he₁, hle⟩, -⟩
      obtain rfl := Option.some.inj (hexpiry'.symm.trans he₁)
      exact ((ttl_le_iff hT hmin).mp hle).imp_right fun h => ⟨_, _, hexpiry, hexpiry', h⟩
    · intro hrounded
      refine ⟨Backend.ttl_pos hT, hbody, ⟨expiry', hexpiry', (ttl_le_iff hT hmin).mpr ?_⟩, ?_⟩
      · refine hrounded.imp_right ?_
        rintro ⟨e₁, e₂, he₁, he₂, hless⟩
        obtain rfl := Option.some.inj (hexpiry.symm.trans he₁)
        obtain rfl := Option.some.inj (hexpiry'.symm.trans he₂)
        exact hless
      · obtain ⟨ev, hev, body', hdigest, hconfirms⟩ := ready_of_run hinit hrun hready
        obtain rfl : body' = body := utf8_injective (hfree ev hev body' hconfirms hdigest)
        exact ⟨ev, hev, hconfirms⟩

end Runs

/-! ## Two lookups -/

def one : Str := ("one" : Str)

/-- A project without files. -/
def page : Str := ("\x7b\"files\": []\x7d" : Str)

def pageSite : Site where
  U := asciiOnly
  D := ⟨fun _ => .ok (.dict [(("files" : Str), .list [])]),
    fun _ => .ok (.dict [(("files" : Str), .list [])]), fun _ => [], fun _ => [], fun _ => [],
    fun _ => .ok [], fun text _ => text⟩
  float _ := none
  packaging := plainReleases
  settings := { rewriteArtifactUrls := false, enableBackgroundMetadata := true }

def servePage (_ : ℕ) (_ : UpstreamRequest) : Option UpstreamResponse :=
  some { status := 200, contentType := some contentTypeJson, text := page }

def upstreamPage : Upstream := fun version request response =>
  response = servePage version request

abbrev pageService : System Op Ret World (ℕ × ServiceTask) TaskResult :=
  deployment pageSite .redis upstreamPage

def pageDriver : Driver pageService Choice := serviceDriver _ rfl rfl servePage fun _ _ => rfl

def pageRequest : ℕ × ServiceTask := (0, .project one (some contentTypeJson))

def pageEnrichment : ℕ × ServiceTask := (0, .background (.enrich one page true))

/-- A request fills the cache, and discovery finds nothing to do. -/
def fillAndMark : Option (List (Event Op Ret (ℕ × ServiceTask)) ×
    List (Event Op Ret (ℕ × ServiceTask)) × World) := do
  let (evs, _, w) ← pageDriver.finish {} 0 (pageService.prog pageRequest) emptyWorld
  let (evs', _, w) ← pageDriver.finish {} 1 (pageService.prog pageEnrichment) w
  return (evs, evs', w)

/-- The conditional writes are bound to the page, and place nothing but markers. -/
def onlyMarks : Event Op Ret (ℕ × ServiceTask) → Bool
  | .call _ (.setexManyIfUnchanged expected values) _ =>
    expected = [(primaryKey one true, some page)] ∧ values.length = 2
  | _ => true

theorem fillAndMark_spec : fillAndMark.any (fun (evs, evs', w) =>
    (evs ++ evs').all onlyMarks ∧ w.now = 0 ∧ w.get (projectKey one .notFound) = none ∧
      w.get (primaryKey one true) = some page ∧ w.expiry (primaryKey one true) = some 60 ∧
      w.get (readyKey one true) = some (bodyDigest page) ∧
      w.expiry (readyKey one true) = some 600) = true := by
  decide +kernel

/-- Every commit of the schedule is one of the page. -/
theorem page_of_confirms {ev : Event Op Ret (ℕ × ServiceTask)} (hmarks : onlyMarks ev = true)
    {body : Str} (h : Confirms pageSite one true body ev) : body = page := by
  cases ev with
  | start | env => exact h.elim
  | call t o r =>
    cases o with
    | setexManyIfUnchanged expected values =>
      obtain ⟨rfl, hlength⟩ := of_decide_eq_true hmarks
      obtain ⟨-, source, changed, boundPart, _, _, hpart, hbound, hcompletes, rfl⟩ := h
      have hsource : some source = some page := (Prod.mk.inj (List.mem_singleton.mp hbound)).2
      cases changed with
      | true =>
        rcases hpart with rfl | rfl <;> simp [commitBatch, commitBodies, commitMarkers] at hlength
      | false =>
        have hbody : body = source := by simpa [Completes] using hcompletes
        rw [hbody, Option.some.inj hsource]
    | _ => exact h.elim

/-- The page is cached and marked. -/
structure PageMarked (w : World) : Prop where
  now : w.now = 0
  absent : w.get (projectKey one .notFound) = none
  body : w.get (primaryKey one true) = some page
  bodyExpiry : w.expiry (primaryKey one true) = some 60
  marker : w.get (readyKey one true) = some (bodyDigest page)
  markerExpiry : w.expiry (readyKey one true) = some 600

theorem exists_marked : ∃ (c₀ config : Config Op Ret World (ℕ × ServiceTask) TaskResult)
    (evs : List (Event Op Ret (ℕ × ServiceTask))), pageService.Init c₀ ∧
      pageService.Run c₀ evs config ∧ pageService.Quiet config ∧ config.task 2 = none ∧
      evs.all onlyMarks = true ∧ PageMarked config.world := by
  obtain ⟨⟨evs, evs', w⟩, hrun, hfound⟩ := (Option.any_eq_true _ _).mp fillAndMark_spec
  obtain ⟨hmarks, hnow, hexists, hbody, hbodyExpiry, hmarker, hmarkerExpiry⟩ :=
    of_decide_eq_true hfound
  simp only [fillAndMark, Option.bind_eq_bind, Option.bind_eq_some_iff, Option.pure_def,
    Option.some.injEq, Prod.mk.injEq, Prod.exists] at hrun
  obtain ⟨_, result, w₁, hfirst, _, result', _, hsecond, rfl, rfl, rfl⟩ := hrun
  have hquiet : pageService.Quiet (Driver.boot emptyWorld) := fun _ _ _ _ h => nomatch h
  obtain ⟨hrun₁, hquiet₁⟩ := Driver.complete (.nil _) hquiet rfl hfirst
  obtain ⟨hrun₂, hquiet₂⟩ := Driver.complete hrun₁ hquiet₁
    (Config.set_task_of_ne one_ne_zero) hsecond
  refine ⟨Driver.boot emptyWorld, _, _, ⟨fresh_emptyWorld, fun _ => rfl⟩, hrun₂, hquiet₂, ?_, ?_,
    ?_⟩
  · rw [Config.set_task_of_ne (by decide), Config.set_task_of_ne (by decide)]
    rfl
  · simpa [onlyMarks] using hmarks
  · exact ⟨hnow, hexists, hbody, hbodyExpiry, hmarker, hmarkerExpiry⟩

/-- A request that finds the page comes to `_cached_response`. -/
theorem serveProject_eq (s : Site) (pid : ℕ) (r : ProjectRequest) : ∃ k,
    serveProject s pid r = .call (.getMany [r.notFoundKey, r.cacheKey]) k ∧
      ∃ f, k [none, some page] = cachedResponse s r.canonical page r.wantsJson >>= f := by
  refine ⟨_, rfl, ?_⟩
  show ∃ f, (cachedResponse s r.canonical page r.wantsJson >>=
    (fun reply => .ret (.ok (some reply)) : Reply → Program (Except Failure (Option Reply)))) >>=
      _ = cachedResponse s r.canonical page r.wantsJson >>= f
  exact ⟨_, Prog.bind_assoc ..⟩

theorem pageRequest_eq : ∃ k,
    pageService.prog pageRequest =
      .call (.getMany [projectKey one .notFound, primaryKey one true]) k ∧
      ∃ f, k [none, some page] = cachedResponse pageSite one page true >>= f := by
  have hcanonical : (projectRequest pageSite one (some contentTypeJson)).canonical = one := by
    decide +kernel
  have hjson : (projectRequest pageSite one (some contentTypeJson)).wantsJson = true := by
    decide +kernel
  obtain ⟨k, hprog, f, hk⟩ := serveProject_eq pageSite 0 (projectRequest pageSite one
    (some contentTypeJson))
  simp only [ProjectRequest.notFoundKey, ProjectRequest.cacheKey, hcanonical, hjson] at hprog hk
  have hserve : pageService.prog pageRequest =
      serveProject pageSite 0 (projectRequest pageSite one (some contentTypeJson)) >>=
        fun outcome => .ret (outcome.map some) := rfl
  rw [hserve, hprog]
  refine ⟨_, rfl, ?_⟩
  show ∃ f, k [none, some page] >>= _ = _
  rw [hk]
  exact ⟨_, Prog.bind_assoc ..⟩

/-- A request that is started while the page is cached, up to its lookup. -/
theorem exists_lookup {c₀ config : Config Op Ret World (ℕ × ServiceTask) TaskResult}
    {evs : List (Event Op Ret (ℕ × ServiceTask))} (hrun : pageService.Run c₀ evs config)
    (hquiet : pageService.Quiet config) (hnone : config.task 2 = none)
    (hexists : config.world.get (projectKey one .notFound) = none)
    (hbody : config.world.get (primaryKey one true) = some page) :
    ∃ config' evs' f, pageService.Run c₀ (evs ++ evs') config' ∧ pageService.Quiet config' ∧
      config'.world = config.world ∧ evs'.all onlyMarks = true ∧
      config'.task 2 = some (pageRequest, cachedResponse pageSite one page true >>= f) := by
  obtain ⟨k, hprog, f, hk⟩ := pageRequest_eq
  have hothers : ∀ u, u ≠ 2 →
      pageService.Waits (config.set 2 pageRequest (pageService.prog pageRequest) config.world) u :=
    fun u hu => Driver.waits_of_set (fun u _ => hquiet u) u hu
  have hstart : pageService.Step config (.start 2 pageRequest)
      (config.set 2 pageRequest (pageService.prog pageRequest) config.world) :=
    .start hquiet hnone
  have hcall : pageService.Step
      (config.set 2 pageRequest (pageService.prog pageRequest) config.world)
      (.call 2 (.getMany [projectKey one .notFound, primaryKey one true]) [none, some page])
      (config.set 2 pageRequest (k [none, some page]) config.world) := by
    have hset := @Config.set_set Op Ret World (ℕ × ServiceTask) TaskResult config 2 pageRequest
      (pageService.prog pageRequest) (k [none, some page]) config.world config.world
    rw [← hset]
    refine .call hothers (Config.set_task_self.trans (by rw [hprog])) ⟨?_, rfl⟩
    exact (congrArg₂ (fun x y => [x, y]) hexists hbody).symm
  refine ⟨config.set 2 pageRequest (k [none, some page]) config.world,
    [.start 2 pageRequest,
      .call 2 (.getMany [projectKey one .notFound, primaryKey one true]) [none, some page]],
    f, ?_, ?_, rfl, rfl, Config.set_task_self.trans (by rw [hk])⟩
  · have := System.Run.snoc (.snoc hrun hstart) hcall
    rwa [List.append_assoc] at this
  · intro u
    by_cases hu : u = 2
    · subst hu
      intro e o k' htask
      rw [Config.set_task_self, hk] at htask
      obtain ⟨k₀, hlookup, -⟩ := cachedResponse_eq (s := pageSite) rfl one page true f
      rw [hlookup] at htask
      obtain ⟨-, hcall⟩ := Prod.mk.inj (Option.some.inj htask)
      obtain ⟨rfl, -⟩ := Prog.call.inj hcall
      rfl
    · exact Driver.waits_of_set (fun u _ => hquiet u) u hu

/-- A lookup answers the shorter of the two lifetimes in whole seconds. -/
theorem exec_lookup {s : Site} {B : Backend} {upstream : Upstream} {t : ℕ} {w : World}
    {canonical body : Str} {isJson : Bool} {e e' : ℚ} {T : ℤ}
    (hready : w.get (readyKey (s.packaging.canonicalizeName canonical) isJson) =
      some (bodyDigest body))
    (hbody : w.get (primaryKey (s.packaging.canonicalizeName canonical) isJson) = some body)
    (he : w.expiry (readyKey (s.packaging.canonicalizeName canonical) isJson) = some e)
    (he' : w.expiry (primaryKey (s.packaging.canonicalizeName canonical) isJson) = some e')
    (hT : B.ttl (min e e' - w.now) = some T) :
    exec B upstream t (lookup s canonical body isJson) w (some T) w := by
  refine ⟨?_, rfl⟩
  rw [if_pos ⟨hready, hbody⟩, he, he', Option.bind_some, Option.bind_some, hT]

/-- The marked page is looked up some time later. -/
theorem exists_answer {now : ℚ} {T : ℤ} (hnow : 0 ≤ now) (hlive : now < 60)
    (hT : Backend.redis.ttl (60 - now) = some T) :
    ∃ (c₀ config config' : Config Op Ret World (ℕ × ServiceTask) TaskResult)
      (evs : List (Event Op Ret (ℕ × ServiceTask))) (f : Reply → Program TaskResult),
      pageService.Init c₀ ∧ pageService.Run c₀ evs config ∧
      config.task 2 = some (pageRequest, cachedResponse pageSite one page true >>= f) ∧
      pageService.Step config (.call 2 (lookup pageSite one page true) (some T)) config' ∧
      (∀ ev ∈ evs, ∀ body', Confirms pageSite one true body' ev →
        CollisionFree (utf8 body') (utf8 page)) ∧
      config.world.now = now ∧ config.world.expiry (readyKey one true) = some 600 ∧
      config.world.expiry (primaryKey one true) = some 60 := by
  obtain ⟨c₀, c₁, evs, hinit, hrun, hquiet, hnone, hmarks, hmarked⟩ := exists_marked
  obtain ⟨w, hw⟩ : ∃ w : World, w = { c₁.world with now } := ⟨_, rfl⟩
  have hle : c₁.world.now ≤ now := hmarked.now ▸ hnow
  have hdrift : Drift c₁.world w := ⟨now, fun _ => false, c₁.world.version, hle, le_rfl, hw⟩
  have hexpiry : ∀ {key : Str} {e : ℚ}, c₁.world.expiry key = some e → now < e →
      w.expiry key = some e := by
    intro key e he hbefore
    obtain ⟨value, hstore, -⟩ := World.expiry_eq_some.mp he
    rw [hw]
    exact World.expiry_eq_some.mpr ⟨value, hstore, hbefore⟩
  have hget : ∀ {key value : Str} {e : ℚ}, c₁.world.get key = some value →
      c₁.world.expiry key = some e → now < e → w.get key = some value := by
    intro key value e hvalue he hbefore
    obtain ⟨entry, hentry, -, hvalue⟩ := Store.get_eq_some.mp hvalue
    obtain ⟨_, hstore, -⟩ := World.expiry_eq_some.mp he
    obtain rfl := Option.some.inj (hstore.symm.trans hentry)
    rw [hw]
    exact Store.get_eq_some.mpr ⟨_, hentry, hbefore, hvalue⟩
  have hmarkerLive : now < 600 := lt_trans hlive (by norm_num)
  have hexists : w.get (projectKey one .notFound) = none := by
    cases h : w.get (projectKey one .notFound) with
    | none => rfl
    | some value =>
      have hearlier := hdrift.get h
      rw [hmarked.absent] at hearlier
      cases hearlier
  have hbody := hget hmarked.body hmarked.bodyExpiry hlive
  have henv : pageService.Step c₁ .env { c₁ with world := w } := .env hquiet hdrift
  obtain ⟨c₂, evs', f, hrun', hquiet', hworld, hmarks', htask⟩ :=
    exists_lookup (hrun.snoc henv) hquiet hnone hexists hbody
  have hone : pageSite.packaging.canonicalizeName one = one := by decide +kernel
  have hmarkerExpiry : c₂.world.expiry (readyKey one true) = some 600 := by
    rw [hworld]
    exact hexpiry hmarked.markerExpiry hmarkerLive
  have hbodyExpiry : c₂.world.expiry (primaryKey one true) = some 60 := by
    rw [hworld]
    exact hexpiry hmarked.bodyExpiry hlive
  have hnow₂ : c₂.world.now = now := by
    rw [hworld, hw]
  have hexec : exec .redis upstreamPage 2 (lookup pageSite one page true) c₂.world (some T)
      c₂.world := by
    refine exec_lookup ?_ ?_ (hone.symm ▸ hmarkerExpiry) (hone.symm ▸ hbodyExpiry) ?_
    · rw [hone, hworld]
      exact hget hmarked.marker hmarked.markerExpiry hmarkerLive
    · rw [hone, hworld]
      exact hbody
    · rw [hnow₂, min_eq_right (by norm_num)]
      exact hT
  obtain ⟨k, hlookup, -⟩ := cachedResponse_eq (s := pageSite) rfl one page true f
  have hstep : pageService.Step c₂ (.call 2 (lookup pageSite one page true) (some T)) _ :=
    .call (fun u _ => hquiet' u) (hlookup ▸ htask) hexec
  refine ⟨c₀, c₂, _, _, f, hinit, hrun', htask, hstep, ?_, hnow₂, hmarkerExpiry, hbodyExpiry⟩
  intro ev hev body' hconfirms _
  have hmark : onlyMarks ev = true := by
    rcases List.mem_append.mp hev with hev | hev
    · rcases List.mem_append.mp hev with hev | hev
      · exact List.all_eq_true.mp hmarks ev hev
      · obtain rfl := List.mem_singleton.mp hev
        rfl
    · exact List.all_eq_true.mp hmarks' ev hev
  rw [page_of_confirms hmark hconfirms]

/-- Right after the commit the page is given the minute that it has left. -/
theorem backed_page : ∃ (c₀ config : Config Op Ret World (ℕ × ServiceTask) TaskResult)
    (evs : List (Event Op Ret (ℕ × ServiceTask))), pageService.Init c₀ ∧
      pageService.Run c₀ evs config ∧ Backed pageSite evs config.world one true page 60 := by
  obtain ⟨c₀, config, config', evs, f, hinit, hrun, htask, hstep, hfree, hnow, hready, hprimary⟩ :=
    @exists_answer 0 60 le_rfl (by norm_num) (by decide +kernel)
  have hone : pageSite.packaging.canonicalizeName one = one := by decide +kernel
  have hrounded : Rounded .redis one true config.world := by
    refine .inr ⟨600, 60, hready, hprimary, ?_⟩
    rw [hnow]
    norm_num
  have hbacked := (backed_iff hinit hrun rfl htask hstep (by rwa [hone])).2
  rw [hone] at hbacked
  exact ⟨c₀, config, evs, hinit, hrun, hbacked.mpr hrounded⟩

/-- Redis rounds a lifetime of 59.6 seconds up to a minute. -/
theorem not_backed : ¬ ∀ (s : Site) (B : Backend) (upstream : Upstream)
    (c₀ config config' : Config Op Ret World (ℕ × ServiceTask) TaskResult)
    (evs : List (Event Op Ret (ℕ × ServiceTask))) (t : ℕ) (e : ℕ × ServiceTask)
    (canonical body : Str) (isJson : Bool) (f : Reply → Program TaskResult) (T : ℤ),
    (deployment s B upstream).Init c₀ → (deployment s B upstream).Run c₀ evs config →
    s.settings.enableBackgroundMetadata = true →
    config.task t = some (e, cachedResponse s canonical body isJson >>= f) →
    (deployment s B upstream).Step config (.call t (lookup s canonical body isJson) (some T))
      config' →
    (∀ ev ∈ evs, ∀ body', Confirms s (s.packaging.canonicalizeName canonical) isJson body' ev →
      CollisionFree (utf8 body') (utf8 body)) →
    Backed s evs config.world (s.packaging.canonicalizeName canonical) isJson body T := by
  intro h
  obtain ⟨c₀, config, config', evs, f, hinit, hrun, htask, hstep, hfree, hnow, -, hprimary⟩ :=
    @exists_answer (2 / 5) 60 (by norm_num) (by norm_num) (by decide +kernel)
  have hone : pageSite.packaging.canonicalizeName one = one := by decide +kernel
  have hbacked := h pageSite .redis upstreamPage c₀ config config' evs 2 pageRequest one page true f
    60 hinit hrun rfl htask hstep (by rwa [hone])
  rw [hone] at hbacked
  obtain ⟨e, he, hle⟩ := hbacked.lasts
  obtain rfl := Option.some.inj (hprimary.symm.trans he)
  rw [hnow] at hle
  norm_num at hle

end ProxyCache.Theorems.Readiness
