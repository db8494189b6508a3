import ProxyCache.App.BackgroundRules
import ProxyCache.App.Systems

/-!
# Safety of enrichment commits

Whatever the replicas of the service interleave, an enrichment commit either
finds the body it was computed from, and places the advertised body and the
markers together, or changes nothing.
-/

namespace ProxyCache.Theorems.Commits

open ProxyCache.Lib ProxyCache.Python ProxyCache.App

variable (s : Site) (c : Str)

/-- The bodies that a background task may compute a commit from. -/
def ProjectTask.source {s : Site} {c : Str} : ProjectTask s c → Option (Bool × (Str → Prop))
  | .request _ => none
  | .enrich body isJson => some (isJson, (· = body))
  | .extract isJson digest => some (isJson, fun body => bodyDigest body = digest)

/-- A commit from `body` takes effect: it is bound to the current body, which the
completed one replaces, or, when there is none, to the stale body. What marks the
body is the digest of the completed one, and nothing else changes. -/
structure Commit (isJson : Bool) (body completedBody : Str) (w w' : World) : Prop where
  bound :
    (w.get (projectKey c (.body isJson)) = some body ∧
      w'.get (projectKey c (.body isJson)) = some completedBody) ∨
    (w.get (projectKey c (.body isJson)) = none ∧
      w.get (projectKey c (.stale isJson)) = some body ∧
      w'.get (projectKey c (.body isJson)) = none ∧
      w'.get (projectKey c (.stale isJson)) = some completedBody)
  discovered : ∃ expiry, w'.store (projectKey c (.metadataDiscovered isJson)) =
    some ⟨expiry, bodyDigest completedBody⟩
  ready : w'.store (projectKey c (.metadataReady isJson)) =
      w.store (projectKey c (.metadataReady isJson)) ∨
    ∃ expiry, w'.store (projectKey c (.metadataReady isJson)) =
      some ⟨expiry, bodyDigest completedBody⟩
  others : ∀ key, (∀ part ∈ [ProjectPart.body isJson, .stale isJson, .metadataDiscovered isJson,
      .metadataReady isJson], key ≠ projectKey c part) → w'.store key = w.store key

/-- No key of a project changes. -/
def Untouched (w w' : World) : Prop :=
  ∀ c part, w'.store (projectKey c part) = w.store (projectKey c part)

/-- The step was a conditional write that took effect. -/
def Committed (t : ℕ) (w w' : World) : Prop := ∃ values, w'.log = .committed t values :: w.log

/-- What a background task does in one step. -/
def Guar (isJson : Bool) (source : Str → Prop) (t : ℕ) (w w' : World) : Prop :=
  (Untouched w w' ∧ ¬ Committed t w w') ∨
    (Committed t w w' ∧ ∃ body completedBody changed, source body ∧
      Completes s isJson body completedBody changed ∧ Commit c isJson body completedBody w w')

/-! ## The batch of a commit -/

section Batch

variable {s c} {isJson changed ready : Bool} {body completedBody : Str} {n ttl : ℤ} {w : World}
  {t : ℕ} {boundPart : ProjectPart}

/-- The batch names each key once. -/
theorem commitBatch_nodup (hbound : boundPart = .body isJson ∨ boundPart = .stale isJson) :
    ((commitBatch s c isJson changed ready boundPart n ttl completedBody).map Write.key).Nodup := by
  rcases hbound with rfl | rfl <;> cases changed <;> cases ready <;>
    simp [commitBatch, commitBodies, commitMarkers]

/-- The world after a commit that took effect. -/
abbrev commitWrite (w : World) (t : ℕ) (values : List Write) : World :=
  (w.write values).record (.committed t values)

/-- The bound key holds the completed body afterwards. -/
theorem get_bound (hbound : boundPart = .body isJson ∨ boundPart = .stale isJson) (hn : 0 < n)
    (hchanged : changed = false → completedBody = body)
    (hbody : w.get (projectKey c boundPart) = some body) :
    (w.write (commitBatch s c isJson changed ready boundPart n ttl completedBody)).get
      (projectKey c boundPart) = some completedBody := by
  cases changed with
  | true =>
    have hmem : (⟨projectKey c boundPart, n, completedBody⟩ : Write) ∈
        commitBatch s c isJson true ready boundPart n ttl completedBody :=
      mem_commitBatch.mpr (.inl ⟨rfl, .inl rfl⟩)
    exact World.get_of_store (World.store_write_of_mem (commitBatch_nodup hbound) hmem) hn
  | false =>
    rw [hchanged rfl]
    refine (Store.get_congr (World.store_write_of_not_mem fun x hx hkey => ?_)).trans hbody
    rcases mem_commitBatch.mp hx with ⟨h, -⟩ | rfl | ⟨-, rfl⟩
    · cases h
    · rcases hbound with rfl | rfl <;> exact absurd (projectKey_inj.mp hkey).2 (by simp)
    · rcases hbound with rfl | rfl <;> exact absurd (projectKey_inj.mp hkey).2 (by simp)

/-- A key that the batch of a commit does not name keeps its entry. -/
theorem store_other {key : Str}
    (hkey : ∀ part ∈ [boundPart, .stale isJson, .metadataDiscovered isJson, .metadataReady isJson],
      key ≠ projectKey c part) :
    (w.write (commitBatch s c isJson changed ready boundPart n ttl completedBody)).store key =
      w.store key := by
  refine World.store_write_of_not_mem fun x hx hx' => ?_
  rcases mem_commitBatch.mp hx with ⟨-, rfl | ⟨-, rfl⟩⟩ | rfl | ⟨-, rfl⟩
  all_goals exact hkey _ (by simp) hx'.symm

/-- A conditional write of a commit that finds what it expects is a commit. -/
theorem commit_of_write (hbound : boundPart = .body isJson ∨ boundPart = .stale isJson)
    (hn : 0 < n) (hchanged : changed = false → completedBody = body)
    (hbody : w.get (projectKey c boundPart) = some body)
    (habsent : boundPart = .stale isJson → w.get (projectKey c (.body isJson)) = none) :
    Commit c isJson body completedBody w
      (commitWrite w t (commitBatch s c isJson changed ready boundPart n ttl completedBody)) where
  bound := by
    have hget : (commitWrite w t
        (commitBatch s c isJson changed ready boundPart n ttl completedBody)).get
          (projectKey c boundPart) = some completedBody := get_bound hbound hn hchanged hbody
    rcases hbound with rfl | rfl
    · exact .inl ⟨hbody, hget⟩
    · refine .inr ⟨habsent rfl, hbody, ?_, hget⟩
      refine (Store.get_congr (store_other ?_)).trans (habsent rfl)
      simp
  discovered := by
    have hmem : (⟨projectKey c (.metadataDiscovered isJson), ttl, bodyDigest completedBody⟩ : Write)
        ∈ commitBatch s c isJson changed ready boundPart n ttl completedBody :=
      mem_commitBatch.mpr (.inr (.inl rfl))
    exact ⟨_, World.store_write_of_mem (commitBatch_nodup hbound) hmem⟩
  ready := by
    cases ready with
    | true =>
      have hmem : (⟨projectKey c (.metadataReady isJson), ttl, bodyDigest completedBody⟩ : Write)
          ∈ commitBatch s c isJson changed true boundPart n ttl completedBody :=
        mem_commitBatch.mpr (.inr (.inr ⟨rfl, rfl⟩))
      exact .inr ⟨_, World.store_write_of_mem (commitBatch_nodup hbound) hmem⟩
    | false =>
      refine .inl (World.store_write_of_not_mem fun x hx hkey => ?_)
      rcases mem_commitBatch.mp hx with ⟨-, rfl | ⟨-, rfl⟩⟩ | rfl | ⟨h, -⟩
      · rcases hbound with rfl | rfl <;> exact absurd (projectKey_inj.mp hkey).2 (by simp)
      · exact absurd (projectKey_inj.mp hkey).2 (by simp)
      · exact absurd (projectKey_inj.mp hkey).2 (by simp)
      · cases h
  others key hkey := by
    refine store_other fun part hpart => hkey part ?_
    rcases hbound with rfl | rfl
    · exact hpart
    · exact List.mem_cons_of_mem _ (by simpa using hpart)

end Batch

/-! ## Background tasks -/

section Tasks

variable {s c} {upstream : Upstream} {isJson : Bool} {source : Str → Prop} {t : ℕ}

theorem not_committed {w w' : World} (h : ∀ values, w'.log ≠ .committed t values :: w.log) :
    ¬ Committed t w w' :=
  fun ⟨values, hlog⟩ => h values hlog

theorem not_committed_of_log {w w' : World} (h : w'.log = w.log) : ¬ Committed t w w' :=
  not_committed fun values hlog => by
    rw [h] at hlog
    exact absurd (congrArg List.length hlog) (by simp)

theorem guar_refl (w : World) : Guar s c isJson source t w w :=
  .inl ⟨fun _ _ => rfl, not_committed_of_log rfl⟩

/-- Only a conditional write commits. -/
theorem not_committed_of_exec {o : Op} {r : Ret o} {w w' : World} (ho : o.isConditional = false)
    (hex : exec .redis upstream t o w r w') : ¬ Committed t w w' := by
  have hsame : w' = w → ¬ Committed t w w' := by
    rintro rfl
    exact not_committed_of_log rfl
  cases o with
  | getMany | existsAny | ttl | ttlIfValues => exact hsame hex.2
  | httpHead | extractWheelMetadata | suspend | unfinished | schedule => exact hsame hex
  | setexManyIfUnchanged => cases ho
  | setexMany values =>
    obtain rfl : w' = (w.write values).record (.stored t values) := hex
    exact not_committed fun values' h => absurd (List.cons.inj h).1 (by simp)
  | acquire =>
    obtain ⟨-, rfl⟩ := hex
    exact not_committed_of_log rfl
  | elapse =>
    obtain ⟨now, -, rfl⟩ := hex
    exact not_committed_of_log rfl
  | release =>
    obtain rfl : w' = _ := hex
    exact not_committed_of_log rfl
  | httpGet request =>
    obtain ⟨-, hw'⟩ := hex
    cases r with
    | none => exact hsame hw'
    | some response =>
      obtain rfl : w' = w.record _ := hw'
      exact not_committed fun values h => absurd (List.cons.inj h).1 (by simp)

/-- A call that stores nothing for a project. -/
theorem untouched_of_apart {o : Op} {r : Ret o} {w w' : World} (ho : o.Apart)
    (hex : exec .redis upstream t o w r w') : Untouched w w' := by
  have hsame : w'.store = w.store → Untouched w w' := fun h c part => congrFun h _
  cases o with
  | getMany | existsAny | ttl | ttlIfValues => exact hsame (congrArg World.store hex.2)
  | httpHead | extractWheelMetadata | suspend | unfinished | schedule =>
    exact hsame (congrArg World.store hex)
  | setexManyIfUnchanged => cases ho.1
  | setexMany values =>
    obtain rfl : w' = (w.write values).record (.stored t values) := hex
    exact fun c part => World.store_write_of_not_mem fun x hx => ho.2 x hx c part
  | acquire =>
    obtain ⟨-, rfl⟩ := hex
    exact hsame rfl
  | elapse =>
    obtain ⟨now, -, rfl⟩ := hex
    exact hsame rfl
  | release =>
    obtain rfl : w' = _ := hex
    exact hsame rfl
  | httpGet request =>
    obtain ⟨-, hw'⟩ := hex
    cases r with
    | none => exact hsame (congrArg World.store hw')
    | some response =>
      obtain rfl : w' = w.record _ := hw'
      exact hsame rfl

/-- A background task can run `p` within its guarantee. -/
abbrev Runs {α : Type} (s : Site) (c : Str) (upstream : Upstream) (isJson : Bool)
    (source : Str → Prop) (t : ℕ) (p : Program α) (w : World) : Prop :=
  (effects .redis upstream).wp (fun _ => True) (fun _ _ => True) (Guar s c isJson source t) t
    (fun _ _ => True) p w

theorem runs_of_apart {α : Type} {p : Program α} (hp : p.Calls Op.Apart) (w : World) :
    Runs s c upstream isJson source t p w :=
  Effects.wp_of_calls hp fun _ _ _ _ ho _ hex =>
    ⟨trivial, .inl ⟨untouched_of_apart ho hex, not_committed_of_exec ho.1 hex⟩⟩

/-- The conditional write, whatever the others did since the body was read. -/
theorem runs_commitBound {body completedBody : Str} {changed ready : Bool}
    {boundPart : ProjectPart} {expected : List (Str × Option Str)} {w : World}
    (hsource : source body) (hcompletes : Completes s isJson body completedBody changed)
    (hbound : boundPart = .body isJson ∨ boundPart = .stale isJson)
    (hbody : (projectKey c boundPart, some body) ∈ expected)
    (habsent : boundPart = .stale isJson → (projectKey c (.body isJson), none) ∈ expected) :
    Runs s c upstream isJson source t
      (commitBound s c isJson completedBody changed ready boundPart expected) w := by
  simp only [commitBound, Prog.op_bind]
  rintro w₁ - - ttl w₂ ⟨httl, rfl⟩
  refine ⟨trivial, guar_refl w₂, ?_⟩
  cases ttl with
  | none => trivial
  | some n =>
    have hn : 0 < n := by
      obtain ⟨e, -, he⟩ := Option.bind_eq_some_iff.mp httl.symm
      exact Backend.ttl_pos he
    dsimp only
    split
    · trivial
    intro w₃ _ _ committed w₄ hex
    have hex : exec .redis upstream t _ w₃ committed w₄ := hex
    rcases exec_setexManyIfUnchanged hex with ⟨rfl, hmatches, rfl⟩ | ⟨rfl, rfl⟩
    · have hcommit := @commit_of_write s c isJson changed ready body completedBody n
        (max s.settings.cacheStaleTtlSeconds n) w₃ t boundPart hbound hn
        (fun h => by simpa [Completes, h] using hcompletes) (hmatches _ hbody)
        fun h => hmatches _ (habsent h)
      exact ⟨trivial, .inr ⟨⟨_, rfl⟩, body, completedBody, changed, hsource, hcompletes, hcommit⟩,
        trivial⟩
    · exact ⟨trivial, guar_refl w₄, trivial⟩

/-- The locked part of a commit: the body is looked up, and the write is bound to
what was found. -/
theorem runs_commitLocked {body completedBody : Str} {changed ready : Bool} {w : World}
    (hsource : source body) (hcompletes : Completes s isJson body completedBody changed) :
    Runs s c upstream isJson source t
      (commitLocked s c body isJson completedBody changed ready) w := by
  unfold commitLocked
  refine Effects.wp_bind.mpr (Effects.wp_mono (runs_of_apart (cacheGetTwo_apart _ _) w) ?_)
  rintro ⟨current, stale⟩ w₁ -
  dsimp only
  split
  · exact runs_commitBound hsource hcompletes (.inl rfl) List.mem_cons_self (by simp)
  split
  · refine runs_commitBound hsource hcompletes (.inr rfl) (by simp) fun _ => List.mem_cons_self
  · trivial

theorem commits : Commits (effects .redis upstream) (fun _ => True) (fun _ _ => True)
    (Guar s c isJson source t) t s c isJson source where
  apart hp w := runs_of_apart hp w
  commit _ _ _ _ hsource hcompletes _ := runs_commitLocked hsource hcompletes

end Tasks

/-! ## Every interleaving -/

section Runs

variable {s c} {upstream : Upstream}

/-- What a task of the service guarantees. -/
def TaskGuar (t : ℕ) (e : ℕ × ProjectTask s c) (w w' : World) : Prop :=
  ∀ isJson source, ProjectTask.source e.2 = some (isJson, source) → Guar s c isJson source t w w'

/-- What a background task does is within the guarantee of its kind. -/
theorem taskGuar_of_guar {t pid : ℕ} {kind : ProjectTask s c} {isJson : Bool}
    {source : Str → Prop} (hkind : ProjectTask.source kind = some (isJson, source)) (w w' : World)
    (h : Guar s c isJson source t w w') : TaskGuar t (pid, kind) w w' := by
  intro isJson' source' hsource
  obtain ⟨rfl, rfl⟩ := Prod.mk.inj (Option.some.inj (hkind.symm.trans hsource))
  exact h

def discipline : Discipline (replicas s c upstream) where
  Inv _ := True
  rely _ _ _ _ := True
  guar := TaskGuar
  post _ _ _ _ := True
  rely_refl _ _ _ := trivial
  rely_trans _ _ _ _ _ _ _ := trivial
  init _ _ := trivial
  env _ _ _ _ := ⟨trivial, fun _ _ => trivial⟩
  others _ _ _ _ _ _ _ _ _ _ := trivial
  post_stable _ _ _ _ _ _ _ _ := trivial
  start := by
    rintro t ⟨pid, kind⟩ w -
    cases kind with
    | request r =>
      refine Effects.wp_of_calls (Prog.calls_of_forall (P := fun _ => True) (fun _ => trivial) _) ?_
      exact fun _ _ _ _ _ _ _ => ⟨trivial, fun _ _ hsource => nomatch hsource⟩
    | enrich body isJson =>
      refine Effects.wp_mono_guar (Effects.wp_bind.mpr ?_) (taskGuar_of_guar rfl)
      exact Effects.wp_mono (commits.wp_enrich rfl) fun _ _ _ => trivial
    | extract isJson digest =>
      refine Effects.wp_mono_guar (Effects.wp_bind.mpr ?_) (taskGuar_of_guar rfl)
      exact Effects.wp_mono commits.wp_extractProjectAfterIdle fun _ _ _ => trivial

/-- **Safe commits.** In every interleaving, a conditional write of a background
task either commits from a body that the task was given, or changes nothing; and
its other calls change no key of a project. -/
theorem commits_safe {config : Config Op Ret World (ℕ × ProjectTask s c) TaskResult}
    (hreach : (replicas s c upstream).Reachable config) {t pid : ℕ} {kind : ProjectTask s c}
    {p : Program TaskResult} (htask : config.task t = some ((pid, kind), p)) {isJson : Bool}
    {source : Str → Prop} (hkind : ProjectTask.source kind = some (isJson, source)) :
    (∀ expected values committed config',
      (replicas s c upstream).Step config
        (.call t (.setexManyIfUnchanged expected values) committed) config' →
      if committed then
        ∃ body completedBody changed, source body ∧
          Completes s isJson body completedBody changed ∧
          Commit c isJson body completedBody config.world config'.world
      else config'.world = config.world) ∧
    ∀ o r config', (replicas s c upstream).Step config (.call t o r) config' →
      o.isConditional = false → Untouched config.world config'.world := by
  have hguar : ∀ o r config', (replicas s c upstream).Step config (.call t o r) config' →
      exec .redis upstream t o config.world r config'.world ∧
        Guar s c isJson source t config.world config'.world := by
    intro o r config' hstep
    cases hstep with
    | call hwait htask' hex =>
      obtain ⟨rfl, rfl⟩ := Prod.mk.inj (Option.some.inj (htask.symm.trans htask'))
      exact ⟨hex, ((discipline.sound hreach).call htask' hex).2.1 isJson source hkind⟩
  constructor
  · intro expected values committed config' hstep
    obtain ⟨hex, hguar⟩ := hguar _ _ _ hstep
    rcases exec_setexManyIfUnchanged hex with ⟨rfl, -, hw'⟩ | ⟨rfl, hw'⟩
    · rcases hguar with ⟨-, hnot⟩ | ⟨-, hcommit⟩
      · exact absurd ⟨values, by rw [hw']; rfl⟩ hnot
      · exact hcommit
    · exact hw'
  · intro o r config' hstep ho
    obtain ⟨hex, ⟨huntouched, -⟩ | ⟨hcommitted, -⟩⟩ := hguar o r config' hstep
    · exact huntouched
    · exact absurd hcommitted (not_committed_of_exec ho hex)

end Runs

/-! ## A commit -/

def one : Str := ("one" : Str)

def wheelName : Str := ("one-1.0-py3-none-any.whl" : Str)

/-- The document of a project with one wheel, with what is known of its metadata. -/
def document (metadata : List (Str × Json)) : Json :=
  let wheel : Json := .dict ([(("filename" : Str), .str wheelName),
    (("url" : Str), .str (("/artifacts/files.pythonhosted.org/" : Str) ++ wheelName)),
    (("hashes" : Str), .dict [])] ++ metadata)
  .dict [(("name" : Str), .str one), (("files" : Str), .list [wheel])]

/-- The document as it is fetched. -/
def plainBody : Str :=
  ("\x7b\"name\": \"one\", \"files\": [\x7b\"filename\": \"one-1.0-py3-none-any.whl\", " ++
    "\"url\": \"/artifacts/files.pythonhosted.org/one-1.0-py3-none-any.whl\", " ++
    "\"hashes\": \x7b\x7d\x7d]\x7d").toList

/-- The document with the native metadata advertised. -/
def advertisedBody : Str :=
  ("\x7b\"name\": \"one\", \"files\": [\x7b\"filename\": \"one-1.0-py3-none-any.whl\", " ++
    "\"url\": \"/artifacts/files.pythonhosted.org/one-1.0-py3-none-any.whl\", " ++
    "\"hashes\": \x7b\x7d, \"core-metadata\": true\x7d]\x7d").toList

def loadDocument (text : Str) : Except Raised Json :=
  if text = plainBody then .ok (document [])
  else if text = advertisedBody then .ok (document [(("core-metadata" : Str), .bool true)])
  else .error .valueError

def wheelSite : Site where
  U := asciiOnly
  D := {
    loads := loadDocument
    loadsBytes := fun content => loadDocument (asciiText content)
    dumps := fun _ => advertisedBody
    dumpsCompact := fun _ => []
    format := fun _ => []
    anchors := fun _ => .ok []
    withAnchors := fun text _ => text }
  float _ := none
  packaging := plainReleases
  settings := { rewriteArtifactUrls := false, enableBackgroundMetadata := true }

/-- The index has the document. -/
def servePlain (_ : ℕ) (_ : UpstreamRequest) : Option UpstreamResponse :=
  some { status := 200, contentType := some contentTypeJson, text := plainBody }

def upstreamPlain : Upstream := fun version request response =>
  response = servePlain version request

def wheelDriver : Driver (replicas wheelSite one upstreamPlain) Choice :=
  serviceDriver _ rfl rfl servePlain fun _ _ => rfl

/-- A request fills the cache, and discovery finds native metadata for the wheel;
it has everything but the conditional write behind it. -/
def discovery : List (Move (ℕ × ProjectTask wheelSite one) Choice) :=
  .start 0 (0, .request ⟨one, some contentTypeJson, by decide +kernel⟩) {} ::
    List.replicate 9 (.call 0 {}) ++
  .start 1 (0, .enrich plainBody true) {} :: List.replicate 11 (.call 1 { head := some 200 })

/-- The conditional write that a discovery is about to make. -/
def pendingCommit (t : ℕ)
    (config : Config Op Ret World (ℕ × ProjectTask wheelSite one) TaskResult) :
    Option (Str × Bool × List (Str × Option Str) × List Write) :=
  match config.task t with
  | some ((_, .enrich body isJson), .call (.setexManyIfUnchanged expected values) _) =>
    some (body, isJson, expected, values)
  | _ => none

theorem discovery_reaches_commit :
    (wheelDriver.replay discovery (Driver.boot emptyWorld)).any (fun config =>
      (pendingCommit 1 config).any fun (body, isJson, expected, _) =>
        body = plainBody ∧ isJson = true ∧
          config.world.store.Matches config.world.now expected) = true := by
  decide +kernel

theorem of_pendingCommit {t : ℕ} {body : Str} {isJson : Bool} {expected : List (Str × Option Str)}
    {values : List Write} {config : Config Op Ret World (ℕ × ProjectTask wheelSite one) TaskResult}
    (h : pendingCommit t config = some (body, isJson, expected, values)) :
    ∃ pid k, config.task t =
      some ((pid, .enrich body isJson), .call (.setexManyIfUnchanged expected values) k) := by
  unfold pendingCommit at h
  split at h
  · next pid _ _ _ _ k htask =>
    simp only [Option.some.injEq, Prod.mk.injEq] at h
    obtain ⟨rfl, rfl, rfl, rfl⟩ := h
    exact ⟨pid, k, htask⟩
  · cases h

/-- Discovery commits the wheel's native metadata. -/
theorem commits_safe_wheel :
    ∃ config config' expected values,
      (replicas wheelSite one upstreamPlain).Reachable config ∧
      (replicas wheelSite one upstreamPlain).Step config
        (.call 1 (.setexManyIfUnchanged expected values) true) config' ∧
      ∃ completedBody changed, Completes wheelSite true plainBody completedBody changed ∧
        Commit one true plainBody completedBody config.world config'.world := by
  obtain ⟨config, hreplay, hpending⟩ := (Option.any_eq_true _ _).mp discovery_reaches_commit
  obtain ⟨⟨body, isJson, expected, values⟩, hpending, hfound⟩ :=
    (Option.any_eq_true _ _).mp hpending
  obtain ⟨hbody, hjson, hmatches⟩ := of_decide_eq_true hfound
  obtain ⟨pid, k, htask⟩ := of_pendingCommit hpending
  rw [hbody, hjson] at htask
  obtain ⟨hreach, hquiet⟩ := Driver.replay_boot (S := replicas wheelSite one upstreamPlain)
    fresh_emptyWorld hreplay
  have hexec : exec .redis upstreamPlain 1 (.setexManyIfUnchanged expected values) config.world
      true ((config.world.write values).record (.committed 1 values)) := by
    simp only [exec, if_pos hmatches, and_self]
  have hstep : (replicas wheelSite one upstreamPlain).Step config
      (.call 1 (.setexManyIfUnchanged expected values) true) _ :=
    .call (fun u _ => hquiet u) htask hexec
  obtain ⟨body', completedBody, changed, hbody', hcompletes, hcommit⟩ :=
    (commits_safe hreach htask rfl).1 expected values true _ hstep
  rw [hbody'] at hcompletes hcommit
  exact ⟨config, _, expected, values, hreach, hstep, completedBody, changed, hcompletes, hcommit⟩

end ProxyCache.Theorems.Commits
