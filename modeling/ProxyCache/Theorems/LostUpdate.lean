import ProxyCache.App.Systems

/-!
# Lost updates between processes

A 304 refresh stores what it read before the exchange, unconditionally. Inside
one process the fill lock keeps a 200 of another request out of that window;
between processes nothing does.
-/

namespace ProxyCache.Theorems.LostUpdate

open ProxyCache.Lib ProxyCache.Python ProxyCache.App

variable (s : Site) (c : Str)

/-! ## What the log says -/

/-- The last exchange of `u` is a 200, and it is later than the last one of `t`. -/
def fetchedSince (u t : ℕ) : List Record → Bool
  | [] => false
  | .exchange v _ _ _ response :: log =>
    if v = u then response.status = 200 else if v = t then false else fetchedSince u t log
  | _ :: log => fetchedSince u t log

/-- The batches that other requests have stored from a 200, exchange and all
since the last exchange of `t`. -/
def newerFills (t : ℕ) : List Record → List (List Write)
  | [] => []
  | .exchange u _ _ _ _ :: log => if u = t then [] else newerFills t log
  | .stored u values :: log =>
    if u ≠ t ∧ fetchedSince u t log then values :: newerFills t log else newerFills t log
  | .committed _ _ :: log => newerFills t log

/-- The batch stores a current body of the project. -/
def storesBody (values : List Write) : Bool :=
  values.any fun x => x.key = projectKey c (.body true) || x.key = projectKey c (.body false)

/-- `t` has had a 304 and has not stored its batch yet. -/
def refreshing (t : ℕ) : List Record → Bool
  | [] => false
  | .exchange u _ _ _ response :: log =>
    if u = t then response.status = 304 else refreshing t log
  | .stored u values :: log => if u = t ∧ storesBody c values then false else refreshing t log
  | .committed _ _ :: log => refreshing t log

/-- A batch leaves what `fill` has stored as this part, and is still live, as it is. -/
def Preserves (part : ProjectPart) (fill values : List Write) (w : World) : Prop :=
  ∀ x ∈ values, ∀ y ∈ fill, x.key = projectKey c part → y.key = projectKey c part →
    w.get (projectKey c part) = some y.value → x.value = y.value

instance (part : ProjectPart) (fill values : List Write) (w : World) :
    Decidable (Preserves c part fill values w) :=
  inferInstanceAs (Decidable (∀ x ∈ values, ∀ y ∈ fill, _))

/-- The batch of `t` replaces no current body and no validator that a newer 200
has stored by another value. -/
def LosesNothing (t : ℕ) (values : List Write) (w : World) : Prop :=
  ∀ fill ∈ newerFills t w.log, ∀ part ∈ [ProjectPart.body true, .body false, .etag, .lastmod],
    Preserves c part fill values w

instance (t : ℕ) (values : List Write) (w : World) : Decidable (LosesNothing c t values w) :=
  inferInstanceAs (Decidable (∀ fill ∈ newerFills t w.log, ∀ part ∈ _, _))

/-- The task is inside the fill lock of its process. -/
def Holds (pid t : ℕ) (w : World) : Prop := w.held (pid, fillLockKey c) = some t

/-- The condition on a step: no batch is stored after a 200 while a request of
another process, inside its fill lock, is between an earlier 304 and its batch. -/
def FillsAlone (t : ℕ) (o : Op) (w : World) : Prop :=
  ∀ values, o = .setexMany values → ∀ u pid pid', Holds c pid t w → Holds c pid' u w →
    refreshing c u w.log = true → fetchedSince t u w.log = true → pid = pid'

/-- The runs of several processes whose fills are alone. -/
abbrev guarded (upstream : Upstream) : System Op Ret World (ℕ × Request s c) Outcome :=
  (manyProcesses s c upstream).restrict (FillsAlone c)

/-! ## The discipline of the requests -/

/-- What a request relies on: nobody answers or stores for it, its lock stays its
own, and inside it no 200 is stored between its 304 and its batch. -/
structure Rely (pid u : ℕ) (w w' : World) : Prop where
  lastExchange : lastExchange u w'.log = lastExchange u w.log
  refreshing : refreshing c u w'.log = refreshing c u w.log
  holds : Holds c pid u w → Holds c pid u w'
  newerFills : Holds c pid u w → LostUpdate.refreshing c u w.log = true →
    newerFills u w.log = [] → newerFills u w'.log = []

/-- What a request guarantees: a batch after a 304 comes with no newer fill, and
the others can rely on the rest. -/
structure Guar (t : ℕ) (w w' : World) : Prop where
  stored : ∀ values, w'.log = .stored t values :: w.log → ∀ version response,
    lastExchange t w.log = some (version, response) → response.status = 304 →
      newerFills t w.log = []
  rely : ∀ pid u, u ≠ t → Rely c pid u w w'

section Tasks

variable {c} {pid t u : ℕ} {w w' w'' : World}

theorem Rely.refl : Rely c pid u w w := ⟨rfl, rfl, id, fun _ _ => id⟩

theorem Rely.trans (h : Rely c pid u w w') (h' : Rely c pid u w' w'') : Rely c pid u w w'' where
  lastExchange := h'.lastExchange.trans h.lastExchange
  refreshing := h'.refreshing.trans h.refreshing
  holds hw := h'.holds (h.holds hw)
  newerFills hw hrefreshing hnone :=
    h'.newerFills (h.holds hw) (h.refreshing.trans hrefreshing) (h.newerFills hw hrefreshing hnone)

theorem not_stored_of_log (h : w'.log = w.log) {values : List Write} :
    w'.log ≠ .stored t values :: w.log := by
  intro hlog
  rw [h] at hlog
  exact absurd (congrArg List.length hlog) (by simp)

/-- A step that stores nothing and leaves the locks alone. -/
theorem guar_of_log (hlog : w'.log = w.log) (hheld : w'.held = w.held) : Guar c t w w' where
  stored values h := absurd h (not_stored_of_log hlog)
  rely pid u _ := by
    refine ⟨by rw [hlog], by rw [hlog], fun h => ?_, fun _ _ h => by rw [hlog]; exact h⟩
    rw [Holds, hheld]
    exact h

theorem guar_refl : Guar c t w w := guar_of_log rfl rfl

/-- A batch of a task that holds its lock: after a 200 because the fill is alone,
and because nobody else holds the same lock. -/
theorem guar_stored {values : List Write} (hholds : Holds c pid t w)
    (halone : FillsAlone c t (.setexMany values) w)
    (hstored : ∀ version response, lastExchange t w.log = some (version, response) →
      response.status = 304 → newerFills t w.log = []) :
    Guar c t w ((w.write values).record (.stored t values)) where
  stored values' h := by
    obtain rfl : values = values' := by simpa using (List.cons.inj h).1
    exact hstored
  rely pid' u hu := by
    refine ⟨rfl, ?_, id, fun hholds' hrefreshing hnone => ?_⟩
    · exact if_neg fun h => hu h.1.symm
    have hnot : fetchedSince t u w.log ≠ true := by
      -- in one process, the fill lock keeps the two apart
      intro hfetched
      obtain rfl := halone values rfl u pid pid' hholds hholds' hrefreshing hfetched
      exact hu (Option.some.inj (hholds'.symm.trans hholds))
    show newerFills u (.stored t values :: w.log) = []
    rw [newerFills, if_neg (by simp [hnot])]
    exact hnone

/-- A record of `t` that is no batch. -/
theorem guar_of_record {r : Record} (hlog : w'.log = r :: w.log) (hheld : w'.held = w.held)
    (hne : ∀ values, r ≠ .stored t values)
    (hlast : ∀ u, u ≠ t → lastExchange u (r :: w.log) = lastExchange u w.log)
    (hrefreshing : ∀ u, u ≠ t → refreshing c u (r :: w.log) = refreshing c u w.log)
    (hnewer : ∀ u, u ≠ t → newerFills u (r :: w.log) = newerFills u w.log) : Guar c t w w' where
  stored values h := by
    rw [hlog] at h
    exact absurd (List.cons.inj h).1 (hne values)
  rely pid u hu := by
    refine ⟨by rw [hlog, hlast u hu], by rw [hlog, hrefreshing u hu], fun h => ?_, fun _ _ h => ?_⟩
    · rw [Holds, hheld]
      exact h
    · rw [hlog, hnewer u hu]
      exact h

theorem guar_committed {values : List Write} :
    Guar c t w ((w.write values).record (.committed t values)) :=
  guar_of_record rfl rfl (by simp) (fun _ _ => rfl) (fun _ _ => rfl) fun _ _ => rfl

/-- A conditional write changes no lock, and nothing that the log is asked for. -/
theorem guar_conditional {upstream : Upstream} {expected : List (Str × Option Str)}
    {values : List Write} {committed : Bool}
    (hex : exec .redis upstream t (.setexManyIfUnchanged expected values) w committed w') :
    Guar c t w w' ∧ w'.held = w.held := by
  rcases exec_setexManyIfUnchanged hex with ⟨-, -, rfl⟩ | ⟨-, rfl⟩
  · exact ⟨guar_committed, rfl⟩
  · exact ⟨guar_refl, rfl⟩

end Tasks

section Requests

variable {s c} {upstream : Upstream} {pid t : ℕ} {w w' : World} {r : ProjectRequest}
  {response : UpstreamResponse}

theorem guarded_exec {o : Op} {a : Ret o} (h : (guarded s c upstream).exec t o w a w') :
    exec .redis upstream t o w a w' ∧ FillsAlone c t o w := h

/-- A task can run `p` within the discipline. -/
abbrev Runs {α : Type} (s : Site) (c : Str) (upstream : Upstream) (pid t : ℕ)
    (Q : α → World → Prop) (p : Program α) (w : World) : Prop :=
  (guarded s c upstream).wp (fun _ => True) (Rely c pid t) (Guar c t) t Q p w

/-- Between the exchange and its batch, inside the fill lock. -/
structure Answered (c : Str) (pid t : ℕ) (response : UpstreamResponse) (w : World) : Prop where
  holds : Holds c pid t w
  exchange : ∃ version, lastExchange t w.log = some (version, response)
  pending : response.status = 304 → refreshing c t w.log = true ∧ newerFills t w.log = []

theorem Answered.rely (h : Answered c pid t response w) (hrely : Rely c pid t w w') :
    Answered c pid t response w' where
  holds := hrely.holds h.holds
  exchange := by
    rw [hrely.lastExchange]
    exact h.exchange
  pending hstatus := by
    obtain ⟨hrefreshing, hnone⟩ := h.pending hstatus
    exact ⟨hrely.refreshing.trans hrefreshing, hrely.newerFills h.holds hrefreshing hnone⟩

/-- Reading keeps what the others do not disturb. -/
theorem keeps_read {A : World → Prop} (hstable : ∀ w w', A w → Rely c pid t w w' → A w') {o : Op}
    (ho : o.isRead) :
    (guarded s c upstream).Keeps (fun _ => True) (Rely c pid t) (Guar c t) t A o := by
  intro w hA
  refine Effects.wp_call_of_stable hA hstable fun w₁ a w₂ hA₁ _ hex => ?_
  obtain rfl := eq_of_isRead ho (guarded_exec hex).1
  exact ⟨trivial, guar_refl, hA₁⟩

/-- Serving from the cache stores no batch of a fetch. -/
theorem serves {A : World → Prop} (hstable : ∀ w w', A w → Rely c pid t w w' → A w')
    (hheld : ∀ w w', A w → w'.held = w.held → A w') :
    Serves (guarded s c upstream).toEffects (fun _ => True) (Rely c pid t) (Guar c t) t s r A
      (fun _ => A) where
  read _ ho := keeps_read hstable ho
  elapse w hA := by
    refine Effects.wp_call_of_stable hA hstable fun w₁ _ w₂ hA₁ _ hex => ?_
    obtain ⟨now, -, rfl⟩ := (guarded_exec hex).1
    exact ⟨trivial, guar_of_log rfl rfl, hheld _ _ hA₁ rfl⟩
  sample w hA :=
    Effects.wp_mono (keeps_read hstable rfl w hA) fun _ _ hA₁ => ⟨hA₁, fun _ _ => hA₁⟩
  resample _ := keeps_read hstable rfl
  commit other body n staleTtl _ w hA := by
    refine Effects.wp_call_of_stable hA hstable fun w₁ committed w₂ hA₁ _ hex => ?_
    obtain ⟨hguar, hsame⟩ := guar_conditional (guarded_exec hex).1
    exact ⟨trivial, hguar, hheld _ _ hA₁ hsame⟩

/-- Storing a batch with an answer in hand. -/
theorem runs_store {A : World → Prop} {values : List Write}
    (hanswered : Answered c pid t response w)
    (hA : ∀ w, Answered c pid t response w → A ((w.write values).record (.stored t values))) :
    Runs s c upstream pid t (fun _ => A) (call (.setexMany values)) w := by
  refine Effects.wp_call_of_stable hanswered (fun _ _ h hrely => h.rely hrely)
    fun w₁ _ w₂ hanswered₁ _ hex => ?_
  obtain ⟨hex, halone⟩ := guarded_exec hex
  obtain rfl : w₂ = (w₁.write values).record (.stored t values) := hex
  refine ⟨trivial, guar_stored hanswered₁.holds halone fun version response' hlast hstatus => ?_,
    hA w₁ hanswered₁⟩
  obtain ⟨version', hexchange⟩ := hanswered₁.exchange
  obtain ⟨-, rfl⟩ := Prod.mk.inj (Option.some.inj (hexchange.symm.trans hlast))
  exact (hanswered₁.pending hstatus).2

theorem fetches :
    Fetches (guarded s c upstream).toEffects (fun _ => True) (Rely c pid t) (Guar c t) t s r
      (Holds c pid t) (Answered c pid t) where
  read _ ho := keeps_read (fun _ _ h hrely => hrely.holds h) ho
  leave _ _ h := h.holds
  lookup _ _ := keeps_read (fun _ _ h hrely => h.rely hrely) rfl
  get request w hholds := by
    refine Effects.wp_call_of_stable hholds (fun _ _ h hrely => hrely.holds h)
      fun w₁ answer w₂ hholds₁ _ hex => ?_
    obtain ⟨-, hw₂⟩ := (guarded_exec hex).1
    cases answer with
    | none =>
      obtain rfl : w₂ = w₁ := hw₂
      exact ⟨trivial, guar_refl, hholds₁, by simp⟩
    | some response =>
      obtain rfl : w₂ = w₁.record (.exchange t w₁.now w₁.version request response) := hw₂
      refine ⟨trivial, ?_, hholds₁, ?_⟩
      · exact guar_of_record rfl rfl (by simp) (fun u hu => if_neg (Ne.symm hu))
          (fun u hu => if_neg (Ne.symm hu)) fun u hu => if_neg (Ne.symm hu)
      · rintro _ ⟨⟩
        refine ⟨hholds₁, ⟨w₁.version, if_pos rfl⟩, fun hstatus => ⟨?_, if_pos rfl⟩⟩
        simp [World.record, refreshing, hstatus]
  mark _ _ _ hanswered := runs_store hanswered fun _ h => h.holds
  fill _ _ _ _ _ hanswered := runs_store hanswered fun _ h => h.holds
  restale _ other _ _ hanswered := by
    refine runs_store hanswered fun w h => ⟨h.holds, h.exchange, fun hstatus => ?_⟩
    obtain ⟨hrefreshing, hnone⟩ := h.pending hstatus
    have hstale : storesBody c [⟨r.otherStaleKey, s.settings.cacheStaleTtlSeconds, other⟩] =
      false := by
      simp [storesBody, ProjectRequest.otherStaleKey]
    refine ⟨?_, ?_⟩
    · simpa [World.record, World.write, refreshing, hstale] using hrefreshing
    · simpa [World.record, World.write, newerFills] using hnone
  refresh _ _ _ _ _ hanswered := runs_store hanswered fun _ h => h.holds
  ready body isJson ttl w hholds := by
    refine Effects.wp_call_of_stable hholds (fun _ _ h hrely => hrely.holds h)
      fun w₁ committed w₂ hholds₁ _ hex => ?_
    obtain ⟨hguar, hsame⟩ := guar_conditional (guarded_exec hex).1
    refine ⟨trivial, hguar, ?_⟩
    show w₂.held _ = _
    rw [hsame]
    exact hholds₁

/-- A task that takes or gives back a lock. -/
theorem guar_setHeld {lock : ℕ × Str} {holder : Option ℕ}
    (hothers : ∀ u, u ≠ t → w.held lock ≠ some u) : Guar c t w (w.setHeld lock holder) where
  stored values h := absurd h (not_stored_of_log rfl)
  rely pid u hu := by
    refine ⟨rfl, rfl, fun hholds => ?_, fun _ _ h => h⟩
    have hlock : (pid, fillLockKey c) ≠ lock := by
      intro hlock
      rw [Holds, hlock] at hholds
      exact hothers u hu hholds
    show Function.update w.held lock holder (pid, fillLockKey c) = some u
    rw [Function.update_of_ne hlock]
    exact hholds

/-- A request, from its first look at the cache to its response. -/
theorem runs_serveProject (hr : r.canonical = c) :
    Runs s c upstream pid t (fun _ _ => True) (serveProject s pid r) w := by
  unfold serveProject withLock
  rw [hr]
  simp only [Prog.op_bind]
  refine Effects.wp_bind.mpr (Effects.wp_mono ((serves (fun _ _ _ _ => trivial)
    fun _ _ _ _ => trivial).wp_tryServeFromCache trivial) ?_)
  rintro (e | _ | hit) w₁ -
  · trivial
  · refine Effects.wp_call_of_stable trivial (fun _ _ _ _ => trivial) fun w₂ _ w₃ _ _ hex => ?_
    obtain ⟨hfree, rfl⟩ := (guarded_exec hex).1
    refine ⟨trivial, guar_setHeld fun u _ => by rw [hfree]; nofun, ?_⟩
    have hholds : Holds c pid t (w₂.setHeld (pid, fillLockKey c) (some t)) :=
      Function.update_self ..
    refine Effects.wp_bind.mpr (Effects.wp_mono (fetches.wp_fill (serves
      (fun _ _ h hrely => hrely.holds h) fun w w' h hheld => ?_) hholds)
      fun outcome w₄ hholds₄ => ?_)
    · show w'.held _ = _
      rw [hheld]
      exact h
    refine Effects.wp_call_of_stable hholds₄ (fun _ _ h hrely => hrely.holds h)
      fun w₅ _ w₆ hholds₅ _ hex => ⟨trivial, ?_, trivial⟩
    obtain rfl : w₆ = w₅.setHeld (pid, fillLockKey c) none := (guarded_exec hex).1
    refine guar_setHeld fun u hu hother => hu ?_
    exact Option.some.inj (hother.symm.trans hholds₅)
  · trivial

end Requests

section Main

variable {s c} {upstream : Upstream} {t : ℕ}
  {config config' : Config Op Ret World (ℕ × Request s c) Outcome}

def discipline : Discipline (guarded s c upstream) where
  Inv _ := True
  rely t e := Rely c e.1 t
  guar t _ := Guar c t
  post _ _ _ _ := True
  rely_refl _ _ _ := Rely.refl
  rely_trans _ _ _ _ _ h h' := h.trans h'
  init _ _ := trivial
  env w w' _ hdrift := by
    refine ⟨trivial, fun t e => ?_⟩
    have hdrift : Drift w w' := hdrift
    refine ⟨by rw [hdrift.log], by rw [hdrift.log], fun h => ?_, fun _ _ h => by rwa [hdrift.log]⟩
    rw [Holds, hdrift.held]
    exact h
  others t _ u e' _ _ hu _ _ h := h.rely e'.1 u hu
  post_stable _ _ _ _ _ _ _ _ := trivial
  start t e w _ := runs_serveProject e.2.canonical

/-- **No lost update.** In every run of any number of processes over one store in
which no process stores a 200 while another is between an earlier 304 and its
batch, a 304 refresh replaces no current body and no validator of a newer 200. -/
theorem no_lost_update (hreach : (guarded s c upstream).Reachable config) {values : List Write}
    (hstep : (guarded s c upstream).Step config (.call t (.setexMany values) ()) config')
    {version : ℕ} {response : UpstreamResponse}
    (hlast : lastExchange t config.world.log = some (version, response))
    (hstatus : response.status = 304) : LosesNothing c t values config.world := by
  have hnone : newerFills t config.world.log = [] := by
    cases hstep with
    | @call t e o k r w' hwait htask hex =>
      have hguar : Guar c t config.world w' := ((discipline.sound hreach).call htask hex).2.1
      obtain rfl : w' = (config.world.write values).record (.stored t values) := hex.1
      exact hguar.stored values rfl version response hlast hstatus
  rw [LosesNothing, hnone]
  intro fill hfill
  cases hfill

end Main

/-! ## Two processes -/

section Scenario

def one : Str := ("one" : Str)

def site : Site where
  U := asciiOnly
  D := {
    loads := fun _ => .error .valueError
    loadsBytes := fun _ => .error .valueError
    dumps := fun _ => []
    dumpsCompact := fun _ => []
    format := fun _ => []
    anchors := fun _ => .ok []
    withAnchors := fun text _ => text }
  float _ := none
  packaging := plainReleases
  settings := { rewriteArtifactUrls := false }

/-- The pages of the project before and after version 1, and their tags. -/
def page (version : ℕ) : Str :=
  if version = 0 then "<html><body>old</body></html>".toList
  else "<html><body>new</body></html>".toList

def tag (version : ℕ) : Str := if version = 0 then ("\"0\"" : Str) else ("\"1\"" : Str)

def serve (version : ℕ) (request : UpstreamRequest) : Option UpstreamResponse :=
  if request.ifNoneMatch = some (tag version) then some { status := 304 }
  else some { status := 200, contentType := some contentTypeHtml, etag := some (tag version),
              text := page version }

def upstream : Upstream := fun version request response => response = serve version request

def driver : Driver (manyProcesses site one upstream) Choice :=
  serviceDriver _ rfl rfl serve fun _ _ => rfl

/-- A request for the page in one of the processes, and its first `n` calls. -/
def request (t pid n : ℕ) : List (Move (ℕ × Request site one) Choice) :=
  .start t (pid, ⟨one, some contentTypeHtml, by decide +kernel⟩) {} :: List.replicate n (.call t {})

/-- The batch that a task is about to store. -/
def pendingBatch (t : ℕ) (config : Config Op Ret World (ℕ × Request site one) Outcome) :
    Option (List Write) :=
  match config.task t with
  | some (_, .call (.setexMany values) _) => some values
  | _ => none

/-- While one process refreshes the page after a 304, the page changes, and the
other process fetches and stores the new one. -/
def overlapping : List (Move (ℕ × Request site one) Choice) :=
  request 0 0 9 ++ [.env { elapsed := 100 }] ++ request 1 1 9 ++ [.env { published := 1 }]
    ++ request 2 0 10

theorem overlapping_loses :
    (driver.replay overlapping (Driver.boot emptyWorld)).any (fun config =>
      (pendingBatch 1 config).any fun values =>
        (lastExchange 1 config.world.log).any (fun x => x.2.status = 304) &&
          !decide (LosesNothing one 1 values config.world)) = true := by
  decide +kernel

theorem of_pendingBatch {t : ℕ} {values : List Write}
    {config : Config Op Ret World (ℕ × Request site one) Outcome}
    (h : pendingBatch t config = some values) :
    ∃ e k, config.task t = some (e, .call (.setexMany values) k) := by
  unfold pendingBatch at h
  split at h
  · next e _ k htask =>
    obtain rfl := Option.some.inj h
    exact ⟨e, k, htask⟩
  · cases h

/-- A refresh puts the old page and its tag back over the new ones. -/
theorem not_lossless_overlapping :
    ¬ ∀ (s : Site) (c : Str) (upstream : Upstream)
      (config config' : Config Op Ret World (ℕ × Request s c) Outcome) (t : ℕ)
      (values : List Write) (version : ℕ) (response : UpstreamResponse),
      (manyProcesses s c upstream).Reachable config →
      (manyProcesses s c upstream).Step config (.call t (.setexMany values) ()) config' →
      lastExchange t config.world.log = some (version, response) → response.status = 304 →
        LosesNothing c t values config.world := by
  intro h
  obtain ⟨config, hreplay, hpending⟩ := (Option.any_eq_true _ _).mp overlapping_loses
  obtain ⟨values, hpending, hfound⟩ := (Option.any_eq_true _ _).mp hpending
  obtain ⟨hlast, hloses⟩ := Bool.and_eq_true_iff.mp hfound
  obtain ⟨⟨version, response⟩, hlast, hstatus⟩ := (Option.any_eq_true _ _).mp hlast
  obtain ⟨e, k, htask⟩ := of_pendingBatch hpending
  obtain ⟨hreach, hquiet⟩ := Driver.replay_boot (S := manyProcesses site one upstream)
    fresh_emptyWorld hreplay
  have hstep : (manyProcesses site one upstream).Step config (.call 1 (.setexMany values) ()) _ :=
    .call (fun u _ => hquiet u) htask rfl
  have hkept : LosesNothing one 1 values config.world :=
    h site one upstream config _ 1 values version response hreach hstep hlast
    (of_decide_eq_true hstatus)
  rw [decide_eq_true hkept] at hloses
  cases hloses

/-- Nothing in the log is a 304, or the task has not fetched a 200. -/
def noRefresh (t : ℕ) (o : Op) (w : World) : Bool :=
  match o with
  | .setexMany _ =>
    w.log.all (fun
      | .exchange _ _ _ _ response => response.status != 304
      | _ => true) || (lastExchange t w.log).all (fun x => x.2.status != 200)
  | _ => true

theorem status_of_fetchedSince {t u : ℕ} {log : List Record} (h : fetchedSince u t log = true) :
    ∃ version response, lastExchange u log = some (version, response) ∧ response.status = 200 := by
  induction log with
  | nil => cases h
  | cons r log ih =>
    cases r with
    | exchange v time version request response =>
      simp only [fetchedSince] at h
      split at h
      · next hv => exact ⟨version, response, if_pos hv, of_decide_eq_true h⟩
      · next hv =>
        split at h
        · cases h
        · rw [lastExchange, if_neg hv]
          exact ih h
    | stored | committed => exact ih h

theorem refreshing_mem {c : Str} {u : ℕ} {log : List Record} (h : refreshing c u log = true) :
    ∃ time version request response, Record.exchange u time version request response ∈ log ∧
      response.status = 304 := by
  induction log with
  | nil => cases h
  | cons r log ih =>
    have hrest : refreshing c u log = true →
        ∃ time version request response, Record.exchange u time version request
        response ∈ r :: log ∧
          response.status = 304 := by
      intro hlog
      obtain ⟨time, version, request, response, hmem, hstatus⟩ := ih hlog
      exact ⟨time, version, request, response, List.mem_cons_of_mem _ hmem, hstatus⟩
    cases r with
    | exchange v time version request response =>
      simp only [refreshing] at h
      split at h
      · next hv =>
        rw [hv]
        exact ⟨time, version, request, response, List.mem_cons_self, of_decide_eq_true h⟩
      · exact hrest h
    | stored v values =>
      simp only [refreshing] at h
      split at h
      · cases h
      · exact hrest h
    | committed => exact hrest h

theorem fillsAlone_of_noRefresh {c : Str} {t : ℕ} {o : Op} {w : World}
    (h : noRefresh t o w = true) : FillsAlone c t o w := by
  rintro values rfl u pid pid' - - hrefreshing hfetched
  obtain ⟨version, response, hlast, hstatus⟩ := status_of_fetchedSince hfetched
  obtain ⟨_, _, _, response', hmem, hstatus'⟩ := refreshing_mem hrefreshing
  rcases Bool.or_eq_true_iff.mp h with hall | hnone
  · have := List.all_eq_true.mp hall _ hmem
    simp [hstatus'] at this
  · simp [hlast, hstatus] at hnone

def guardedDriver : Driver (guarded site one upstream) Choice :=
  driver.restrict noRefresh fillsAlone_of_noRefresh

/-- A page is fetched by one process and refreshed by the other. -/
def successive : List (Move (ℕ × Request site one) Choice) :=
  request 0 0 9 ++ [.env { elapsed := 100 }] ++ request 1 1 9

theorem successive_refreshes :
    (guardedDriver.replay successive (Driver.boot emptyWorld)).any (fun config =>
      (pendingBatch 1 config).any fun values =>
        (lastExchange 1 config.world.log).any (fun x => x.2.status = 304) &&
          noRefresh 1 (.setexMany values) config.world) = true := by
  decide +kernel

theorem no_lost_update_successive :
    ∃ config config' values,
      (guarded site one upstream).Reachable config ∧
      (guarded site one upstream).Step config (.call 1 (.setexMany values) ()) config' ∧
      LosesNothing one 1 values config.world := by
  obtain ⟨config, hreplay, hpending⟩ := (Option.any_eq_true _ _).mp successive_refreshes
  obtain ⟨values, hpending, hfound⟩ := (Option.any_eq_true _ _).mp hpending
  obtain ⟨hlast, hcheck⟩ := Bool.and_eq_true_iff.mp hfound
  obtain ⟨⟨version, response⟩, hlast, hstatus⟩ := (Option.any_eq_true _ _).mp hlast
  obtain ⟨e, k, htask⟩ := of_pendingBatch hpending
  obtain ⟨hreach, hquiet⟩ := Driver.replay_boot (S := guarded site one upstream)
    fresh_emptyWorld hreplay
  have hstep : (guarded site one upstream).Step config (.call 1 (.setexMany values) ()) _ :=
    .call (fun u _ => hquiet u) htask ⟨rfl, fillsAlone_of_noRefresh hcheck⟩
  exact ⟨config, _, values, hreach, hstep,
    no_lost_update hreach hstep hlast (of_decide_eq_true hstatus)⟩

end Scenario

end ProxyCache.Theorems.LostUpdate
