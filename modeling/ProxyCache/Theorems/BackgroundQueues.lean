import ProxyCache.App.Queues

/-!
# The background queues

Whatever the order in which functions are called, coroutines go on, tasks finish and callbacks
run: each step is an operation on each of the two tables, and while the application closes down it
adds no task. The tables are therefore well kept, and empty from the return of
`cancel_metadata_tasks` on.
-/

namespace ProxyCache.Theorems.BackgroundQueues

open ProxyCache.Lib ProxyCache.Python ProxyCache.App ProxyCache.App.Background

variable {P : Packaging} {settings : Settings} {s s' : Background}

/-! ## Sound tables -/

/-- A table is within its limit, and its entries include all unfinished tasks, of which each key has
one at most. -/
structure SoundTable {κ : Type} [DecidableEq κ] (limit : ℤ) (q : TaskQueue κ Job) : Prop where
  bounded : (q.size : ℤ) ≤ max 0 limit
  unique : ∀ (t t' : ℕ) (task task' : BackgroundTask κ Job), q.tasks[t]? = some task →
    q.tasks[t']? = some task' →
    task.life = .unfinished → task'.life = .unfinished → task.key = task'.key → t = t'
  mapped : ∀ t task, q.tasks[t]? = some task → task.life = .unfinished →
    q.pending.lookup task.key = some t

/-- A callback removes no other task, only a full table drops a request, and what waits for all
tasks returns with empty tables. -/
structure SoundStep (settings : Settings) (s : Background) (e : Event) (notice : Notice)
    (s' : Background) : Prop where
  callback : ∀ t, e = .callback t → ∀ k t', s.pending.pending.lookup k = some t' → t' ≠ t →
    s'.pending.pending.lookup k = some t'
  callbackExtraction : ∀ t, e = .callbackExtraction t → ∀ k t',
    s.extractionPending.pending.lookup k = some t' → t' ≠ t →
      s'.extractionPending.pending.lookup k = some t'
  dropped : ∀ k, notice = .enrichment k .dropped →
    TaskQueue.Full settings.metadataMaxPendingProjects s.pending k
  droppedExtraction : ∀ k, notice = .extraction k .dropped →
    TaskQueue.Full settings.metadataMaxPendingExtractionProjects s.extractionPending k
  returned : notice = .returned → s'.idle = true

/-- `cancel_metadata_tasks` was called as a coroutine that returned, and since the call the
background work has not been started again. -/
def CancelReturned (events : List (Event × Notice)) : Prop :=
  ∃ before during after i notice e, events = before ++ (during ++ after) ∧
    during.head? = some (.cancel i, notice) ∧ during.getLast? = some (e, .returned) ∧
    (e = .cancel i ∨ e = .gathered i) ∧ ∀ x ∈ during ++ after, x.1 ≠ .start

/-! ## Steps as operations on the tables -/

/-- What a step does: one operation on each table, which adds no task while closing. -/
structure Moves (settings : Settings) (s s' : Background) : Prop where
  pending : ∃ a : TaskQueue.Action Str Job,
    s'.pending = TaskQueue.act settings.metadataMaxPendingProjects s.pending a ∧
      (s.closing = true → a.Shrinks)
  extractionPending : ∃ a : TaskQueue.Action ExtractionKey Job,
    s'.extractionPending =
      TaskQueue.act settings.metadataMaxPendingExtractionProjects s.extractionPending a ∧
      (s.closing = true → a.Shrinks)

/-- Sweeping nothing changes nothing. -/
theorem stays {κ : Type} [DecidableEq κ] (limit : ℤ) (q : TaskQueue κ Job) (closing : Bool) :
    ∃ a : TaskQueue.Action κ Job, q = TaskQueue.act limit q a ∧ (closing = true → a.Shrinks) :=
  ⟨.sweep [], rfl, fun _ => trivial⟩

theorem moves_refl : Moves settings s s := ⟨stays _ _ _, stays _ _ _⟩

/-- A step of any kind but `start_metadata_tasks`, and what it ended with. -/
structure Allowed (settings : Settings) (s s' : Background) (notice : Notice) : Prop where
  moves : Moves settings s s'
  closing : s.closing = true → s'.closing = true
  returned : notice = .returned → s'.idle = true
  enrichment : ∀ k result, notice = .enrichment k result →
    ∃ job, (s.pending.submit settings.metadataMaxPendingProjects k job).2 = result
  extraction : ∀ k result, notice = .extraction k result →
    ∃ job,
      (s.extractionPending.submit settings.metadataMaxPendingExtractionProjects k job).2 = result

theorem allowed_skipped (h : Moves settings s s')
    (hclosing : s.closing = true → s'.closing = true) :
    Allowed settings s s' .skipped :=
  ⟨h, hclosing, nofun, nofun, nofun⟩

theorem allowed_refl : Allowed settings s s .skipped := allowed_skipped moves_refl id

theorem allowed_waits (h : Moves settings s s') (hclosing : s.closing = true → s'.closing = true) :
    Allowed settings s s' .waits :=
  ⟨h, hclosing, nofun, nofun, nofun⟩

/-! ### Scheduling -/

theorem allowed_scheduleMetadataEnrichment (canonical body : Str) (isJson : Bool) :
    Allowed settings s (s.scheduleMetadataEnrichment P settings canonical body isJson).1
      (s.scheduleMetadataEnrichment P settings canonical body isJson).2 := by
  unfold Background.scheduleMetadataEnrichment
  split
  · exact allowed_refl
  · next hopen =>
    have hmoves : s.closing = true → False := fun hclosing => hopen (by rw [hclosing, Bool.or_true])
    refine ⟨⟨⟨.submit _ (.enrich _ body isJson), rfl, fun h => (hmoves h).elim⟩, stays _ _ _⟩, id,
      nofun, ?_, nofun⟩
    rintro k result hnotice
    obtain ⟨rfl, rfl⟩ := Notice.enrichment.inj hnotice
    exact ⟨_, rfl⟩

theorem allowed_scheduleProjectExtraction (canonical body : Str) (isJson : Bool) :
    Allowed settings s (s.scheduleProjectExtraction settings canonical body isJson).1
      (s.scheduleProjectExtraction settings canonical body isJson).2 := by
  unfold Background.scheduleProjectExtraction
  split
  · exact allowed_refl
  · next hopen =>
    refine ⟨⟨stays _ _ _, ⟨.submit _ (.extract canonical isJson _), rfl, fun h => absurd h hopen⟩⟩,
      id, nofun, nofun, ?_⟩
    rintro k result hnotice
    obtain ⟨rfl, rfl⟩ := Notice.extraction.inj hnotice
    exact ⟨_, rfl⟩

/-! ### Coroutines -/

/-- What a coroutine ended with, or that it waits. -/
def Progress.notice : Progress → Notice
  | .ends notice => notice
  | .awaits _ => .waits

theorem Allowed.proceed {i : ℕ} {call : Background × Progress}
    (h : Allowed settings s call.1 (Progress.notice call.2)) :
    Allowed settings s (proceed i call).1 (proceed i call).2 := by
  rcases call with ⟨s₁, notice | a⟩
  · exact ⟨⟨h.moves.pending, h.moves.extractionPending⟩, h.closing, h.returned,
      h.enrichment, h.extraction⟩
  · exact ⟨⟨h.moves.pending, h.moves.extractionPending⟩, h.closing, h.returned,
      h.enrichment, h.extraction⟩

theorem allowed_ensureMetadataBackgroundWork (canonical body : Str) (isJson : Bool) :
    Allowed settings s s
      (Progress.notice (s.ensureMetadataBackgroundWork P settings canonical body isJson)) := by
  unfold Background.ensureMetadataBackgroundWork
  split
  · exact allowed_refl
  dsimp only
  split
  · exact allowed_refl
  split
  · exact allowed_refl
  · exact allowed_waits moves_refl id

theorem allowed_ensureDiscovered (canonical body : Str) (isJson : Bool) (discovered : Option Str) :
    Allowed settings s (s.ensureDiscovered settings canonical body isJson discovered).1
      (Progress.notice (s.ensureDiscovered settings canonical body isJson discovered).2) := by
  unfold ensureDiscovered
  split
  · exact allowed_scheduleProjectExtraction canonical body isJson
  · exact allowed_waits moves_refl id

theorem allowed_ensureBodyTtl (canonical body : Str) (isJson : Bool) (ttl : Option ℤ) :
    Allowed settings s (s.ensureBodyTtl P settings canonical body isJson ttl).1
      (Progress.notice (s.ensureBodyTtl P settings canonical body isJson ttl).2) := by
  unfold ensureBodyTtl
  split
  · exact allowed_scheduleMetadataEnrichment canonical body isJson
  · exact allowed_refl

/-! ### Waiting for all tasks -/

theorem idle_iff : s.idle = true ↔ s.pending.size = 0 ∧ s.extractionPending.size = 0 := by
  rw [idle, Bool.and_eq_true, beq_iff_eq, beq_iff_eq]

/-- `drain_metadata_tasks` goes on after a move. -/
theorem allowed_drainMetadataTasks (h : Moves settings s s')
    (hclosing : s.closing = true → s'.closing = true) :
    Allowed settings s s' (Progress.notice s'.drainMetadataTasks) := by
  unfold drainMetadataTasks
  split
  · next hidle => exact ⟨h, hclosing, fun _ => hidle, nofun, nofun⟩
  · exact allowed_waits h hclosing

theorem moves_drained (discovery : List (Str × ℕ)) (extraction : List (ExtractionKey × ℕ)) :
    Moves settings s (s.drained discovery extraction) :=
  ⟨⟨.sweep discovery, rfl, fun _ => trivial⟩, ⟨.sweep extraction, rfl, fun _ => trivial⟩⟩

/-- Clearing an empty table changes nothing. -/
theorem clear_eq {κ : Type} {q : TaskQueue κ Job} (h : q.size = 0) :
    { q with pending := ∅ } = q := by
  have hentries : q.pending.entries = [] := List.map_eq_nil_iff.mp (List.length_eq_zero_iff.mp h)
  have hpending : q.pending = ∅ := AList.ext hentries
  rw [← hpending]

/-- `cancel_metadata_tasks` goes on after a move. -/
theorem allowed_cancelLoop (h : Moves settings s s')
    (hclosing : s.closing = true → s'.closing = true) :
    Allowed settings s s'.cancelLoop.1 (Progress.notice s'.cancelLoop.2) := by
  unfold cancelLoop
  split
  · next hidle =>
    rw [clear_eq (idle_iff.mp hidle).1, clear_eq (idle_iff.mp hidle).2]
    exact ⟨h, hclosing, fun _ => hidle, nofun, nofun⟩
  · exact allowed_waits h hclosing

theorem moves_cancelled : Moves settings s s.cancelled :=
  ⟨⟨.sweep s.pending.items, s.pending.discard_eq_sweep, fun _ => trivial⟩,
    ⟨.sweep s.extractionPending.items, s.extractionPending.discard_eq_sweep, fun _ => trivial⟩⟩

theorem cancelLoop_closing : s.cancelLoop.1.closing = s.closing := by
  unfold cancelLoop
  split
  · rfl
  · rfl

/-! ### Every step -/

section Steps

variable {e : Event} {notice : Notice}

theorem allowed_of_spawn {i : ℕ} {call : Background × Progress}
    (h : s.spawn i call = some (s', notice))
    (hcall : Allowed settings s call.1 (Progress.notice call.2)) :
    Allowed settings s s' notice := by
  unfold spawn at h
  split at h
  · obtain ⟨rfl, rfl⟩ := Prod.mk.inj (Option.some.inj h)
    exact hcall.proceed
  · cases h

theorem allowed_of_proceed {i : ℕ} {call : Background × Progress}
    (h : some (proceed i call) = some (s', notice))
    (hcall : Allowed settings s call.1 (Progress.notice call.2)) :
    Allowed settings s s' notice := by
  obtain ⟨rfl, rfl⟩ := Prod.mk.inj (Option.some.inj h)
  exact hcall.proceed

/-- An event on the tables that ends with nothing. -/
theorem allowed_of_guarded {p : Prop} [Decidable p] {s₁ : Background}
    (h : (if p then some (s₁, Notice.skipped) else none) = some (s', notice))
    (hmoves : Moves settings s s₁) (hclosing : s₁.closing = s.closing) :
    Allowed settings s s' notice := by
  split at h
  · obtain ⟨rfl, rfl⟩ := Prod.mk.inj (Option.some.inj h)
    exact allowed_skipped hmoves hclosing.trans
  · cases h

/-- The step lemma: whatever happens, it is allowed. -/
theorem allowed_of_step (h : s.step P settings e = some (s', notice)) (hstart : e ≠ .start) :
    Allowed settings s s' notice := by
  cases e with
  | scheduleEnrichment canonical body isJson =>
    have hallowed : Allowed settings s (s.scheduleMetadataEnrichment P settings canonical body
      isJson).1 _ :=
      allowed_scheduleMetadataEnrichment canonical body isJson
    rwa [Option.some.inj h] at hallowed
  | scheduleExtraction canonical body isJson =>
    have hallowed : Allowed settings s
      (s.scheduleProjectExtraction settings canonical body isJson).1 _ :=
      allowed_scheduleProjectExtraction canonical body isJson
    rwa [Option.some.inj h] at hallowed
  | ensure i canonical body isJson =>
    exact allowed_of_spawn h (allowed_ensureMetadataBackgroundWork canonical body isJson)
  | discovered i value =>
    simp only [step] at h
    split at h
    · exact allowed_of_proceed h (allowed_ensureDiscovered _ _ _ value)
    · cases h
  | bodyTtl i value =>
    simp only [step] at h
    split at h
    · exact allowed_of_proceed h (allowed_ensureBodyTtl _ _ _ value)
    · cases h
  | drain i => exact allowed_of_spawn h (allowed_drainMetadataTasks moves_refl id)
  | cancel i =>
    exact allowed_of_spawn h (allowed_cancelLoop ⟨stays _ _ _, stays _ _ _⟩ fun _ => rfl)
  | gathered i =>
    simp only [step] at h
    split at h
    · split at h
      · exact allowed_of_proceed h (allowed_drainMetadataTasks (moves_drained _ _) id)
      · cases h
    · split at h
      · exact allowed_of_proceed h (allowed_cancelLoop moves_cancelled id)
      · cases h
    · cases h
  | abort i =>
    obtain ⟨rfl, rfl⟩ := Prod.mk.inj (Option.some.inj h)
    exact allowed_skipped ⟨stays _ _ _, stays _ _ _⟩ id
  | finish t =>
    exact allowed_of_guarded h ⟨⟨.finish t, rfl, fun _ => trivial⟩, stays _ _ _⟩ rfl
  | finishExtraction t =>
    exact allowed_of_guarded h ⟨stays _ _ _, ⟨.finish t, rfl, fun _ => trivial⟩⟩ rfl
  | callback t =>
    exact allowed_of_guarded h ⟨⟨.callback t, rfl, fun _ => trivial⟩, stays _ _ _⟩ rfl
  | callbackExtraction t =>
    exact allowed_of_guarded h ⟨stays _ _ _, ⟨.callback t, rfl, fun _ => trivial⟩⟩ rfl
  | start => exact absurd rfl hstart

/-- While closing, a step keeps empty tables empty. -/
theorem Allowed.idle (h : Allowed settings s s' notice) (hclosing : s.closing = true)
    (hidle : s.idle = true) : s'.idle = true := by
  obtain ⟨hpending, hextraction⟩ := idle_iff.mp hidle
  obtain ⟨a, ha, hshrinks⟩ := h.moves.pending
  obtain ⟨b, hb, hshrinks'⟩ := h.moves.extractionPending
  have hsize := TaskQueue.size_act_le settings.metadataMaxPendingProjects s.pending
    (hshrinks hclosing)
  have hsize' := TaskQueue.size_act_le settings.metadataMaxPendingExtractionProjects
    s.extractionPending (hshrinks' hclosing)
  rw [idle_iff, ha, hb]
  omega

/-- The call of `cancel_metadata_tasks` closes down. -/
theorem closing_of_cancel {i : ℕ} (h : s.step P settings (.cancel i) = some (s', notice)) :
    s'.closing = true := by
  simp only [step, spawn] at h
  split at h
  · obtain ⟨rfl, -⟩ := Prod.mk.inj (Option.some.inj h)
    have hclosing : s.cancelMetadataTasks.1.closing = true := cancelLoop_closing
    generalize s.cancelMetadataTasks = call at hclosing ⊢
    rcases call with ⟨s₁, ended | a⟩
    · exact hclosing
    · exact hclosing
  · cases h

end Steps

/-! ## Runs -/

section Runs

variable {events : List (Event × Notice)}

/-- Both tables are well kept. -/
structure Sound (settings : Settings) (s : Background) : Prop where
  pending : TaskQueue.WellKept settings.metadataMaxPendingProjects s.pending
  extractionPending : TaskQueue.WellKept settings.metadataMaxPendingExtractionProjects
    s.extractionPending

theorem Moves.sound (h : Moves settings s s') (hs : Sound settings s) : Sound settings s' := by
  obtain ⟨a, ha, -⟩ := h.pending
  obtain ⟨b, hb, -⟩ := h.extractionPending
  exact ⟨ha ▸ hs.pending.act a, hb ▸ hs.extractionPending.act b⟩

theorem step_sound {e : Event} {notice : Notice} (h : s.step P settings e = some (s', notice))
    (hs : Sound settings s) : Sound settings s' := by
  by_cases hstart : e = .start
  · subst hstart
    obtain ⟨rfl, -⟩ := Prod.mk.inj (Option.some.inj h)
    exact ⟨hs.pending, hs.extractionPending⟩
  · exact (allowed_of_step h hstart).moves.sound hs

/-- The run lemma. -/
theorem run_sound (h : Run P settings s events s') (hs : Sound settings s) : Sound settings s' := by
  induction h with
  | nil => exact hs
  | cons hstep _ ih => exact ih (step_sound hstep hs)

theorem sound_init (settings : Settings) : Sound settings {} :=
  ⟨TaskQueue.wellKept_empty _, TaskQueue.wellKept_empty _⟩

/-- A run goes through a state between any two parts of it. -/
theorem run_append {events' : List (Event × Notice)} (h : Run P settings s (events ++ events') s') :
    ∃ s₁, Run P settings s events s₁ ∧ Run P settings s₁ events' s' := by
  induction events generalizing s with
  | nil => exact ⟨s, .nil s, h⟩
  | cons x events ih =>
    cases h with
    | cons hstep hrun =>
      obtain ⟨s₁, hfirst, hrest⟩ := ih hrun
      exact ⟨s₁, .cons hstep hfirst, hrest⟩

/-- Until `start_metadata_tasks`, the application stays closed down. -/
theorem run_closing (h : Run P settings s events s') (hstart : ∀ x ∈ events, x.1 ≠ .start)
    (hclosing : s.closing = true) : s'.closing = true := by
  induction h with
  | nil => exact hclosing
  | cons hstep _ ih =>
    have hallowed := allowed_of_step hstep (hstart _ List.mem_cons_self)
    exact ih (fun x hx => hstart x (List.mem_cons_of_mem _ hx)) (hallowed.closing hclosing)

/-- And empty tables stay empty. -/
theorem run_idle (h : Run P settings s events s') (hstart : ∀ x ∈ events, x.1 ≠ .start)
    (hclosing : s.closing = true) (hidle : s.idle = true) : s'.idle = true := by
  induction h with
  | nil => exact hidle
  | cons hstep _ ih =>
    have hallowed := allowed_of_step hstep (hstart _ List.mem_cons_self)
    exact ih (fun x hx => hstart x (List.mem_cons_of_mem _ hx)) (hallowed.closing hclosing)
      (hallowed.idle hclosing hidle)

/-- The state in which a run ends that ends with a return. -/
theorem idle_of_returned (h : Run P settings s events s') {e : Event}
    (hlast : events.getLast? = some (e, .returned)) (hstart : ∀ x ∈ events, x.1 ≠ .start) :
    s'.idle = true := by
  obtain ⟨init, rfl⟩ := List.getLast?_eq_some_iff.mp hlast
  obtain ⟨s₁, -, hend⟩ := run_append h
  cases hend with
  | cons hstep hrest =>
    cases hrest
    exact (allowed_of_step hstep
      (hstart _ (List.mem_append_right _ (List.mem_singleton_self _)))).returned rfl

/-- From the return of `cancel_metadata_tasks` on, the tables are empty. -/
theorem idle_of_cancelReturned (h : Run P settings s events s') (hcancel : CancelReturned events) :
    s'.idle = true := by
  obtain ⟨before, during, after, i, notice, e, rfl, hfirst, hlast, -, hstart⟩ := hcancel
  obtain ⟨s₁, -, hrest⟩ := run_append h
  obtain ⟨s₂, hduring, hafter⟩ := run_append hrest
  have hstart₁ : ∀ x ∈ during, x.1 ≠ .start := fun x hx => hstart x (List.mem_append_left _ hx)
  have hclosing : s₂.closing = true := by
    cases hduring with
    | nil => cases hfirst
    | cons hstep hrun =>
      obtain ⟨rfl, -⟩ := Prod.mk.inj (Option.some.inj hfirst)
      exact run_closing hrun (fun x hx => hstart₁ x (List.mem_cons_of_mem _ hx))
        (closing_of_cancel hstep)
  exact run_idle hafter (fun x hx => hstart x (List.mem_append_right _ hx)) hclosing
    (idle_of_returned hduring hlast hstart₁)

theorem soundTable_of_wellKept {κ : Type} [DecidableEq κ] {limit : ℤ} {q : TaskQueue κ Job}
    (h : TaskQueue.WellKept limit q) : SoundTable limit q where
  bounded := h.bounded
  unique _ _ _ _ htask htask' hlife hlife' hkey :=
    h.consistent.unique htask htask' hlife hlife' hkey
  mapped := h.consistent.mapped

theorem soundStep_of_step {e : Event} {notice : Notice} (hs : Sound settings s)
    (h : s.step P settings e = some (s', notice)) : SoundStep settings s e notice s' := by
  by_cases hstart : e = .start
  · subst hstart
    obtain ⟨rfl, rfl⟩ := Prod.mk.inj (Option.some.inj h)
    exact ⟨nofun, nofun, nofun, nofun, nofun⟩
  have hallowed := allowed_of_step h hstart
  refine ⟨?_, ?_, ?_, ?_, hallowed.returned⟩
  · rintro t rfl k t' hlookup hne
    simp only [step] at h
    split at h
    · obtain ⟨rfl, -⟩ := Prod.mk.inj (Option.some.inj h)
      exact TaskQueue.lookup_callback hlookup hne
    · cases h
  · rintro t rfl k t' hlookup hne
    simp only [step] at h
    split at h
    · obtain ⟨rfl, -⟩ := Prod.mk.inj (Option.some.inj h)
      exact TaskQueue.lookup_callback hlookup hne
    · cases h
  · rintro k hnotice
    obtain ⟨job, hdropped⟩ := hallowed.enrichment k .dropped hnotice
    exact hs.pending.full hdropped
  · rintro k hnotice
    obtain ⟨job, hdropped⟩ := hallowed.extraction k .dropped hnotice
    exact hs.extractionPending.full hdropped

/-- **The background queues.** After every run the tables are sound, every further step is, and the
tables are empty if `cancel_metadata_tasks` has returned. -/
theorem queues_sound (h : Run P settings {} events s) :
    SoundTable settings.metadataMaxPendingProjects s.pending ∧
    SoundTable settings.metadataMaxPendingExtractionProjects s.extractionPending ∧
    (∀ e notice s', s.step P settings e = some (s', notice) → SoundStep settings s e notice s') ∧
    (CancelReturned events → s.idle = true) := by
  have hs := run_sound h (sound_init settings)
  refine ⟨soundTable_of_wellKept hs.pending, soundTable_of_wellKept hs.extractionPending, ?_,
    idle_of_cancelReturned h⟩
  exact fun e notice s' hstep => soundStep_of_step hs hstep

end Runs

/-! ## A shutdown -/

section Example

def enabled : Settings := { enableBackgroundMetadata := true }

/-- A project is scheduled, and the application closes down while its task runs; the callback comes
late. -/
def shutdown : List (Event × Notice) :=
  [(.scheduleEnrichment ("One" : Str) [] false, .enrichment ("one" : Str) .created),
    (.cancel 0, .waits),
    (.scheduleEnrichment ("two" : Str) [] false, .skipped),
    (.finish 0, .skipped),
    (.gathered 0, .returned),
    (.callback 0, .skipped)]

theorem run_shutdown : ∃ s, Run plainReleases enabled {} shutdown s := by
  exact ⟨_, .cons rfl (.cons rfl
    (.cons rfl (.cons rfl (.cons (by rfl) (.cons (by rfl) (.nil _))))))⟩

theorem queues_sound_shutdown : ∃ s, Run plainReleases enabled {} shutdown s ∧ s.idle = true := by
  obtain ⟨s, hrun⟩ := run_shutdown
  refine ⟨s, hrun, (queues_sound hrun).2.2.2 ?_⟩
  refine ⟨shutdown.take 1, (shutdown.drop 1).take 4, shutdown.drop 5, 0, _, _, rfl, rfl,
    rfl, .inr rfl, ?_⟩
  decide

end Example

end ProxyCache.Theorems.BackgroundQueues
