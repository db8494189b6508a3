import ProxyCache.Lib.Conditions

/-!
# Replaying a schedule

A driver computes one possible answer of a call and one possible move of the
environment, each under a choice. Replaying a list of moves computes a
configuration, and `replay_sound` says that the system reaches it. A task that
is started or called is driven on to its next waiting call, so that between two
moves every task waits.
-/

namespace ProxyCache.Lib

variable {Op : Type} {Ret : Op → Type} {W E α C : Type}

/-- Executable choices of a system's steps. -/
structure Driver (S : System Op Ret W E α) (C : Type) where
  respond : C → ℕ → (o : Op) → W → Option (Ret o × W)
  drift : C → W → Option W
  respond_sound : ∀ {a t o w r w'}, respond a t o w = some (r, w') → S.exec t o w r w'
  drift_sound : ∀ {a w w'}, drift a w = some w' → S.env w w'

/-- What a schedule makes a system do next. -/
inductive Move (E C : Type) where
  | start (t : ℕ) (e : E) (choice : C)
  | call (t : ℕ) (choice : C)
  | env (choice : C)

namespace Config

/-- What a task has returned. -/
def result (c : Config Op Ret W E α) (t : ℕ) : Option α :=
  match c.task t with
  | some (_, .ret a) => some a
  | _ => none

theorem result_eq_some {c : Config Op Ret W E α} {t : ℕ} {a : α} :
    c.result t = some a ↔ ∃ e, c.task t = some (e, .ret a) := by
  unfold result
  split
  · next e a' h => simp [h]
  · next h =>
    constructor
    · rintro ⟨⟩
    · rintro ⟨e, he⟩
      exact absurd he (h e a)

/-- The configuration with the task `t` at `p`. -/
def set (c : Config Op Ret W E α) (t : ℕ) (e : E) (p : Prog Op Ret α) (w : W) :
    Config Op Ret W E α :=
  ⟨w, Function.update c.task t (some (e, p))⟩

@[simp] theorem set_task_self {c : Config Op Ret W E α} {t : ℕ} {e : E} {p : Prog Op Ret α}
    {w : W} : (c.set t e p w).task t = some (e, p) := Function.update_self ..

theorem set_task_of_ne {c : Config Op Ret W E α} {t u : ℕ} {e : E} {p : Prog Op Ret α} {w : W}
    (h : u ≠ t) : (c.set t e p w).task u = c.task u := Function.update_of_ne h ..

@[simp] theorem set_set {c : Config Op Ret W E α} {t : ℕ} {e : E} {p p' : Prog Op Ret α}
    {w w' : W} : (c.set t e p w).set t e p' w' = c.set t e p' w' := by
  simp [set]

end Config

namespace Driver

variable {S : System Op Ret W E α} (D : Driver S C)

/-- Drive a task to its next waiting call. -/
def stretch (choice : C) (t : ℕ) : Prog Op Ret α → W → Option (Prog Op Ret α × W)
  | .ret a, w => some (.ret a, w)
  | .call o k, w =>
    if S.yields o then some (.call o k, w)
    else (D.respond choice t o w).bind fun (r, w') => stretch choice t (k r) w'

/-- Drive the task from `p` in world `w` on to its next waiting call. -/
def settle (choice : C) (c : Config Op Ret W E α) (t : ℕ) (e : E) (p : Prog Op Ret α) (w : W) :
    Option (Config Op Ret W E α) :=
  (D.stretch choice t p w).map fun (p', w') => c.set t e p' w'

/-- One move. -/
def move (c : Config Op Ret W E α) : Move E C → Option (Config Op Ret W E α)
  | .start t e choice =>
    match c.task t with
    | none => D.settle choice c t e (S.prog e) c.world
    | some _ => none
  | .call t choice =>
    match c.task t with
    | some (e, .call o k) =>
      (D.respond choice t o c.world).bind fun (r, w) => D.settle choice c t e (k r) w
    | _ => none
  | .env choice => (D.drift choice c.world).map fun w => { c with world := w }

/-- Several moves, in order. -/
def replay : List (Move E C) → Config Op Ret W E α → Option (Config Op Ret W E α)
  | [], c => some c
  | m :: moves, c => (D.move c m).bind (replay moves)

variable {D}

theorem waits_of_set {c : Config Op Ret W E α} {t : ℕ} {e : E} {p : Prog Op Ret α} {w : W}
    (hothers : ∀ u, u ≠ t → S.Waits c u) (u : ℕ) (hu : u ≠ t) : S.Waits (c.set t e p w) u := by
  intro e' o k htask
  exact hothers u hu e' o k (by simpa [Config.set, Function.update_of_ne hu] using htask)

theorem settle_sound {c c' : Config Op Ret W E α} {choice : C} {t : ℕ} {e : E}
    {p : Prog Op Ret α} {w : W} (hothers : ∀ u, u ≠ t → S.Waits c u)
    (hreach : S.Reachable (c.set t e p w)) (h : D.settle choice c t e p w = some c') :
    S.Reachable c' ∧ S.Quiet c' := by
  induction p generalizing w with
  | ret a =>
    obtain rfl : c.set t e (.ret a) w = c' := Option.some.inj h
    refine ⟨hreach, fun u => ?_⟩
    by_cases hu : u = t
    · subst hu
      intro e' o k htask
      simp at htask
    · exact waits_of_set hothers u hu
  | call o k ih =>
    by_cases hy : S.yields o
    · obtain rfl : c.set t e (.call o k) w = c' := by
        simpa [settle, stretch, hy] using h
      refine ⟨hreach, fun u => ?_⟩
      by_cases hu : u = t
      · subst hu
        rintro e' o' k' htask
        obtain ⟨-, hcall⟩ : e = e' ∧ Prog.call o k = Prog.call o' k' := by simpa using htask
        obtain ⟨rfl, -⟩ := Prog.call.inj hcall
        exact hy
      · exact waits_of_set hothers u hu
    · simp only [settle, stretch, hy, Bool.false_eq_true, if_false, Option.map_eq_some_iff,
        Option.bind_eq_some_iff] at h
      obtain ⟨q, ⟨⟨r, w₁⟩, hr, hq⟩, hc'⟩ := h
      refine ih r (w := w₁) ?_ (by simp only [settle, hq, Option.map_some, hc'])
      have hstep : S.Step (c.set t e (.call o k) w) (.call t o r)
          ⟨w₁, Function.update (c.set t e (.call o k) w).task t (some (e, k r))⟩ :=
        .call (waits_of_set hothers) Config.set_task_self (D.respond_sound hr)
      have := System.Reachable.step hreach hstep
      rwa [show (⟨w₁, Function.update (c.set t e (.call o k) w).task t (some (e, k r))⟩ :
        Config Op Ret W E α) = c.set t e (k r) w₁ from Config.set_set] at this

theorem move_sound {c c' : Config Op Ret W E α} {m : Move E C} (hreach : S.Reachable c)
    (hquiet : S.Quiet c) (h : D.move c m = some c') : S.Reachable c' ∧ S.Quiet c' := by
  cases m with
  | start t e choice =>
    simp only [move] at h
    split at h
    · next hnone =>
      exact settle_sound (fun u _ => hquiet u) (.step hreach (.start hquiet hnone)) h
    · cases h
  | call t choice =>
    simp only [move] at h
    split at h
    · next e o k htask =>
      obtain ⟨⟨r, w⟩, hr, hsettle⟩ := Option.bind_eq_some_iff.mp h
      exact settle_sound (fun u _ => hquiet u)
        (.step hreach (.call (fun u _ => hquiet u) htask (D.respond_sound hr))) hsettle
    · cases h
  | env choice =>
    obtain ⟨w, hw, rfl⟩ := Option.map_eq_some_iff.mp h
    exact ⟨.step hreach (.env hquiet (D.drift_sound hw)), hquiet⟩

/-- **Replay.** The system reaches what a schedule replays to. -/
theorem replay_sound {moves : List (Move E C)} {c c' : Config Op Ret W E α}
    (hreach : S.Reachable c) (hquiet : S.Quiet c) (h : D.replay moves c = some c') :
    S.Reachable c' ∧ S.Quiet c' := by
  induction moves generalizing c with
  | nil =>
    obtain rfl : c = c' := Option.some.inj h
    exact ⟨hreach, hquiet⟩
  | cons m moves ih =>
    obtain ⟨c₁, hmove, hrest⟩ := Option.bind_eq_some_iff.mp h
    obtain ⟨hreach₁, hquiet₁⟩ := move_sound hreach hquiet hmove
    exact ih hreach₁ hquiet₁ hrest

/-- The configuration of a world before any task is started. -/
def boot (w : W) : Config Op Ret W E α := ⟨w, fun _ => none⟩

/-- A schedule replayed from the start. -/
theorem replay_boot {moves : List (Move E C)} {w : W} {c : Config Op Ret W E α}
    (hinit : S.init w) (h : D.replay moves (boot w) = some c) : S.Reachable c ∧ S.Quiet c :=
  replay_sound (.init ⟨hinit, fun _ => rfl⟩) (fun _ _ _ _ h => absurd h (by simp [boot])) h

/-- Drive a task to its end, with the events on the way. -/
def finish (choice : C) (t : ℕ) : Prog Op Ret α → W → Option (List (Event Op Ret E) × α × W)
  | .ret a, w => some ([], a, w)
  | .call o k, w => do
    let (r, w) ← D.respond choice t o w
    let (evs, a, w) ← finish choice t (k r) w
    return (.call t o r :: evs, a, w)

theorem finish_meeting {c₀ c : Config Op Ret W E α} {choice : C} {t : ℕ} {e : E}
    {p : Prog Op Ret α} {w w' : W} {evs evs' : List (Event Op Ret E)} {a : α}
    {ok : ℕ → E → (o : Op) → W → Ret o → Prop}
    (hok : ∀ o w r w', D.respond choice t o w = some (r, w') → ok t e o w r)
    (hothers : ∀ u, u ≠ t → S.Waits c u) (hrun : S.RunMeeting ok c₀ evs (c.set t e p w))
    (h : D.finish choice t p w = some (evs', a, w')) :
    S.RunMeeting ok c₀ (evs ++ evs') (c.set t e (.ret a) w') ∧
      ∀ ev ∈ evs', ∃ o r, ev = .call t o r := by
  induction p generalizing w evs evs' with
  | ret b =>
    obtain ⟨rfl, rfl, rfl⟩ : evs' = [] ∧ b = a ∧ w = w' := by
      simpa [finish] using h
    exact ⟨by rwa [List.append_nil], nofun⟩
  | call o k ih =>
    obtain ⟨⟨r, w₁⟩, hr, h⟩ := Option.bind_eq_some_iff.mp h
    obtain ⟨⟨rest, b, w₂⟩, hrest, h⟩ := Option.bind_eq_some_iff.mp h
    obtain ⟨rfl, rfl, rfl⟩ : .call t o r :: rest = evs' ∧ b = a ∧ w₂ = w' := by
      simpa using h
    have hstep : S.Step (c.set t e (.call o k) w) (.call t o r) (c.set t e (k r) w₁) := by
      have hset : (⟨w₁, Function.update (c.set t e (.call o k) w).task t (some (e, k r))⟩ :
          Config Op Ret W E α) = c.set t e (k r) w₁ := Config.set_set
      rw [← hset]
      exact .call (waits_of_set hothers) Config.set_task_self (D.respond_sound hr)
    have hmeets : System.Meets ok (c.set t e (.call o k) w) (.call t o r) := by
      intro e' p' htask
      rw [Config.set_task_self] at htask
      obtain ⟨rfl, -⟩ := Prod.mk.inj (Option.some.inj htask)
      exact hok o w r w₁ hr
    obtain ⟨hrun', halone⟩ := ih r (hrun.snoc hstep hmeets) hrest
    rw [List.append_assoc] at hrun'
    refine ⟨hrun', ?_⟩
    intro ev hev
    rcases List.mem_cons.mp hev with rfl | hev
    · exact ⟨o, r, rfl⟩
    · exact halone ev hev

theorem finish_sound {c₀ c : Config Op Ret W E α} {choice : C} {t : ℕ} {e : E}
    {p : Prog Op Ret α} {w w' : W} {evs evs' : List (Event Op Ret E)} {a : α}
    (hothers : ∀ u, u ≠ t → S.Waits c u) (hrun : S.Run c₀ evs (c.set t e p w))
    (h : D.finish choice t p w = some (evs', a, w')) :
    S.Run c₀ (evs ++ evs') (c.set t e (.ret a) w') ∧ ∀ ev ∈ evs', ∃ o r, ev = .call t o r := by
  obtain ⟨hrun', halone⟩ := finish_meeting (fun _ _ _ _ _ => trivial) hothers hrun.meeting h
  exact ⟨hrun'.run, halone⟩

theorem quiet_of_set_ret {c : Config Op Ret W E α} {t : ℕ} {e : E} {a : α} {w : W}
    (hquiet : S.Quiet c) : S.Quiet (c.set t e (.ret a) w) := by
  intro u
  by_cases hu : u = t
  · subst hu
    intro e' o k htask
    rw [Config.set_task_self] at htask
    cases htask
  · exact waits_of_set (fun u _ => hquiet u) u hu

/-- A task that is started while the others wait, and driven to its end. -/
theorem complete_meeting {c₀ c : Config Op Ret W E α} {choice : C} {t : ℕ} {e : E} {w' : W}
    {evs evs' : List (Event Op Ret E)} {a : α} {ok : ℕ → E → (o : Op) → W → Ret o → Prop}
    (hok : ∀ o w r w', D.respond choice t o w = some (r, w') → ok t e o w r)
    (hrun : S.RunMeeting ok c₀ evs c) (hquiet : S.Quiet c) (hnone : c.task t = none)
    (h : D.finish choice t (S.prog e) c.world = some (evs', a, w')) :
    S.RunMeeting ok c₀ (evs ++ [.start t e] ++ evs') (c.set t e (.ret a) w') ∧
      S.Quiet (c.set t e (.ret a) w') := by
  have hstart : S.RunMeeting ok c₀ (evs ++ [.start t e]) (c.set t e (S.prog e) c.world) :=
    .snoc hrun (.start hquiet hnone) trivial
  exact ⟨(finish_meeting hok (fun u _ => hquiet u) hstart h).1, quiet_of_set_ret hquiet⟩

theorem complete {c₀ c : Config Op Ret W E α} {choice : C} {t : ℕ} {e : E} {w' : W}
    {evs evs' : List (Event Op Ret E)} {a : α} (hrun : S.Run c₀ evs c) (hquiet : S.Quiet c)
    (hnone : c.task t = none) (h : D.finish choice t (S.prog e) c.world = some (evs', a, w')) :
    S.Run c₀ (evs ++ [.start t e] ++ evs') (c.set t e (.ret a) w') ∧
      S.Quiet (c.set t e (.ret a) w') := by
  obtain ⟨hrun', hquiet'⟩ := complete_meeting (fun _ _ _ _ _ => trivial) hrun.meeting hquiet hnone h
  exact ⟨hrun'.run, hquiet'⟩

/-- A driver of the restricted system: it answers where a check allows it. -/
def restrict (D : Driver S C) {ok : ℕ → Op → W → Prop} (check : ℕ → Op → W → Bool)
    (hcheck : ∀ {t o w}, check t o w = true → ok t o w) : Driver (S.restrict ok) C where
  respond choice t o w := if check t o w then D.respond choice t o w else none
  drift := D.drift
  respond_sound {a t o w r w'} h := by
    split at h
    · next hok => exact ⟨D.respond_sound h, hcheck hok⟩
    · cases h
  drift_sound := D.drift_sound

end Driver

end ProxyCache.Lib
