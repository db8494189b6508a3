import ProxyCache.Lib.Trace

/-!
# Simulations between systems

Two systems run the same tasks over different worlds. A simulation relates the worlds so that what
a call answers in the one world it can answer in the other, and leaves related worlds behind:

* `Simulation.step` — a step of the concrete system is the same step of the abstract one;
* `Simulation.run` — a run of the concrete system is a run of the abstract one with the same
  events, between related configurations.

A call may have to satisfy a condition for that. `Reachable.callsGiven` says which calls the tasks
of a system make at all, given what their earlier ones were answered.
-/

namespace ProxyCache.Lib

variable {Op : Type} {Ret : Op → Type} {W V E α β : Type}

/-! ## The calls of a task -/

namespace System

variable {S : System Op Ret W E α} {answered : (o : Op) → Ret o → Prop} {P : Op → Prop}
  {c : Config Op Ret W E α}

/-- What the tasks of a reachable configuration have still to run makes such calls only. -/
theorem Reachable.callsGiven (h : S.Reachable c)
    (hexec : ∀ t o w r w', S.exec t o w r w' → answered o r)
    (hprog : ∀ e, (S.prog e).CallsGiven answered P) {t : ℕ} {e : E} {p : Prog Op Ret α}
    (htask : c.task t = some (e, p)) : p.CallsGiven answered P := by
  induction h generalizing t e p with
  | init hinit =>
    rw [hinit.2 t] at htask
    cases htask
  | step _ hstep ih =>
    cases hstep with
    | @start u e' _ _ =>
      by_cases htu : t = u
      · subst htu
        simp only [Function.update_self] at htask
        obtain ⟨rfl, rfl⟩ := Prod.mk.inj (Option.some.inj htask)
        exact hprog _
      · simp only [Function.update_of_ne htu] at htask
        exact ih htask
    | @call u e' o k r w _ hu hcall =>
      by_cases htu : t = u
      · subst htu
        simp only [Function.update_self] at htask
        obtain ⟨rfl, rfl⟩ := Prod.mk.inj (Option.some.inj htask)
        exact (ih hu).2 r (hexec t o _ r w hcall)
      · simp only [Function.update_of_ne htu] at htask
        exact ih htask
    | env => exact ih htask

end System

/-! ## Simulations -/

/-- The concrete system `T` does what the abstract system `S` can do, where the calls satisfy
`ok`. -/
structure Simulation (T : System Op Ret V E α) (S : System Op Ret W E α) (ok : Op → Prop) where
  rel : V → W → Prop
  prog : T.prog = S.prog
  yields : T.yields = S.yields
  init : ∀ v, T.init v → ∃ w, S.init w ∧ rel v w
  exec : ∀ t o v r v' w, ok o → rel v w → T.exec t o v r v' → ∃ w', S.exec t o w r w' ∧ rel v' w'
  env : ∀ v v' w, rel v w → T.env v v' → ∃ w', S.env w w' ∧ rel v' w'

namespace Simulation

variable {T : System Op Ret V E α} {S : System Op Ret W E α} {ok : Op → Prop}

/-- The same tasks are at the same points, in related worlds. -/
structure Related (R : Simulation T S ok) (d : Config Op Ret V E α) (c : Config Op Ret W E α) :
    Prop where
  world : R.rel d.world c.world
  task : d.task = c.task

variable (R : Simulation T S ok) {d d' : Config Op Ret V E α} {c : Config Op Ret W E α}

theorem waits (h : R.Related d c) {t : ℕ} (hwaits : T.Waits d t) : S.Waits c t := by
  intro e o k htask
  rw [← h.task] at htask
  exact R.yields ▸ hwaits e o k htask

/-- The step lemma. -/
theorem step (h : R.Related d c) {ev : Event Op Ret E} (hstep : T.Step d ev d')
    (hok : ∀ t e o k, c.task t = some (e, .call o k) → ok o) :
    ∃ c', S.Step c ev c' ∧ R.Related d' c' := by
  obtain ⟨hworld, htasks⟩ := h
  have hwaits : ∀ u, T.Waits d u → S.Waits c u := fun u => R.waits ⟨hworld, htasks⟩
  cases hstep with
  | @start t e hquiet hnone =>
    refine ⟨_, .start (fun u => hwaits u (hquiet u)) (htasks ▸ hnone), hworld, ?_⟩
    rw [htasks, R.prog]
  | @call t e o k r v hothers htask hexec =>
    have htask' : c.task t = some (e, .call o k) := htasks ▸ htask
    obtain ⟨w, hexec', hrel⟩ := R.exec t o d.world r v c.world (hok t e o k htask') hworld hexec
    refine ⟨_, .call (fun u hu => hwaits u (hothers u hu)) htask' hexec', hrel, ?_⟩
    rw [htasks]
  | @env v hquiet henv =>
    obtain ⟨w, henv', hrel⟩ := R.env d.world v c.world hworld henv
    exact ⟨_, .env (fun u => hwaits u (hquiet u)) henv', hrel, htasks⟩

/-- The run lemma. -/
theorem run (hok : ∀ c, S.Reachable c → ∀ t e o k, c.task t = some (e, .call o k) → ok o)
    {evs : List (Event Op Ret E)} (hreach : S.Reachable c) (h : R.Related d c)
    (hrun : T.Run d evs d') : ∃ c', S.Run c evs c' ∧ R.Related d' c' := by
  induction hrun with
  | nil => exact ⟨c, .nil c, h⟩
  | snoc _ hstep ih =>
    obtain ⟨c₁, hrun₁, h₁⟩ := ih
    obtain ⟨c', hstep', h'⟩ := R.step h₁ hstep (hok c₁ (hreach.run hrun₁))
    exact ⟨c', .snoc hrun₁ hstep', h'⟩

/-- **Simulation.** Every run of the concrete system from its start is one of the abstract system,
event by event. -/
theorem simulated (hok : ∀ c, S.Reachable c → ∀ t e o k, c.task t = some (e, .call o k) → ok o)
    {evs : List (Event Op Ret E)} (hinit : T.Init d) (hrun : T.Run d evs d') :
    ∃ c c', S.Init c ∧ S.Run c evs c' ∧ R.Related d' c' := by
  obtain ⟨w, hw, hrel⟩ := R.init d.world hinit.1
  have hstart : S.Init (⟨w, d.task⟩ : Config Op Ret W E α) := ⟨hw, hinit.2⟩
  obtain ⟨c', hrun', h'⟩ := R.run hok (.init hstart) ⟨hrel, rfl⟩ hrun
  exact ⟨_, c', hstart, hrun', h'⟩

end Simulation

end ProxyCache.Lib
