import ProxyCache.Lib.Program

/-!
# Observers

A flag beside the world that no task reads: it may be raised between two steps
in which a condition on the world holds, and it falls with certain calls. An
invariant of the observed system about the flag is a statement about runs: from
where the condition held, as long as none of these calls is made.
-/

namespace ProxyCache.Lib

variable {Op : Type} {Ret : Op → Type} {W E α : Type}

/-- The configuration with the flag. -/
def Config.withFlag (c : Config Op Ret W E α) (flag : Bool) : Config Op Ret (W × Bool) E α :=
  ⟨(c.world, flag), c.task⟩

/-- The event is a call that lets the flag fall. -/
def Event.Lowers (lowers : (o : Op) → Ret o → Bool) : Event Op Ret E → Prop
  | .call _ o r => lowers o r = true
  | _ => False

namespace System

variable (S : System Op Ret W E α) (raised : W → Prop) (lowers : (o : Op) → Ret o → Bool)

/-- The system with the flag. -/
def observe : System Op Ret (W × Bool) E α where
  yields := S.yields
  exec t o w r w' := S.exec t o w.1 r w'.1 ∧ w'.2 = (w.2 && !lowers o r)
  prog := S.prog
  init w := S.init w.1 ∧ w.2 = false
  env w w' := (S.env w.1 w'.1 ∧ w'.2 = w.2) ∨ (w'.1 = w.1 ∧ raised w.1 ∧ w'.2 = true)

variable {S raised lowers} {c c' : Config Op Ret W E α} {ev : Event Op Ret E} {flag : Bool}

/-- A step that does not lower the flag is one of the observed system. -/
theorem step_observe (hstep : S.Step c ev c') (hkeep : ¬ ev.Lowers lowers) :
    (S.observe raised lowers).Step (c.withFlag flag) ev (c'.withFlag flag) := by
  cases hstep with
  | start hquiet hnone => exact .start hquiet hnone
  | @call t e o k r w hwait htask hex =>
    have hflag : flag = (flag && !lowers o r) := by
      have : lowers o r = false := by simpa [Event.Lowers] using hkeep
      simp [this]
    exact .call hwait htask ⟨hex, hflag⟩
  | env hquiet henv => exact .env hquiet (.inl ⟨henv, rfl⟩)

/-- Every step is one of the observed system while the flag is down. -/
theorem step_observe_down (hstep : S.Step c ev c') :
    (S.observe raised lowers).Step (c.withFlag false) ev (c'.withFlag false) := by
  cases hstep with
  | start hquiet hnone => exact .start hquiet hnone
  | call hwait htask hex => exact .call hwait htask ⟨hex, rfl⟩
  | env hquiet henv => exact .env hquiet (.inl ⟨henv, rfl⟩)

theorem reachable_observe (h : S.Reachable c) :
    (S.observe raised lowers).Reachable (c.withFlag false) := by
  induction h with
  | init hc => exact .init ⟨⟨hc.1, rfl⟩, hc.2⟩
  | step _ hstep ih => exact .step ih (step_observe_down hstep)

theorem reachable_of_run {evs : List (Event Op Ret E)} (hrun : S.Run c evs c')
    (hkeep : ∀ ev ∈ evs, ¬ ev.Lowers lowers)
    (h : (S.observe raised lowers).Reachable (c.withFlag flag)) :
    (S.observe raised lowers).Reachable (c'.withFlag flag) := by
  induction hrun with
  | nil => exact h
  | @snoc c₁ c₂ evs ev _ hstep ih =>
    have hrest : ∀ ev ∈ evs, ¬ ev.Lowers lowers := fun ev hev =>
      hkeep ev (List.mem_append_left _ hev)
    have hlast : ¬ ev.Lowers lowers := hkeep ev (List.mem_append_right _ List.mem_cons_self)
    exact .step (ih hrest) (step_observe hstep hlast)

/-- **Observation.** A run in which no call lowers the flag, from a configuration
where it may be raised, leads to one where it is up. -/
theorem reachable_raised {evs : List (Event Op Ret E)} (h : S.Reachable c) (hquiet : S.Quiet c)
    (hraised : raised c.world) (hrun : S.Run c evs c') (hkeep : ∀ ev ∈ evs, ¬ ev.Lowers lowers) :
    (S.observe raised lowers).Reachable (c'.withFlag true) := by
  have hraise : (S.observe raised lowers).Step (c.withFlag false) .env (c.withFlag true) :=
    .env hquiet (.inr ⟨rfl, hraised, rfl⟩)
  exact reachable_of_run hrun hkeep (.step (reachable_observe h) hraise)

end System

end ProxyCache.Lib
