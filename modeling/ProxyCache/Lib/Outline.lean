import ProxyCache.Lib.Program

/-!
# Proof outlines

An outline asserts something of the world at every call of a program, before the call is made: the
others may have moved since, as the task relies on. What the others may do is in turn what the
assertions at their calls allow. `Outlines.sound` says that each task of a reachable configuration
is at a call whose assertion holds.

Where `wp` is about what a task brings about, an outline is about where it stands.
-/

namespace ProxyCache.Lib

variable {Op : Type} {Ret : Op → Type} {W E α β : Type}

namespace Effects

/-- From `w` the task `t` makes every call of `p` where `pre` allows it. -/
def Outline (F : Effects Op Ret W) (R : W → W → Prop) (pre : Op → W → Prop) (t : ℕ)
    (Q : α → W → Prop) : Prog Op Ret α → W → Prop
  | .ret a, w => Q a w
  | .call o k, w => ∀ w₁, R w w₁ → pre o w₁ ∧
      ∀ r w₂, F.exec t o w₁ r w₂ → Outline F R pre t Q (k r) w₂

variable {F : Effects Op Ret W} {R : W → W → Prop} {pre : Op → W → Prop} {t : ℕ} {w : W}

@[simp] theorem outline_ret {Q : α → W → Prop} {a : α} :
    F.Outline R pre t Q (.ret a) w ↔ Q a w := Iff.rfl

/-- The rule of sequencing. -/
theorem outline_bind {Q : β → W → Prop} {p : Prog Op Ret α} {f : α → Prog Op Ret β} :
    F.Outline R pre t Q (p >>= f) w ↔
      F.Outline R pre t (fun a w => F.Outline R pre t Q (f a) w) p w := by
  induction p generalizing w with
  | ret a => rfl
  | call o k ih =>
    simp only [Prog.call_bind, Outline, ih]

/-- The rule of consequence. -/
theorem outline_mono {Q Q' : α → W → Prop} {p : Prog Op Ret α} (h : F.Outline R pre t Q p w)
    (himp : ∀ a w, Q a w → Q' a w) : F.Outline R pre t Q' p w := by
  induction p generalizing w with
  | ret a => exact himp a w h
  | call o k ih =>
    intro w₁ hR
    obtain ⟨hpre, hnext⟩ := h w₁ hR
    exact ⟨hpre, fun r w₂ hexec => ih r (hnext r w₂ hexec)⟩

/-- The rule of a call: its assertion follows from one that the others do not disturb. -/
theorem outline_call {A : W → Prop} {Q : α → W → Prop} {o : Op} {f : Ret o → Prog Op Ret α}
    (hA : A w) (hstable : ∀ w w', A w → R w w' → A w') (hpre : ∀ w, A w → pre o w)
    (h : ∀ w₁ r w₂, A w₁ → F.exec t o w₁ r w₂ → F.Outline R pre t Q (f r) w₂) :
    F.Outline R pre t Q (Prog.op o >>= f) w := by
  rw [Prog.op_bind]
  intro w₁ hR
  have hA₁ : A w₁ := hstable w w₁ hA hR
  exact ⟨hpre w₁ hA₁, fun r w₂ hexec => h w₁ r w₂ hA₁ hexec⟩

/-- The rule of a program of which no call disturbs the assertion. -/
theorem outline_of_calls {A : W → Prop} {P : Op → Prop} {p : Prog Op Ret α} (hA : A w)
    (hp : p.Calls P) (hstable : ∀ w w', A w → R w w' → A w') (hpre : ∀ o w, P o → A w → pre o w)
    (hkeep : ∀ o w r w', P o → A w → F.exec t o w r w' → A w') :
    F.Outline R pre t (fun _ => A) p w := by
  induction p generalizing w with
  | ret a => exact hA
  | call o k ih =>
    rw [← Prog.op_bind]
    refine outline_call hA hstable (fun w => hpre o w hp.1) fun w₁ r w₂ hA₁ hexec => ?_
    exact ih r (hkeep o w₁ r w₂ hp.1 hA₁ hexec) (hp.2 r)

/-- A task that waits keeps its outline. -/
theorem outline_stable {p : Prog Op Ret α} {w' : W}
    (htrans : ∀ w₁ w₂ w₃, R w₁ w₂ → R w₂ w₃ → R w₁ w₃) (hR : R w w')
    (h : F.Outline R pre t (fun _ _ => True) p w) : F.Outline R pre t (fun _ _ => True) p w' := by
  cases p with
  | ret a => trivial
  | call o k => exact fun w₁ hR₁ => h w₁ (htrans w w' w₁ hR hR₁)

end Effects

/-- Outlines of all tasks of a system, none of which disturbs another one. -/
structure Outlines (S : System Op Ret W E α) where
  rely : ℕ → E → W → W → Prop
  pre : ℕ → E → Op → W → Prop
  rely_refl : ∀ t e w, rely t e w w
  rely_trans : ∀ t e w₁ w₂ w₃, rely t e w₁ w₂ → rely t e w₂ w₃ → rely t e w₁ w₃
  env : ∀ t e w w', S.env w w' → rely t e w w'
  others : ∀ t e u e' o w r w', u ≠ t → pre t e o w → S.exec t o w r w' → rely u e' w w'
  start : ∀ t e w, S.Outline (rely t e) (pre t e) t (fun _ _ => True) (S.prog e) w

namespace Outlines

variable {S : System Op Ret W E α} (D : Outlines S)

/-- The step lemma: every task keeps its outline. -/
theorem step {c c' : Config Op Ret W E α} {ev : Event Op Ret E}
    (h : ∀ t e p, c.task t = some (e, p) →
      S.Outline (D.rely t e) (D.pre t e) t (fun _ _ => True) p c.world)
    (hstep : S.Step c ev c') {t : ℕ} {e : E} {p : Prog Op Ret α} (htask : c'.task t = some (e, p)) :
    S.Outline (D.rely t e) (D.pre t e) t (fun _ _ => True) p c'.world := by
  cases hstep with
  | @start u e' _ _ =>
    by_cases htu : t = u
    · subst htu
      simp only [Function.update_self] at htask
      obtain ⟨rfl, rfl⟩ := Prod.mk.inj (Option.some.inj htask)
      exact D.start t _ c.world
    · simp only [Function.update_of_ne htu] at htask
      exact h t e p htask
  | @call u e' o k r w _ hu hexec =>
    obtain ⟨hpre, hnext⟩ := h u e' _ hu c.world (D.rely_refl u e' c.world)
    by_cases htu : t = u
    · subst htu
      simp only [Function.update_self] at htask
      obtain ⟨rfl, rfl⟩ := Prod.mk.inj (Option.some.inj htask)
      exact hnext r w hexec
    · simp only [Function.update_of_ne htu] at htask
      exact Effects.outline_stable (D.rely_trans t e)
        (D.others u e' t e o c.world r w htu hpre hexec) (h t e p htask)
  | env _ henv =>
    exact Effects.outline_stable (D.rely_trans t e) (D.env t e _ _ henv) (h t e p htask)

theorem task {c : Config Op Ret W E α} (h : S.Reachable c) {t : ℕ} {e : E} {p : Prog Op Ret α}
    (htask : c.task t = some (e, p)) :
    S.Outline (D.rely t e) (D.pre t e) t (fun _ _ => True) p c.world := by
  induction h generalizing t e p with
  | init hinit =>
    rw [hinit.2 t] at htask
    cases htask
  | step _ hstep ih => exact D.step (fun _ _ _ htask => ih htask) hstep htask

/-- Every task of a reachable configuration is at a call whose assertion holds. -/
theorem sound {c : Config Op Ret W E α} (h : S.Reachable c) {t : ℕ} {e : E} {o : Op}
    {k : Ret o → Prog Op Ret α} (htask : c.task t = some (e, .call o k)) : D.pre t e o c.world :=
  (D.task h htask c.world (D.rely_refl t e c.world)).1

end Outlines

end ProxyCache.Lib
