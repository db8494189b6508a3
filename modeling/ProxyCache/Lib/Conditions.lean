import ProxyCache.Lib.Program

/-!
# Runs whose steps meet a condition

The condition on a step may name the kind of the task that takes it. Such runs are runs of
the system in which every call carries the kind of its task, and the rely-guarantee rules
apply there: a task of the kind `e` runs with the effects `S.under ok e`.
-/

namespace ProxyCache.Lib

variable {Op : Type} {Ret : Op → Type} {W E α : Type}

/-- The program, with `e` on each of its calls. -/
def Prog.tag (e : E) : Prog Op Ret α → Prog (E × Op) (fun o => Ret o.2) α
  | .ret a => .ret a
  | .call o k => .call (e, o) fun r => (k r).tag e

/-- The configuration in which every call carries the kind of its task. -/
def Config.tag (c : Config Op Ret W E α) : Config (E × Op) (fun o => Ret o.2) W E α :=
  ⟨c.world, fun t => (c.task t).map fun x => (x.1, x.2.tag x.1)⟩

namespace System

variable (S : System Op Ret W E α) (ok : ℕ → E → (o : Op) → W → Ret o → Prop)

/-- The step meets the condition. -/
def Meets (c : Config Op Ret W E α) : Event Op Ret E → Prop
  | .call t o r => ∀ e p, c.task t = some (e, p) → ok t e o c.world r
  | _ => True

/-- A run all of whose steps meet the condition. -/
inductive RunMeeting :
    Config Op Ret W E α → List (Event Op Ret E) → Config Op Ret W E α → Prop
  | nil (c : Config Op Ret W E α) : RunMeeting c [] c
  | snoc {c c' c'' : Config Op Ret W E α} {evs : List (Event Op Ret E)} {ev : Event Op Ret E} :
      RunMeeting c evs c' → S.Step c' ev c'' → Meets ok c' ev → RunMeeting c (evs ++ [ev]) c''

/-- What the calls of a task of the kind `e` do, under the condition. -/
def under (e : E) : Effects Op Ret W where
  yields := S.yields
  exec t o w r w' := S.exec t o w r w' ∧ ok t e o w r

/-- The system in which every call carries the kind of its task, and meets the condition. -/
def meeting : System (E × Op) (fun o => Ret o.2) W E α where
  yields o := S.yields o.2
  exec t o w r w' := (S.under ok o.1).exec t o.2 w r w'
  prog e := (S.prog e).tag e
  init := S.init
  env := S.env

variable {S ok} {c c' : Config Op Ret W E α} {ev : Event Op Ret E}

/-- A task runs as its program does under the condition. -/
theorem wp_tag {I : W → Prop} {R G : W → W → Prop} {t : ℕ} {Q : α → W → Prop} {e : E}
    {p : Prog Op Ret α} {w : W} :
    (S.meeting ok).wp I R G t Q (p.tag e) w ↔ (S.under ok e).wp I R G t Q p w := by
  induction p generalizing w with
  | ret a => rfl
  | call o k ih =>
    constructor
    · intro h w₁ hR hI r w₂ hex
      obtain ⟨hI₂, hG, hk⟩ := h w₁ hR hI r w₂ hex
      exact ⟨hI₂, hG, (ih r).mp hk⟩
    · intro h w₁ hR hI r w₂ hex
      obtain ⟨hI₂, hG, hk⟩ := h w₁ hR hI r w₂ hex
      exact ⟨hI₂, hG, (ih r).mpr hk⟩

/-- A call in the tagged configuration is one of the task. -/
theorem task_of_tag {t : ℕ} {e : E} {o : E × Op} {k : Ret o.2 → Prog (E × Op) (fun o => Ret o.2) α}
    (h : c.tag.task t = some (e, .call o k)) : ∃ k', c.task t = some (e, .call o.2 k') := by
  obtain ⟨⟨e', p⟩, htask, heq⟩ := Option.map_eq_some_iff.mp h
  obtain ⟨rfl, hp⟩ := Prod.mk.inj heq
  cases p with
  | ret a => cases hp
  | call o' k' =>
    obtain ⟨rfl, -⟩ := Prog.call.inj hp
    exact ⟨k', htask⟩

theorem waits_tag {t : ℕ} (h : S.Waits c t) : (S.meeting ok).Waits c.tag t := by
  intro e o k htask
  obtain ⟨k', htask'⟩ := task_of_tag htask
  exact h e o.2 k' htask'

/-- What becomes of the other tasks. -/
theorem tag_update {w : W} {t : ℕ} {e : E} {p : Prog Op Ret α} :
    (⟨w, Function.update c.task t (some (e, p))⟩ : Config Op Ret W E α).tag =
      ⟨w, Function.update c.tag.task t (some (e, p.tag e))⟩ := by
  refine congrArg (Config.mk w) (funext fun u => ?_)
  by_cases hu : u = t
  · subst hu
    simp only [Function.update_self, Option.map_some]
  · simp only [Function.update_of_ne hu]
    rfl

theorem step_meeting (hstep : S.Step c ev c') (hmeets : Meets ok c ev) :
    ∃ ev', (S.meeting ok).Step c.tag ev' c'.tag := by
  cases hstep with
  | @start t e hquiet hnone =>
    have hnone' : c.tag.task t = none := by
      show Option.map _ (c.task t) = none
      rw [hnone]
      rfl
    refine ⟨.start t e, ?_⟩
    rw [show Config.tag { c with task := Function.update c.task t (some (e, S.prog e)) } = _
      from tag_update]
    exact .start (fun u => waits_tag (hquiet u)) hnone'
  | @call t e o k r w hwait htask hex =>
    have htask' : c.tag.task t = some (e, .call (e, o) fun r => (k r).tag e) := by
      show Option.map _ (c.task t) = _
      rw [htask]
      rfl
    refine ⟨.call t (e, o) r, ?_⟩
    rw [tag_update]
    exact .call (fun u hu => waits_tag (hwait u hu)) htask' ⟨hex, hmeets e _ htask⟩
  | env hquiet henv => exact ⟨.env, .env (fun u => waits_tag (hquiet u)) henv⟩

/-- **Runs under a condition.** They are runs of the system with the condition built in. -/
theorem RunMeeting.reachable {evs : List (Event Op Ret E)} (hinit : S.Init c)
    (hrun : S.RunMeeting ok c evs c') : (S.meeting ok).Reachable c'.tag := by
  induction hrun with
  | nil =>
    refine .init ⟨hinit.1, fun t => ?_⟩
    show Option.map _ (c.task t) = none
    rw [hinit.2 t]
    rfl
  | snoc _ hstep hmeets ih =>
    obtain ⟨ev', hstep'⟩ := step_meeting hstep hmeets
    exact .step ih hstep'

/-- The calls may be answered in more ways. -/
theorem RunMeeting.mono {exec : ℕ → (o : Op) → W → Ret o → W → Prop}
    {evs : List (Event Op Ret E)}
    (hexec : ∀ t o w r w', S.exec t o w r w' → exec t o w r w')
    (hrun : S.RunMeeting ok c evs c') :
    ({ S with exec := exec } : System Op Ret W E α).RunMeeting ok c evs c' := by
  induction hrun with
  | nil => exact .nil _
  | snoc _ hstep hmeets ih =>
    refine .snoc ih ?_ hmeets
    cases hstep with
    | start hquiet hnone => exact .start hquiet hnone
    | call hwait htask hex => exact .call hwait htask (hexec _ _ _ _ _ hex)
    | env hquiet henv => exact .env hquiet henv

theorem RunMeeting.run {evs : List (Event Op Ret E)} (hrun : S.RunMeeting ok c evs c') :
    S.Run c evs c' := by
  induction hrun with
  | nil => exact .nil _
  | snoc _ hstep _ ih => exact .snoc ih hstep

/-- Every run meets the condition that allows everything. -/
theorem Run.meeting {evs : List (Event Op Ret E)} (hrun : S.Run c evs c') :
    S.RunMeeting (fun _ _ _ _ _ => True) c evs c' := by
  induction hrun with
  | nil => exact .nil _
  | @snoc _ _ _ ev _ hstep ih =>
    refine .snoc ih hstep ?_
    cases ev with
    | call => exact fun _ _ _ => trivial
    | start | env => trivial

end System

end ProxyCache.Lib
