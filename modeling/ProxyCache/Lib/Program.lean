import Mathlib.Logic.Function.Basic
import Mathlib.Data.Nat.Notation

/-!
# Programs over effects, and the tasks that interleave them

A program either returns or calls one effect and goes on with the answer. A
system runs any number of such programs as tasks over one shared world: the
tasks are started at any time, an effect of one task is one atomic step, and
between two steps the environment may change the world.

Which effects let other tasks run is a parameter (`Effects.yields`). With every
effect yielding, each call can be interleaved with anything (tasks in several
processes over a shared store). With only the waiting effects yielding, a task
runs undisturbed between two waits (coroutines on one event loop).

The rules at the end are rely-guarantee: `wp` says what a task keeps while the
others only do what it relies on, `Discipline` collects the obligations, and
`Discipline.sound` turns them into an invariant of every reachable
configuration.
-/

namespace ProxyCache.Lib

/-- A task's program: it returns, or it calls an effect and continues with the
answer. -/
inductive Prog (Op : Type) (Ret : Op → Type) (α : Type) : Type where
  | ret (a : α) : Prog Op Ret α
  | call (o : Op) (k : Ret o → Prog Op Ret α) : Prog Op Ret α

variable {Op : Type} {Ret : Op → Type} {W E α β : Type}

namespace Prog

protected def bind : Prog Op Ret α → (α → Prog Op Ret β) → Prog Op Ret β
  | .ret a, f => f a
  | .call o k, f => .call o fun r => (k r).bind f

instance : Monad (Prog Op Ret) where
  pure := .ret
  bind := Prog.bind

/-- One effect, as a program of its own. -/
def op (o : Op) : Prog Op Ret (Ret o) := .call o .ret

@[simp] theorem pure_eq (a : α) : (pure a : Prog Op Ret α) = .ret a := rfl

@[simp] theorem ret_bind (a : α) (f : α → Prog Op Ret β) : (Prog.ret a >>= f) = f a := rfl

@[simp] theorem call_bind (o : Op) (k : Ret o → Prog Op Ret α) (f : α → Prog Op Ret β) :
    (Prog.call o k >>= f) = .call o fun r => k r >>= f := rfl

@[simp] theorem op_bind (o : Op) (f : Ret o → Prog Op Ret β) :
    (op o >>= f) = .call o f := rfl

theorem bind_assoc {γ : Type} (p : Prog Op Ret α) (f : α → Prog Op Ret β)
    (g : β → Prog Op Ret γ) : p >>= f >>= g = p >>= fun a => f a >>= g := by
  induction p with
  | ret a => rfl
  | call o k ih => exact congrArg (Prog.call o) (funext ih)

/-- Every effect the program can call, whatever the answers, satisfies `P`. -/
def Calls (P : Op → Prop) : Prog Op Ret α → Prop
  | .ret _ => True
  | .call o k => P o ∧ ∀ r, (k r).Calls P

@[simp] theorem calls_ret (P : Op → Prop) (a : α) : (Prog.ret a : Prog Op Ret α).Calls P :=
  trivial

@[simp] theorem calls_call {P : Op → Prop} {o : Op} {k : Ret o → Prog Op Ret α} :
    (Prog.call o k).Calls P ↔ P o ∧ ∀ r, (k r).Calls P := Iff.rfl

theorem Calls.bind {P : Op → Prop} {p : Prog Op Ret α} {f : α → Prog Op Ret β}
    (hp : p.Calls P) (hf : ∀ a, (f a).Calls P) : (p >>= f).Calls P := by
  induction p with
  | ret a => exact hf a
  | call o k ih => exact ⟨hp.1, fun r => ih r (hp.2 r)⟩

theorem Calls.mono {P P' : Op → Prop} {p : Prog Op Ret α} (h : p.Calls P)
    (himp : ∀ o, P o → P' o) : p.Calls P' := by
  induction p with
  | ret a => trivial
  | call o k ih => exact ⟨himp o h.1, fun r => ih r (h.2 r)⟩

theorem calls_of_forall {P : Op → Prop} (h : ∀ o, P o) (p : Prog Op Ret α) : p.Calls P := by
  induction p with
  | ret a => trivial
  | call o k ih => exact ⟨h o, ih⟩

/-- Every value the program can return, whatever the answers, satisfies `P`. -/
def Returns (P : α → Prop) : Prog Op Ret α → Prop
  | .ret a => P a
  | .call _ k => ∀ r, (k r).Returns P

@[simp] theorem returns_ret {P : α → Prop} {a : α} :
    (Prog.ret a : Prog Op Ret α).Returns P ↔ P a := Iff.rfl

@[simp] theorem returns_call {P : α → Prop} {o : Op} {k : Ret o → Prog Op Ret α} :
    (Prog.call o k).Returns P ↔ ∀ r, (k r).Returns P := Iff.rfl

theorem Returns.bind {P : α → Prop} {P' : β → Prop} {p : Prog Op Ret α} {f : α → Prog Op Ret β}
    (hp : p.Returns P) (hf : ∀ a, P a → (f a).Returns P') : (p >>= f).Returns P' := by
  induction p with
  | ret a => exact hf a hp
  | call o k ih => exact fun r => ih r (hp r)

theorem Returns.mono {P P' : α → Prop} {p : Prog Op Ret α} (h : p.Returns P)
    (himp : ∀ a, P a → P' a) : p.Returns P' := by
  induction p with
  | ret a => exact himp a h
  | call o k ih => exact fun r => ih r (h r)

theorem Returns.and {P P' : α → Prop} {p : Prog Op Ret α} (h : p.Returns P) (h' : p.Returns P') :
    p.Returns fun a => P a ∧ P' a := by
  induction p with
  | ret a => exact ⟨h, h'⟩
  | call o k ih => exact fun r => ih r (h r) (h' r)

theorem returns_true (p : Prog Op Ret α) : p.Returns fun _ => True := by
  induction p with
  | ret a => trivial
  | call o k ih => exact ih

/-- Run a program alone, from the world `w`, with the answers that `answer` computes. -/
def run (answer : (o : Op) → W → Ret o × W) : Prog Op Ret α → W → α × W
  | .ret a, w => (a, w)
  | .call o k, w => (k (answer o w).1).run answer (answer o w).2

@[simp] theorem run_ret {answer : (o : Op) → W → Ret o × W} {a : α} {w : W} :
    (Prog.ret a : Prog Op Ret α).run answer w = (a, w) := rfl

@[simp] theorem run_call {answer : (o : Op) → W → Ret o × W} {o : Op} {k : Ret o → Prog Op Ret α}
    {w : W} :
    (Prog.call o k).run answer w = (k (answer o w).1).run answer (answer o w).2 := rfl

@[simp] theorem run_op {answer : (o : Op) → W → Ret o × W} {o : Op} {w : W} :
    (op o).run answer w = answer o w := rfl

theorem run_bind (answer : (o : Op) → W → Ret o × W) (p : Prog Op Ret α) (f : α → Prog Op Ret β)
    (w : W) : (p >>= f).run answer w = (f (p.run answer w).1).run answer (p.run answer w).2 := by
  induction p generalizing w with
  | ret a => rfl
  | call o k ih => exact ih _ _

theorem Returns.bind_of_forall {P : β → Prop} (p : Prog Op Ret α) {f : α → Prog Op Ret β}
    (hf : ∀ a, (f a).Returns P) : (p >>= f).Returns P :=
  (returns_true p).bind fun a _ => hf a

end Prog

/-- What the effects do: `exec t o w r w'` says that the call of `o` by task `t`
in world `w` can answer `r` and leave `w'`. -/
structure Effects (Op : Type) (Ret : Op → Type) (W : Type) where
  yields : Op → Bool
  exec : ℕ → (o : Op) → W → Ret o → W → Prop

namespace Effects

variable (F : Effects Op Ret W)

/-- The task `t` can run `p` from `w`: each of its steps keeps `I` and does only
what `G` allows, provided the others keep `I` and do only what `R` allows, and
on return `Q` holds. -/
def wp (I : W → Prop) (R G : W → W → Prop) (t : ℕ) (Q : α → W → Prop) :
    Prog Op Ret α → W → Prop
  | .ret a, w => Q a w
  | .call o k, w => ∀ w₁, (if F.yields o then R w w₁ else w₁ = w) → I w₁ →
      ∀ r w₂, F.exec t o w₁ r w₂ → I w₂ ∧ G w₁ w₂ ∧ wp I R G t Q (k r) w₂

variable {F} {I : W → Prop} {R G : W → W → Prop} {t : ℕ} {w : W}

@[simp] theorem wp_ret {Q : α → W → Prop} {a : α} :
    F.wp I R G t Q (.ret a) w ↔ Q a w := Iff.rfl

theorem wp_call {Q : α → W → Prop} {o : Op} {k : Ret o → Prog Op Ret α} :
    F.wp I R G t Q (.call o k) w ↔
      ∀ w₁, (if F.yields o then R w w₁ else w₁ = w) → I w₁ →
        ∀ r w₂, F.exec t o w₁ r w₂ → I w₂ ∧ G w₁ w₂ ∧ F.wp I R G t Q (k r) w₂ := Iff.rfl

/-- The rule of sequencing. -/
theorem wp_bind {Q : β → W → Prop} {p : Prog Op Ret α} {f : α → Prog Op Ret β} :
    F.wp I R G t Q (p >>= f) w ↔ F.wp I R G t (fun a w => F.wp I R G t Q (f a) w) p w := by
  induction p generalizing w with
  | ret a => rfl
  | call o k ih =>
    simp only [Prog.call_bind, wp_call, ih]

/-- The rule of consequence, for the postcondition. -/
theorem wp_mono {Q Q' : α → W → Prop} {p : Prog Op Ret α} (h : F.wp I R G t Q p w)
    (himp : ∀ a w, Q a w → Q' a w) : F.wp I R G t Q' p w := by
  induction p generalizing w with
  | ret a => exact himp a w h
  | call o k ih =>
    intro w₁ hR hI r w₂ hex
    obtain ⟨hI₂, hG, hk⟩ := h w₁ hR hI r w₂ hex
    exact ⟨hI₂, hG, ih r hk⟩

/-- The rule of consequence, for the guarantee. -/
theorem wp_mono_guar {G' : W → W → Prop} {Q : α → W → Prop} {p : Prog Op Ret α}
    (h : F.wp I R G t Q p w) (himp : ∀ w w', G w w' → G' w w') : F.wp I R G' t Q p w := by
  induction p generalizing w with
  | ret a => exact h
  | call o k ih =>
    intro w₁ hR hI r w₂ hex
    obtain ⟨hI₂, hG, hk⟩ := h w₁ hR hI r w₂ hex
    exact ⟨hI₂, himp w₁ w₂ hG, ih r hk⟩

/-- The rule of a call: it starts in any world where an assertion still holds that the
others do not disturb, if they run at all. -/
theorem wp_call_of_yields {A : W → Prop} {Q : α → W → Prop} {o : Op} {k : Ret o → Prog Op Ret α}
    (hA : A w) (hstable : F.yields o = true → ∀ w w', A w → R w w' → A w')
    (h : ∀ w₁ r w₂, A w₁ → I w₁ → F.exec t o w₁ r w₂ →
      I w₂ ∧ G w₁ w₂ ∧ F.wp I R G t Q (k r) w₂) :
    F.wp I R G t Q (.call o k) w := by
  intro w₁ hR hI r w₂ hex
  have hA₁ : A w₁ := by
    split at hR
    · next hyields => exact hstable hyields w w₁ hA hR
    · exact hR ▸ hA
  exact h w₁ r w₂ hA₁ hI hex

theorem wp_call_of_stable {A : W → Prop} {Q : α → W → Prop} {o : Op} {k : Ret o → Prog Op Ret α}
    (hA : A w) (hstable : ∀ w w', A w → R w w' → A w')
    (h : ∀ w₁ r w₂, A w₁ → I w₁ → F.exec t o w₁ r w₂ →
      I w₂ ∧ G w₁ w₂ ∧ F.wp I R G t Q (k r) w₂) :
    F.wp I R G t Q (.call o k) w :=
  wp_call_of_yields hA (fun _ => hstable) h

/-- The rule of a call that does not let the others run. -/
theorem wp_call_of_not_yields {Q : α → W → Prop} {o : Op} {k : Ret o → Prog Op Ret α}
    (hyields : F.yields o = false)
    (h : I w → ∀ r w₂, F.exec t o w r w₂ → I w₂ ∧ G w w₂ ∧ F.wp I R G t Q (k r) w₂) :
    F.wp I R G t Q (.call o k) w := by
  intro w₁ hR hI r w₂ hex
  simp only [hyields, Bool.false_eq_true, if_false] at hR
  subst hR
  exact h hI r w₂ hex

/-- What the others may do in between does not disturb a task that waits. -/
theorem wp_stable {Q : α → W → Prop} (htrans : ∀ w₁ w₂ w₃, R w₁ w₂ → R w₂ w₃ → R w₁ w₃)
    (hQ : ∀ a w₁ w₂, Q a w₁ → I w₂ → R w₁ w₂ → Q a w₂)
    {p : Prog Op Ret α} {w w' : W} (h : F.wp I R G t Q p w) (hI : I w') (hR : R w w')
    (hyield : ∀ o k, p = .call o k → F.yields o) : F.wp I R G t Q p w' := by
  cases p with
  | ret a => exact hQ a w w' h hI hR
  | call o k =>
    have hy := hyield o k rfl
    intro w₁ hR₁ hI₁ r w₂ hex
    simp only [hy, if_true] at hR₁
    exact h w₁ (by simp only [hy, if_true]; exact htrans _ _ _ hR hR₁) hI₁ r w₂ hex

/-- What a program can return holds of what it does return. -/
theorem wp_and_returns {Q : α → W → Prop} {P : α → Prop} {p : Prog Op Ret α}
    (h : F.wp I R G t Q p w) (hp : p.Returns P) :
    F.wp I R G t (fun a w => Q a w ∧ P a) p w := by
  induction p generalizing w with
  | ret a => exact ⟨h, hp⟩
  | call o k ih =>
    intro w₁ hR hI r w₂ hex
    obtain ⟨hI₂, hG, hk⟩ := h w₁ hR hI r w₂ hex
    exact ⟨hI₂, hG, ih r hk (hp r)⟩

/-- The call `o` leaves the assertion `A` standing, whatever it answers. -/
def Keeps (F : Effects Op Ret W) (I : W → Prop) (R G : W → W → Prop) (t : ℕ) (A : W → Prop)
    (o : Op) : Prop :=
  ∀ w, A w → F.wp I R G t (fun _ => A) (Prog.op o) w

/-- A program whose calls keep an assertion keeps it. -/
theorem wp_of_keeps {A : W → Prop} {p : Prog Op Ret α} (hA : A w)
    (hp : p.Calls (F.Keeps I R G t A)) : F.wp I R G t (fun _ => A) p w := by
  induction p generalizing w with
  | ret a => exact hA
  | call o k ih =>
    intro w₁ hR hI r w₂ hex
    obtain ⟨hI₂, hG, hk⟩ := hp.1 w hA w₁ hR hI r w₂ hex
    exact ⟨hI₂, hG, ih r hk (hp.2 r)⟩

/-- A program whose every call keeps `I`, stays within `G` and establishes
nothing is safe from any world, with any interference. -/
theorem wp_of_calls {P : Op → Prop} {p : Prog Op Ret α} (hp : p.Calls P)
    (hstep : ∀ o w₁ r w₂, P o → I w₁ → F.exec t o w₁ r w₂ → I w₂ ∧ G w₁ w₂) :
    F.wp I R G t (fun _ _ => True) p w := by
  induction p generalizing w with
  | ret a => trivial
  | call o k ih =>
    intro w₁ _ hI r w₂ hex
    obtain ⟨hI₂, hG⟩ := hstep o w₁ r w₂ hp.1 hI hex
    exact ⟨hI₂, hG, ih r (hp.2 r)⟩

/-- Effects that do nothing but remember the last call. -/
def recorder : Effects Op Ret (Option Op) where
  yields _ := false
  exec _ o _ _ w := w = some o

/-- With the recorder the rules are about the calls of a program. -/
theorem wp_recorder [∀ o, Nonempty (Ret o)] {P : Op → Prop} {R : Option Op → Option Op → Prop}
    {t : ℕ} {p : Prog Op Ret α} {w : Option Op} (hw : ∀ o, w = some o → P o) :
    (recorder : Effects Op Ret (Option Op)).wp (fun w => ∀ o, w = some o → P o) R
      (fun _ _ => True) t (fun _ _ => True) p w ↔ p.Calls P := by
  constructor
  · intro h
    induction p generalizing w with
    | ret a => trivial
    | call o k ih =>
      have hcall : ∀ r, P o ∧ (k r).Calls P := by
        intro r
        obtain ⟨hlast, -, hk⟩ := h w rfl hw r (some o) rfl
        exact ⟨hlast o rfl, ih r hlast hk⟩
      obtain ⟨r⟩ := ‹∀ o, Nonempty (Ret o)› o
      exact ⟨(hcall r).1, fun r => (hcall r).2⟩
  · intro hp
    refine wp_of_calls hp fun o _ _ _ ho _ hex => ⟨?_, trivial⟩
    rintro _ hlast
    obtain rfl := Option.some.inj (hex.symm.trans hlast)
    exact ho

end Effects

/-! ## Systems of tasks -/

/-- Tasks of the kinds `E` over one shared world. `init` are the worlds a run
starts in, `env` what the world may do between two steps of the tasks. -/
structure System (Op : Type) (Ret : Op → Type) (W E α : Type) extends Effects Op Ret W where
  prog : E → Prog Op Ret α
  init : W → Prop
  env : W → W → Prop

/-- The world, and for every task started so far its kind and what it has left
to run. -/
structure Config (Op : Type) (Ret : Op → Type) (W E α : Type) where
  world : W
  task : ℕ → Option (E × Prog Op Ret α)

/-- What a step of a system was. -/
inductive Event (Op : Type) (Ret : Op → Type) (E : Type) where
  | start (t : ℕ) (e : E)
  | call (t : ℕ) (o : Op) (r : Ret o)
  | env

namespace System

variable (S : System Op Ret W E α)

/-- The task `t` is not in the middle of a stretch it runs undisturbed. -/
def Waits (c : Config Op Ret W E α) (t : ℕ) : Prop :=
  ∀ e o k, c.task t = some (e, .call o k) → S.yields o

/-- No task is in the middle of a stretch it runs undisturbed. -/
def Quiet (c : Config Op Ret W E α) : Prop := ∀ t, S.Waits c t

inductive Step : Config Op Ret W E α → Event Op Ret E → Config Op Ret W E α → Prop
  | start {c : Config Op Ret W E α} {t : ℕ} {e : E} :
      S.Quiet c → c.task t = none →
      Step c (.start t e) { c with task := Function.update c.task t (some (e, S.prog e)) }
  | call {c : Config Op Ret W E α} {t : ℕ} {e : E} {o : Op} {k : Ret o → Prog Op Ret α}
      {r : Ret o} {w : W} :
      (∀ u, u ≠ t → S.Waits c u) → c.task t = some (e, .call o k) →
      S.exec t o c.world r w →
      Step c (.call t o r) ⟨w, Function.update c.task t (some (e, k r))⟩
  | env {c : Config Op Ret W E α} {w : W} :
      S.Quiet c → S.env c.world w → Step c .env { c with world := w }

/-- The configurations before any task is started. -/
def Init (c : Config Op Ret W E α) : Prop := S.init c.world ∧ ∀ t, c.task t = none

inductive Reachable : Config Op Ret W E α → Prop
  | init {c : Config Op Ret W E α} : S.Init c → Reachable c
  | step {c c' : Config Op Ret W E α} {ev : Event Op Ret E} :
      Reachable c → S.Step c ev c' → Reachable c'

/-- `S.Run c evs c'`: the events `evs` lead from `c` to `c'`. -/
inductive Run : Config Op Ret W E α → List (Event Op Ret E) → Config Op Ret W E α → Prop
  | nil (c : Config Op Ret W E α) : Run c [] c
  | snoc {c c' c'' : Config Op Ret W E α} {evs : List (Event Op Ret E)} {ev : Event Op Ret E} :
      Run c evs c' → S.Step c' ev c'' → Run c (evs ++ [ev]) c''

/-- The system in which the calls are only made where `ok` allows them: its runs
are the runs of `S` whose every step meets the condition. -/
def restrict (ok : ℕ → Op → W → Prop) : System Op Ret W E α :=
  { S with exec := fun t o w r w' => S.exec t o w r w' ∧ ok t o w }

/-- The system in which the calls are only answered as `ok` allows. -/
def restrictAnswers (ok : (o : Op) → W → Ret o → Prop) : System Op Ret W E α :=
  { S with exec := fun t o w r w' => S.exec t o w r w' ∧ ok o w r }

/-- The system in which only the calls that `ok` allows are made, and where `I` holds
after every call and every move of the environment. -/
def within (ok : Op → Prop) (I : W → Prop) : System Op Ret W E α :=
  { S with
    exec := fun t o w r w' => S.exec t o w r w' ∧ ok o ∧ I w'
    env := fun w w' => S.env w w' ∧ I w' }

variable {S}

theorem step_of_within {ok : Op → Prop} {I : W → Prop} {c c' : Config Op Ret W E α}
    {ev : Event Op Ret E} (h : (S.within ok I).Step c ev c') : S.Step c ev c' := by
  cases h with
  | start hquiet hnone => exact .start hquiet hnone
  | call hwait htask hex => exact .call hwait htask hex.1
  | env hquiet henv => exact .env hquiet henv.1

/-- What no step brings about, if it holds at the end, has held all the way. -/
theorem Reachable.within_of_backward {I : W → Prop} {c : Config Op Ret W E α}
    (h : S.Reachable c)
    (hback : ∀ c ev c', S.Step c ev c' → I c'.world → I c.world) (hI : I c.world) :
    (S.within (fun _ => True) I).Reachable c := by
  induction h with
  | init hinit => exact .init hinit
  | @step c c' ev hreach hstep ih =>
    have hreach' := ih (hback c ev c' hstep hI)
    cases hstep with
    | start hquiet hnone => exact .step hreach' (.start hquiet hnone)
    | call hwait htask hex => exact .step hreach' (.call hwait htask ⟨hex, trivial, hI⟩)
    | env hquiet henv => exact .step hreach' (.env hquiet ⟨henv, hI⟩)

/-- What is reached from a reachable configuration. -/
theorem Reachable.run {c c' : Config Op Ret W E α} {evs : List (Event Op Ret E)}
    (h : S.Reachable c) (hrun : S.Run c evs c') : S.Reachable c' := by
  induction hrun with
  | nil => exact h
  | snoc _ hstep ih => exact .step ih hstep

theorem run_of_within {ok : Op → Prop} {I : W → Prop} {c c' : Config Op Ret W E α}
    {evs : List (Event Op Ret E)} (h : (S.within ok I).Run c evs c') : S.Run c evs c' := by
  induction h with
  | nil => exact .nil _
  | snoc _ hstep ih => exact .snoc ih (step_of_within hstep)

/-- A task that was started stays the task that it is. -/
theorem task_of_step {c c' : Config Op Ret W E α} {ev : Event Op Ret E} (h : S.Step c ev c')
    {t : ℕ} {e : E} {p : Prog Op Ret α} (htask : c.task t = some (e, p)) :
    ∃ p', c'.task t = some (e, p') := by
  cases h with
  | @start u _ _ hnone =>
    have htu : t ≠ u := by
      rintro rfl
      rw [hnone] at htask
      cases htask
    exact ⟨p, (Function.update_of_ne htu ..).trans htask⟩
  | @call u e' o k r w _ hu _ =>
    by_cases htu : t = u
    · subst htu
      obtain ⟨rfl, -⟩ := Prod.mk.inj (Option.some.inj (htask.symm.trans hu))
      exact ⟨k r, Function.update_self ..⟩
    · exact ⟨p, (Function.update_of_ne htu ..).trans htask⟩
  | env => exact ⟨p, htask⟩

/-- What a task can still call is among what its program can call. -/
theorem Reachable.calls {c : Config Op Ret W E α} (h : S.Reachable c) {P : E → Op → Prop}
    (hprog : ∀ e, (S.prog e).Calls (P e)) {t : ℕ} {e : E} {p : Prog Op Ret α}
    (htask : c.task t = some (e, p)) : p.Calls (P e) := by
  induction h generalizing t e p with
  | init hinit =>
    rw [hinit.2 t] at htask
    cases htask
  | step _ hstep ih =>
    cases hstep with
    | @start u e' _ _ =>
      by_cases htu : t = u
      · subst htu
        simp only [Function.update_self] at htask
        obtain ⟨rfl, rfl⟩ := Prod.mk.inj (Option.some.inj htask)
        exact hprog _
      · simp only [Function.update_of_ne htu] at htask
        exact ih htask
    | @call u e' o k r w _ hu _ =>
      by_cases htu : t = u
      · subst htu
        simp only [Function.update_self] at htask
        obtain ⟨rfl, rfl⟩ := Prod.mk.inj (Option.some.inj htask)
        exact (ih hu).2 r
      · simp only [Function.update_of_ne htu] at htask
        exact ih htask
    | env => exact ih htask

end System

/-! ## Rely-guarantee -/

/-- The obligations of a rely-guarantee proof about a system. `Inv` is kept by
every step; a task relies on `rely`, stays within `guar`, and establishes `post`
when it returns. -/
structure Discipline (S : System Op Ret W E α) where
  Inv : W → Prop
  rely : ℕ → E → W → W → Prop
  guar : ℕ → E → W → W → Prop
  post : ℕ → E → α → W → Prop
  rely_refl : ∀ t e w, rely t e w w
  rely_trans : ∀ t e w₁ w₂ w₃, rely t e w₁ w₂ → rely t e w₂ w₃ → rely t e w₁ w₃
  init : ∀ w, S.init w → Inv w
  env : ∀ w w', Inv w → S.env w w' → Inv w' ∧ ∀ t e, rely t e w w'
  others : ∀ t e u e' w w', u ≠ t → Inv w → Inv w' → guar t e w w' → rely u e' w w'
  post_stable : ∀ t e a w w', post t e a w → Inv w' → rely t e w w' → post t e a w'
  start : ∀ t e w, Inv w → S.wp Inv (rely t e) (guar t e) t (post t e) (S.prog e) w

namespace Discipline

variable {S : System Op Ret W E α} (D : Discipline S)

/-- The configuration is one in which every task can be run to its end. -/
structure Holds (c : Config Op Ret W E α) : Prop where
  inv : D.Inv c.world
  task : ∀ t e p, c.task t = some (e, p) →
    S.wp D.Inv (D.rely t e) (D.guar t e) t (D.post t e) p c.world

/-- The call of an effect by a task is within the task's guarantee. -/
theorem Holds.call {D : Discipline S} {c : Config Op Ret W E α} (h : D.Holds c) {t : ℕ} {e : E}
    {o : Op} {k : Ret o → Prog Op Ret α} {r : Ret o} {w : W}
    (htask : c.task t = some (e, .call o k)) (hex : S.exec t o c.world r w) :
    D.Inv w ∧ D.guar t e c.world w ∧
      S.wp D.Inv (D.rely t e) (D.guar t e) t (D.post t e) (k r) w := by
  refine h.task t e _ htask c.world ?_ h.inv r w hex
  split
  · exact D.rely_refl t e c.world
  · rfl

/-- A task that waits keeps its `wp` when the world moves as it relies on. -/
theorem Holds.keep {D : Discipline S} {c : Config Op Ret W E α} (h : D.Holds c) {t : ℕ} {e : E}
    {p : Prog Op Ret α} {w : W} (htask : c.task t = some (e, p)) (hwait : S.Waits c t)
    (hI : D.Inv w) (hR : D.rely t e c.world w) :
    S.wp D.Inv (D.rely t e) (D.guar t e) t (D.post t e) p w :=
  Effects.wp_stable (D.rely_trans t e)
  (fun a w₁ w₂ hp hI₂ hr => D.post_stable t e a w₁ w₂ hp hI₂ hr)
    (h.task t e p htask) hI hR fun o k hp => hwait e o k (hp ▸ htask)

theorem Holds.step {D : Discipline S} {c c' : Config Op Ret W E α} {ev : Event Op Ret E}
    (h : D.Holds c) (hstep : S.Step c ev c') : D.Holds c' := by
  cases hstep with
  | @start t e _ _ =>
    refine ⟨h.inv, fun u e' p hu => ?_⟩
    by_cases htu : u = t
    · subst htu
      simp only [Function.update_self, Option.some.injEq, Prod.mk.injEq] at hu
      obtain ⟨rfl, rfl⟩ := hu
      exact D.start u e c.world h.inv
    · simp only [Function.update_of_ne htu] at hu
      exact h.task u e' p hu
  | @call t e o k r w hwait htask hex =>
    obtain ⟨hI, hG, hk⟩ := h.call htask hex
    refine ⟨hI, fun u e' p hu => ?_⟩
    by_cases htu : u = t
    · subst htu
      simp only [Function.update_self, Option.some.injEq, Prod.mk.injEq] at hu
      obtain ⟨rfl, rfl⟩ := hu
      exact hk
    · simp only [Function.update_of_ne htu] at hu
      exact h.keep hu (hwait u htu) hI (D.others t e u e' _ _ htu h.inv hI hG)
  | @env w hquiet henv =>
    obtain ⟨hI, hR⟩ := D.env _ _ h.inv henv
    exact ⟨hI, fun u e' p hu => h.keep hu (hquiet u) hI (hR u e')⟩

/-- Every reachable configuration satisfies the discipline. -/
theorem sound {c : Config Op Ret W E α} (h : S.Reachable c) : D.Holds c := by
  induction h with
  | init hc => exact ⟨D.init _ hc.1, fun t e p ht => by rw [hc.2 t] at ht; cases ht⟩
  | step _ hstep ih => exact ih.step hstep

/-- A task that has returned has established its postcondition. -/
theorem returned {c : Config Op Ret W E α} (h : S.Reachable c) {t : ℕ} {e : E} {a : α}
    (htask : c.task t = some (e, .ret a)) : D.post t e a c.world :=
  (D.sound h).task t e _ htask

end Discipline

/-! ## Parts of runs -/

namespace System

variable {S : System Op Ret W E α} {c c' : Config Op Ret W E α} {evs : List (Event Op Ret E)}
  {I : W → Prop} {G : W → W → Prop} {t : ℕ} {e : E} {Q : α → W → Prop}

/-- A task that runs alone. -/
theorem Run.wp_alone (hrun : S.Run c evs c') (halone : ∀ ev ∈ evs, ∃ o r, ev = .call t o r)
    {p : Prog Op Ret α} (htask : c.task t = some (e, p)) (hI : I c.world)
    (hwp : S.wp I (fun w w' => w = w') G t Q p c.world) :
    ∃ p', c'.task t = some (e, p') ∧ I c'.world ∧
      S.wp I (fun w w' => w = w') G t Q p' c'.world := by
  induction hrun with
  | nil => exact ⟨p, htask, hI, hwp⟩
  | @snoc c₁ c₂ evs ev _ hstep ih =>
    obtain ⟨p', htask', hI', hwp'⟩ := ih fun ev hev => halone ev (List.mem_append_left _ hev)
    obtain ⟨o, r, rfl⟩ := halone ev (List.mem_append_right _ List.mem_cons_self)
    cases hstep with
    | @call _ e' _ k _ w hwait hcall hex =>
      obtain ⟨rfl, rfl⟩ := Prod.mk.inj (Option.some.inj (htask'.symm.trans hcall))
      have hnext := hwp' c₁.world (by split <;> rfl) hI' r w hex
      exact ⟨k r, Function.update_self .., hnext.1, hnext.2.2⟩

/-- What does not hold at first was brought about by an event of the run. -/
theorem Run.source {P : W → Prop} {brings : Event Op Ret E → Prop} (hreach : S.Reachable c)
    (hinit : ¬ P c.world)
    (hstep : ∀ d ev d', S.Reachable d → S.Step d ev d' → P d'.world → P d.world ∨ brings ev)
    (hrun : S.Run c evs c') (h : P c'.world) : ∃ ev ∈ evs, brings ev := by
  induction hrun with
  | nil => exact absurd h hinit
  | @snoc d d' evs ev hrest hlast ih =>
    rcases hstep d ev d' (hreach.run hrest) hlast h with hbefore | hev
    · obtain ⟨ev', hmem, hev'⟩ := ih hbefore
      exact ⟨ev', List.mem_append_left _ hmem, hev'⟩
    · exact ⟨ev, List.mem_append_right _ List.mem_cons_self, hev⟩

/-- The tasks of `c` are among those of `d`, further on. -/
def Persists (c d : Config Op Ret W E α) : Prop :=
  ∀ u e p, c.task u = some (e, p) → ∃ p', d.task u = some (e, p')

theorem Run.persists (hrun : S.Run c evs c') : Persists c c' := by
  induction hrun with
  | nil => exact fun u e p htask => ⟨p, htask⟩
  | snoc _ hstep ih =>
    intro u e p htask
    obtain ⟨p', htask'⟩ := ih u e p htask
    exact task_of_step hstep htask'

/-- A task that is started in a part of a run throughout which `I` holds, whatever the
others do besides. -/
theorem Run.wp_within {ok : Op → Prop} {L : W → Prop} {P : α → Prop}
    {last : Config Op Ret W E α} (hreach : S.Reachable c) (hrun : (S.within ok L).Run c evs c')
    (hlast : Persists c' last) (hI : I c.world) (hnone : c.task t = none)
    (hkeep : ∀ d ev d', S.Reachable d → (S.within ok L).Step d ev d' → Persists d' last →
      I d.world → I d'.world)
    (hwp : ∀ w, I w →
      S.wp I (fun _ _ => True) (fun _ _ => True) t (fun a _ => P a) (S.prog e) w) :
    I c'.world ∧ ∀ p, c'.task t = some (e, p) →
      S.wp I (fun _ _ => True) (fun _ _ => True) t (fun a _ => P a) p c'.world := by
  induction hrun with
  | nil =>
    refine ⟨hI, ?_⟩
    intro p htask
    rw [hnone] at htask
    cases htask
  | @snoc d d' evs ev hrest hstep ih =>
    have hpersists : Persists d last := by
      intro u e p htask
      obtain ⟨p', htask'⟩ := task_of_step (step_of_within hstep) htask
      exact hlast u e p' htask'
    obtain ⟨hId, htaskd⟩ := ih hpersists
    have hId' : I d'.world :=
      hkeep d ev d' (hreach.run (run_of_within hrest)) hstep hlast hId
    refine ⟨hId', ?_⟩
    intro p htask
    -- while another one steps, the task waits
    have hwaits : ∀ {w : W}, I w → S.Waits d t → d.task t = some (e, p) →
        S.wp I (fun _ _ => True) (fun _ _ => True) t (fun a _ => P a) p w := by
      intro w hw hwait hd
      exact Effects.wp_stable (fun _ _ _ _ _ => trivial) (fun _ _ _ hp _ _ => hp) (htaskd p hd) hw
        trivial fun o k hp => hwait e o k (hp ▸ hd)
    cases hstep with
    | @start u e' hquiet _ =>
      by_cases htu : t = u
      · subst htu
        simp only [Function.update_self] at htask
        obtain ⟨rfl, rfl⟩ := Prod.mk.inj (Option.some.inj htask)
        exact hwp _ hId
      · simp only [Function.update_of_ne htu] at htask
        exact htaskd p htask
    | @call u e' o k r w hwait hcall hex =>
      by_cases htu : t = u
      · subst htu
        simp only [Function.update_self] at htask
        obtain ⟨rfl, rfl⟩ := Prod.mk.inj (Option.some.inj htask)
        have hnext := htaskd _ hcall d.world (by split <;> trivial) hId r w hex.1
        exact hnext.2.2
      · simp only [Function.update_of_ne htu] at htask
        exact hwaits hId' (hwait t htu) htask
    | env hquiet henv => exact hwaits hId' (hquiet t) htask

end System

end ProxyCache.Lib
