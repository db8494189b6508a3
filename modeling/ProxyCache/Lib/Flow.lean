import ProxyCache.Lib.Program

/-!
# What flows through a system

A program is given values by the answers of its calls, and gives values away by the calls that it
makes and by what it returns. `Assures` is about these alone: as long as it is given good values,
the program gives good ones away. It needs no world, so it can be shown part by part.

* `Assures.bind` — the rule of sequencing;
* `Reachable.good` — where good calls keep the world good, and a good world answers well, the
  world of a system of such programs stays good, and they return good values.
-/

namespace ProxyCache.Lib

variable {Op : Type} {Ret : Op → Type} {W E α β : Type}

namespace Prog

variable (answered : (o : Op) → Ret o → Prop) (P : Op → Prop)

/-- As long as the answers are as they should be, every call satisfies `P`, and what is returned
satisfies `Q`. -/
def Assures : Prog Op Ret α → (α → Prop) → Prop
  | .ret a, Q => Q a
  | .call o k, Q => P o ∧ ∀ r, answered o r → (k r).Assures Q

variable {answered P} {Q Q' : α → Prop} {p : Prog Op Ret α}

@[simp] theorem assures_ret {a : α} : (Prog.ret a : Prog Op Ret α).Assures answered P Q ↔ Q a :=
  Iff.rfl

theorem Assures.mono (h : p.Assures answered P Q) (himp : ∀ a, Q a → Q' a) :
    p.Assures answered P Q' := by
  induction p with
  | ret a => exact himp a h
  | call o k ih => exact ⟨h.1, fun r hr => ih r (h.2 r hr)⟩

/-- The rule of sequencing. -/
theorem Assures.bind {Q : β → Prop} {M : α → Prop} {f : α → Prog Op Ret β}
    (h : p.Assures answered P M) (hf : ∀ a, M a → (f a).Assures answered P Q) :
    (p >>= f).Assures answered P Q := by
  induction p with
  | ret a => exact hf a h
  | call o k ih => exact ⟨h.1, fun r hr => ih r (h.2 r hr)⟩

/-- A part whose calls are good whatever they are answered. -/
theorem assures_of_calls (hcalls : p.Calls P) (hreturns : p.Returns Q) :
    p.Assures answered P Q := by
  induction p with
  | ret a => exact hreturns
  | call o k ih => exact ⟨hcalls.1, fun r _ => ih r (hcalls.2 r) (hreturns r)⟩

/-- Such a part, and what follows it. -/
theorem assures_calls_bind {Q : β → Prop} {f : α → Prog Op Ret β} (hcalls : p.Calls P)
    (hf : ∀ a, (f a).Assures answered P Q) : (p >>= f).Assures answered P Q :=
  (assures_of_calls hcalls (returns_true p)).bind fun a _ => hf a

end Prog

namespace System

variable {S : System Op Ret W E α} {answered : (o : Op) → Ret o → Prop} {P : Op → Prop}
  {I : W → Prop} {c c' : Config Op Ret W E α} {Q : E → α → Prop}

/-- The world is good, and what the tasks have still to run assures what their programs do. -/
def Good (answered : (o : Op) → Ret o → Prop) (P : Op → Prop) (I : W → Prop) (Q : E → α → Prop)
    (c : Config Op Ret W E α) : Prop :=
  I c.world ∧ ∀ t e p, c.task t = some (e, p) → p.Assures answered P (Q e)

/-- The step lemma. -/
theorem good_step (henv : ∀ w w', I w → S.env w w' → I w')
    (hexec : ∀ t o w r w', I w → P o → S.exec t o w r w' → answered o r ∧ I w')
    (hprog : ∀ e, (S.prog e).Assures answered P (Q e)) {ev : Event Op Ret E}
    (h : Good answered P I Q c) (hstep : S.Step c ev c') : Good answered P I Q c' := by
  obtain ⟨hworld, htasks⟩ := h
  cases hstep with
  | @start u e _ _ =>
    refine ⟨hworld, fun t e' p htask => ?_⟩
    by_cases htu : t = u
    · subst htu
      simp only [Function.update_self] at htask
      obtain ⟨rfl, rfl⟩ := Prod.mk.inj (Option.some.inj htask)
      exact hprog _
    · simp only [Function.update_of_ne htu] at htask
      exact htasks t e' p htask
  | @call u e o k r w _ hu hcall =>
    have hgoes := htasks u e _ hu
    obtain ⟨hanswer, hworld'⟩ := hexec u o _ r w hworld hgoes.1 hcall
    refine ⟨hworld', fun t e' p htask => ?_⟩
    by_cases htu : t = u
    · subst htu
      simp only [Function.update_self] at htask
      obtain ⟨rfl, rfl⟩ := Prod.mk.inj (Option.some.inj htask)
      exact hgoes.2 r hanswer
    · simp only [Function.update_of_ne htu] at htask
      exact htasks t e' p htask
  | env _ hmoves => exact ⟨henv _ _ hworld hmoves, htasks⟩

/-- **Flow.** -/
theorem Reachable.good (h : S.Reachable c) (hinit : ∀ w, S.init w → I w)
    (henv : ∀ w w', I w → S.env w w' → I w')
    (hexec : ∀ t o w r w', I w → P o → S.exec t o w r w' → answered o r ∧ I w')
    (hprog : ∀ e, (S.prog e).Assures answered P (Q e)) : Good answered P I Q c := by
  induction h with
  | init hstart =>
    refine ⟨hinit _ hstart.1, fun t e p htask => ?_⟩
    rw [hstart.2 t] at htask
    cases htask
  | step _ hstep ih => exact good_step henv hexec hprog ih hstep

/-- What a task of a good configuration has returned. -/
theorem Good.returned (h : Good answered P I Q c) {t : ℕ} {e : E} {a : α}
    (htask : c.task t = some (e, .ret a)) : Q e a := h.2 t e _ htask

end System

end ProxyCache.Lib
