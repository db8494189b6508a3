import ProxyCache.Lib.Program

/-!
# The calls of one task

`Performs` runs a program from a world to its end, with moves of the environment in between, and
lists the calls that it makes with their answers. What a program does whatever it is answered
needs no world: a label picks what counts of a call, and `Emits` is about what is picked on each
way through the program. In an environment that answers each call there is one way, whose calls are
the `log` of the program.
-/

namespace ProxyCache.Lib

variable {Op : Type} {Ret : Op → Type} {W M α β : Type}

/-- The calls of a program, with their answers. -/
abbrev CallLog (Op : Type) (Ret : Op → Type) := List ((o : Op) × Ret o)

namespace Prog

/-- On each way through the program, `Q` holds of what the label picks from the calls and of what
is returned. -/
def Emits (label : (o : Op) → Ret o → List M) : Prog Op Ret α → (List M → α → Prop) → Prop
  | .ret a, Q => Q [] a
  | .call o k, Q => ∀ r, (k r).Emits label fun ms a => Q (label o r ++ ms) a

variable {label : (o : Op) → Ret o → List M} {Q Q' : List M → α → Prop} {p : Prog Op Ret α}

@[simp] theorem emits_ret {a : α} : (Prog.ret a : Prog Op Ret α).Emits label Q ↔ Q [] a := Iff.rfl

theorem emits_call {o : Op} {k : Ret o → Prog Op Ret α} :
    (Prog.call o k).Emits label Q ↔
      ∀ r, (k r).Emits label fun ms a => Q (label o r ++ ms) a := Iff.rfl

theorem Emits.mono (h : p.Emits label Q) (himp : ∀ ms a, Q ms a → Q' ms a) : p.Emits label Q' := by
  induction p generalizing Q Q' with
  | ret a => exact himp _ _ h
  | call o k ih => exact fun r => ih r (h r) fun ms a => himp _ a

/-- The rule of sequencing. -/
theorem Emits.bind {Q : List M → β → Prop} {P : List M → α → Prop} {f : α → Prog Op Ret β}
    (h : p.Emits label P)
    (hf : ∀ ms a, P ms a → (f a).Emits label fun ms' b => Q (ms ++ ms') b) :
    (p >>= f).Emits label Q := by
  induction p generalizing P Q with
  | ret a => exact hf [] a h
  | call o k ih =>
    refine fun r => ih r (h r) fun ms a hP => ?_
    simpa only [List.append_assoc] using hf _ a hP

/-- The label picks nothing from the call. -/
def Silent (label : (o : Op) → Ret o → List M) (o : Op) : Prop := ∀ r, label o r = []

/-- Calls of which nothing is picked. -/
theorem emits_of_silent {P : α → Prop} (hp : p.Calls (Silent label)) (hreturns : p.Returns P) :
    p.Emits label fun ms a => ms = [] ∧ P a := by
  induction p with
  | ret a => exact ⟨rfl, hreturns⟩
  | call o k ih =>
    intro r
    rw [hp.1 r]
    exact ih r (hp.2 r) (hreturns r)

/-- A silent part, and what follows it. -/
theorem emits_silent_bind {Q : List M → β → Prop} {P : α → Prop} {f : α → Prog Op Ret β}
    (hp : p.Calls (Silent label)) (hreturns : p.Returns P)
    (hf : ∀ a, P a → (f a).Emits label Q) : (p >>= f).Emits label Q := by
  refine (emits_of_silent hp hreturns).bind ?_
  rintro _ a ⟨rfl, ha⟩
  exact hf a ha

/-! ## Calls that depend on answers -/

section Given

variable (answered : (o : Op) → Ret o → Prop) (P : Op → Prop)

/-- As long as the calls are answered so, every call satisfies `P`. -/
def CallsGiven : Prog Op Ret α → Prop
  | .ret _ => True
  | .call o k => P o ∧ ∀ r, answered o r → (k r).CallsGiven

variable {answered P}

theorem CallsGiven.bind {f : α → Prog Op Ret β} (hp : p.CallsGiven answered P)
    (hf : ∀ a, (f a).CallsGiven answered P) : (p >>= f).CallsGiven answered P := by
  induction p with
  | ret a => exact hf a
  | call o k ih => exact ⟨hp.1, fun r hr => ih r (hp.2 r hr)⟩

theorem callsGiven_of_calls (hp : p.Calls P) : p.CallsGiven answered P := by
  induction p with
  | ret a => trivial
  | call o k ih => exact ⟨hp.1, fun r _ => ih r (hp.2 r)⟩

/-- Without a condition on the answers it is every call that the program can make. -/
theorem CallsGiven.calls (hp : p.CallsGiven (fun _ _ => True) P) : p.Calls P := by
  induction p with
  | ret a => trivial
  | call o k ih => exact ⟨hp.1, fun r => ih r (hp.2 r trivial)⟩

end Given

/-! ## One environment -/

section Environment

variable {E : Type} (answer : (o : Op) → E → Ret o × E)

/-- The calls of a program that runs alone, in an environment with the states `E`. -/
def log : Prog Op Ret α → E → CallLog Op Ret
  | .ret _, _ => []
  | .call o k, e => ⟨o, (answer o e).1⟩ :: (k (answer o e).1).log (answer o e).2

variable {answer} {e : E} {f : α → Prog Op Ret β}

@[simp] theorem log_ret (a : α) : (Prog.ret a : Prog Op Ret α).log answer e = [] := rfl

@[simp] theorem log_call (o : Op) (k : Ret o → Prog Op Ret α) :
    (Prog.call o k).log answer e =
      ⟨o, (answer o e).1⟩ :: (k (answer o e).1).log answer (answer o e).2 := rfl

@[simp] theorem log_bind :
    (p >>= f).log answer e =
      p.log answer e ++ (f (p.run answer e).1).log answer (p.run answer e).2 := by
  induction p generalizing e with
  | ret a => rfl
  | call o k ih => exact congrArg (⟨o, (answer o e).1⟩ :: ·) (ih (answer o e).1)

theorem Returns.run {P : α → Prop} (h : p.Returns P) (e : E) : P (p.run answer e).1 := by
  induction p generalizing e with
  | ret a => exact h
  | call o k ih => exact ih (answer o e).1 (h (answer o e).1) (answer o e).2

/-- What is picked from the calls in one environment is picked on some way through the program. -/
theorem Emits.log (h : p.Emits label Q) (e : E) :
    Q ((p.log answer e).flatMap fun c => label c.1 c.2) (p.run answer e).1 := by
  induction p generalizing Q e with
  | ret a => exact h
  | call o k ih => exact ih (answer o e).1 (h (answer o e).1) (answer o e).2

theorem flatMap_log (h : p.Calls (Silent label)) (e : E) :
    ((p.log answer e).flatMap fun c => label c.1 c.2) = [] :=
  ((emits_of_silent h (returns_true p)).log e).1

end Environment

end Prog

namespace Effects

variable (F : Effects Op Ret W) (R : W → W → Prop) (t : ℕ)

/-- The program can run from `w` to its end in `w'`, with these calls, and return `a`; between
the calls the world moves by `R`. -/
inductive Performs : Prog Op Ret α → W → CallLog Op Ret → α → W → Prop
  | ret {a : α} {w w' : W} : R w w' → Performs (.ret a) w [] a w'
  | call {o : Op} {k : Ret o → Prog Op Ret α} {w w₁ w₂ w' : W} {r : Ret o}
      {cs : CallLog Op Ret} {a : α} : R w w₁ → F.exec t o w₁ r w₂ → Performs (k r) w₂ cs a w' →
      Performs (.call o k) w (⟨o, r⟩ :: cs) a w'

variable {F R t} {p : Prog Op Ret α} {w w' : W} {cs : CallLog Op Ret} {a : α}

theorem performs_call {o : Op} {k : Ret o → Prog Op Ret α} :
    F.Performs R t (.call o k) w cs a w' ↔
      ∃ w₁ r w₂ rest, R w w₁ ∧ F.exec t o w₁ r w₂ ∧ cs = ⟨o, r⟩ :: rest ∧
        F.Performs R t (k r) w₂ rest a w' := by
  constructor
  · intro h
    cases h with
    | call hR hex hk => exact ⟨_, _, _, _, hR, hex, rfl, hk⟩
  · rintro ⟨w₁, r, w₂, rest, hR, hex, rfl, hk⟩
    exact .call hR hex hk

/-- What is picked from the calls of a run is picked on some way through the program. -/
theorem Performs.emits {label : (o : Op) → Ret o → List M} {Q : List M → α → Prop}
    (h : F.Performs R t p w cs a w') (hp : p.Emits label Q) :
    Q (cs.flatMap fun c => label c.1 c.2) a := by
  induction h generalizing Q with
  | ret _ => exact hp
  | call _ _ _ ih => exact ih (hp _)

theorem Performs.returns {P : α → Prop} (h : F.Performs R t p w cs a w') (hp : p.Returns P) :
    P a := by
  induction h with
  | ret _ => exact hp
  | call _ _ _ ih => exact ih (hp _)

/-- A program whose calls can be answered anywhere has a run from anywhere. -/
theorem exists_performs (hR : ∀ w, R w w)
    (hp : p.Calls fun o => ∀ w, ∃ r w', F.exec t o w r w') (w : W) :
    ∃ cs a w', F.Performs R t p w cs a w' := by
  induction p generalizing w with
  | ret a => exact ⟨[], a, w, .ret (hR w)⟩
  | call o k ih =>
    obtain ⟨r, w₁, hex⟩ := hp.1 w
    obtain ⟨cs, a, w', hk⟩ := ih r (hp.2 r) w₁
    exact ⟨_, a, w', .call (hR w) hex hk⟩

/-- The run of a program alone, with the answers that are computed, as far as there are any. -/
def perform (answer : (o : Op) → W → Option (Ret o × W)) :
    Prog Op Ret α → W → Option (CallLog Op Ret × α × W)
  | .ret a, w => some ([], a, w)
  | .call o k, w => do
    let (r, w₁) ← answer o w
    let (cs, a, w') ← perform answer (k r) w₁
    return (⟨o, r⟩ :: cs, a, w')

theorem performs_of_perform {answer : (o : Op) → W → Option (Ret o × W)} (hR : ∀ w, R w w)
    (hanswer : ∀ o w r w', answer o w = some (r, w') → F.exec t o w r w')
    (h : perform answer p w = some (cs, a, w')) : F.Performs R t p w cs a w' := by
  induction p generalizing w cs with
  | ret b =>
    obtain ⟨rfl, rfl, rfl⟩ : [] = cs ∧ b = a ∧ w = w' := by simpa [perform] using h
    exact .ret (hR w)
  | call o k ih =>
    obtain ⟨⟨r, w₁⟩, hcall, hrest⟩ := Option.bind_eq_some_iff.mp h
    obtain ⟨⟨cs', b, w₂⟩, hk, hret⟩ := Option.bind_eq_some_iff.mp hrest
    obtain ⟨rfl, rfl, rfl⟩ : ⟨o, r⟩ :: cs' = cs ∧ b = a ∧ w₂ = w' := by simpa using hret
    exact .call (hR w) (hanswer o w r w₁ hcall) (ih r hk)

end Effects

end ProxyCache.Lib
