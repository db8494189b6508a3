import ProxyCache.Lib.Trace
import Mathlib.Algebra.Ring.Nat
import Mathlib.Algebra.BigOperators.Group.Finset.Basic
import Mathlib.Algebra.BigOperators.Group.Finset.Piecewise

/-!
# Histories

What is shown of the ways through a program is carried over to the runs of a system of tasks.

* `Run.emits` — the calls that a task has made in a run, its `history`, begin one way through its
  program; when it has returned, they are one;
* `Run.split` — a run goes through each of its events;
* `Run.cost_le` — where each program costs no more than its budget, a run costs no more than the
  budgets of the tasks that were started.
-/

namespace ProxyCache.Lib

variable {Op : Type} {Ret : Op → Type} {W E M α β : Type}

/-! ## The calls of a task -/

/-- The event as a call of the task `t`. -/
def Event.callOf (t : ℕ) : Event Op Ret E → Option ((o : Op) × Ret o)
  | .call u o r => if u = t then some ⟨o, r⟩ else none
  | _ => none

/-- The calls that the task `t` makes among the events. -/
def history (t : ℕ) (evs : List (Event Op Ret E)) : CallLog Op Ret :=
  evs.filterMap (Event.callOf t)

/-- What a label picks from calls. -/
def picked (label : (o : Op) → Ret o → List M) (cs : CallLog Op Ret) : List M :=
  cs.flatMap fun c => label c.1 c.2

section History

variable {label : (o : Op) → Ret o → List M} {t u : ℕ} {e : E} {o : Op} {r : Ret o}
  {evs : List (Event Op Ret E)}

@[simp] theorem history_start : history t (evs ++ [.start u e]) = history t evs := by
  simp [history, Event.callOf]

@[simp] theorem history_env : history t (evs ++ [.env]) = history t evs := by
  simp [history, Event.callOf]

@[simp] theorem history_call_self :
    history t (evs ++ [.call t o r]) = history t evs ++ [⟨o, r⟩] := by
  simp [history, Event.callOf]

theorem history_call_of_ne (h : u ≠ t) :
    history t (evs ++ [.call u o r]) = history t evs := by
  simp [history, Event.callOf, h]

@[simp] theorem picked_append (cs cs' : CallLog Op Ret) :
    picked label (cs ++ cs') = picked label cs ++ picked label cs' := List.flatMap_append

@[simp] theorem picked_singleton (c : (o : Op) × Ret o) :
    picked label [c] = label c.1 c.2 := List.flatMap_singleton ..

end History

namespace System

variable {S : System Op Ret W E α} {c₀ c : Config Op Ret W E α} {evs : List (Event Op Ret E)}

/-- A task that was not started has made no call. -/
theorem Run.history_eq_nil {t : ℕ} (hrun : S.Run c₀ evs c) (hnone : c.task t = none) :
    history t evs = [] := by
  induction hrun with
  | nil => rfl
  | snoc _ hstep ih =>
    cases hstep with
    | @start u e _ _ =>
      by_cases hu : u = t
      · subst hu
        simp at hnone
      · rw [history_start]
        exact ih (by simpa [Function.update_of_ne (Ne.symm hu)] using hnone)
    | @call u e o k r w _ _ _ =>
      by_cases hu : u = t
      · subst hu
        simp at hnone
      · rw [history_call_of_ne hu]
        exact ih (by simpa [Function.update_of_ne (Ne.symm hu)] using hnone)
    | env _ _ =>
      rw [history_env]
      exact ih hnone

/-- **Histories.** What is picked from the calls of a task so far is picked at the beginning of a
way through its program, and what it has left to run are the ways that begin so. -/
theorem Run.emits {label : (o : Op) → Ret o → List M} {Q : List M → α → Prop} {t : ℕ} {e : E}
    {p : Prog Op Ret α} (hinit : S.Init c₀) (hrun : S.Run c₀ evs c)
    (htask : c.task t = some (e, p)) (h : (S.prog e).Emits label Q) :
    p.Emits label fun ms a => Q (picked label (history t evs) ++ ms) a := by
  -- By induction on the run; a call moves what it picks from the program to the history.
  induction hrun generalizing p with
  | nil =>
    rw [hinit.2 t] at htask
    cases htask
  | snoc hrun hstep ih =>
    cases hstep with
    | @start u e' _ hnone =>
      rw [history_start]
      by_cases hu : u = t
      · subst hu
        simp only [Function.update_self, Option.some.injEq, Prod.mk.injEq] at htask
        obtain ⟨rfl, rfl⟩ := htask
        rw [hrun.history_eq_nil hnone]
        exact h
      · exact ih (by simpa [Function.update_of_ne (Ne.symm hu)] using htask)
    | @call u e' o k r w _ hcall _ =>
      by_cases hu : u = t
      · subst hu
        simp only [Function.update_self, Option.some.injEq, Prod.mk.injEq] at htask
        obtain ⟨rfl, rfl⟩ := htask
        rw [history_call_self, picked_append, picked_singleton]
        simpa only [List.append_assoc] using ih hcall r
      · rw [history_call_of_ne hu]
        exact ih (by simpa [Function.update_of_ne (Ne.symm hu)] using htask)
    | env _ _ =>
      rw [history_env]
      exact ih htask

/-- What a task that has returned has called. -/
theorem Run.emits_ret {label : (o : Op) → Ret o → List M} {Q : List M → α → Prop} {t : ℕ} {e : E}
    {a : α} (hinit : S.Init c₀) (hrun : S.Run c₀ evs c) (htask : c.task t = some (e, .ret a))
    (h : (S.prog e).Emits label Q) : Q (picked label (history t evs)) a := by
  have hpicked := hrun.emits hinit htask h
  rwa [Prog.emits_ret, List.append_nil] at hpicked

/-- A task runs the program of its kind, and was started. -/
theorem Run.start_mem {t : ℕ} {e : E} {p : Prog Op Ret α} (hinit : S.Init c₀)
    (hrun : S.Run c₀ evs c) (htask : c.task t = some (e, p)) : Event.start t e ∈ evs := by
  induction hrun generalizing p with
  | nil =>
    rw [hinit.2 t] at htask
    cases htask
  | snoc hrun hstep ih =>
    rw [List.mem_append]
    cases hstep with
    | @start u e' _ _ =>
      by_cases hu : u = t
      · subst hu
        simp only [Function.update_self, Option.some.injEq, Prod.mk.injEq] at htask
        obtain ⟨rfl, -⟩ := htask
        exact .inr List.mem_cons_self
      · exact .inl (ih (by simpa [Function.update_of_ne (Ne.symm hu)] using htask))
    | @call u e' o k r w _ hcall _ =>
      by_cases hu : u = t
      · subst hu
        simp only [Function.update_self, Option.some.injEq, Prod.mk.injEq] at htask
        obtain ⟨rfl, -⟩ := htask
        exact .inl (ih hcall)
      · exact .inl (ih (by simpa [Function.update_of_ne (Ne.symm hu)] using htask))
    | env _ _ => exact .inl (ih htask)

/-- A run goes through each of its events. -/
theorem Run.split {before after : List (Event Op Ret E)} {ev : Event Op Ret E}
    (hrun : S.Run c₀ (before ++ ev :: after) c) :
    ∃ d d', S.Run c₀ before d ∧ S.Step d ev d' := by
  generalize hall : before ++ ev :: after = all at hrun
  induction hrun generalizing after with
  | nil => cases before <;> cases hall
  | @snoc d d' evs last hrun hstep ih =>
    rcases List.eq_nil_or_concat after with rfl | ⟨rest, last', rfl⟩
    · obtain ⟨rfl, hlast⟩ := List.append_inj' hall rfl
      obtain rfl := (List.cons.inj hlast).1
      exact ⟨d, d', hrun, hstep⟩
    · refine @ih rest ?_
      have hsame : (before ++ ev :: rest) ++ [last'] = evs ++ [last] := by
        simpa using hall
      exact (List.append_inj' hsame rfl).1

end System

namespace Prog

/-- Where every call can be answered, there is a way through the program. -/
theorem Emits.exists_way [∀ o, Nonempty (Ret o)] {label : (o : Op) → Ret o → List M}
    {Q : List M → α → Prop} {p : Prog Op Ret α} (h : p.Emits label Q) : ∃ ms a, Q ms a := by
  induction p generalizing Q with
  | ret a => exact ⟨[], a, h⟩
  | call o k ih =>
    obtain ⟨r⟩ := ‹∀ o, Nonempty (Ret o)› o
    obtain ⟨ms, a, hQ⟩ := ih r (h r)
    exact ⟨_, a, hQ⟩

end Prog

/-! ## Costs -/

namespace Prog

variable {cost : (o : Op) → Ret o → ℕ} {p : Prog Op Ret α} {n m : ℕ}

/-- No way through the program costs more than `n`. -/
def Costs (cost : (o : Op) → Ret o → ℕ) : Prog Op Ret α → ℕ → Prop
  | .ret _, _ => True
  | .call o k, n => ∀ r, ∃ m, cost o r + m ≤ n ∧ (k r).Costs cost m

@[simp] theorem costs_ret (a : α) : (Prog.ret a : Prog Op Ret α).Costs cost n := trivial

theorem Costs.mono (h : p.Costs cost n) (hle : n ≤ m) : p.Costs cost m := by
  cases p with
  | ret a => trivial
  | call o k =>
    intro r
    obtain ⟨l, hl, hk⟩ := h r
    exact ⟨l, hl.trans hle, hk⟩

/-- The rule of sequencing. -/
theorem Costs.bind {f : α → Prog Op Ret β} (hp : p.Costs cost n)
    (hf : ∀ a, (f a).Costs cost m) : (p >>= f).Costs cost (n + m) := by
  induction p generalizing n with
  | ret a => exact (hf a).mono (Nat.le_add_left m n)
  | call o k ih =>
    intro r
    obtain ⟨l, hl, hk⟩ := hp r
    exact ⟨l + m, by omega, ih r hk⟩

/-- A part that costs nothing. -/
theorem costs_of_free (hp : p.Calls fun o => ∀ r, cost o r = 0) : p.Costs cost n := by
  induction p generalizing n with
  | ret a => trivial
  | call o k ih =>
    intro r
    refine ⟨n, ?_, ih r (hp.2 r)⟩
    rw [hp.1 r, Nat.zero_add]

/-- A part that costs nothing, and what follows it. -/
theorem costs_free_bind {f : α → Prog Op Ret β} (hp : p.Calls fun o => ∀ r, cost o r = 0)
    (hf : ∀ a, (f a).Costs cost n) : (p >>= f).Costs cost n := by
  have := (costs_of_free (n := 0) hp).bind hf
  rwa [Nat.zero_add] at this

end Prog

/-- What an event costs. -/
def Event.cost (cost : (o : Op) → Ret o → ℕ) : Event Op Ret E → ℕ
  | .call _ o r => cost o r
  | _ => 0

/-- What an event adds to the budget. -/
def Event.budget (budget : E → ℕ) : Event Op Ret E → ℕ
  | .start _ e => budget e
  | _ => 0

namespace System

variable {S : System Op Ret W E α} {c₀ c : Config Op Ret W E α} {evs : List (Event Op Ret E)}
  {cost : (o : Op) → Ret o → ℕ} {budget : E → ℕ}

/-- What was spent, and what the tasks may still spend, are covered by the budgets. -/
structure Covered (cost : (o : Op) → Ret o → ℕ) (budget : E → ℕ)
    (evs : List (Event Op Ret E)) (c : Config Op Ret W E α) (started : Finset ℕ)
    (left : ℕ → ℕ) : Prop where
  mem : ∀ t e p, c.task t = some (e, p) → t ∈ started
  absent : ∀ t, c.task t = none → t ∉ started
  spends : ∀ t e p, c.task t = some (e, p) → p.Costs cost (left t)
  covered : (evs.map (Event.cost cost)).sum + ∑ t ∈ started, left t ≤
    (evs.map (Event.budget budget)).sum

theorem Run.covered (h : ∀ e, (S.prog e).Costs cost (budget e)) (hinit : S.Init c₀)
    (hrun : S.Run c₀ evs c) : ∃ started left, Covered cost budget evs c started left := by
  induction hrun with
  | nil =>
    refine ⟨∅, fun _ => 0, ?_, ?_, ?_, le_refl 0⟩
    · intro t e p htask
      rw [hinit.2 t] at htask
      cases htask
    · exact fun t _ => Finset.notMem_empty t
    · intro t e p htask
      rw [hinit.2 t] at htask
      cases htask
  | @snoc c' c'' evs ev hrun hstep ih =>
    obtain ⟨started, left, hcov⟩ := ih
    have hsum := hcov.covered
    cases hstep with
    | @start u e hquiet hnone =>
      have hnew : u ∉ started := hcov.absent u hnone
      refine ⟨insert u started, Function.update left u (budget e), ?_, ?_, ?_, ?_⟩
      · intro t e' p htask
        by_cases ht : t = u
        · exact ht ▸ Finset.mem_insert_self ..
        · simp only [Function.update_of_ne ht] at htask
          exact Finset.mem_insert_of_mem (hcov.mem t e' p htask)
      · intro t htask
        by_cases ht : t = u
        · subst ht
          simp at htask
        · simp only [Function.update_of_ne ht] at htask
          simp [ht, hcov.absent t htask]
      · intro t e' p htask
        by_cases ht : t = u
        · subst ht
          simp only [Function.update_self, Option.some.injEq, Prod.mk.injEq] at htask ⊢
          obtain ⟨rfl, rfl⟩ := htask
          exact h e
        · simp only [Function.update_of_ne ht] at htask ⊢
          exact hcov.spends t e' p htask
      · have hsame : ∑ t ∈ started, Function.update left u (budget e) t = ∑ t ∈ started, left t :=
          Finset.sum_congr rfl fun t ht =>
            Function.update_of_ne (ne_of_mem_of_not_mem ht hnew) _ _
        rw [Finset.sum_insert hnew, hsame, Function.update_self]
        simp only [List.map_append, List.map_cons, List.map_nil, List.sum_append, List.sum_cons,
          List.sum_nil, Event.cost, Event.budget]
        omega
    | @call u e o k r w hwait htask hexec =>
      have hin : u ∈ started := hcov.mem u e _ htask
      obtain ⟨m, hm, hk⟩ := hcov.spends u e _ htask r
      refine ⟨started, Function.update left u m, ?_, ?_, ?_, ?_⟩
      · intro t e' p htask'
        by_cases ht : t = u
        · exact ht ▸ hin
        · exact hcov.mem t e' p (by simpa [Function.update_of_ne ht] using htask')
      · intro t htask'
        by_cases ht : t = u
        · subst ht
          simp at htask'
        · exact hcov.absent t (by simpa [Function.update_of_ne ht] using htask')
      · intro t e' p htask'
        by_cases ht : t = u
        · subst ht
          simp only [Function.update_self, Option.some.injEq, Prod.mk.injEq] at htask' ⊢
          obtain ⟨rfl, rfl⟩ := htask'
          exact hk
        · rw [Function.update_of_ne ht]
          exact hcov.spends t e' p (by simpa [Function.update_of_ne ht] using htask')
      · have hsplit := Finset.add_sum_erase started left hin
        have hupdate := Finset.sum_update_of_mem hin left m
        rw [Finset.sdiff_singleton_eq_erase] at hupdate
        rw [hupdate]
        simp only [List.map_append, List.map_cons, List.map_nil, List.sum_append, List.sum_cons,
          List.sum_nil, Event.cost, Event.budget]
        omega
    | env hquiet henv =>
      refine ⟨started, left, hcov.mem, hcov.absent, hcov.spends, ?_⟩
      simpa [Event.cost, Event.budget] using hsum

/-- **Budgets.** A run costs no more than the budgets of the tasks that it starts. -/
theorem Run.cost_le (h : ∀ e, (S.prog e).Costs cost (budget e)) (hinit : S.Init c₀)
    (hrun : S.Run c₀ evs c) :
    (evs.map (Event.cost cost)).sum ≤ (evs.map (Event.budget budget)).sum := by
  obtain ⟨started, left, hcov⟩ := hrun.covered h hinit
  exact (Nat.le_add_right _ _).trans hcov.covered

end System

end ProxyCache.Lib
