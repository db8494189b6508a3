import ProxyCache.Lib.Program
import Mathlib.Data.List.Basic

/-!
# Tasks that take one lock at a time

`Brackets` is the discipline of a program that takes a lock only when it has none and gives back
the one that it has. A system whose programs keep it cannot deadlock:

* `Locking.consistent` — in every reachable configuration the locks that are held are the ones
  that the tasks have still to give back;
* `Locking.not_acquires` — a task that holds a lock does not wait for one;
* `Locking.exists_run_released` — a task can be run on to where it waits without a lock;
* `Locking.exists_run_finished` — with all locks free, a task can be run to its end;
* `Locking.drains` — all tasks can be run to their end, and no lock is held then.
-/

namespace ProxyCache.Lib

variable {Op : Type} {Ret : Op → Type} {W E α β L : Type}

/-- What a call does to the locks. -/
inductive LockAction (L : Type) where
  | none
  | acquire (lock : L)
  | release (lock : L)

namespace Prog

variable (action : Op → LockAction L)

/-- The program starts with the lock `held` and ends with the lock `left`. -/
def Brackets (left : Option L) : Prog Op Ret α → Option L → Prop
  | .ret _, held => held = left
  | .call o k, held =>
    match action o with
    | .none => ∀ r, (k r).Brackets left held
    | .acquire lock => held = none ∧ ∀ r, (k r).Brackets left (some lock)
    | .release lock => held = some lock ∧ ∀ r, (k r).Brackets left none

variable {action} {left mid held : Option L} {p : Prog Op Ret α}

theorem brackets_none {o : Op} {k : Ret o → Prog Op Ret α} (ho : action o = .none) :
    (Prog.call o k).Brackets action left held ↔ ∀ r, (k r).Brackets action left held := by
  simp only [Brackets, ho]

theorem brackets_acquire {o : Op} {k : Ret o → Prog Op Ret α} {lock : L}
    (ho : action o = .acquire lock) : (Prog.call o k).Brackets action left held ↔
      held = none ∧ ∀ r, (k r).Brackets action left (some lock) := by
  simp only [Brackets, ho]

theorem brackets_release {o : Op} {k : Ret o → Prog Op Ret α} {lock : L}
    (ho : action o = .release lock) : (Prog.call o k).Brackets action left held ↔
      held = some lock ∧ ∀ r, (k r).Brackets action left none := by
  simp only [Brackets, ho]

/-- The rule of sequencing. -/
theorem Brackets.bind {f : α → Prog Op Ret β} (hp : p.Brackets action mid held)
    (hf : ∀ a, (f a).Brackets action left mid) : (p >>= f).Brackets action left held := by
  induction p generalizing held with
  | ret a =>
    obtain rfl : held = mid := hp
    exact hf a
  | call o k ih =>
    rw [call_bind]
    cases ho : action o with
    | none =>
      rw [brackets_none ho] at hp ⊢
      exact fun r => ih r (hp r)
    | acquire lock =>
      rw [brackets_acquire ho] at hp ⊢
      exact ⟨hp.1, fun r => ih r (hp.2 r)⟩
    | release lock =>
      rw [brackets_release ho] at hp ⊢
      exact ⟨hp.1, fun r => ih r (hp.2 r)⟩

/-- A program that leaves the locks alone. -/
theorem brackets_of_calls (hp : p.Calls fun o => action o = .none) (held : Option L) :
    p.Brackets action held held := by
  induction p with
  | ret a => exact rfl
  | call o k ih =>
    rw [brackets_none hp.1]
    exact fun r => ih r (hp.2 r)

end Prog

namespace System

variable {S : System Op Ret W E α} {c c' c'' : Config Op Ret W E α}

theorem Run.trans {evs evs' : List (Event Op Ret E)} (h : S.Run c evs c')
    (h' : S.Run c' evs' c'') : S.Run c (evs ++ evs') c'' := by
  induction h' with
  | nil => rwa [List.append_nil]
  | snoc _ hstep ih =>
    rw [← List.append_assoc]
    exact .snoc ih hstep

/-- At most one task is in the middle of a stretch it runs undisturbed. -/
theorem Reachable.waits (h : S.Reachable c) {t u : ℕ} (htu : t ≠ u) :
    S.Waits c t ∨ S.Waits c u := by
  induction h generalizing t u with
  | init hinit =>
    refine .inl fun e o k htask => ?_
    rw [hinit.2 t] at htask
    cases htask
  | @step d d' ev hreach hstep ih =>
    -- the tasks but the one that steps have not moved
    have hother : ∀ {x v : ℕ} {y : E × Prog Op Ret α}, v ≠ x →
        d'.task = Function.update d.task x (some y) → S.Waits d v → S.Waits d' v := by
      intro x v y hvx htask hwait e o k hv
      rw [htask, Function.update_of_ne hvx] at hv
      exact hwait e o k hv
    cases hstep with
    | @start x e hquiet _ =>
      by_cases htx : t = x
      · exact .inr (hother (fun hux => htu (htx.trans hux.symm)) rfl (hquiet u))
      · exact .inl (hother htx rfl (hquiet t))
    | @call x e o k r w hwait _ _ =>
      by_cases htx : t = x
      · have hux : u ≠ x := fun hux => htu (htx.trans hux.symm)
        exact .inr (hother hux rfl (hwait u hux))
      · exact .inl (hother htx rfl (hwait t htx))
    | env hquiet _ => exact .inl (hquiet t)

/-- Only finitely many tasks have been started. -/
theorem Reachable.tasks (h : S.Reachable c) :
    ∃ ts : List ℕ, ∀ t, c.task t ≠ none → t ∈ ts := by
  induction h with
  | init hinit => exact ⟨[], fun t ht => absurd (hinit.2 t) ht⟩
  | @step d d' ev _ hstep ih =>
    obtain ⟨ts, hts⟩ := ih
    cases hstep with
    | @start x e _ _ =>
      refine ⟨x :: ts, fun t ht => ?_⟩
      by_cases htx : t = x
      · simp [htx]
      · simp only [Function.update_of_ne htx] at ht
        exact List.mem_cons_of_mem _ (hts t ht)
    | @call x e o k r w _ htask _ =>
      refine ⟨ts, fun t ht => hts t ?_⟩
      by_cases htx : t = x
      · simp [htx, htask]
      · simp only [Function.update_of_ne htx] at ht
        exact ht
    | env _ _ => exact ⟨ts, hts⟩

end System

/-- The locks of a system: which calls take and give them, and who holds them. -/
structure Locking (S : System Op Ret W E α) (L : Type) [DecidableEq L] where
  action : Op → LockAction L
  holder : W → L → Option ℕ
  init : ∀ w, S.init w → ∀ l, holder w l = none
  env : ∀ w w', S.env w w' → holder w' = holder w
  keep : ∀ t o w r w', action o = .none → S.exec t o w r w' → holder w' = holder w
  acquire : ∀ t o l w r w', action o = .acquire l → S.exec t o w r w' →
    holder w l = none ∧ holder w' = Function.update (holder w) l (some t)
  release : ∀ t o l w r w', action o = .release l → S.exec t o w r w' →
    holder w' = Function.update (holder w) l none
  /-- A call is answered, unless it waits for a lock. -/
  answers : ∀ t o w, (∀ l, action o = .acquire l → holder w l = none) → ∃ r w', S.exec t o w r w'
  waits : ∀ o l, action o = .acquire l → S.yields o = true
  prog : ∀ e, (S.prog e).Brackets action none none

namespace Locking

variable [DecidableEq L] {S : System Op Ret W E α} (K : Locking S L)
  {c c' : Config Op Ret W E α} {t : ℕ} {e : E} {p : Prog Op Ret α} {held : Option L}

/-- The task `t` has the lock `held`, and gives it back. -/
structure Owns (w : W) (t : ℕ) (p : Prog Op Ret α) (held : Option L) : Prop where
  brackets : p.Brackets K.action none held
  holder : ∀ l, K.holder w l = some t ↔ held = some l

/-- The locks that are held are those of the tasks. -/
structure Consistent (c : Config Op Ret W E α) : Prop where
  owns : ∀ t e p, c.task t = some (e, p) → ∃ held, K.Owns c.world t p held
  started : ∀ l t, K.holder c.world l = some t → c.task t ≠ none

variable {K}

/-- A task that has not moved has the lock that it had. -/
theorem Owns.keep {w w' : W} (h : K.Owns w t p held)
    (hholder : ∀ l, K.holder w' l = some t ↔ K.holder w l = some t) : K.Owns w' t p held where
  brackets := h.brackets
  holder l := (hholder l).trans (h.holder l)

/-- What a call does to the lock of its task and to those of the others. -/
theorem Owns.call {w w' : W} {o : Op} {k : Ret o → Prog Op Ret α} {r : Ret o}
    (h : K.Owns w t (.call o k) held) (hexec : S.exec t o w r w') :
    (∃ held', K.Owns w' t (k r) held') ∧
      ∀ l u, u ≠ t → (K.holder w' l = some u ↔ K.holder w l = some u) := by
  cases ho : K.action o with
  | none =>
    have hholder := K.keep t o w r w' ho hexec
    refine ⟨⟨held, (Prog.brackets_none ho).mp h.brackets r, ?_⟩, ?_⟩
    · rw [hholder]
      exact h.holder
    · intro l u _
      rw [hholder]
  | acquire lock =>
    obtain ⟨hheld, hrest⟩ := (Prog.brackets_acquire ho).mp h.brackets
    obtain ⟨hfree, hholder⟩ := K.acquire t o lock w r w' ho hexec
    refine ⟨⟨some lock, hrest r, fun l => ?_⟩, fun l u hut => ?_⟩
    · rw [hholder]
      by_cases hl : l = lock
      · subst hl
        simp
      · -- it had no other lock before
        have hnot : K.holder w l ≠ some t := fun hl' => by
          have := (h.holder l).mp hl'
          rw [hheld] at this
          cases this
        simp [Function.update_of_ne hl, hnot, Ne.symm hl]
    · rw [hholder]
      by_cases hl : l = lock
      · subst hl
        simp [hfree, Ne.symm hut]
      · simp [Function.update_of_ne hl]
  | release lock =>
    obtain ⟨hheld, hrest⟩ := (Prog.brackets_release ho).mp h.brackets
    have hholder := K.release t o lock w r w' ho hexec
    have hhad : K.holder w lock = some t := (h.holder lock).mpr hheld
    refine ⟨⟨none, hrest r, fun l => ?_⟩, fun l u hut => ?_⟩
    · rw [hholder]
      by_cases hl : l = lock
      · subst hl
        simp
      · have hnot : K.holder w l ≠ some t := fun hl' => by
          have := (h.holder l).mp hl'
          rw [hheld] at this
          exact hl (Option.some.inj this).symm
        simp [Function.update_of_ne hl, hnot]
    · rw [hholder]
      by_cases hl : l = lock
      · subst hl
        simp [hhad, Ne.symm hut]
      · simp [Function.update_of_ne hl]

/-- The step lemma. -/
theorem Consistent.step {ev : Event Op Ret E} (h : K.Consistent c) (hstep : S.Step c ev c') :
    K.Consistent c' := by
  cases hstep with
  | @start x e _ hnone =>
    -- nobody has a lock in the name of a task that is not there
    have hfree : ∀ l, K.holder c.world l ≠ some x := fun l hl => h.started l x hl hnone
    refine ⟨fun u e' p hu => ?_, fun l u hl => ?_⟩
    · by_cases hux : u = x
      · subst hux
        simp only [Function.update_self] at hu
        obtain ⟨rfl, rfl⟩ := Prod.mk.inj (Option.some.inj hu)
        refine ⟨none, K.prog _, fun l => ?_⟩
        simp [hfree l]
      · simp only [Function.update_of_ne hux] at hu
        exact h.owns u e' p hu
    · by_cases hux : u = x
      · simp [hux]
      · simp only [Function.update_of_ne hux]
        exact h.started l u hl
  | @call x e o k r w _ htask hexec =>
    obtain ⟨held, howns⟩ := h.owns x e _ htask
    obtain ⟨hnext, hothers⟩ := howns.call hexec
    refine ⟨fun u e' p hu => ?_, fun l u hl => ?_⟩
    · by_cases hux : u = x
      · subst hux
        simp only [Function.update_self] at hu
        obtain ⟨rfl, rfl⟩ := Prod.mk.inj (Option.some.inj hu)
        exact hnext
      · simp only [Function.update_of_ne hux] at hu
        obtain ⟨held', howns'⟩ := h.owns u e' p hu
        exact ⟨held', howns'.keep fun l => hothers l u hux⟩
    · by_cases hux : u = x
      · simp [hux]
      · simp only [Function.update_of_ne hux]
        exact h.started l u ((hothers l u hux).mp hl)
  | @env w _ henv =>
    have hholder := K.env c.world w henv
    refine ⟨fun u e p hu => ?_, fun l u hl => ?_⟩
    · obtain ⟨held, howns⟩ := h.owns u e p hu
      exact ⟨held, howns.keep fun l => by rw [hholder]⟩
    · rw [hholder] at hl
      exact h.started l u hl

/-- The run lemma. -/
theorem consistent (hreach : S.Reachable c) : K.Consistent c := by
  induction hreach with
  | init hinit =>
    refine ⟨fun t e p htask => ?_, fun l t hl => ?_⟩
    · rw [hinit.2 t] at htask
      cases htask
    · rw [K.init _ hinit.1 l] at hl
      cases hl
  | step _ hstep ih => exact ih.step hstep

/-- A task that holds a lock does not wait for one. -/
theorem not_acquires (hreach : S.Reachable c) {lock lock' : L} {o : Op} {k : Ret o → Prog Op Ret α}
    (hheld : K.holder c.world lock = some t) (htask : c.task t = some (e, .call o k)) :
    K.action o ≠ .acquire lock' := by
  intro ho
  obtain ⟨held, howns⟩ := (K.consistent hreach).owns t e _ htask
  have hsome := (howns.holder lock).mp hheld
  rw [((Prog.brackets_acquire ho).mp howns.brackets).1] at hsome
  cases hsome

/-! ## Running the tasks on -/

/-- A run in which only the task `t` makes calls, and the locks of the others stay. -/
structure Alone (K : Locking S L) (t : ℕ) (c : Config Op Ret W E α) (evs : List (Event Op Ret E))
    (c' : Config Op Ret W E α) : Prop where
  run : S.Run c evs c'
  calls : ∀ ev ∈ evs, ∃ o r, ev = .call t o r
  others : ∀ u, u ≠ t → c'.task u = c.task u
  locks : ∀ l u, u ≠ t → (K.holder c'.world l = some u ↔ K.holder c.world l = some u)

theorem Alone.refl (K : Locking S L) (t : ℕ) (c : Config Op Ret W E α) : K.Alone t c [] c :=
  ⟨.nil c, nofun, fun _ _ => rfl, fun _ _ _ => Iff.rfl⟩

/-- A call, and a run that follows it. -/
theorem Alone.cons {o : Op} {k : Ret o → Prog Op Ret α} {r : Ret o} {w : W}
    {evs : List (Event Op Ret E)} (hothers : ∀ u, u ≠ t → S.Waits c u)
    (htask : c.task t = some (e, .call o k)) (howns : K.Owns c.world t (.call o k) held)
    (hexec : S.exec t o c.world r w)
    (h : K.Alone t ⟨w, Function.update c.task t (some (e, k r))⟩ evs c') :
    K.Alone t c (.call t o r :: evs) c' where
  run := .trans (.snoc (.nil c) (.call hothers htask hexec)) h.run
  calls ev hev := by
    rcases List.mem_cons.mp hev with rfl | hev
    · exact ⟨o, r, rfl⟩
    · exact h.calls ev hev
  others u hut := (h.others u hut).trans (Function.update_of_ne hut ..)
  locks l u hut := (h.locks l u hut).trans ((howns.call hexec).2 l u hut)

theorem waits_update {o : Op} {k : Ret o → Prog Op Ret α} {r : Ret o} {w : W}
    (hothers : ∀ u, u ≠ t → S.Waits c u) (u : ℕ) (hut : u ≠ t) :
    S.Waits (⟨w, Function.update c.task t (some (e, k r))⟩ : Config Op Ret W E α) u := by
  intro e' o' k' hu
  simp only [Function.update_of_ne hut] at hu
  exact hothers u hut e' o' k' hu

/-- A task can be run on to where it waits without a lock. -/
theorem exists_run_released (htask : c.task t = some (e, p)) (howns : K.Owns c.world t p held)
    (hothers : ∀ u, u ≠ t → S.Waits c u) :
    ∃ evs c' p', K.Alone t c evs c' ∧ c'.task t = some (e, p') ∧ K.Owns c'.world t p' none ∧
      S.Waits c' t := by
  induction p generalizing c held with
  | ret a =>
    obtain rfl : held = none := howns.brackets
    refine ⟨[], c, .ret a, .refl K t c, htask, howns, ?_⟩
    intro e' o' k' htask'
    rw [htask] at htask'
    cases htask'
  | call o k ih =>
    by_cases hstop : held = none ∧ S.yields o = true
    · obtain ⟨rfl, hyields⟩ := hstop
      refine ⟨[], c, .call o k, .refl K t c, htask, howns, ?_⟩
      intro e' o' k' htask'
      obtain ⟨rfl, hcall⟩ := Prod.mk.inj (Option.some.inj (htask.symm.trans htask'))
      obtain ⟨rfl, -⟩ := Prog.call.inj hcall
      exact hyields
    · -- a call that does not stop here waits for no lock
      have hanswers : ∀ l, K.action o = .acquire l → K.holder c.world l = none := by
        intro l ho
        have hheld := ((Prog.brackets_acquire ho).mp howns.brackets).1
        exact absurd ⟨hheld, K.waits o l ho⟩ hstop
      obtain ⟨r, w, hexec⟩ := K.answers t o c.world hanswers
      obtain ⟨held', hnext⟩ := (howns.call hexec).1
      obtain ⟨evs, c', p', halone, hend⟩ :=
        ih r (c := ⟨w, Function.update c.task t (some (e, k r))⟩) (Function.update_self ..) hnext
          (waits_update hothers)
      exact ⟨_, c', p', halone.cons hothers htask howns hexec, hend⟩

/-- No lock is held by another task. -/
def Unlocked (K : Locking S L) (t : ℕ) (w : W) : Prop := ∀ l u, u ≠ t → K.holder w l ≠ some u

/-- While the others hold no lock, a task can be run to its end. -/
theorem exists_run_finished (htask : c.task t = some (e, p)) (howns : K.Owns c.world t p held)
    (hothers : ∀ u, u ≠ t → S.Waits c u) (hfree : K.Unlocked t c.world) :
    ∃ evs c' a, K.Alone t c evs c' ∧ c'.task t = some (e, .ret a) ∧
      K.Owns c'.world t (.ret a : Prog Op Ret α) none := by
  induction p generalizing c held with
  | ret a =>
    obtain rfl : held = none := howns.brackets
    exact ⟨[], c, a, .refl K t c, htask, howns⟩
  | call o k ih =>
    have hanswers : ∀ l, K.action o = .acquire l → K.holder c.world l = none := by
      intro l ho
      have hheld := ((Prog.brackets_acquire ho).mp howns.brackets).1
      cases hl : K.holder c.world l with
      | none => rfl
      | some u =>
        by_cases hut : u = t
        · subst hut
          have := (howns.holder l).mp hl
          rw [hheld] at this
          cases this
        · exact absurd hl (hfree l u hut)
    obtain ⟨r, w, hexec⟩ := K.answers t o c.world hanswers
    obtain ⟨held', hnext⟩ := (howns.call hexec).1
    have hfree' : K.Unlocked t w := fun l u hut hl =>
      hfree l u hut (((howns.call hexec).2 l u hut).mp hl)
    obtain ⟨evs, c', a, halone, hend⟩ :=
      ih r (c := ⟨w, Function.update c.task t (some (e, k r))⟩) (Function.update_self ..) hnext
        (waits_update hothers) hfree'
    exact ⟨_, c', a, halone.cons hothers htask howns hexec, hend⟩

/-! ## All of them -/

/-- The event is a call. -/
def IsCall (ev : Event Op Ret E) : Prop := ∃ t o r, ev = .call t o r

theorem Alone.isCall {evs : List (Event Op Ret E)} (h : K.Alone t c evs c') :
    ∀ ev ∈ evs, IsCall ev := by
  intro ev hev
  obtain ⟨o, r, rfl⟩ := h.calls ev hev
  exact ⟨t, o, r, rfl⟩

/-- The task is not there, or it waits without a lock. -/
def Rests (K : Locking S L) (c : Config Op Ret W E α) (t : ℕ) : Prop :=
  S.Waits c t ∧ ∀ l, K.holder c.world l ≠ some t

theorem Alone.rests {evs : List (Event Op Ret E)} {u : ℕ} (h : K.Alone t c evs c') (hut : u ≠ t)
    (hrests : K.Rests c u) : K.Rests c' u := by
  refine ⟨fun e o k hu => ?_, fun l hl => ?_⟩
  · rw [h.others u hut] at hu
    exact hrests.1 e o k hu
  · exact hrests.2 l ((h.locks l u hut).mp hl)

/-- One task after the other can be brought to rest, while the rest of them wait. -/
theorem exists_run_rests (hreach : S.Reachable c) (ts : List ℕ) (hquiet : S.Quiet c) :
    ∃ evs c', S.Run c evs c' ∧ (∀ ev ∈ evs, IsCall ev) ∧ S.Quiet c' ∧ (∀ t ∈ ts, K.Rests c' t) ∧
      ∀ t, K.Rests c t → K.Rests c' t := by
  induction ts generalizing c with
  | nil => exact ⟨[], c, .nil c, nofun, hquiet, nofun, fun _ h => h⟩
  | cons t ts ih =>
    have hfirst : ∃ evs c₁, K.Alone t c evs c₁ ∧ K.Rests c₁ t := by
      cases htask : c.task t with
      | none =>
        refine ⟨[], c, .refl K t c, hquiet t, fun l hl => ?_⟩
        exact (K.consistent hreach).started l t hl htask
      | some x =>
        obtain ⟨e, p⟩ := x
        obtain ⟨held, howns⟩ := (K.consistent hreach).owns t e p htask
        obtain ⟨evs, c₁, p', halone, -, hend, hwaits⟩ :=
          exists_run_released htask howns fun u _ => hquiet u
        refine ⟨evs, c₁, halone, hwaits, fun l hl => ?_⟩
        cases (hend.holder l).mp hl
    obtain ⟨evs, c₁, halone, hrests⟩ := hfirst
    have hquiet₁ : S.Quiet c₁ := by
      intro u
      by_cases hut : u = t
      · exact hut ▸ hrests.1
      · intro e o k hu
        rw [halone.others u hut] at hu
        exact hquiet u e o k hu
    obtain ⟨evs', c', hrun, hcalls, hquiet', hall, hkeep⟩ := ih (hreach.run halone.run) hquiet₁
    refine ⟨evs ++ evs', c', halone.run.trans hrun, ?_, hquiet', ?_, ?_⟩
    · intro ev hev
      rcases List.mem_append.mp hev with hev | hev
      · exact halone.isCall ev hev
      · exact hcalls ev hev
    · intro u hu
      rcases List.mem_cons.mp hu with rfl | hu
      · exact hkeep u hrests
      · exact hall u hu
    · intro u hu
      by_cases hut : u = t
      · exact hkeep u (hut ▸ hrests)
      · exact hkeep u (halone.rests hut hu)

/-- The task is not there, or it has ended. -/
def Ended (c : Config Op Ret W E α) (t : ℕ) : Prop :=
  ∀ e p, c.task t = some (e, p) → ∃ a, p = .ret a

theorem waits_of_ended (h : Ended c t) : S.Waits c t := by
  intro e o k htask
  obtain ⟨a, ha⟩ := h e _ htask
  cases ha

/-- With all locks free, one task after the other can be run to its end. -/
theorem exists_run_ended (hreach : S.Reachable c) (ts : List ℕ) (hquiet : S.Quiet c)
    (hfree : ∀ l, K.holder c.world l = none) :
    ∃ evs c', S.Run c evs c' ∧ (∀ ev ∈ evs, IsCall ev) ∧ (∀ l, K.holder c'.world l = none) ∧
      (∀ t ∈ ts, Ended c' t) ∧ ∀ t, Ended c t → Ended c' t := by
  induction ts generalizing c with
  | nil => exact ⟨[], c, .nil c, nofun, hfree, nofun, fun _ h => h⟩
  | cons t ts ih =>
    have hfirst : ∃ evs c₁, K.Alone t c evs c₁ ∧ Ended c₁ t ∧ ∀ l, K.holder c₁.world l = none := by
      cases htask : c.task t with
      | none =>
        refine ⟨[], c, .refl K t c, fun e p h => ?_, hfree⟩
        rw [htask] at h
        cases h
      | some x =>
        obtain ⟨e, p⟩ := x
        obtain ⟨held, howns⟩ := (K.consistent hreach).owns t e p htask
        obtain ⟨evs, c₁, a, halone, hend, howns'⟩ :=
          exists_run_finished htask howns (fun u _ => hquiet u) fun l u _ hl => by
            rw [hfree l] at hl
            cases hl
        refine ⟨evs, c₁, halone, fun e' p' h => ?_, fun l => ?_⟩
        · obtain ⟨-, rfl⟩ := Prod.mk.inj (Option.some.inj (hend.symm.trans h))
          exact ⟨a, rfl⟩
        · cases hl : K.holder c₁.world l with
          | none => rfl
          | some u =>
            by_cases hut : u = t
            · subst hut
              cases (howns'.holder l).mp hl
            · have := (halone.locks l u hut).mp hl
              rw [hfree l] at this
              cases this
    obtain ⟨evs, c₁, halone, hended, hfree₁⟩ := hfirst
    have hothers : ∀ u, u ≠ t → Ended c u → Ended c₁ u := by
      intro u hut hu e p htask
      rw [halone.others u hut] at htask
      exact hu e p htask
    have hquiet₁ : S.Quiet c₁ := by
      intro u
      by_cases hut : u = t
      · exact hut ▸ waits_of_ended hended
      · intro e o k hu
        rw [halone.others u hut] at hu
        exact hquiet u e o k hu
    obtain ⟨evs', c', hrun, hcalls, hfree', hall, hkeep⟩ :=
      ih (hreach.run halone.run) hquiet₁ hfree₁
    refine ⟨evs ++ evs', c', halone.run.trans hrun, ?_, hfree', ?_, ?_⟩
    · intro ev hev
      rcases List.mem_append.mp hev with hev | hev
      · exact halone.isCall ev hev
      · exact hcalls ev hev
    · intro u hu
      rcases List.mem_cons.mp hu with rfl | hu
      · exact hkeep u hended
      · exact hall u hu
    · intro u hu
      by_cases hut : u = t
      · exact hkeep u (hut ▸ hended)
      · exact hkeep u (hothers u hut hu)

/-- Some task may be in the middle of a stretch; it is brought to rest first. -/
theorem exists_run_quiet (K : Locking S L) (hreach : S.Reachable c) :
    ∃ evs c', S.Run c evs c' ∧ (∀ ev ∈ evs, IsCall ev) ∧ S.Quiet c' := by
  by_cases hquiet : S.Quiet c
  · exact ⟨[], c, .nil c, nofun, hquiet⟩
  obtain ⟨t, ht⟩ := not_forall.mp hquiet
  have hothers : ∀ u, u ≠ t → S.Waits c u := fun u hut =>
    (hreach.waits (Ne.symm hut)).resolve_left ht
  cases htask : c.task t with
  | none =>
    refine absurd (fun e o k h => ?_) ht
    rw [htask] at h
    cases h
  | some x =>
    obtain ⟨e, p⟩ := x
    obtain ⟨held, howns⟩ := (K.consistent hreach).owns t e p htask
    obtain ⟨evs, c', p', halone, -, -, hwaits⟩ := exists_run_released htask howns hothers
    refine ⟨evs, c', halone.run, halone.isCall, fun u => ?_⟩
    by_cases hut : u = t
    · exact hut ▸ hwaits
    · intro e o k hu
      rw [halone.others u hut] at hu
      exact hothers u hut e o k hu

/-- **No deadlock.** From wherever it stands, the system can bring all its tasks to their end by
their own calls, and then no lock is held. -/
theorem drains (hreach : S.Reachable c) :
    ∃ evs c', S.Run c evs c' ∧ (∀ ev ∈ evs, IsCall ev) ∧ (∀ t, Ended c' t) ∧
      ∀ l, K.holder c'.world l = none := by
  obtain ⟨evs₁, c₁, hrun₁, hcalls₁, hquiet₁⟩ := K.exists_run_quiet hreach
  have hreach₁ := hreach.run hrun₁
  obtain ⟨ts, hts⟩ := hreach₁.tasks
  obtain ⟨evs₂, c₂, hrun₂, hcalls₂, hquiet₂, hrests, hkeep⟩ := K.exists_run_rests hreach₁ ts hquiet₁
  have hreach₂ := hreach₁.run hrun₂
  -- every lock was held by one of the tasks
  have hfree : ∀ l, K.holder c₂.world l = none := by
    intro l
    cases hl : K.holder c₂.world l with
    | none => rfl
    | some t =>
      by_cases ht : t ∈ ts
      · exact absurd hl ((hrests t ht).2 l)
      · have hnone : c₁.task t = none := not_not.mp fun h => ht (hts t h)
        have hrest : K.Rests c₁ t :=
          ⟨hquiet₁ t, fun l hl => (K.consistent hreach₁).started l t hl hnone⟩
        exact absurd hl ((hkeep t hrest).2 l)
  obtain ⟨ts', hts'⟩ := hreach₂.tasks
  obtain ⟨evs₃, c₃, hrun₃, hcalls₃, hfree₃, hended, hkeep₃⟩ :=
    K.exists_run_ended hreach₂ ts' hquiet₂ hfree
  refine ⟨evs₁ ++ evs₂ ++ evs₃, c₃, (hrun₁.trans hrun₂).trans hrun₃, ?_, ?_, hfree₃⟩
  · intro ev hev
    simp only [List.mem_append] at hev
    rcases hev with (hev | hev) | hev
    · exact hcalls₁ ev hev
    · exact hcalls₂ ev hev
    · exact hcalls₃ ev hev
  · intro t
    by_cases ht : t ∈ ts'
    · exact hended t ht
    · refine hkeep₃ t fun e p htask => absurd ?_ ht
      exact hts' t (by simp [htask])

end Locking

end ProxyCache.Lib
