import Mathlib.Data.List.Forall2

/-!
# Loops that raise

`Except` as exceptions: a step raises or returns, and a loop (`List.mapM`) goes
on until the first step that raises. A loop returns when every step does; what
escapes from it, past the exceptions that are caught, is decided by the first
step that raises at all.
-/

namespace ProxyCache.Lib

/-! ## Lists of pairs -/

/-- What is on the right stands opposite something. -/
theorem exists_of_forall₂ {α β : Type} {R : α → β → Prop} {xs : List α} {ys : List β}
    (h : List.Forall₂ R xs ys) {y : β} (hy : y ∈ ys) : ∃ x ∈ xs, R x y := by
  induction h with
  | nil => cases hy
  | cons hfirst _ ih =>
    rcases List.mem_cons.mp hy with rfl | hy
    · exact ⟨_, List.mem_cons_self, hfirst⟩
    · obtain ⟨x, hx, hR⟩ := ih hy
      exact ⟨x, List.mem_cons_of_mem _ hx, hR⟩

/-- Two relations between lists are composed element by element. -/
theorem forall₂_trans {α β γ : Type} {R : α → β → Prop} {Q : β → γ → Prop} {xs : List α}
    {ys : List β} {zs : List γ} (h : List.Forall₂ R xs ys) (h' : List.Forall₂ Q ys zs) :
    List.Forall₂ (fun x z => ∃ y, R x y ∧ Q y z) xs zs := by
  induction h generalizing zs with
  | nil =>
    cases h'
    exact .nil
  | cons hfirst _ ih =>
    cases h' with
    | cons hfirst' hrest' => exact .cons ⟨_, hfirst, hfirst'⟩ (ih hrest')

/-! ## Steps and loops that return -/

/-- A step of a computation that returns. -/
theorem ok_of_bind {ε α β : Type} {x : Except ε α} {f : α → Except ε β} {b : β}
    (h : (x >>= f) = .ok b) : ∃ a, x = .ok a ∧ f a = .ok b := by
  cases x with
  | error e => cases h
  | ok a => exact ⟨a, rfl, h⟩

/-- A step that nothing but a value follows. -/
theorem exists_ok_return {ε α β : Type} {x : Except ε α} {f : α → β} :
    (∃ b, (do return f (← x)) = Except.ok b) ↔ ∃ a, x = .ok a := by
  cases x with
  | error e => exact ⟨nofun, nofun⟩
  | ok a => exact ⟨fun _ => ⟨a, rfl⟩, fun _ => ⟨f a, rfl⟩⟩

/-- Two steps return exactly when both do. -/
theorem exists_ok_cons {ε α : Type} {x : Except ε α} {xs : Except ε (List α)} :
    (∃ ys, (do let y ← x; return y :: (← xs)) = .ok ys) ↔
      (∃ y, x = .ok y) ∧ ∃ ys, xs = .ok ys := by
  cases x with
  | error e => exact ⟨nofun, nofun⟩
  | ok y =>
    cases xs with
    | error e => exact ⟨nofun, nofun⟩
    | ok ys => exact ⟨fun _ => ⟨⟨y, rfl⟩, ys, rfl⟩, fun _ => ⟨y :: ys, rfl⟩⟩

section Loops

variable {ε α β : Type} {f : α → Except ε β} {xs : List α} {ys : List β}

/-- A loop that returns has done every element by itself. -/
theorem mapM_eq_ok_iff : xs.mapM f = .ok ys ↔ List.Forall₂ (fun x y => f x = .ok y) xs ys := by
  induction xs generalizing ys with
  | nil =>
    rw [List.mapM_nil, List.forall₂_nil_left_iff]
    exact ⟨fun h => (Except.ok.inj h).symm, fun h => h ▸ rfl⟩
  | cons x xs ih =>
    rw [List.mapM_cons]
    constructor
    · intro h
      obtain ⟨y, hy, h⟩ := ok_of_bind h
      obtain ⟨ys', hys, h⟩ := ok_of_bind h
      obtain rfl := Except.ok.inj h
      exact .cons hy (ih.mp hys)
    · intro h
      cases h with
      | cons hy hys =>
        rw [hy, ih.mpr hys]
        rfl

/-- A loop returns exactly when every step does. -/
theorem exists_forall₂_iff : (∃ ys, List.Forall₂ (fun x y => f x = .ok y) xs ys) ↔
    ∀ x ∈ xs, ∃ y, f x = .ok y := by
  constructor
  · rintro ⟨ys, hall⟩ x hx
    induction hall with
    | nil => cases hx
    | cons hy _ ih =>
      rcases List.mem_cons.mp hx with rfl | hx
      · exact ⟨_, hy⟩
      · exact ih hx
  · intro hall
    induction xs with
    | nil => exact ⟨[], .nil⟩
    | cons x xs ih =>
      obtain ⟨y, hy⟩ := hall x List.mem_cons_self
      obtain ⟨ys, hys⟩ := ih fun x hx => hall x (List.mem_cons_of_mem _ hx)
      exact ⟨y :: ys, .cons hy hys⟩

end Loops

/-! ## What escapes -/

section Escapes

variable {ε α β : Type} {caught : ε → Bool} {f : α → Except ε β} {e : ε} {bad stop : α → Prop}
  {xs : List α}

/-- What is raised, if anything, is caught. -/
def Guarded (caught : ε → Bool) (x : Except ε α) : Prop := ∀ e, x = .error e → caught e = true

theorem guarded_ok (a : α) : Guarded caught (.ok a) := nofun

theorem guarded_error : Guarded caught (.error e : Except ε α) ↔ caught e = true := by
  constructor
  · exact fun h => h e rfl
  · rintro h _ ⟨⟩
    exact h

/-- A step that raises nothing but what is caught adds nothing. -/
theorem guarded_bind {x : Except ε α} (hf : ∀ a, x = .ok a → Guarded caught (f a)) :
    Guarded caught (x >>= f) ↔ Guarded caught x := by
  cases x with
  | error e => exact guarded_error.trans guarded_error.symm
  | ok a => exact iff_of_true (hf a rfl) (guarded_ok a)

/-- From the front, there is an element that stops a loop before there is a bad one. -/
def Shielded (bad stop : α → Prop) : List α → Prop
  | [] => True
  | x :: xs => stop x ∨ (¬ bad x ∧ Shielded bad stop xs)

/-- A step raises an exception that is not caught if it is bad, one that is caught if it is to stop,
and none else. -/
inductive Ends (caught : ε → Bool) (bad stop : Prop) : Except ε β → Prop
  | ok {b : β} : ¬ bad → ¬ stop → Ends caught bad stop (.ok b)
  | bad {e : ε} : bad → ¬ stop → caught e = false → Ends caught bad stop (.error e)
  | stop {e : ε} : stop → ¬ bad → caught e = true → Ends caught bad stop (.error e)

/-- Nothing escapes from a loop exactly when the bad elements are shielded. -/
theorem guarded_mapM_iff (h : ∀ x ∈ xs, Ends caught (bad x) (stop x) (f x)) :
    Guarded caught (xs.mapM f) ↔ Shielded bad stop xs := by
  induction xs with
  | nil => exact iff_of_true (guarded_ok []) trivial
  | cons x xs ih =>
    have hx := h x List.mem_cons_self
    have ih := ih fun y hy => h y (List.mem_cons_of_mem x hy)
    rw [List.mapM_cons, Shielded, ← ih]
    generalize f x = step at hx
    cases hx with
    | bad hbad hstop hescapes =>
      refine iff_of_false (fun h => ?_) fun h => h.elim hstop fun h => h.1 hbad
      cases hescapes.symm.trans (guarded_error.mp h)
    | stop hstop hbad hcaught => exact iff_of_true (guarded_error.mpr hcaught) (.inl hstop)
    | @ok b hbad hstop =>
      rw [or_iff_right hstop, and_iff_right hbad]
      show Guarded caught (xs.mapM f >>= fun bs => .ok (b :: bs)) ↔ _
      exact guarded_bind fun _ _ => guarded_ok _

/-- A shield depends on the bad elements and on those that stop only. -/
theorem shielded_congr {ys : List α}
    (h : List.Forall₂ (fun x y => (bad y ↔ bad x) ∧ (stop y ↔ stop x)) xs ys) :
    Shielded bad stop ys ↔ Shielded bad stop xs := by
  induction h with
  | nil => exact Iff.rfl
  | cons hxy _ ih => exact or_congr hxy.2 (and_congr (not_congr hxy.1) ih)

theorem shielded_of_forall_not (h : ∀ x ∈ xs, ¬ bad x) : Shielded bad stop xs := by
  induction xs with
  | nil => trivial
  | cons x xs ih =>
    exact .inr ⟨h x List.mem_cons_self, ih fun y hy => h y (List.mem_cons_of_mem x hy)⟩

end Escapes

end ProxyCache.Lib
