import Mathlib.Logic.Function.Basic

/-!
# Mutex — locks and the control points they guard

A lock is the thread that holds it, if any. `Mutex lock inside pc` says
that the holder is the one thread whose control point is `inside` the
critical section; a step of a thread keeps it in one of four ways. A `flag`
is any other test of control points, and what is said of it is that some
thread stands at a flagged one.
-/

namespace Loomlib

universe u v

variable {ι : Type u} {α : Type v} {lock : Option ι} {inside : α → Bool} {pc : ι → α}

/-- The holder of `lock` is the thread inside the critical section. -/
def Mutex (lock : Option ι) (inside : α → Bool) (pc : ι → α) : Prop :=
  ∀ t, inside (pc t) = true ↔ lock = some t

namespace Mutex

theorem unique (h : Mutex lock inside pc) {t u : ι} (ht : inside (pc t) = true)
    (hu : inside (pc u) = true) : t = u :=
  Option.some.inj (((h t).mp ht).symm.trans ((h u).mp hu))

/-- With nobody inside the lock is free. -/
theorem free (h : Mutex lock inside pc) (hout : ∀ t, inside (pc t) = false) : lock = none := by
  cases hl : lock with
  | none => rfl
  | some t => exact absurd ((h t).mpr hl) (by simp [hout])

/-- A change of control points that does not cross the section. -/
theorem map (h : Mutex lock inside pc) {f : ι → α} (hf : ∀ t, inside (f t) = inside (pc t)) :
    Mutex lock inside f :=
  fun t => (hf t).symm ▸ h t

variable [DecidableEq ι]

/-- A step that stays inside or outside. -/
theorem stay (h : Mutex lock inside pc) {t : ι} {x y : α} (hpc : pc t = x)
    (hy : inside y = inside x) : Mutex lock inside (Function.update pc t y) :=
  h.map fun u => by
    by_cases hu : u = t
    · subst hu; rw [Function.update_self, hpc, hy]
    · rw [Function.update_of_ne hu]

/-- Taking the free lock. -/
theorem acquire (h : Mutex none inside pc) {t : ι} {x : α} (hx : inside x = true) :
    Mutex (some t) inside (Function.update pc t x) := by
  intro u
  by_cases hu : u = t
  · subst hu; simp [hx]
  · rw [Function.update_of_ne hu, h u]
    simpa using fun ht : t = u => hu ht.symm

/-- Giving the lock back. -/
theorem release (h : Mutex lock inside pc) {t : ι} {x y : α} (hpc : pc t = x)
    (hx : inside x = true) (hy : inside y = false) :
    Mutex none inside (Function.update pc t y) := by
  intro u
  by_cases hu : u = t
  · subst hu; simp [hy]
  · rw [Function.update_of_ne hu]
    simpa using fun hin => hu (h.unique hin (hpc ▸ hx))

end Mutex

section Flags

/-- A control point that is not flagged. -/
theorem unflagged {p : Prop} (h : false = true) : p :=
  absurd h Bool.false_ne_true

variable [DecidableEq ι] {flag : α → Bool} {t : ι} {x y : α}

/-- A flagged thread that moves stays flagged. -/
theorem exists_update (hpc : pc t = x) (hy : (flag x && !flag y) = false)
    (h : ∃ u, flag (pc u) = true) : ∃ u, flag (Function.update pc t y u) = true := by
  obtain ⟨u, hu⟩ := h
  refine ⟨u, ?_⟩
  by_cases hut : u = t
  · subst hut
    rw [hpc] at hu
    rw [Function.update_self]
    simpa [hu] using hy
  · rw [Function.update_of_ne hut]
    exact hu

/-- A thread that moves becomes not flagged. -/
theorem exists_of_update (hpc : pc t = x) (hy : (flag y && !flag x) = false)
    (h : ∃ u, flag (Function.update pc t y u) = true) : ∃ u, flag (pc u) = true := by
  obtain ⟨u, hu⟩ := h
  refine ⟨u, ?_⟩
  by_cases hut : u = t
  · subst hut
    rw [Function.update_self] at hu
    rw [hpc]
    simpa [hu] using hy
  · rwa [Function.update_of_ne hut] at hu

/-- Who is flagged after all threads were changed by `f`, and one moved. -/
theorem exists_of_broadcast (flag : α → Bool) (f : α → α) (hpc : pc t = x) (hx : f x = x)
    (hy : (flag y && !flag x) = false)
    (h : ∃ u, flag (Function.update (fun u => f (pc u)) t y u) = true) :
    ∃ u, flag (f (pc u)) = true :=
  have hpc' : (fun u => f (pc u)) t = x := (congrArg f hpc).trans hx
  exists_of_update hpc' hy h

theorem exists_broadcast (flag : α → Bool) (f : α → α) (hpc : pc t = x) (hx : f x = x)
    (hy : (flag x && !flag y) = false) (h : ∃ u, flag (f (pc u)) = true) :
    ∃ u, flag (Function.update (fun u => f (pc u)) t y u) = true :=
  have hpc' : (fun u => f (pc u)) t = x := (congrArg f hpc).trans hx
  exists_update hpc' hy h

end Flags

end Loomlib
