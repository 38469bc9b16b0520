import Loomlib.Core.Machine
import Mathlib.Algebra.GroupWithZero.Nat

/-!
# Cost — what the steps of a run add up to

A weight on the steps of a machine adds up along a run. A budget that pays
for every step, and that some steps may put something into, bounds what a
run costs by what was there at its start and what was put in.
-/

namespace Loomlib.Machine

universe u v

variable {σ : Type u} {ε : Type v} {M : Machine σ ε}

/-- The sum of `w` over the steps of a run. -/
def total (M : Machine σ ε) (w : σ → ε → Nat) : σ → List ε → Nat
  | _, [] => 0
  | s, e :: es => w s e + match M.step s e with
    | none => 0
    | some t => total M w t es

theorem total_cons {w : σ → ε → Nat} {s t : σ} {e : ε} (hs : M.step s e = some t)
    (es : List ε) : M.total w s (e :: es) = w s e + M.total w t es := by
  simp only [total, hs]

theorem total_mul (k : Nat) (w : σ → ε → Nat) (s : σ) (es : List ε) :
    M.total (fun s e => k * w s e) s es = k * M.total w s es := by
  induction es generalizing s with
  | nil => rfl
  | cons e es ih =>
    simp only [total, Nat.mul_add]
    cases M.step s e with
    | none => rfl
    | some t => simp only [ih]

theorem total_add (w w' : σ → ε → Nat) (s : σ) (es : List ε) :
    M.total (fun s e => w s e + w' s e) s es = M.total w s es + M.total w' s es := by
  induction es generalizing s with
  | nil => rfl
  | cons e es ih =>
    simp only [total]
    cases M.step s e with
    | none => rfl
    | some t => simp only [ih, Nat.add_add_add_comm]

/-- What the events alone weigh, in a run that none of them is refused in. -/
theorem total_events {w : ε → Nat} {s t : σ} {es : List ε} (hrun : M.run s es = some t) :
    M.total (fun _ => w) s es = (es.map w).sum := by
  induction es generalizing s with
  | nil => rfl
  | cons e es ih =>
    obtain ⟨u, hu, hrun⟩ := Option.bind_eq_some_iff.mp hrun
    rw [total_cons hu, ih hrun, List.map_cons, List.sum_cons]

/-- **The budget rule.** -/
theorem total_le {C : σ → ε → Prop} {I : σ → Prop} {μ : σ → Nat} {cost credit : σ → ε → Nat}
    (hstep : ∀ {s e t}, I s → C s e → M.step s e = some t →
      I t ∧ μ t + cost s e ≤ μ s + credit s e)
    {s t : σ} {es : List ε} (hs : I s) (hes : M.Meets C s es) (hrun : M.run s es = some t) :
    M.total cost s es + μ t ≤ μ s + M.total credit s es := by
  induction es generalizing s with
  | nil =>
    cases hrun
    simp [total]
  | cons e es ih =>
    obtain ⟨u, hu, hrun⟩ := Option.bind_eq_some_iff.mp hrun
    obtain ⟨hIu, hpaid⟩ := hstep hs hes.1 hu
    have hle := ih hIu (hes.2 u hu) hrun
    rw [total_cons hu, total_cons hu]
    omega

/-- What only grows is nowhere in a run above what it is at the end. -/
theorem meets_below {I : σ → Prop} {μ : σ → Nat}
    (hstep : ∀ {s e t}, I s → M.step s e = some t → I t ∧ μ s ≤ μ t) {s t : σ} {es : List ε}
    (hs : I s) (hrun : M.run s es = some t) :
    μ s ≤ μ t ∧ M.Meets (fun s e => ∀ u, M.step s e = some u → μ u ≤ μ t) s es := by
  induction es generalizing s with
  | nil =>
    cases hrun
    exact ⟨Nat.le_refl _, trivial⟩
  | cons e es ih =>
    obtain ⟨u, hu, hrun⟩ := Option.bind_eq_some_iff.mp hrun
    obtain ⟨hIu, hle⟩ := hstep hs hu
    obtain ⟨hend, hrest⟩ := ih hIu hrun
    refine ⟨Nat.le_trans hle hend, ?_, ?_⟩
    · intro v hv
      obtain rfl := Option.some.inj (hu.symm.trans hv)
      exact hend
    · intro v hv
      obtain rfl := Option.some.inj (hu.symm.trans hv)
      exact hrest

end Loomlib.Machine
