/-!
# Machine — programs as event-driven step functions

A concurrent program is one step function on the whole state. An event
names the thread that moves together with everything the step is told
from outside the program (the address `malloc` returns, the value a user
routine returns), so an interleaving is a list of events and `step` is
`none` where the event cannot happen.

Two notions of reachability are used. `Reachable` quantifies over every
run; `ReachableBy C` only over the runs whose steps all meet `C`, a
condition on the state before the step and on its event.
-/

namespace Loomlib

universe u v w x

/-- A transition system with computable steps. -/
structure Machine (σ : Type u) (ε : Type v) where
  init : σ
  step : σ → ε → Option σ

namespace Machine

variable {σ : Type u} {ε : Type v} (M : Machine σ ε)

/-- The state after a list of events, `none` once an event is refused. -/
def run : σ → List ε → Option σ
  | s, [] => some s
  | s, e :: es => (M.step s e).bind fun t => run t es

/-- `s` is reached by a run whose steps all meet `C`. -/
inductive ReachableBy (C : σ → ε → Prop) : σ → Prop where
  | init : ReachableBy C M.init
  | step {s t : σ} {e : ε} : ReachableBy C s → C s e → M.step s e = some t → ReachableBy C t

/-- `s` is reached by some run. -/
abbrev Reachable : σ → Prop := M.ReachableBy fun _ _ => True

variable {M}

theorem ReachableBy.mono {C D : σ → ε → Prop} (hCD : ∀ s e, C s e → D s e) {s : σ}
    (h : M.ReachableBy C s) : M.ReachableBy D s := by
  induction h with
  | init => exact .init
  | step _ hc hs ih => exact .step ih (hCD _ _ hc) hs

theorem ReachableBy.reachable {C : σ → ε → Prop} {s : σ} (h : M.ReachableBy C s) :
    M.Reachable s :=
  h.mono fun _ _ _ => trivial

/-- **The invariant rule**: what holds initially and is kept by every
step that meets `C` holds of every state such a run reaches. The step
may use that the state it starts from is itself reached. -/
theorem ReachableBy.invariant {C : σ → ε → Prop} {I : σ → Prop} (hinit : I M.init)
    (hstep : ∀ {s e t}, M.ReachableBy C s → I s → C s e → M.step s e = some t → I t)
    {s : σ} (h : M.ReachableBy C s) : I s := by
  induction h with
  | init => exact hinit
  | step hr hc hs ih => exact hstep hr ih hc hs

/-- The invariant rule over every run. -/
theorem Reachable.invariant {I : σ → Prop} (hinit : I M.init)
    (hstep : ∀ {s e t}, M.Reachable s → I s → M.step s e = some t → I t)
    {s : σ} (h : M.Reachable s) : I s :=
  ReachableBy.invariant hinit (fun hr hi _ hs => hstep hr hi hs) h

/-- A condition that the states such a run reaches impose on its steps is
met by the run. -/
theorem ReachableBy.imposed {C D : σ → ε → Prop}
    (hD : ∀ s, M.ReachableBy C s → ∀ e, C s e → D s e) {s : σ} (h : M.ReachableBy C s) :
    M.ReachableBy D s := by
  induction h with
  | init => exact .init
  | step hr hc hs ih => exact .step ih (hD _ hr _ hc) hs

/-- And one that every reached state imposes by every run. -/
theorem Reachable.always {C : σ → ε → Prop} (hC : ∀ s, M.Reachable s → ∀ e, C s e) {s : σ}
    (h : M.Reachable s) : M.ReachableBy C s :=
  h.imposed fun s hr e _ => hC s hr e

/-- Every step of the run from `s` along `es` meets `C`. -/
def Meets (M : Machine σ ε) (C : σ → ε → Prop) : σ → List ε → Prop
  | _, [] => True
  | s, e :: es => C s e ∧ ∀ t ∈ M.step s e, Meets M C t es

instance Meets.instDecidable {C : σ → ε → Prop} [∀ s e, Decidable (C s e)] :
    ∀ (s : σ) (es : List ε), Decidable (M.Meets C s es)
  | _, [] => inferInstanceAs (Decidable True)
  | s, e :: es =>
    have : Decidable (∀ t ∈ M.step s e, M.Meets C t es) :=
      match M.step s e with
      | none => isTrue fun _ h => nomatch h
      | some t => match instDecidable t es with
        | isTrue h => isTrue fun _ ht => Option.some.inj ht ▸ h
        | isFalse h => isFalse fun hall => h (hall t rfl)
    inferInstanceAs (Decidable (_ ∧ _))

theorem meets_true (s : σ) (es : List ε) : M.Meets (fun _ _ => True) s es := by
  induction es generalizing s with
  | nil => trivial
  | cons e es ih => exact ⟨trivial, fun t _ => ih t⟩

/-- Two conditions that come to the same in the states of such a run. -/
theorem meets_congr {C D : σ → ε → Prop} {I : σ → Prop} (hCD : ∀ s e, I s → (C s e ↔ D s e))
    (hstep : ∀ {s e t}, I s → C s e → M.step s e = some t → I t) {s : σ} (hs : I s)
    (es : List ε) : M.Meets C s es ↔ M.Meets D s es := by
  induction es generalizing s with
  | nil => exact Iff.rfl
  | cons e es ih =>
    constructor
    · rintro ⟨hc, hrest⟩
      exact ⟨(hCD s e hs).mp hc, fun t ht => (ih (hstep hs hc ht)).mp (hrest t ht)⟩
    · rintro ⟨hd, hrest⟩
      have hc := (hCD s e hs).mpr hd
      exact ⟨hc, fun t ht => (ih (hstep hs hc ht)).mpr (hrest t ht)⟩

theorem ReachableBy.of_run {C : σ → ε → Prop} {s t : σ} {es : List ε}
    (h : M.ReachableBy C s) (hes : M.Meets C s es) (hrun : M.run s es = some t) :
    M.ReachableBy C t := by
  induction es generalizing s with
  | nil => exact Option.some.inj hrun ▸ h
  | cons e es ih =>
    obtain ⟨u, hu, hrun⟩ := Option.bind_eq_some_iff.mp hrun
    exact ih (.step h hes.1 hu) (hes.2 u hu) hrun

theorem Reachable.run {s t : σ} {es : List ε} (h : M.Reachable s) (hrun : M.run s es = some t) :
    M.Reachable t := by
  induction es generalizing s with
  | nil => exact Option.some.inj hrun ▸ h
  | cons e es ih =>
    obtain ⟨u, hu, hrun⟩ := Option.bind_eq_some_iff.mp hrun
    exact ih (.step h trivial hu) hrun

/-- **The variant rule**: a measure that falls at every step of such a run
bounds its length. -/
theorem run_le {C : σ → ε → Prop} {I : σ → Prop} {μ : σ → Nat}
    (hstep : ∀ {s e t}, I s → C s e → M.step s e = some t → I t ∧ μ t < μ s) {s t : σ}
    {es : List ε} (hs : I s) (hes : M.Meets C s es) (hrun : M.run s es = some t) :
    es.length + μ t ≤ μ s := by
  induction es generalizing s with
  | nil =>
    cases hrun
    exact Nat.le_of_eq (Nat.zero_add _)
  | cons e es ih =>
    obtain ⟨u, hu, hrun⟩ := Option.bind_eq_some_iff.mp hrun
    obtain ⟨hIu, hlt⟩ := hstep hs hes.1 hu
    have hle := ih hIu (hes.2 u hu) hrun
    rw [List.length_cons]
    omega

/-- A run leads from `s` to `t`. -/
def Leads (M : Machine σ ε) (s t : σ) : Prop :=
  ∃ es, M.run s es = some t

theorem Leads.refl (s : σ) : M.Leads s s :=
  ⟨[], rfl⟩

theorem Leads.step {s t u : σ} {e : ε} (hs : M.step s e = some t) (h : M.Leads t u) :
    M.Leads s u := by
  obtain ⟨es, hes⟩ := h
  exact ⟨e :: es, by rw [run, hs]; exact hes⟩

theorem Leads.trans {s t u : σ} (h : M.Leads s t) (h' : M.Leads t u) : M.Leads s u := by
  obtain ⟨es, hes⟩ := h
  induction es generalizing s with
  | nil => exact Option.some.inj hes ▸ h'
  | cons e es ih =>
    obtain ⟨v, hv, hes⟩ := Option.bind_eq_some_iff.mp hes
    exact .step hv (ih hes)

/-- What every step keeps holds wherever a run leads. -/
theorem Leads.invariant {I : σ → Prop} (hstep : ∀ {s e t}, I s → M.step s e = some t → I t)
    {s t : σ} (h : M.Leads s t) (hs : I s) : I t := by
  obtain ⟨es, hes⟩ := h
  induction es generalizing s with
  | nil => exact Option.some.inj hes ▸ hs
  | cons e es ih =>
    obtain ⟨u, hu, hes⟩ := Option.bind_eq_some_iff.mp hes
    exact ih (hstep hs hu) hes

theorem Leads.reachable {s t : σ} (h : M.Leads s t) (hr : M.Reachable s) : M.Reachable t :=
  h.invariant (fun hr hs => .step hr trivial hs) hr

/-- The last state of a run that no event is refused in. -/
def final (M : Machine σ ε) (es : List ε) (h : (M.run M.init es).isSome = true) : σ :=
  (M.run M.init es).get h

theorem reachable_final (es : List ε) (h : (M.run M.init es).isSome = true) :
    M.Reachable (M.final es h) :=
  Reachable.run .init (Option.some_get h).symm

theorem reachableBy_final {C : σ → ε → Prop} (es : List ε) (h : (M.run M.init es).isSome = true)
    (hmeets : M.Meets C M.init es) : M.ReachableBy C (M.final es h) :=
  ReachableBy.of_run .init hmeets (Option.some_get h).symm

/-! ## Simulation -/

/-- `view` maps every step of `M` to a step of `N` or to no change at
all, so what holds of every state of `N` holds of every view. -/
structure Simulation {τ : Type w} {δ : Type x} (M : Machine σ ε) (N : Machine τ δ) where
  view : σ → τ
  init : view M.init = N.init
  step : ∀ {s e t}, M.step s e = some t →
    view t = view s ∨ ∃ d, N.step (view s) d = some (view t)

theorem Simulation.reachable {τ : Type w} {δ : Type x} {N : Machine τ δ} (R : Simulation M N)
    {s : σ} (h : M.Reachable s) : N.Reachable (R.view s) := by
  induction h with
  | init => exact R.init ▸ .init
  | step _ _ hs ih =>
    rcases R.step hs with heq | ⟨d, hd⟩
    · exact heq ▸ ih
    · exact .step ih trivial hd

end Machine

end Loomlib
