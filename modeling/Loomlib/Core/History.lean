import Loomlib.Core.Machine
import Mathlib.Data.List.Infix

/-!
# History — what a run leaves behind

Two ways to speak about the past of a run. A log is kept in the state; it
is `Justified` if every entry was allowed by the entries before it. What
the state does not keep is collected beside it: `M.traced obs` is `M` with
the list of all that its steps let be observed. Of several threads each has
its own entries in such a list: `Calls` says that they are whole calls, one
after the other, up to what the call under way has left so far.
-/

namespace Loomlib

universe u v w x

/-! ## Logs -/

section Log

variable {ρ : Type u} {A : List ρ → ρ → Prop} {log : List ρ} {r : ρ}

/-- Every entry of the log is allowed by what stands before it. -/
def Justified (A : List ρ → ρ → Prop) (log : List ρ) : Prop :=
  ∀ pre r, pre ++ [r] <+: log → A pre r

theorem Justified.nil : Justified A [] := by
  intro pre r h
  simp at h

theorem Justified.snoc (h : Justified A log) (hr : A log r) : Justified A (log ++ [r]) := by
  intro pre r' hpre
  rcases List.prefix_concat_iff.mp hpre with heq | hpre
  · obtain ⟨rfl, hlast⟩ := List.append_inj' heq rfl
    cases hlast
    exact hr
  · exact h pre r' hpre

end Log

/-! ## Calls -/

section Calls

variable {ι : Type u} {δ : Type v} {κ : Type w} [DecidableEq ι] {whole : κ → List δ}
  {ds now : List δ} {t t' : ι}

/-- What the thread `t` has entered. -/
def entriesOf (t : ι) (log : List (ι × δ)) : List δ :=
  log.filterMap fun d => if d.1 = t then some d.2 else none

@[simp] theorem entriesOf_append (t : ι) (log log' : List (ι × δ)) :
    entriesOf t (log ++ log') = entriesOf t log ++ entriesOf t log' :=
  List.filterMap_append

theorem entriesOf_own (t : ι) (ds : List δ) : entriesOf t (ds.map (Prod.mk t)) = ds := by
  simp [entriesOf, List.filterMap_map]

theorem entriesOf_other (ht : t' ≠ t) (ds : List δ) :
    entriesOf t' (ds.map (Prod.mk t)) = [] := by
  simp [entriesOf, ht.symm]

/-- The entries of calls, one after the other, and of the one under way. -/
def Calls (whole : κ → List δ) (ds now : List δ) : Prop :=
  ∃ calls : List κ, ds = calls.flatMap whole ++ now

theorem Calls.nil : Calls whole [] [] :=
  ⟨[], rfl⟩

theorem Calls.more (h : Calls whole ds now) (d : List δ) : Calls whole (ds ++ d) (now ++ d) := by
  obtain ⟨calls, rfl⟩ := h
  exact ⟨calls, List.append_assoc ..⟩

/-- The call under way is whole. -/
theorem Calls.done (h : Calls whole ds now) {c : κ} (hc : whole c = now) : Calls whole ds [] := by
  obtain ⟨calls, rfl⟩ := h
  exact ⟨calls ++ [c], by simp [hc]⟩

end Calls

/-! ## Observations -/

namespace Machine

variable {σ : Type u} {ε : Type v} {γ : Type w} {M : Machine σ ε} {obs : σ → ε → List γ}

/-- `M` with what its steps let be observed, from the first to the last. -/
def traced (M : Machine σ ε) (obs : σ → ε → List γ) : Machine (σ × List γ) ε where
  init := (M.init, [])
  step := fun s e => (M.step s.1 e).map fun t => (t, s.2 ++ obs s.1 e)

theorem traced_step {s t : σ × List γ} {e : ε} (h : (M.traced obs).step s e = some t) :
    M.step s.1 e = some t.1 ∧ t.2 = s.2 ++ obs s.1 e := by
  obtain ⟨u, hu, rfl⟩ := Option.map_eq_some_iff.mp h
  exact ⟨hu, rfl⟩

theorem ReachableBy.untraced {C : σ → ε → Prop} {s : σ × List γ}
    (h : (M.traced obs).ReachableBy (fun s e => C s.1 e) s) : M.ReachableBy C s.1 := by
  induction h with
  | init => exact .init
  | step _ hc hs ih => exact .step ih hc (traced_step hs).1

theorem Reachable.untraced {s : σ × List γ} (h : (M.traced obs).Reachable s) :
    M.Reachable s.1 :=
  ReachableBy.untraced (C := fun _ _ => True) h

/-- What is read off the observations has been observed. -/
theorem Reachable.observe {δ : Type x} {obs' : σ → ε → List δ} {g : γ → Option δ}
    (hobs : ∀ {s e t}, M.step s e = some t → obs' s e = (obs s e).filterMap g)
    {s : σ × List γ} (h : (M.traced obs).Reachable s) :
    (M.traced obs').Reachable (s.1, s.2.filterMap g) := by
  induction h with
  | init => exact .init
  | @step s t e _ _ hs ih =>
    obtain ⟨hs, ht⟩ := traced_step hs
    refine .step ih trivial (Option.map_eq_some_iff.mpr ⟨t.1, hs, ?_⟩)
    rw [ht, List.filterMap_append, hobs hs]

/-- Every run can be observed. -/
theorem ReachableBy.traced {C : σ → ε → Prop} {s : σ} (h : M.ReachableBy C s)
    (obs : σ → ε → List γ) :
    ∃ seen, (M.traced obs).ReachableBy (fun s e => C s.1 e) (s, seen) := by
  induction h with
  | init => exact ⟨[], .init⟩
  | @step s t e _ hc hs ih =>
    obtain ⟨seen, ih⟩ := ih
    refine ⟨seen ++ obs s e, ih.step hc ?_⟩
    exact Option.map_eq_some_iff.mpr ⟨t, hs, rfl⟩

end Machine

end Loomlib
