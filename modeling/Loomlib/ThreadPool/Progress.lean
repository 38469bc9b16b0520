import Loomlib.ThreadPool.Budget
import Loomlib.ThreadPool.Late

/-!
# ThreadPool — Progress

A pool does not get stuck. Nobody sleeps beside a queued unit, and the one
worker that can hold `pool->lock` can always go on, so as long as the unit
functions can, some worker takes a step that is no spurious wake-up, until
all of them sleep or have exited. They all sleep only where nobody asked
the pool to terminate, and where somebody did, they have all exited.
-/

namespace Loomlib.ThreadPool

variable {P : Program} {n : Nat} {m : P.Mem} {s t : Pool P n}

/-- It waits for work, or is gone. -/
def Worker.Resting (w : Worker P) : Prop :=
  w = .asleep ∨ w = .exited

instance (w : Worker P) : Decidable w.Resting :=
  inferInstanceAs (Decidable (_ ∨ _))

/-- The workers have nothing left to do. -/
def Pool.Halted (s : Pool P n) : Prop :=
  ∀ i, (s.workers i).Resting

instance (s : Pool P n) : Decidable s.Halted :=
  inferInstanceAs (Decidable (∀ _, _))

/-! ## Nobody sleeps beside a unit -/

private theorem asleep_of_update {g : Fin n → Worker P} {i j : Fin n} {w : Worker P}
    (hw : w ≠ .asleep) (h : Function.update g i w j = .asleep) : g j = .asleep := by
  by_cases hji : j = i
  · subst hji
    rw [Function.update_self] at h
    exact absurd h hw
  · rwa [Function.update_of_ne hji] at h

private theorem wake_ne_asleep (w : Worker P) : w.wake ≠ .asleep := by
  cases w <;> simp [Worker.wake]

theorem asleep_queue_step {e : Event P n} (hI : ∀ i, s.workers i = .asleep → s.workQueue = [])
    (h : step s e = some t) : ∀ i, t.workers i = .asleep → t.workQueue = [] := by
  have hserve : ∀ (p : Pool P n) r j, (p.serve r).workers j ≠ .asleep := by
    intro p r j
    cases r <;> exact wake_ne_asleep _
  intro j hj
  cases step_cases h with
  | sleep _ hq => exact hq
  | take _ hq =>
    have hnone := hI j (asleep_of_update (by simp) hj)
    rw [hq] at hnone
    cases hnone
  | sigPush => exact absurd (asleep_of_update (by simp) hj) (wake_ne_asleep _)
  | request => exact absurd (asleep_of_update (by simp) hj) (hserve _ _ j)
  | clientRequest => exact absurd hj (hserve _ _ j)
  | client => exact hI j hj
  | wakeUp | receive | start | free | sigLock | sigTest | sigDecr | sigUnlock | sigFree | go
  | ret =>
    exact hI j (asleep_of_update (by simp) hj)

/-- **A worker sleeps on an empty queue only.** -/
theorem asleep_queue (h : (machine P n m).Reachable s) {i : Fin n}
    (hw : s.workers i = .asleep) : s.workQueue = [] :=
  h.invariant (I := fun s => ∀ i, s.workers i = .asleep → s.workQueue = []) (fun _ _ => rfl)
    (fun _ hI hs => asleep_queue_step hI hs) i hw

/-! ## Somebody can go on -/

/-- Where the lock is taken, its holder is in the branch of the signal. -/
theorem exists_holder (h : (machine P n m).Reachable s) (hl : s.locked = true) :
    ∃ i u pc, s.workers i = .signal u pc ∧ pc ≠ .lock := by
  have hmutex : tally Stage.holding s.relay.stage = 1 := by
    rw [(balance h).mutex]
    exact congrArg Bool.toNat hl
  obtain ⟨i, hi⟩ := exists_of_tally_pos (f := Stage.holding) (g := s.relay.stage) (by omega)
  change 0 < Stage.holding (s.workers i).stage at hi
  cases hw : s.workers i with
  | signal u pc =>
    refine ⟨i, u, pc, hw, ?_⟩
    rintro rfl
    simp [hw, Stage.holding] at hi
  | popped u => simp [hw] at hi; split at hi <;> simp [Stage.holding] at hi
  | _ => simp [hw, Stage.holding] at hi

/-- **A worker that rests not can go on**, or the one that holds the lock. -/
theorem loop_goes_on (h : (machine P n m).Reachable s) {i : Fin n}
    (hrest : ¬ (s.workers i).Resting) (hrun : ∀ u f, s.workers i ≠ .running u f) :
    ∃ j, (s.threadLoop j).isSome = true ∧ s.workers j ≠ .asleep := by
  have hown : (s.threadLoop i).isSome = true →
      ∃ j, (s.threadLoop j).isSome = true ∧ s.workers j ≠ .asleep :=
    fun hsome => ⟨i, hsome, fun hw => hrest (.inl hw)⟩
  cases hw : s.workers i with
  | asleep => exact absurd (.inl hw) hrest
  | exited => exact absurd (.inr hw) hrest
  | running u f => exact absurd hw (hrun u f)
  | popping =>
    apply hown
    simp only [Pool.threadLoop, hw]
    split <;> rfl
  | popped u =>
    apply hown
    simp only [Pool.threadLoop, hw]
    split <;> rfl
  | ran u =>
    apply hown
    simp only [Pool.threadLoop, hw, Option.isSome_some]
  | signal u pc =>
    cases pc with
    | lock =>
      cases hl : s.locked with
      | false =>
        apply hown
        simp [Pool.threadLoop, hw, hl]
      | true =>
        obtain ⟨j, v, pc, hj, hpc⟩ := exists_holder h hl
        refine ⟨j, ?_, by rw [hj]; simp⟩
        cases pc <;> simp [Pool.threadLoop, hj] at hpc ⊢
    | _ =>
      apply hown
      simp [Pool.threadLoop, hw]

/-- What the pool comes to: with everybody at rest, all workers sleep on an
empty queue and the pool was never told to terminate, or all have exited. -/
theorem halted_cases (h : (machine P n m).Reachable s) (hrest : s.Halted) :
    (∀ i, s.workers i = .exited) ∨
      ((∀ i, s.workers i = .asleep) ∧ s.workQueue = [] ∧ s.terminates = 0) := by
  by_cases hall : ∀ i, s.workers i = .exited
  · exact .inl hall
  · obtain ⟨i, hi⟩ := not_forall.mp hall
    have hq := asleep_queue h ((hrest i).resolve_right hi)
    -- whoever has exited popped a signal that was asked for
    have hzero : s.terminates = 0 := by
      by_contra hne
      exact hi (all_exited h (Nat.pos_of_ne_zero hne) hq (fun j => (hrest j).symm) i)
    refine .inr ⟨?_, hq, hzero⟩
    intro j
    refine (hrest j).resolve_right ?_
    intro hj
    obtain ⟨u, hu, hf⟩ := hands h j (by simp [hj])
    have hasked := asked h ⟨u, (history h).popped_mem hu, hf⟩
    omega

/-- Everybody rests, or some worker is in a unit function or can go on in
the loop. -/
theorem moves_or_halted (h : (machine P n m).Reachable s) :
    s.Halted ∨ (∃ i u f, s.workers i = .running u f) ∨
      ∃ j, (s.threadLoop j).isSome = true ∧ s.workers j ≠ .asleep := by
  by_cases hrest : s.Halted
  · exact .inl hrest
  · obtain ⟨i, hi⟩ := not_forall.mp hrest
    by_cases hrun : ∃ u f, s.workers i = .running u f
    · exact .inr (.inl ⟨i, hrun⟩)
    · exact .inr (.inr (loop_goes_on h hi fun u f hw => hrun ⟨u, f, hw⟩))

/-- **A pool never gets stuck.** While the unit functions can go on, some
worker can, other than by waking up for nothing; or all workers have
exited; or all of them sleep on an empty queue, and the pool was never told
to terminate. -/
theorem never_stuck (h : (machine P n m).Reachable s)
    (hunits : ∀ i u f, s.workers i = .running u f → ∃ c, (P.step s.mem f c).isSome = true) :
    (∃ e t, step s e = some t ∧ e.byWorker = 1 ∧ s.spurious e = 0) ∨
      (∀ i, s.workers i = .exited) ∨
      ((∀ i, s.workers i = .asleep) ∧ s.workQueue = [] ∧ s.terminates = 0) := by
  rcases moves_or_halted h with hrest | ⟨i, u, f, hw⟩ | ⟨j, hj, hne⟩
  · exact .inr (halted_cases h hrest)
  · obtain ⟨c, hc⟩ := hunits i u f hw
    obtain ⟨t, ht⟩ := Option.isSome_iff_exists.mp (runUnit_isSome hw hc)
    exact .inl ⟨.unit i c, t, ht, rfl, rfl⟩
  · obtain ⟨t, ht⟩ := Option.isSome_iff_exists.mp hj
    exact .inl ⟨.loop j, t, ht, rfl, if_neg hne⟩

/-- One worker is still to pop its first unit, the other is between its test and its push. -/
theorem never_stuck_owing :
    let s := (machine anyProgram 2 ()).final owingRun (by decide)
    ∃ e t, step s e = some t ∧ e.byWorker = 1 ∧ s.spurious e = 0 :=
  have h := never_stuck ((machine anyProgram 2 ()).reachable_final owingRun (by decide))
    (fun _ _ _ _ => ⟨none, rfl⟩)
  h.resolve_right (not_or.mpr ⟨by decide, fun hsleep => absurd hsleep.1 (by decide)⟩)

end Loomlib.ThreadPool
