import Loomlib.Pipeline.Atomic
import Loomlib.Pipeline.Drain
import Loomlib.ThreadPool.Together

/-!
# Pipeline — Whole

The pipeline, the pool and its work queue, each with the steps of its own
code: the units take `pipe->lock`, the workers `pool->lock` and the lock of
the queue, and a call of `thread_pool_terminate` takes the lock of the
queue under that of the pipeline. What all of this reaches is seen from
above as a state of the pipeline without locks, on the pool without a
queue; and it never deadlocks.
-/

namespace Loomlib.Pipeline

open ThreadPool

variable {V κ : Type} [DecidableEq κ] {k n : Nat} {s : QueuedPool (lockedProgram V κ k n) n κ}

/-- The code of all three files. -/
def wholeMachine (V κ : Type) [DecidableEq κ] (k n : Nat) :=
  queuedMachine n (lockedCallers V κ k n) lockedNew

/-- A state of the code, as the pipeline knows it. -/
def above (s : QueuedPool (lockedProgram V κ k n) n κ) : Pool (program V k n) n :=
  (detail V κ k n).pool s.view

/-- Thread `t` holds `pipe->lock`. -/
def InSection (s : QueuedPool (lockedProgram V κ k n) n κ) : Fin n ⊕ κ → Prop
  | .inl i => ∃ u f, s.worker i = .running u f ∧ f.holds = 1
  | .inr t => (s.mem.callers t).holds = true

theorem whole_guarded (h : (wholeMachine V κ k n).Reachable s) : Guarded s.view :=
  guarded (view_reachable (lockedCallers_separate k n) h)

/-! ## Atomic sections -/

section Sections

/-- The units that hold the lock are workers. -/
theorem weigh_holds (s : Pool (lockedProgram V κ k n) n) : weigh LockedFrame.holds s.bag.frames
    = tally (fun w => weigh LockedFrame.holds w.frames) s.workers :=
  weigh_bag (fun _ => rfl) s

/-- At most one thread is in a section. -/
theorem section_unique (hI : Guarded s.view) {t u : Fin n ⊕ κ} (ht : InSection s t)
    (hu : InSection s u) : t = u := by
  have hunits := hI.locks.units
  rw [weigh_holds] at hunits
  have hheld : ∀ i, InSection s (.inl i) →
      weigh LockedFrame.holds (s.view.workers i).frames = 1 := by
    rintro i ⟨v, f, hw, hf⟩
    rw [show s.view.workers i = .running v f from hw, Worker.frames, weigh_singleton, hf]
  have hunit : ∀ i, InSection s (.inl i) → s.mem.lock = some .unit := by
    intro i hi
    have hle := le_tally (fun w => weigh LockedFrame.holds w.frames) s.view.workers i
    rw [hheld i hi] at hle
    rcases hunits with ⟨-, hl⟩ | ⟨hzero, -⟩
    · exact hl
    · omega
  have hcaller : ∀ t, InSection s (.inr t) → s.mem.lock = some (.caller t) :=
    fun t => (hI.locks.callers t).mp
  cases t with
  | inl i =>
    cases u with
    | inl j =>
      by_contra hne
      have hle := add_le_tally (fun w => weigh LockedFrame.holds w.frames) s.view.workers
        (show i ≠ j from fun hij => hne (congrArg Sum.inl hij))
      rw [hheld i ht, hheld j hu] at hle
      rcases hunits with ⟨hone, -⟩ | ⟨hzero, -⟩ <;> omega
    | inr u => cases (hunit i ht).symm.trans (hcaller u hu)
  | inr t =>
    cases u with
    | inl j => cases (hunit j hu).symm.trans (hcaller t ht)
    | inr u =>
      cases (hcaller t ht).symm.trans (hcaller u hu)
      rfl

/-- **The sections of the code are atomic.** Whatever the code of the three
files reaches, with all steps of all threads interleaved, is seen from
above as a state that the pipeline reaches whose sections, pushes and pops
are one step each. Never are two threads in a section, and nothing dead is
read or written. -/
theorem sections_atomic (h : (wholeMachine V κ k n).Reachable s) :
    (machine V k n).Reachable (above s) ∧
      (∀ t u, InSection s t → InSection s u → t = u) ∧
      s.mem.mem.fault = false ∧ s.workQueue.fault = false := by
  have hI := whole_guarded h
  have hA := agrees (lockedCallers_separate k n) h
  exact ⟨hI.above, fun _ _ => section_unique hI, (sound hI.above).counts.sound,
    AsyncQueue.fault_free hA.queue⟩

/-- The inlet returned nothing: the worker has counted its line down under
`pipe->lock` and is about to push the signal. -/
def endingRun : List (QueuedEvent (lockedProgram Nat Unit 0 1) 1 Unit) :=
  [.client () (.execute () 5), .client () (.goOn ())]
    ++ List.replicate 4 (.queue (.inr ()) 7)
    ++ .loop first :: List.replicate 4 (.queue (.inl first) 0)
    ++ .loop first :: List.replicate 7 (.unit first .run)
    ++ .unit first (.returns none) :: List.replicate 4 (.unit first .run)
    ++ [.queue (.inl first) 0]

theorem sections_atomic_ending :
    let s := (wholeMachine Nat Unit 0 1).final endingRun (by decide)
    s.mem.lock = some .unit ∧ s.mem.mem.activeLines = 0 ∧ (above s).mem.activeLines = 1 ∧
      (machine Nat 0 1).Reachable (above s) :=
  ⟨by decide, by decide, by decide,
    (sections_atomic (Machine.reachable_final endingRun (by decide))).1⟩

end Sections

/-! ## No deadlock -/

section Progress

/-- A thread goes on with what it is doing: nobody calls the pipeline
anew, and no sleeper wakes up for nothing. -/
def Proceeds (s : QueuedPool (lockedProgram V κ k n) n κ) :
    QueuedEvent (lockedProgram V κ k n) n κ → Prop
  | .loop _ | .unit _ _ => True
  | .client _ x => ∃ t, x = .goOn t
  | .queue t _ => (s.workQueue.pc t).sleeps = none

theorem proceeds_of_goesOn {e : QueuedEvent (lockedProgram V κ k n) n κ}
    (h : ThreadPool.GoesOn s e) : Proceeds s e := by
  cases e with
  | client t x => exact h.elim
  | loop | unit | queue => exact h

/-- A unit can go on unless it waits for the lock. -/
theorem unit_isSome (hI : Guarded s.view) (f : LockedFrame V) :
    (∃ c, (lockedLoop k n s.mem f c).isSome = true) ∨ (f.holds = 0 ∧ s.mem.lock ≠ none) := by
  cases f with
  | out f =>
    by_cases hf : f.free = true
    · obtain ⟨c, hc, -⟩ := can_go_on (k := k) (n := n)
        (hI.hidden.fresh (sound hI.above).blocks.owned) f
      refine .inl ⟨c, ?_⟩
      rwa [lockedLoop_free hf, Option.isSome_map]
    · cases hl : s.mem.lock with
      | some h => exact .inr ⟨rfl, nofun⟩
      | none =>
        refine .inl ⟨.run, ?_⟩
        cases f <;> first | exact absurd rfl hf | simp [lockedLoop, LockedMem.acquire, hl]
  | endLine =>
    refine .inl ⟨.run, ?_⟩
    simp only [lockedLoop]
    split <;> rfl
  | _ => exact .inl ⟨.run, rfl⟩

/-- Who is in a call can go on with it. -/
theorem caller_isSome {m : LockedMem V κ} {t : κ} (ht : m.callers t ≠ .idle) :
    (lockedClient m (.goOn t)).isSome = true := by
  simp only [lockedClient]
  cases hc : m.callers t with
  | idle => exact absurd hc ht
  | _ => rfl

/-- While nobody but the units can hold the lock, one of them does that
holds it. -/
theorem exists_holder (hI : Guarded s.view) (hl : s.mem.lock ≠ none)
    (hcallers : ∀ t, s.mem.callers t = .idle) :
    ∃ i u f, s.view.workers i = .running u f ∧ f.holds = 1 := by
  have hunits := hI.locks.units
  rw [weigh_holds] at hunits
  have hunit : s.mem.lock = some .unit := by
    cases hlock : s.mem.lock with
    | none => exact absurd hlock hl
    | some o =>
      cases o with
      | unit => rfl
      | caller t =>
        have hholds := (hI.locks.callers t).mpr hlock
        rw [show s.view.mem.callers t = .idle from hcallers t] at hholds
        cases hholds
  rcases hunits with ⟨hone, -⟩ | ⟨-, hnot⟩
  · obtain ⟨i, hi⟩ := exists_of_tally_pos
      (f := fun w : Worker (lockedProgram V κ k n) => weigh LockedFrame.holds w.frames)
      (g := s.view.workers) (by omega)
    cases hw : s.view.workers i with
    | running u f =>
      refine ⟨i, u, f, hw, ?_⟩
      cases f with
      | out f => simp [hw, Worker.frames, LockedFrame.holds] at hi
      | _ => rfl
    | popped u =>
      simp only [hw, Worker.frames, WorkUnit.frames] at hi
      split at hi <;> simp [LockedFrame.holds] at hi
    | _ => simp [hw, Worker.frames] at hi
  · exact absurd hunit hnot

/-- **The code of the pipeline, the pool and the queue never deadlocks.**
Some thread proceeds with what it is doing; or all are at rest, nobody
holds `pipe->lock`, and each product that the inlet returned was deposited
once or is left in the queue that all workers have left. -/
theorem whole_never_stuck (h : (wholeMachine V κ k n).Reachable s) :
    (∃ e t, queuedStep (lockedCallers V κ k n) s e = some t ∧ Proceeds s e) ∨
      (AtRest s ∧ (∀ t, s.mem.callers t = .idle) ∧ s.mem.lock = none ∧ Settled (above s)) := by
  have hC := lockedCallers_separate (V := V) (κ := κ) k n
  have hA := agrees hC h
  have hI := whole_guarded h
  rcases together_cases hC h with ⟨e, t, hs, hgo⟩ | ⟨hrest, hwhere⟩
  · exact .inl ⟨e, t, hs, proceeds_of_goesOn hgo⟩
  by_cases hcallers : ∀ t, s.mem.callers t = .idle
  case neg =>
    obtain ⟨t, ht⟩ := not_forall.mp hcallers
    obtain ⟨s', hs'⟩ := Option.isSome_iff_exists.mp
      (queuedClient_isSome (x := LockedClient.goOn t) hA (client_rests hA (hrest (.inr t)))
        (decide_eq_true rfl) (caller_isSome ht))
    exact .inl ⟨.client t (.goOn t), s', hs', t, rfl⟩
  have hruns : ∀ {i : Fin n} {u f c}, s.workQueue.pc (.inl i) = .idle → s.workers i = .running u f →
      (lockedLoop k n s.mem f c).isSome = true →
      ∃ e t, queuedStep (lockedCallers V κ k n) s e = some t ∧ Proceeds s e := by
    intro i u f c hidle hw hc
    obtain ⟨s', hs'⟩ := Option.isSome_iff_exists.mp (queuedUnit_isSome hA hidle hw hc)
    exact ⟨.unit i c, s', hs', trivial⟩
  rcases hwhere with hhalt | ⟨i, u, f, hidle, hw⟩
  · refine .inr ⟨atRest hA (view_reachable hC h) hrest hhalt, hcallers, ?_, settled hI.above ?_⟩
    · by_contra hl
      obtain ⟨i, u, f, hw, -⟩ := exists_holder hI hl hcallers
      rcases hhalt i with hasleep | hexited
      · cases hw.symm.trans hasleep
      · cases hw.symm.trans hexited
    · intro i
      show ((detail V κ k n).worker (s.view.workers i)).Resting
      rcases hhalt i with hasleep | hexited
      · exact .inl (congrArg (detail V κ k n).worker hasleep)
      · exact .inr (congrArg (detail V κ k n).worker hexited)
  · rcases unit_isSome hI f with ⟨c, hc⟩ | ⟨-, hl⟩
    · exact .inl (hruns hidle hw hc)
    · -- it waits for the lock, and the holder does not wait
      obtain ⟨j, v, g, hj, hg⟩ := exists_holder hI hl hcallers
      obtain ⟨hidle, hw⟩ := running_rests hA hrest hj
      rcases unit_isSome hI g with ⟨c, hc⟩ | ⟨hzero, -⟩
      · exact .inl (hruns hidle hw hc)
      · omega

/-- The worker goes on with its push, and gives the lock back after it. -/
theorem whole_never_stuck_ending :
    let s := (wholeMachine Nat Unit 0 1).final endingRun (by decide)
    ∃ e t, queuedStep (lockedCallers Nat Unit 0 1) s e = some t ∧ Proceeds s e :=
  (whole_never_stuck (Machine.reachable_final endingRun (by decide))).resolve_right
    fun hrest => absurd hrest.2.2.1 (by decide)

end Progress

end Loomlib.Pipeline
