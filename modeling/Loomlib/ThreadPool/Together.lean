import Loomlib.AsyncQueue.Free
import Loomlib.AsyncQueue.Progress
import Loomlib.ThreadPool.Progress
import Loomlib.ThreadPool.Refine

/-!
# ThreadPool — Together

The pool and its work queue do not block each other. Whoever holds the lock
of the queue goes on until it gives it back, so threads that cannot go on
are outside of the queue or asleep beside an empty ring; and then what the
pool comes to from above is what the code comes to.
-/

namespace Loomlib.AsyncQueue

variable {ι α : Type} [DecidableEq ι] {q q' : Queue ι α} {t : ι}

/-- There is always memory that is not live. -/
theorem exists_dead (h : (machine ι α).Reachable q) : ∃ a, q.heap a = none := by
  obtain ⟨l, -, -, hw⟩ := kept h
  obtain ⟨a, ha⟩ := Infinite.exists_notMem_finset (l.map Prod.fst).toFinset
  refine ⟨a, ?_⟩
  by_contra hlive
  exact ha (List.mem_toFinset.mpr (hw a hlive))

/-- Who can go on without memory can with it. -/
theorem step_malloc (h : (machine ι α).Reachable q) (hs : (step q (.step t none)).isSome = true) :
    ∃ a, (step q (.step t (some a))).isSome = true := by
  obtain ⟨a, ha⟩ := exists_dead h
  refine ⟨a, ?_⟩
  cases hpc : q.pc t with
  | push p =>
    cases p with
    | body item =>
      simp only [step, hpc, Queue.asyncQueuePush, ha, Option.isNone_none, if_true] at hs ⊢
      split at hs
      · cases hs
      · rename_i hfreed
        rw [if_neg hfreed]
        split <;> rfl
    | _ => simpa only [step, hpc, Queue.asyncQueuePush] using hs
  | _ => simpa only [step, hpc] using hs

theorem call_isSome {c : Call α} (hfreed : q.freed = false) (hidle : q.pc t = .idle)
    (hc : c.frees = false) : (step q (.call t c)).isSome = true := by
  simp [step, hfreed, hidle, hc]

end Loomlib.AsyncQueue

namespace Loomlib.ThreadPool

variable {P : Program} {n : Nat} {κ : Type} [DecidableEq κ] {C : Callers P κ} {s : QueuedPool P n κ}
  {i : Fin n}

/-- A thread goes on that is in the work queue, or a worker: nobody makes
a new request from outside, and no sleeper wakes up for nothing. -/
def GoesOn (s : QueuedPool P n κ) : QueuedEvent P n κ → Prop
  | .loop _ | .unit _ _ => True
  | .client _ _ => False
  | .queue t _ => (s.workQueue.pc t).sleeps = none

/-! ## Outside of the queue -/

/-- Where the pool seen from above goes on in the loop, the worker does. -/
theorem threadLoop_isSome (hA : Agrees C s) (hidle : s.workQueue.pc (.inl i) = .idle)
    (h : (s.view.threadLoop i).isSome = true) : (s.threadLoop i).isSome = true := by
  have hcall : ∀ (s : QueuedPool P n κ) (c : AsyncQueue.Call (Func P.Data)),
      s.workQueue.freed = false → s.workQueue.pc (.inl i) = .idle → c.frees = false →
      (s.call (.inl i) c).isSome = true := by
    intro s c hfreed hidle hc
    rw [QueuedPool.call, Option.isSome_map]
    exact AsyncQueue.call_isSome hfreed hidle hc
  have hview : s.view.workers i = s.workers i := worker_idle hidle
  simp only [Pool.threadLoop, hview] at h
  simp only [QueuedPool.threadLoop, QueuedPool.out, hidle, if_true]
  cases hw : s.workers i with
  | popping => exact hcall s (.pop true) hA.freed hidle rfl
  | popped u =>
    obtain ⟨f, id⟩ := u
    cases f <;> rfl
  | signal u pc =>
    cases pc with
    | lock =>
      cases hl : s.locked with
      | false => rfl
      | true => simp [hw, show s.view.locked = true from hl] at h
    | push =>
      exact hcall ((s.setNext i (.signal u .decr)).setEffect (.inl i) id) (.push .termSig)
        hA.freed hidle rfl
    | _ => rfl
  | ran => rfl
  | asleep =>
    have hfit : Owed (s.workQueue.pc (.inl i)) (s.effect (.inl i)) (s.workers i) (s.next i) :=
      hA.threads (.inl i)
    rw [hidle, hw] at hfit
    cases (show Worker.popping = Worker.asleep from hfit)
  | _ =>
    rw [hw] at h
    cases h

/-- Where the unit function goes on, the worker does. -/
theorem queuedUnit_isSome {u : WorkUnit P.Data} {f : P.Frame} {c : P.Choice} (hA : Agrees C s)
    (hidle : s.workQueue.pc (.inl i) = .idle) (hw : s.workers i = .running u f)
    (hc : (P.step s.mem f c).isSome = true) : (s.runUnit i c).isSome = true := by
  obtain ⟨⟨m, o⟩, hstep⟩ := Option.isSome_iff_exists.mp hc
  simp only [QueuedPool.runUnit, QueuedPool.out, hidle, hw, hstep, if_true]
  cases o with
  | request r f' =>
    show Option.isSome (QueuedPool.call _ _ _) = true
    rw [QueuedPool.call, Option.isSome_map]
    exact AsyncQueue.call_isSome hA.freed hidle rfl
  | _ => rfl

/-- Where a client goes on, its thread does. -/
theorem queuedClient_isSome {t : κ} {x : P.Client} (hA : Agrees C s)
    (hidle : s.workQueue.pc (.inr t) = .idle) (hmay : C.may t x = true)
    (hx : (P.client s.mem x).isSome = true) : (s.runClient C t x).isSome = true := by
  obtain ⟨⟨m, r⟩, hstep⟩ := Option.isSome_iff_exists.mp hx
  simp only [QueuedPool.runClient, QueuedPool.out, hidle, hmay, hstep, Bool.and_self, if_true]
  cases r with
  | none => rfl
  | some r =>
    show Option.isSome (QueuedPool.call _ _ _) = true
    rw [QueuedPool.call, Option.isSome_map]
    exact AsyncQueue.call_isSome hA.freed hidle rfl

/-! ## At rest -/

/-- A worker that rests in the queue, or is outside. -/
theorem worker_rests (hA : Agrees C s) (hrest : s.workQueue.Rests (.inl i)) :
    (s.workQueue.pc (.inl i) = .idle ∧ s.worker i = s.workers i) ∨
      (s.workQueue.pc (.inl i) = .pop true .asleep ∧ s.workQueue.size = 0) := by
  have hfit : Owed (s.workQueue.pc (.inl i)) (s.effect (.inl i)) (s.workers i) (s.next i) :=
      hA.threads (.inl i)
  rcases hrest with hidle | ⟨hitem, hsize⟩ | ⟨hempty, -⟩
  · exact .inl ⟨hidle, worker_idle hidle⟩
  · refine .inr ⟨?_, hsize⟩
    unfold AsyncQueue.PC.awaitsItem at hitem
    split at hitem
    · rename_i w hpc
      rw [hpc] at hfit
      rw [hpc, show w = true from hfit.1]
    · cases hitem
  · unfold AsyncQueue.PC.awaitsEmpty at hempty
    split at hempty
    · rename_i hpc
      rw [hpc] at hfit
      exact hfit.elim
    · cases hempty

theorem client_rests {t : κ} (hA : Agrees C s) (hrest : s.workQueue.Rests (.inr t)) :
    s.workQueue.pc (.inr t) = .idle := by
  have hfit : InPush C s.mem t (s.effect (.inr t)) (s.workQueue.pc (.inr t)) := hA.threads (.inr t)
  rcases hrest with hidle | ⟨hitem, -⟩ | ⟨hempty, -⟩
  · exact hidle
  · unfold AsyncQueue.PC.awaitsItem at hitem
    split at hitem
    · rename_i hpc
      rw [hpc] at hfit
      exact hfit.elim
    · cases hitem
  · unfold AsyncQueue.PC.awaitsEmpty at hempty
    split at hempty
    · rename_i hpc
      rw [hpc] at hfit
      exact hfit.elim
    · cases hempty

/-- Nobody is about to broadcast when all threads rest. -/
theorem due_rests (hA : Agrees C s) (hrest : ∀ t, s.workQueue.Rests t) :
    s.workQueue.due = false := by
  refine AsyncQueue.due_free (Mutex.free (AsyncQueue.locked hA.queue) ?_)
  intro t
  cases t with
  | inl i =>
    rcases worker_rests hA (hrest (.inl i)) with ⟨hpc, -⟩ | ⟨hpc, -⟩ <;> rw [hpc] <;> rfl
  | inr t =>
    rw [client_rests hA (hrest (.inr t))]
    rfl

/-- An empty list above is an empty ring below. -/
theorem empty_of_view (hA : Agrees C s) (hqueue : s.view.workQueue = []) :
    s.workQueue.queue = none ∧ s.workQueue.size = 0 := by
  have hqueue : s.pushed.drop s.popped.length = [] := hqueue
  obtain ⟨l, hring, hl⟩ := hA.ring
  rw [hqueue, List.map_nil, List.map_eq_nil_iff] at hl
  have hnone : s.workQueue.queue = none := by
    rw [hring.last, hl]
    rfl
  obtain ⟨l', hring', hsize, -⟩ := AsyncQueue.kept hA.queue
  rw [hnone] at hring'
  rw [hsize, hring'.eq_nil]
  exact ⟨hnone, rfl⟩

/-- What the code of both files comes to. -/
structure AtRest (s : QueuedPool P n κ) : Prop where
  clients : ∀ t, s.workQueue.pc (.inr t) = .idle
  workers : (∀ i, s.workQueue.pc (.inl i) = .idle ∧ s.workers i = .exited) ∨
    ((∀ i, s.workQueue.pc (.inl i) = .pop true .asleep) ∧ s.workQueue.size = 0 ∧
      s.workQueue.queue = none ∧ s.terminates = 0)

/-- Whoever is at rest is seen where it is. -/
theorem asleep_rests (hA : Agrees C s) (hrest : ∀ t, s.workQueue.Rests t)
    (hpc : s.workQueue.pc (.inl i) = .pop true .asleep) : s.view.workers i = .asleep := by
  show s.worker i = .asleep
  rw [QueuedPool.worker, hpc, due_rests hA hrest]
  rfl

/-- A worker that is seen in a unit function is there, when all threads rest. -/
theorem running_rests {u : WorkUnit P.Data} {f : P.Frame} (hA : Agrees C s)
    (hrest : ∀ t, s.workQueue.Rests t) (hw : s.view.workers i = .running u f) :
    s.workQueue.pc (.inl i) = .idle ∧ s.workers i = .running u f := by
  rcases worker_rests hA (hrest (.inl i)) with ⟨hidle, hnow⟩ | ⟨hpc, -⟩
  · exact ⟨hidle, hnow.symm.trans hw⟩
  · cases (asleep_rests hA hrest hpc).symm.trans hw

/-- What rests above rests below. -/
theorem atRest (hA : Agrees C s) {m : P.Mem} (hview : (machine P n m).Reachable s.view)
    (hrest : ∀ t, s.workQueue.Rests t) (hhalt : s.view.Halted) : AtRest s := by
  refine ⟨fun t => client_rests hA (hrest (.inr t)), ?_⟩
  rcases halted_cases hview hhalt with hexited | ⟨hall, hqueue, hzero⟩
  · refine .inl fun i => ?_
    rcases worker_rests hA (hrest (.inl i)) with ⟨hidle, hnow⟩ | ⟨hpc, -⟩
    · exact ⟨hidle, hnow.symm.trans (hexited i)⟩
    · cases (asleep_rests hA hrest hpc).symm.trans (hexited i)
  · obtain ⟨hnone, hsize⟩ := empty_of_view hA hqueue
    refine .inr ⟨fun i => ?_, hsize, hnone, hzero⟩
    rcases worker_rests hA (hrest (.inl i)) with ⟨hidle, hnow⟩ | ⟨hpc, -⟩
    · have hfit : Owed (s.workQueue.pc (.inl i)) (s.effect (.inl i)) (s.workers i) (s.next i) :=
        hA.threads (.inl i)
      rw [hidle, show s.workers i = .asleep from hnow.symm.trans (hall i)] at hfit
      cases (show Worker.popping = Worker.asleep from hfit)
    · exact hpc

/-- The pool and its queue go on by themselves; or all threads rest, and so
does the pool, or some worker is in a unit function. -/
theorem together_cases {m : P.Mem} (hC : C.Separate) (h : (queuedMachine n C m).Reachable s) :
    (∃ e t, queuedStep C s e = some t ∧ GoesOn s e) ∨ ((∀ t, s.workQueue.Rests t) ∧
      (s.view.Halted ∨
        ∃ i u f, s.workQueue.pc (.inl i) = .idle ∧ s.workers i = .running u f)) := by
  have hA := agrees hC h
  rcases AsyncQueue.goes_on_or_rests hA.queue hA.freed with ⟨t, hsleep, hgo⟩ | hrest
  · -- somebody is in the work queue, and goes on there
    obtain ⟨a, ha⟩ := AsyncQueue.step_malloc hA.queue hgo
    obtain ⟨s', hs'⟩ := Option.isSome_iff_exists.mp
      (show (s.queueStep t a).isSome = true by rwa [QueuedPool.queueStep, Option.isSome_map])
    exact .inl ⟨.queue t a, s', hs', hsleep⟩
  · rcases moves_or_halted (view_reachable hC h) with hhalt | ⟨i, u, f, hw⟩ | ⟨j, hj, hne⟩
    · exact .inr ⟨hrest, .inl hhalt⟩
    · exact .inr ⟨hrest, .inr ⟨i, u, f, running_rests hA hrest hw⟩⟩
    · rcases worker_rests hA (hrest (.inl j)) with ⟨hidle, -⟩ | ⟨hpc, -⟩
      · obtain ⟨s', hs'⟩ := Option.isSome_iff_exists.mp (threadLoop_isSome hA hidle hj)
        exact .inl ⟨.loop j, s', hs', trivial⟩
      · exact absurd (asleep_rests hA hrest hpc) hne

/-- **The pool on its work queue never gets stuck.** While the unit
functions can go on some thread can, other than by waking up for nothing or
with a new request; or all workers have exited; or all of them sleep in
`async_queue_pop` beside an empty ring, and the pool was never told to
terminate. -/
theorem together_never_stuck {m : P.Mem} (hC : C.Separate)
    (h : (queuedMachine n C m).Reachable s)
    (hunits : ∀ i u f, s.workers i = .running u f → ∃ c, (P.step s.mem f c).isSome = true) :
    (∃ e t, queuedStep C s e = some t ∧ GoesOn s e) ∨ AtRest s := by
  have hA := agrees hC h
  rcases together_cases hC h with hgo | ⟨hrest, hhalt | ⟨i, u, f, hidle, hw⟩⟩
  · exact .inl hgo
  · exact .inr (atRest hA (view_reachable hC h) hrest hhalt)
  · obtain ⟨c, hc⟩ := hunits i u f hw
    obtain ⟨s', hs'⟩ := Option.isSome_iff_exists.mp (queuedUnit_isSome hA hidle hw hc)
    exact .inl ⟨.unit i c, s', hs', trivial⟩

/-- A worker sleeps beside an item that a client has not announced yet. -/
theorem together_never_stuck_due :
    let s := (queuedMachine 1 (Callers.any anyProgram Unit) ()).final dueRun (by decide)
    ∃ e t, queuedStep (Callers.any anyProgram Unit) s e = some t ∧ GoesOn s e :=
  (together_never_stuck (anyCallers_separate Unit) (Machine.reachable_final dueRun (by decide))
    (fun _ _ _ _ => ⟨none, rfl⟩)).resolve_right
    fun h => absurd (congrArg AsyncQueue.PC.owesItem (h.clients ())) (by decide)

end Loomlib.ThreadPool
