import Loomlib.Core.Cost
import Loomlib.ThreadPool.Signals

/-!
# ThreadPool — Budget

How many steps the workers of a pool can take. A worker goes round
`thread_loop` once for each unit with a function, goes to sleep once for
each time it is woken, and walks the branch of the signal once. So if the
unit functions can pay for their own steps and pushes out of a budget,
every run of the pool is bounded, whatever the schedule; a spurious wake-up
costs two steps more.
-/

namespace Loomlib.ThreadPool

variable {P : Program} {n : Nat}

/-- A step of a worker, in the loop or in a unit function. -/
def Event.byWorker : Event P n → Nat
  | .loop _ | .unit _ _ => 1
  | .client _ => 0

/-- A worker wakes up although nothing was pushed. -/
def Pool.spurious (s : Pool P n) : Event P n → Nat
  | .loop i => if s.workers i = .asleep then 1 else 0
  | .unit _ _ | .client _ => 0

/-- The budget `Ψ` pays for a step of a unit function, and for what a
client pushes. -/
def Pays (Ψ : Pool P n → Nat) (s : Pool P n) (e : Event P n) (t : Pool P n) : Prop :=
  match e with
  | .loop _ => Ψ t ≤ Ψ s
  | .unit _ _ => Ψ t < Ψ s
  | .client _ => Ψ t + (t.pushed.length - s.pushed.length) ≤ Ψ s

/-! ## The loop -/

/-- The units with a function that are queued. -/
def queuedCalls {δ : Type} (q : List (WorkUnit δ)) : Nat :=
  q.countP fun u => !u.func.isSig

@[simp] theorem queuedCalls_nil {δ : Type} : queuedCalls ([] : List (WorkUnit δ)) = 0 := rfl

@[simp] theorem queuedCalls_cons {δ : Type} (u : WorkUnit δ) (q : List (WorkUnit δ)) :
    queuedCalls (u :: q) = queuedCalls q + (!u.func.isSig).toNat := by
  cases h : u.func.isSig <;> simp [queuedCalls, h]

@[simp] theorem queuedCalls_append {δ : Type} (q r : List (WorkUnit δ)) :
    queuedCalls (q ++ r) = queuedCalls q + queuedCalls r := List.countP_append

/-- The steps a worker has before it sleeps or exits, outside of unit
functions, and the workers it can wake with a signal. -/
def Worker.rest (n : Nat) : Worker P → Nat
  | .exited => 0
  | .signal _ .free => 1
  | .signal _ .unlock => 2
  | .signal _ .decr => 3
  | .signal _ .push => n + 4
  | .signal _ .test => n + 5
  | .signal _ .lock => n + 6
  | .asleep => n + 7
  | .popping => n + 8
  | .running _ _ | .ran _ => n + 9
  | .popped u => if u.func.isSig then n + 7 else n + 10

theorem Worker.rest_wake (w : Worker P) : w.wake.rest n ≤ w.rest n + 1 := by
  cases w <;> simp [wake, rest]

theorem Worker.rest_le (w : Worker P) : w.rest n ≤ n + 10 := by
  cases w with
  | popped u =>
    simp only [rest]
    split <;> omega
  | signal u pc => cases pc <;> simp only [rest] <;> omega
  | _ => simp only [rest]; omega

/-- The steps left to the workers. -/
def Pool.effort (Ψ : Pool P n → Nat) (s : Pool P n) : Nat :=
  (n + 4) * Ψ s + 3 * queuedCalls s.workQueue + tally (Worker.rest n) s.workers

/-- A push wakes everybody. -/
private theorem tally_rest_wake (g : Fin n → Worker P) :
    tally (Worker.rest n) (fun i => (g i).wake) ≤ tally (Worker.rest n) g + n := by
  calc tally (Worker.rest n) (fun i => (g i).wake)
      = tally (fun w : Worker P => w.wake.rest n) g := rfl
    _ ≤ tally (fun w : Worker P => w.rest n + 1) g := tally_mono fun i => (g i).rest_wake
    _ = tally (Worker.rest n) g + n := by simp [tally_add, tally_const]

section Step

variable {Ψ : Pool P n → Nat} {s t : Pool P n}

private theorem budget_mul {k : Nat} (h : Ψ t + k ≤ Ψ s) :
    (n + 4) * Ψ t + (n + 4) * k ≤ (n + 4) * Ψ s := by
  rw [← Nat.mul_add]
  exact Nat.mul_le_mul_left _ h

/-- A worker moves from `w` to `w'`, and pushes nothing. -/
private theorem effort_move {i : Fin n} {w w' : Worker P} {k c : Nat} (hw : s.workers i = w)
    (hΨ : Ψ t + k ≤ Ψ s) (hq : queuedCalls t.workQueue = queuedCalls s.workQueue)
    (ht : t.workers = Function.update s.workers i w')
    (hrest : w'.rest n + c ≤ w.rest n + (n + 4) * k) : t.effort Ψ + c ≤ s.effort Ψ := by
  have hmul := budget_mul hΨ
  have hmove := tally_move (Worker.rest n) hw w'
  unfold Pool.effort
  rw [hq, ht]
  omega

/-- A worker at `w` goes on to `w'` with a push. -/
private theorem effort_push {i : Fin n} {w w' : Worker P} {k c d : Nat} (hw : s.workers i = w)
    (hwake : w.wake = w) (hΨ : Ψ t + k ≤ Ψ s)
    (hq : queuedCalls t.workQueue ≤ queuedCalls s.workQueue + d)
    (ht : t.workers = Function.update (fun j => (s.workers j).wake) i w')
    (hrest : w'.rest n + n + 3 * d + c ≤ w.rest n + (n + 4) * k) :
    t.effort Ψ + c ≤ s.effort Ψ := by
  have hmul := budget_mul hΨ
  have hwoken := tally_rest_wake s.workers
  have hmove := tally_move (Worker.rest n) (g := fun j => (s.workers j).wake)
    ((congrArg Worker.wake hw).trans hwake) w'
  unfold Pool.effort
  rw [ht]
  omega

/-- A call on the pool queues one unit at most. -/
private theorem queuedCalls_serve (s : Pool P n) (r : Request P.Data) :
    queuedCalls (s.serve r).workQueue ≤ queuedCalls s.workQueue + 1 := by
  cases r <;> simp [Pool.serve, Pool.threadPoolTerminate, Pool.threadPoolPush, Func.isSig]

/-- What a step has to pay for: itself, if a worker takes it, and what a
client pushes. -/
def charge (s : Pool P n) (e : Event P n) (t : Pool P n) : Nat :=
  match e with
  | .loop _ | .unit _ _ => 1
  | .client _ => t.pushed.length - s.pushed.length

/-- **The loop pays its own way**, but for spurious wake-ups. -/
theorem effort_charged {e : Event P n} (h : step s e = some t) (hpays : Pays Ψ s e t) :
    t.effort Ψ + charge s e t ≤ s.effort Ψ + 2 * s.spurious e := by
  cases step_cases h with
  | sleep hw _ =>
    exact Nat.le_add_right_of_le (effort_move (k := 0) hw hpays rfl rfl (Nat.le_refl _))
  | @take i u rest hw hq =>
    have hmul := budget_mul (k := 0) hpays
    have hmove := tally_move (Worker.rest n) hw (.popped u)
    have hΨ : Ψ ({ s with workQueue := rest, popped := s.popped ++ [(u, i)] }.setWorker i
        (.popped u)) ≤ Ψ s := hpays
    unfold Pool.effort
    rw [hq, queuedCalls_cons]
    show _ + 3 * queuedCalls rest
      + tally (Worker.rest n) (Function.update s.workers i (.popped u)) + 1 ≤ _
    cases hu : u.func.isSig with
    | true =>
      simp only [Worker.rest, hu, if_true, Bool.not_true, Bool.toNat_false] at hmove ⊢
      omega
    | false =>
      simp only [Worker.rest, hu, Bool.false_eq_true, if_false, Bool.not_false, Bool.toNat_true]
        at hmove ⊢
      omega
  | @wakeUp i hw =>
    have hmul := budget_mul (k := 0) hpays
    have hmove := tally_move (Worker.rest n) hw .popping
    simp only [Pool.effort, Pool.setWorker, Worker.rest, charge, Pool.spurious, hw] at *
    simp only [if_true]
    omega
  | receive hw hf =>
    refine Nat.le_add_right_of_le (effort_move (k := 0) hw hpays rfl rfl ?_)
    simp [Worker.rest, hf, Func.isSig, charge]
  | start hw hf =>
    refine Nat.le_add_right_of_le (effort_move (k := 0) hw hpays rfl rfl ?_)
    simp [Worker.rest, hf, Func.isSig, charge]
  | free hw | sigLock hw | sigDecr hw | sigUnlock hw | sigFree hw =>
    exact Nat.le_add_right_of_le (effort_move (k := 0) hw hpays rfl rfl (Nat.le_refl _))
  | sigTest hw =>
    refine Nat.le_add_right_of_le (effort_move (k := 0) hw hpays rfl rfl ?_)
    split <;> simp only [Worker.rest, charge] <;> omega
  | sigPush hw =>
    refine Nat.le_add_right_of_le (effort_push (k := 0) (d := 0) hw rfl hpays ?_ rfl ?_)
    · simp [Pool.threadPoolPush, Pool.setWorker, Func.isSig]
    · simp only [Worker.rest, charge]
      omega
  | go hw _ | ret hw _ =>
    refine Nat.le_add_right_of_le (effort_move (k := 1) hw hpays rfl rfl ?_)
    simp only [Worker.rest, charge]
    omega
  | @request i c u f m r f' hw _ =>
    refine Nat.le_add_right_of_le (effort_push (k := 1) hw rfl hpays
      (queuedCalls_serve { s with mem := m } r) (by cases r <;> rfl) ?_)
    simp only [Worker.rest, charge]
    omega
  | @client x m hp =>
    have hle : Ψ { s with mem := m } ≤ Ψ s := by simpa [Pays] using hpays
    have hmul := budget_mul (k := 0) hle
    simp only [Pool.effort, charge, Nat.sub_self] at *
    omega
  | @clientRequest x m r hp =>
    have hpushed : (({ s with mem := m } : Pool P n).serve r).pushed.length
        = s.pushed.length + 1 := by
      cases r <;> simp [Pool.serve, Pool.threadPoolTerminate, Pool.threadPoolPush]
    have hworkers : (({ s with mem := m } : Pool P n).serve r).workers
        = fun j => (s.workers j).wake := by
      cases r <;> rfl
    have hmul := budget_mul (Ψ := Ψ) (s := s) (k := 1) (by simpa [Pays, hpushed] using hpays)
    have hwoken := tally_rest_wake s.workers
    have hcalls := queuedCalls_serve { s with mem := m } r
    simp only [Pool.effort, charge, hworkers, hpushed] at *
    omega

theorem effort_step {e : Event P n} (h : step s e = some t) (hpays : Pays Ψ s e t) :
    t.effort Ψ + e.byWorker ≤ s.effort Ψ + 2 * s.spurious e := by
  have hle := effort_charged h hpays
  have hworker : e.byWorker ≤ charge s e t := by
    cases e <;> simp [Event.byWorker, charge]
  omega

/-- The units that went into the queue, and those that came out. -/
def Pool.passed (s : Pool P n) : Nat :=
  s.pushed.length + s.popped.length

/-- A step takes one unit in or out at most. -/
private theorem passed_step {e : Event P n} (h : step s e = some t) :
    t.passed ≤ s.passed + charge s e t := by
  unfold Pool.passed
  cases step_cases h with
  | @take i u rest hw hq =>
    show s.pushed.length + (s.popped ++ [(u, i)]).length ≤ _
    simp [charge, Nat.add_assoc]
  | @sigPush i u hw =>
    show (s.pushed ++ [_]).length + s.popped.length ≤ _
    simp only [List.length_append, List.length_singleton, charge]
    omega
  | @request i c u f m r f' hw hp =>
    have hpushed : ((({ s with mem := m } : Pool P n).serve r).setWorker i
        (.running u f')).pushed.length = s.pushed.length + 1 := by
      cases r <;> simp [Pool.serve, Pool.threadPoolTerminate, Pool.threadPoolPush, Pool.setWorker]
    have hpopped : ((({ s with mem := m } : Pool P n).serve r).setWorker i (.running u f')).popped
        = s.popped := by
      cases r <;> rfl
    rw [hpushed, hpopped]
    simp only [charge]
    omega
  | @clientRequest x m r hp =>
    have hpopped : (({ s with mem := m } : Pool P n).serve r).popped = s.popped := by
      cases r <;> rfl
    rw [hpopped]
    simp only [charge]
    omega
  | _ => exact Nat.le_add_right _ _

/-- What goes through the queue is paid for. -/
theorem effort_passed {e : Event P n} (h : step s e = some t) (hpays : Pays Ψ s e t) :
    t.effort Ψ + t.passed ≤ s.effort Ψ + s.passed + 2 * s.spurious e := by
  have hle := effort_charged h hpays
  have hpassed := passed_step h
  omega

end Step

/-- The steps of the workers in a run. -/
def workerSteps (M : Machine (Pool P n) (Event P n)) (s : Pool P n) (es : List (Event P n)) : Nat :=
  M.total (fun _ => Event.byWorker) s es

/-- The spurious wake-ups in a run. -/
def wakeUps (M : Machine (Pool P n) (Event P n)) (s : Pool P n) (es : List (Event P n)) : Nat :=
  M.total Pool.spurious s es

/-- **Runs that are paid for are bounded**: the workers take no more steps
than the effort there is at the start, and two for each spurious wake-up. -/
theorem worker_steps_le {m : P.Mem} {C : Pool P n → Event P n → Prop} {I : Pool P n → Prop}
    {Ψ : Pool P n → Nat}
    (hstep : ∀ {s e t}, I s → C s e → step s e = some t → I t ∧ Pays Ψ s e t)
    {s t : Pool P n} {es : List (Event P n)} (hs : I s) (hes : (machine P n m).Meets C s es)
    (hrun : (machine P n m).run s es = some t) :
    workerSteps (machine P n m) s es ≤ s.effort Ψ + 2 * wakeUps (machine P n m) s es := by
  have hpaid : ∀ {s e t}, I s → C s e → (machine P n m).step s e = some t →
      I t ∧ t.effort Ψ + e.byWorker ≤ s.effort Ψ + 2 * s.spurious e :=
    fun hI hc hs => ⟨(hstep hI hc hs).1, effort_step hs (hstep hI hc hs).2⟩
  have htotal := Machine.total_le hpaid hs hes hrun
  rw [Machine.total_mul] at htotal
  exact (Nat.le_add_right _ _).trans htotal

end Loomlib.ThreadPool
