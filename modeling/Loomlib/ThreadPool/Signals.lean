import Loomlib.ThreadPool.Relay
import Loomlib.ThreadPool.Steps

/-!
# ThreadPool — Signals

The pool runs the relay of `Loomlib.ThreadPool.Relay`: forgetting the
work units and the order of the queue, every step of `thread_loop` is a
step of the relay or none. The balance of the relay then holds of every
pool, whatever its unit functions and its clients do.
-/

namespace Loomlib.ThreadPool

variable {P : Program} {n : Nat}

/-- Whether a work unit is a termination signal. -/
def Func.isSig {δ : Type} : Func δ → Bool
  | .termSig => true
  | .call _ => false

theorem Func.isSig_iff {δ : Type} {f : Func δ} : f.isSig = true ↔ f = .termSig := by
  cases f <;> simp [isSig]

/-- The number of signals in a queue. -/
def signals {δ : Type} (q : List (WorkUnit δ)) : Nat :=
  q.countP (·.func.isSig)

@[simp] theorem signals_nil {δ : Type} : signals ([] : List (WorkUnit δ)) = 0 := rfl

@[simp] theorem signals_cons {δ : Type} (u : WorkUnit δ) (q : List (WorkUnit δ)) :
    signals (u :: q) = signals q + u.func.isSig.toNat := by
  cases h : u.func.isSig <;> simp [signals, h]

@[simp] theorem signals_append {δ : Type} (q r : List (WorkUnit δ)) :
    signals (q ++ r) = signals q + signals r := List.countP_append

theorem exists_of_signals_pos {δ : Type} {q : List (WorkUnit δ)} (h : 0 < signals q) :
    ∃ u ∈ q, u.func = .termSig := by
  obtain ⟨u, hu, hs⟩ := List.countP_pos_iff.mp h
  exact ⟨u, hu, Func.isSig_iff.mp hs⟩

/-! ## The view of a pool as a relay -/

/-- Where a worker stands in the relay. -/
def Worker.stage : Worker P → Stage
  | .popped u => if u.func.isSig then .hand else .before
  | .signal _ .lock => .hand
  | .signal _ .test => .test
  | .signal _ .push => .push
  | .signal _ .decr => .decr
  | .signal _ .unlock => .unlock
  | .signal _ .free | .exited => .after
  | .popping | .asleep | .running _ _ | .ran _ => .before

section Stage

variable (u : WorkUnit P.Data) (f : P.Frame)

@[simp] theorem Worker.stage_popping : (popping : Worker P).stage = .before := rfl
@[simp] theorem Worker.stage_asleep : (asleep : Worker P).stage = .before := rfl
@[simp] theorem Worker.stage_running : (running u f).stage = .before := rfl
@[simp] theorem Worker.stage_ran : (ran u : Worker P).stage = .before := rfl
@[simp] theorem Worker.stage_exited : (exited : Worker P).stage = .after := rfl
@[simp] theorem Worker.stage_lock : (signal u .lock : Worker P).stage = .hand := rfl
@[simp] theorem Worker.stage_test : (signal u .test : Worker P).stage = .test := rfl
@[simp] theorem Worker.stage_push : (signal u .push : Worker P).stage = .push := rfl
@[simp] theorem Worker.stage_decr : (signal u .decr : Worker P).stage = .decr := rfl
@[simp] theorem Worker.stage_unlock : (signal u .unlock : Worker P).stage = .unlock := rfl
@[simp] theorem Worker.stage_free : (signal u .free : Worker P).stage = .after := rfl
@[simp] theorem Worker.stage_popped :
    (popped u : Worker P).stage = if u.func.isSig then .hand else .before := rfl

end Stage

@[simp] theorem Worker.stage_wake (w : Worker P) : w.wake.stage = w.stage := by
  cases w <;> rfl

/-- The relay inside a pool. -/
def Pool.relay (s : Pool P n) : Relay n where
  queued := signals s.workQueue
  calls := s.terminates
  numThreads := s.numThreads
  locked := s.locked
  stage := fun i => (s.workers i).stage

private theorem stage_update (g : Fin n → Worker P) (i : Fin n) (w : Worker P) :
    (fun j => (Function.update g i w j).stage) = Function.update (fun j => (g j).stage) i w.stage :=
  funext fun j => Function.apply_update (fun _ => Worker.stage) g i w j

private theorem stage_keep {g : Fin n → Worker P} {i : Fin n} {w : Worker P}
    (h : w.stage = (g i).stage) :
    (fun j => (Function.update g i w j).stage) = fun j => (g j).stage := by
  rw [stage_update, h, Function.update_eq_self]

/-- A request moves no worker in the relay and counts as a call if it is
`thread_pool_terminate`. -/
private theorem relay_serve (s : Pool P n) (r : Request P.Data) :
    (s.serve r).relay = s.relay ∨ Relay.step s.relay .call = some (s.serve r).relay := by
  cases r with
  | push d => left; simp [Pool.serve, Pool.threadPoolPush, Pool.relay, Func.isSig]
  | terminate =>
    right
    simp [Pool.serve, Pool.threadPoolTerminate, Pool.threadPoolPush, Pool.relay, Relay.step,
      Func.isSig]

private theorem relay_setWorker (s : Pool P n) {i : Fin n} {w : Worker P}
    (h : w.stage = (s.workers i).stage) : (s.setWorker i w).relay = s.relay := by
  simp only [Pool.relay, Pool.setWorker, stage_keep h]

theorem relay_step {s t : Pool P n} {e : Event P n} (h : step s e = some t) :
    t.relay = s.relay ∨ ∃ d, Relay.step s.relay d = some t.relay := by
  cases step_cases h with
  | sleep hw _ | wakeUp hw => exact .inl (relay_setWorker s (by rw [hw]; rfl))
  | @take i u rest hw hq =>
    cases hu : u.func.isSig with
    | false =>
      left
      simp [Pool.relay, Pool.setWorker, hq, hu,
        stage_keep (g := s.workers) (i := i) (w := .popped u) (by simp [hw, hu])]
    | true =>
      refine .inr ⟨.take i, ?_⟩
      simp [Pool.relay, Pool.setWorker, Relay.step, Relay.move, stage_update, hq, hu, hw]
  | @receive i u hw hf =>
    exact .inl (relay_setWorker s (by simp [hw, hf, Func.isSig]))
  | @start i u d hw hf =>
    exact .inl (relay_setWorker { s with started := _ } (by simp [hw, hf, Func.isSig]))
  | free hw => exact .inl (relay_setWorker { s with freed := _ } (by simp [hw]))
  | @sigLock i u hw hl =>
    refine .inr ⟨.lock i, ?_⟩
    simp [Pool.relay, Pool.setWorker, Relay.step, Relay.move, stage_update, hw, hl]
  | @sigTest i u hw =>
    refine .inr ⟨.test i, ?_⟩
    by_cases hlast : 1 < s.numThreads <;>
      simp [Pool.relay, Pool.setWorker, Relay.step, Relay.move, stage_update, hw,
        hlast]
  | @sigPush i u hw =>
    refine .inr ⟨.push i, ?_⟩
    simp [Pool.relay, Pool.setWorker, Pool.threadPoolPush, Relay.step, Relay.move, stage_update,
      hw, Func.isSig]
  | @sigDecr i u hw =>
    refine .inr ⟨.decr i, ?_⟩
    simp [Pool.relay, Pool.setWorker, Relay.step, Relay.move, stage_update, hw]
  | @sigUnlock i u hw =>
    refine .inr ⟨.unlock i, ?_⟩
    simp [Pool.relay, Pool.setWorker, Relay.step, Relay.move, stage_update, hw]
  | sigFree hw => exact .inl (relay_setWorker { s with freed := _ } (by simp [hw]))
  | go hw _ => exact .inl (relay_setWorker { s with mem := _ } (by simp [hw]))
  | @request i c u f m r f' hw _ =>
    have hkeep : (({ s with mem := m }.serve r).setWorker i (.running u f')).relay
        = ({ s with mem := m }.serve r).relay :=
      relay_setWorker _ (by cases r <;>
        simp [Pool.serve, Pool.threadPoolTerminate, Pool.threadPoolPush, hw])
    rw [hkeep]
    exact (relay_serve { s with mem := m } r).imp id fun hr => ⟨.call, hr⟩
  | ret hw _ =>
    exact .inl (relay_setWorker { s with mem := _, finished := _ } (by simp [hw]))
  | client _ => exact .inl rfl
  | @clientRequest x m r _ =>
    exact (relay_serve { s with mem := m } r).imp id fun hr => ⟨.call, hr⟩

/-- **The pool refines the relay.** -/
def relaySimulation (P : Program) (n : Nat) (m : P.Mem) :
    (machine P n m).Simulation (Relay.machine n) where
  view := Pool.relay
  init := rfl
  step := relay_step

theorem balance {m : P.Mem} {s : Pool P n} (h : (machine P n m).Reachable s) : s.relay.Balance :=
  Relay.balance_reachable ((relaySimulation P n m).reachable h)

end Loomlib.ThreadPool
