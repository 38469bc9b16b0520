import Loomlib.Core.Machine
import Loomlib.Core.Tally

/-!
# ThreadPool — Relay

Termination travels through a pool as a relay: a worker that pops a
signal pushes another one, unless the counter it then decrements says
that it is the last. This module is the relay alone, without queue order,
work units or unit functions. `Balance` says what it conserves: the lock
is held by one worker, the counter is short of `n` by the decrements
done, and the signals queued, in hand and owed add up to the calls that
asked for termination, until the last worker is past its test.
-/

namespace Loomlib.ThreadPool

/-- Where a worker stands: it has no signal yet, it has one and has not
taken the lock, it is at the test, at the push, at the decrement, at the
unlock, or done. -/
inductive Stage where
  | before
  | hand
  | test
  | push
  | decr
  | unlock
  | after
  deriving DecidableEq, Repr

/-- The relay of `n` workers: signals queued, calls made, the counter. -/
structure Relay (n : Nat) where
  queued : Nat
  calls : Nat
  numThreads : Nat
  locked : Bool
  stage : Fin n → Stage

inductive RelayEvent (n : Nat) where
  | call
  | take (i : Fin n)
  | lock (i : Fin n)
  | test (i : Fin n)
  | push (i : Fin n)
  | decr (i : Fin n)
  | unlock (i : Fin n)

namespace Relay

variable {n : Nat}

def move (r : Relay n) (i : Fin n) (x : Stage) : Relay n :=
  { r with stage := Function.update r.stage i x }

def step (r : Relay n) : RelayEvent n → Option (Relay n)
  | .call => some { r with queued := r.queued + 1, calls := r.calls + 1 }
  | .take i =>
    if r.stage i = .before ∧ 0 < r.queued then
      some ({ r with queued := r.queued - 1 }.move i .hand)
    else none
  | .lock i =>
    if r.stage i = .hand ∧ r.locked = false then
      some ({ r with locked := true }.move i .test)
    else none
  | .test i =>
    if r.stage i = .test then some (r.move i (if 1 < r.numThreads then .push else .decr)) else none
  | .push i =>
    if r.stage i = .push then some ({ r with queued := r.queued + 1 }.move i .decr) else none
  | .decr i =>
    if r.stage i = .decr then
      some ({ r with numThreads := r.numThreads - 1 }.move i .unlock)
    else none
  | .unlock i =>
    if r.stage i = .unlock then some ({ r with locked := false }.move i .after) else none

def start (n : Nat) : Relay n :=
  ⟨0, 0, n, false, fun _ => .before⟩

def machine (n : Nat) : Machine (Relay n) (RelayEvent n) where
  init := start n
  step := step

end Relay

/-! ## Weights -/

namespace Stage

/-- It has not popped a signal yet. -/
def awaiting : Stage → Nat
  | .before => 1
  | _ => 0

/-- It has popped a signal and has not reached the test. -/
def untested : Stage → Nat
  | .hand | .test => 1
  | _ => 0

/-- It is past a test that succeeded and has not pushed the signal yet. -/
def relaying : Stage → Nat
  | .push => 1
  | _ => 0

/-- It is past the test. -/
def tested : Stage → Nat
  | .push | .decr | .unlock | .after => 1
  | _ => 0

/-- It has performed its decrement. -/
def decremented : Stage → Nat
  | .unlock | .after => 1
  | _ => 0

/-- It holds the lock. -/
def holding : Stage → Nat
  | .test | .push | .decr | .unlock => 1
  | _ => 0

/-- It is past the test and has not performed its decrement. -/
def between : Stage → Nat
  | .push | .decr => 1
  | _ => 0

theorem tested_eq (x : Stage) : x.tested = x.decremented + x.between := by cases x <;> rfl

theorem between_le (x : Stage) : x.between ≤ x.holding := by cases x <;> decide

theorem awaiting_add (x : Stage) : x.awaiting + (x.untested + x.tested) = 1 := by
  cases x <;> rfl

end Stage

open Stage

/-- Every worker is before its pop, between pop and test, or past it. -/
theorem awaiting_total {n : Nat} (g : Fin n → Stage) :
    tally awaiting g + tally untested g + tally tested g = n := by
  have h : tally (fun x => awaiting x + (untested x + tested x)) g = n := by
    rw [tally_congr (h := fun _ => 1) fun i => awaiting_add (g i), tally_const]
    simp
  rw [tally_add, tally_add] at h
  omega

/-! ## What the relay conserves -/

namespace Relay

variable {n : Nat}

structure Balance (r : Relay n) : Prop where
  mutex : tally holding r.stage = r.locked.toNat
  threads : r.numThreads + tally decremented r.stage = n
  conserve : r.queued + tally untested r.stage + tally relaying r.stage + tally tested r.stage
    = r.calls + min (tally tested r.stage) (n - 1)

theorem balance_start (n : Nat) : Balance (start n) where
  mutex := by simp [start, tally, holding]
  threads := by simp [start, tally, decremented]
  conserve := by simp [start, tally, untested, relaying, tested]

/-- What a worker's move from `y` to `x` does to the sums of `Balance`. -/
private theorem tallies_move {g : Fin n → Stage} {i : Fin n} {y : Stage} (hy : g i = y)
    (x : Stage) :
    tally holding (Function.update g i x) + holding y = tally holding g + holding x ∧
    tally decremented (Function.update g i x) + decremented y
      = tally decremented g + decremented x ∧
    tally untested (Function.update g i x) + untested y = tally untested g + untested x ∧
    tally relaying (Function.update g i x) + relaying y = tally relaying g + relaying x ∧
    tally tested (Function.update g i x) + tested y = tally tested g + tested x :=
  ⟨tally_move _ hy x, tally_move _ hy x, tally_move _ hy x, tally_move _ hy x, tally_move _ hy x⟩

/-- The worker at the test is the only one between test and decrement. -/
theorem tested_at_test {r : Relay n} (hB : Balance r) {i : Fin n} (hi : r.stage i = .test) :
    r.numThreads + tally tested r.stage = n := by
  have hsum : tally tested r.stage = tally decremented r.stage + tally between r.stage := by
    rw [← tally_add]
    exact tally_congr fun j => tested_eq _
  have hnone : tally between r.stage = 0 := by
    apply tally_eq_zero.mpr
    intro j
    by_cases hj : j = i
    · rw [hj, hi]; rfl
    · -- a second worker in the critical section would make two holders
      have htwo := add_le_tally holding r.stage hj
      have hone : holding (r.stage i) = 1 := by rw [hi]; rfl
      have hle := between_le (r.stage j)
      have hlock := hB.mutex
      have := Bool.toNat_le r.locked
      omega
  have := hB.threads
  omega

/-- A worker about to decrement still counts. -/
theorem numThreads_pos {r : Relay n} (hB : Balance r) {i : Fin n} (hi : r.stage i = .decr) :
    0 < r.numThreads := by
  have hle := tally_update decremented r.stage i .unlock
  have hcard : tally decremented (Function.update r.stage i .unlock) ≤ tally (fun _ => 1)
      (Function.update r.stage i .unlock) :=
    tally_mono fun j => by cases Function.update r.stage i .unlock j <;> decide
  rw [tally_const, Fintype.card_fin] at hcard
  simp only [hi, decremented] at hle
  have := hB.threads
  omega

theorem balance_step {r r' : Relay n} {e : RelayEvent n} (hB : Balance r)
    (h : step r e = some r') : Balance r' := by
  obtain ⟨hm, ht, hc⟩ := hB
  cases e with
  | call =>
    cases h
    exact ⟨hm, ht, by simp only; omega⟩
  | take i =>
    simp only [step, Option.ite_none_right_eq_some, Option.some.injEq] at h
    obtain ⟨⟨hi, hq⟩, rfl⟩ := h
    obtain ⟨hH, hD, hU, hR, hT⟩ := tallies_move hi .hand
    simp only [holding, decremented, untested, relaying, tested] at hH hD hU hR hT
    constructor <;> simp only [move] <;> omega
  | lock i =>
    simp only [step, Option.ite_none_right_eq_some, Option.some.injEq] at h
    obtain ⟨⟨hi, hl⟩, rfl⟩ := h
    obtain ⟨hH, hD, hU, hR, hT⟩ := tallies_move hi .test
    simp only [holding, decremented, untested, relaying, tested] at hH hD hU hR hT
    simp only [hl, Bool.toNat_false] at hm
    constructor <;> simp only [move, Bool.toNat_true] <;> omega
  | test i =>
    simp only [step, Option.ite_none_right_eq_some, Option.some.injEq] at h
    obtain ⟨hi, rfl⟩ := h
    have hnum := tested_at_test ⟨hm, ht, hc⟩ hi
    by_cases hlast : 1 < r.numThreads
    · -- the tester owes a signal, and is not the last worker to be tested
      rw [if_pos hlast]
      obtain ⟨hH, hD, hU, hR, hT⟩ := tallies_move hi .push
      simp only [holding, decremented, untested, relaying, tested] at hH hD hU hR hT
      constructor <;> simp only [move] <;> omega
    · rw [if_neg hlast]
      obtain ⟨hH, hD, hU, hR, hT⟩ := tallies_move hi .decr
      simp only [holding, decremented, untested, relaying, tested] at hH hD hU hR hT
      constructor <;> simp only [move] <;> omega
  | push i =>
    simp only [step, Option.ite_none_right_eq_some, Option.some.injEq] at h
    obtain ⟨hi, rfl⟩ := h
    obtain ⟨hH, hD, hU, hR, hT⟩ := tallies_move hi .decr
    simp only [holding, decremented, untested, relaying, tested] at hH hD hU hR hT
    constructor <;> simp only [move] <;> omega
  | decr i =>
    simp only [step, Option.ite_none_right_eq_some, Option.some.injEq] at h
    obtain ⟨hi, rfl⟩ := h
    have hpos := numThreads_pos ⟨hm, ht, hc⟩ hi
    obtain ⟨hH, hD, hU, hR, hT⟩ := tallies_move hi .unlock
    simp only [holding, decremented, untested, relaying, tested] at hH hD hU hR hT
    constructor <;> simp only [move] <;> omega
  | unlock i =>
    simp only [step, Option.ite_none_right_eq_some, Option.some.injEq] at h
    obtain ⟨hi, rfl⟩ := h
    obtain ⟨hH, hD, hU, hR, hT⟩ := tallies_move hi .after
    simp only [holding, decremented, untested, relaying, tested] at hH hD hU hR hT
    have := Bool.toNat_le r.locked
    constructor <;> simp only [move, Bool.toNat_false] <;> omega

theorem balance_reachable {r : Relay n} (h : (machine n).Reachable r) : Balance r :=
  h.invariant (I := Balance) (balance_start n) fun _ hB hs => balance_step hB hs

/-- No step gives a worker back the place it had before its pop. -/
theorem awaiting_step {r r' : Relay n} {e : RelayEvent n} (h : step r e = some r') :
    tally awaiting r'.stage ≤ tally awaiting r.stage := by
  have hmove : ∀ i x, awaiting x = 0 →
      tally awaiting (Function.update r.stage i x) ≤ tally awaiting r.stage := fun i x hx => by
    have := tally_update awaiting r.stage i x
    omega
  cases e <;> simp only [step, Option.ite_none_right_eq_some, Option.some.injEq] at h
  case call => exact h ▸ Nat.le_refl _
  case test i =>
    obtain ⟨-, rfl⟩ := h
    exact hmove i _ (by split <;> rfl)
  all_goals
    obtain ⟨-, rfl⟩ := h
    exact hmove _ _ rfl

/-- **The relay is not dropped**: while some worker has no signal, the
signals queued, in hand before the test and owed are the calls. -/
theorem Balance.in_flight {r : Relay n} (hB : Balance r) {i : Fin n} (hi : r.stage i = .before) :
    r.queued + tally untested r.stage + tally relaying r.stage = r.calls := by
  have htotal := awaiting_total r.stage
  have hle := le_tally awaiting r.stage i
  simp only [hi, awaiting] at hle
  have := hB.conserve
  omega

/-- **What is left over**: with every worker done, all calls but one have
left a signal behind. -/
theorem Balance.left_over {r : Relay n} (hB : Balance r) (hn : 0 < n)
    (hdone : ∀ i, r.stage i = .after) : r.queued + 1 = r.calls := by
  have hT : tally tested r.stage = n := by
    rw [tally_congr (h := fun _ => 1) fun i => by rw [hdone i]; rfl, tally_const]
    simp
  have hU : tally untested r.stage = 0 := tally_eq_zero.mpr fun i => by rw [hdone i]; rfl
  have hR : tally relaying r.stage = 0 := tally_eq_zero.mpr fun i => by rw [hdone i]; rfl
  have := hB.conserve
  omega

end Relay

end Loomlib.ThreadPool
