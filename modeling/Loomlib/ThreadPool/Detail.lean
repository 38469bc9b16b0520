import Loomlib.ThreadPool.Budget
import Loomlib.ThreadPool.Meeting

/-!
# ThreadPool — Detail

A pool whose unit functions are told in more detail. Where the steps of a
program are none or one of those of a coarser one, with what its frames and
its memory look like from there, the pool that runs it refines the pool
that runs the other: the loop, the queue and the signals know nothing of
what the units do. And what pays for the one pays for the other, where a
frame has a bounded number of steps before its next one is seen.
-/

namespace Loomlib.ThreadPool

variable {P Q : Program} {n : Nat}

/-- What the data, the frames and the memory of a program are to a coarser
one, and how many steps a frame has before its next one is seen. -/
structure Detail (P Q : Program) where
  data : P.Data → Q.Data
  frame : P.Frame → Q.Frame
  mem : P.Mem → Q.Mem
  rest : P.Frame → Nat
  call : ∀ d, frame (P.call d) = Q.call (data d)
  fresh : ∀ d, rest (P.call d) = 0

section Maps

variable {δ δ' : Type}

def Func.map (g : δ → δ') : Func δ → Func δ'
  | .termSig => .termSig
  | .call d => .call (g d)

def WorkUnit.map (g : δ → δ') (u : WorkUnit δ) : WorkUnit δ' :=
  ⟨u.func.map g, u.id⟩

end Maps

/-- A step of a unit function. -/
def Event.inUnit : Event P n → Nat
  | .unit _ _ => 1
  | .loop _ | .client _ => 0

namespace Detail

variable (D : Detail P Q)

def worker : Worker P → Worker Q
  | .popping => .popping
  | .asleep => .asleep
  | .popped u => .popped (u.map D.data)
  | .running u f => .running (u.map D.data) (D.frame f)
  | .ran u => .ran (u.map D.data)
  | .signal u pc => .signal (u.map D.data) pc
  | .exited => .exited

/-- The pool as the coarser program knows it. -/
def pool (s : Pool P n) : Pool Q n where
  workQueue := s.workQueue.map (WorkUnit.map D.data)
  numThreads := s.numThreads
  locked := s.locked
  workers := fun i => D.worker (s.workers i)
  mem := D.mem s.mem
  pushed := s.pushed.map (WorkUnit.map D.data)
  popped := s.popped.map fun p => (p.1.map D.data, p.2)
  started := s.started
  finished := s.finished
  freed := s.freed
  terminates := s.terminates

/-- The step of a unit function is none or one of the coarser program's. -/
def Covers (m : P.Mem) (f : P.Frame) (m' : P.Mem) (o : Outcome P.Data P.Frame) : Prop :=
  (∃ f', o = .go f' ∧ D.frame f' = D.frame f ∧ D.mem m' = D.mem m ∧ D.rest f' < D.rest f) ∨
    ∃ c, Q.step (D.mem m) (D.frame f) c = some (D.mem m', o.map D.data D.frame)

/-- And so is the step of a client. -/
def CoversClient (m m' : P.Mem) (r : Option (Request P.Data)) : Prop :=
  (r = none ∧ D.mem m' = D.mem m) ∨
    ∃ x, Q.client (D.mem m) x = some (D.mem m', r.map (Request.map D.data))

section Pool

variable {s t : Pool P n}

theorem worker_wake (w : Worker P) : D.worker w.wake = (D.worker w).wake := by
  cases w <;> rfl

theorem pool_setWorker (s : Pool P n) (i : Fin n) (w : Worker P) :
    D.pool (s.setWorker i w) = (D.pool s).setWorker i (D.worker w) := by
  have hworkers : (fun j => D.worker (Function.update s.workers i w j))
      = Function.update (fun j => D.worker (s.workers j)) i (D.worker w) :=
    funext fun j => Function.apply_update (fun _ => D.worker) s.workers i w j
  unfold pool Pool.setWorker
  simp only [hworkers]

theorem pool_push (s : Pool P n) (func : Func P.Data) :
    D.pool (s.threadPoolPush func) = (D.pool s).threadPoolPush (func.map D.data) := by
  simp only [pool, Pool.threadPoolPush, D.worker_wake, List.map_append, List.map_cons, List.map_nil,
    WorkUnit.map, List.length_map]

theorem pool_serve (s : Pool P n) (r : Request P.Data) :
    D.pool (s.serve r) = (D.pool s).serve (r.map D.data) := by
  cases r with
  | push d => exact D.pool_push s (.call d)
  | terminate =>
    show { D.pool (s.threadPoolPush .termSig) with terminates := s.terminates + 1 } = _
    rw [D.pool_push]
    rfl

/-- The steps of a worker that are not seen. -/
def left : Worker P → Nat
  | .running _ f => D.rest f
  | _ => 0

theorem left_wake (w : Worker P) : D.left w.wake = D.left w := by
  cases w <;> rfl

/-- A step is seen as one of the same kind. -/
def Like : Event P n → Event Q n → Prop
  | .loop i, .loop j | .unit i _, .unit j _ => i = j
  | .client _, .client _ => True
  | _, _ => False

/-- A step that is not seen: one of a unit function is one less. -/
def Unseen (s : Pool P n) (e : Event P n) (t : Pool P n) : Prop :=
  D.pool t = D.pool s ∧ tally D.left t.workers + e.inUnit ≤ tally D.left s.workers

theorem worker_of {i : Fin n} {w : Worker P} (hw : s.workers i = w) :
    (D.pool s).workers i = D.worker w :=
  congrArg D.worker hw

/-- A worker beside its unit takes the same step. -/
theorem pool_loop {i : Fin n} (h : step s (.loop i) = some t) :
    step (D.pool s) (.loop i) = some (D.pool t) := by
  cases step_cases h with
  | sleep hw hq =>
    have hq' : (D.pool s).workQueue = [] := by rw [pool, hq, List.map_nil]
    rw [D.pool_setWorker]
    simp only [step, Pool.threadLoop, D.worker_of hw, worker, hq']
  | @take _ u rest hw hq =>
    have hq' : (D.pool s).workQueue = u.map D.data :: rest.map (WorkUnit.map D.data) := by
      rw [pool, hq, List.map_cons]
    rw [D.pool_setWorker]
    simp only [step, Pool.threadLoop, D.worker_of hw, worker, hq']
    simp only [pool, List.map_append, List.map_cons, List.map_nil]
  | wakeUp hw =>
    rw [D.pool_setWorker]
    simp only [step, Pool.threadLoop, D.worker_of hw, worker]
  | free hw | sigTest hw | sigDecr hw | sigUnlock hw | sigFree hw =>
    rw [D.pool_setWorker]
    simp only [step, Pool.threadLoop, D.worker_of hw, worker]
    rfl
  | receive hw hf =>
    rw [D.pool_setWorker]
    simp only [step, Pool.threadLoop, D.worker_of hw, worker, WorkUnit.map, hf, Func.map]
  | start hw hf =>
    rw [D.pool_setWorker]
    simp only [step, Pool.threadLoop, D.worker_of hw, worker, WorkUnit.map, hf, Func.map, D.call]
    rfl
  | sigLock hw hl =>
    have hl' : (D.pool s).locked = false := hl
    rw [D.pool_setWorker]
    simp only [step, Pool.threadLoop, D.worker_of hw, worker, hl', Bool.false_eq_true, if_false]
    rfl
  | sigPush hw =>
    rw [D.pool_setWorker, D.pool_push]
    simp only [step, Pool.threadLoop, D.worker_of hw, worker]
    rfl

/-- A step of a unit function is one of the coarser program's, or it is not
seen and leaves one less of them. -/
theorem pool_unit {i : Fin n} {c : P.Choice} (h : step s (.unit i c) = some t)
    (hunit : ∀ u f m o, s.workers i = .running u f → P.step s.mem f c = some (m, o) →
      D.Covers s.mem f m o) :
    D.Unseen s (.unit i c) t ∨ ∃ c', step (D.pool s) (.unit i c') = some (D.pool t) := by
  cases step_cases h with
  | @go _ _ u f m f' hw hp =>
    rcases hunit u f m _ hw hp with ⟨g, hg, hframe, hmem, hrest⟩ | ⟨c', hc'⟩
    · cases hg
      refine .inl ⟨?_, ?_⟩
      case refine_2 =>
        have hmove := tally_move D.left hw (.running u f')
        show tally D.left (Function.update s.workers i (.running u f')) + 1 ≤ _
        simp only [left] at hmove
        omega
      have hsame : D.worker (.running u f') = (D.pool s).workers i := by
        rw [D.worker_of hw, worker, worker, hframe]
      rw [D.pool_setWorker, hsame]
      show { D.pool s with
        mem := D.mem m
        workers := Function.update (D.pool s).workers i ((D.pool s).workers i) } = D.pool s
      rw [hmem, Function.update_eq_self]
      rfl
    · refine .inr ⟨c', ?_⟩
      rw [D.pool_setWorker]
      simp only [step, Pool.runUnit, D.worker_of hw, worker,
        show Q.step (D.pool s).mem _ _ = _ from hc', Outcome.map]
      rfl
  | @request _ _ u f m r f' hw hp =>
    rcases hunit u f m _ hw hp with ⟨g, hg, -⟩ | ⟨c', hc'⟩
    · cases hg
    · refine .inr ⟨c', ?_⟩
      rw [D.pool_setWorker, D.pool_serve]
      simp only [step, Pool.runUnit, D.worker_of hw, worker,
        show Q.step (D.pool s).mem _ _ = _ from hc', Outcome.map]
      rfl
  | @ret _ _ u f m hw hp =>
    rcases hunit u f m _ hw hp with ⟨g, hg, -⟩ | ⟨c', hc'⟩
    · cases hg
    · refine .inr ⟨c', ?_⟩
      rw [D.pool_setWorker]
      simp only [step, Pool.runUnit, D.worker_of hw, worker,
        show Q.step (D.pool s).mem _ _ = _ from hc', Outcome.map]
      rfl

/-- And so is a step of a client. -/
theorem pool_client {x : P.Client} (h : step s (.client x) = some t)
    (hclient : ∀ m r, P.client s.mem x = some (m, r) → D.CoversClient s.mem m r) :
    D.Unseen s (.client x) t ∨ ∃ y, step (D.pool s) (.client y) = some (D.pool t) := by
  cases step_cases h with
  | @client _ m hp =>
    rcases hclient m none hp with ⟨-, hmem⟩ | ⟨y, hy⟩
    · refine .inl ⟨?_, Nat.le_refl _⟩
      show { D.pool s with mem := D.mem m } = D.pool s
      rw [hmem]
      rfl
    · refine .inr ⟨y, ?_⟩
      simp only [step, Pool.runClient, show Q.client (D.pool s).mem _ = _ from hy, Option.map_none]
      rfl
  | @clientRequest _ m r hp =>
    rcases hclient m (some r) hp with ⟨hr, -⟩ | ⟨y, hy⟩
    · cases hr
    · refine .inr ⟨y, ?_⟩
      rw [D.pool_serve]
      simp only [step, Pool.runClient, show Q.client (D.pool s).mem _ = _ from hy, Option.map_some]
      rfl

/-- **Detail in the units is detail in the pool**: where each step of a
unit function and of a client is covered, each step of the pool is none or
one of the coarser pool's. -/
theorem pool_step {e : Event P n} (h : step s e = some t)
    (hunit : ∀ i u f c m o, s.workers i = .running u f → P.step s.mem f c = some (m, o) →
      D.Covers s.mem f m o)
    (hclient : ∀ x m r, P.client s.mem x = some (m, r) → D.CoversClient s.mem m r) :
    D.Unseen s e t ∨ ∃ d, Like e d ∧ step (D.pool s) d = some (D.pool t) := by
  cases e with
  | loop i => exact .inr ⟨.loop i, rfl, D.pool_loop h⟩
  | unit i c =>
    refine (D.pool_unit h fun u f m o => hunit i u f c m o).imp_right ?_
    rintro ⟨c', hc'⟩
    exact ⟨.unit i c', rfl, hc'⟩
  | client x =>
    refine (D.pool_client h (hclient x)).imp_right ?_
    rintro ⟨y, hy⟩
    exact ⟨.client y, trivial, hy⟩

/-- A step of a unit function leads to `R` steps that are not seen at most,
and the others to none. -/
theorem left_step {e : Event P n} {R : Nat} (hR : ∀ f, D.rest f ≤ R) (h : step s e = some t) :
    tally D.left t.workers ≤ tally D.left s.workers + R * e.inUnit := by
  have hmove : ∀ {i : Fin n} {w : Worker P} {g : Fin n → Worker P},
      tally D.left g = tally D.left s.workers → t.workers = Function.update g i w →
      D.left w ≤ R * e.inUnit → tally D.left t.workers ≤ tally D.left s.workers + R * e.inUnit := by
    intro i w g hg ht hle
    have hmove := tally_update D.left g i w
    rw [ht]
    omega
  have hwake : tally D.left (fun j => (s.workers j).wake) = tally D.left s.workers :=
    tally_comp D.left_wake s.workers
  have hrun : ∀ u f, D.left (.running u f) ≤ R * 1 := fun _ f =>
    (hR f).trans_eq (Nat.mul_one R).symm
  cases step_cases h with
  | start => exact hmove rfl rfl ((D.fresh _).trans_le (Nat.zero_le _))
  | sigTest => exact hmove rfl rfl (by split <;> exact Nat.zero_le _)
  | sigPush => exact hmove hwake rfl (Nat.zero_le _)
  | go => exact hmove rfl rfl (hrun _ _)
  | @request i c u f m r f' => exact hmove hwake (by cases r <;> rfl) (hrun u f')
  | client => exact Nat.le_refl _
  | @clientRequest x m r =>
    have ht : (({ s with mem := m } : Pool P n).serve r).workers = fun j => (s.workers j).wake := by
      cases r <;> rfl
    rw [ht, hwake]
    exact Nat.le_add_right _ _
  | _ => exact hmove rfl rfl (Nat.zero_le _)

/-- What pays for the coarser pool pays for the pool, with `R` steps for
each that is seen. -/
def budget (R : Nat) (Ψ : Pool Q n → Nat) (s : Pool P n) : Nat :=
  (R + 1) * Ψ (D.pool s) + tally D.left s.workers

/-- **The budget of the coarser pool pays for the pool.** -/
theorem pays {e : Event P n} {R : Nat} {Ψ : Pool Q n → Nat} (hR : ∀ f, D.rest f ≤ R)
    (h : step s e = some t) (hcovered : D.Unseen s e t ∨
      ∃ d, Like e d ∧ step (D.pool s) d = some (D.pool t))
    (hpays : ∀ d, step (D.pool s) d = some (D.pool t) → Pays Ψ (D.pool s) d (D.pool t)) :
    Pays (D.budget R Ψ) s e t := by
  have hleft := D.left_step hR h
  have hmul : ∀ {k : Nat}, Ψ (D.pool t) + k ≤ Ψ (D.pool s) →
      (R + 1) * Ψ (D.pool t) + (R + 1) * k ≤ (R + 1) * Ψ (D.pool s) := by
    intro k hk
    rw [← Nat.mul_add]
    exact Nat.mul_le_mul_left _ hk
  have hpushed : ∀ s : Pool P n, (D.pool s).pushed.length = s.pushed.length :=
    fun s => List.length_map ..
  rcases hcovered with ⟨hsame, hrest⟩ | ⟨d, hlike, hd⟩
  · have hnone : t.pushed.length = s.pushed.length := by
      rw [← hpushed, ← hpushed, hsame]
    cases e with
    | loop i =>
      simp only [Pays, budget, hsame, Event.inUnit] at hrest ⊢
      omega
    | unit i c =>
      simp only [Pays, budget, hsame, Event.inUnit] at hrest ⊢
      omega
    | client x =>
      simp only [Pays, budget, hsame, hnone, Event.inUnit] at hrest ⊢
      omega
  · have hpaid := hpays d hd
    cases e with
    | loop i =>
      cases d with
      | loop j =>
        have hmul := hmul (k := 0) hpaid
        simp only [Pays, budget, Event.inUnit] at hleft ⊢
        omega
      | _ => exact hlike.elim
    | unit i c =>
      cases d with
      | unit j c' =>
        have hmul := hmul (k := 1) hpaid
        simp only [Pays, budget, Event.inUnit] at hleft ⊢
        omega
      | _ => exact hlike.elim
    | client x =>
      cases d with
      | client y =>
        have hpaid : Ψ (D.pool t) + ((D.pool t).pushed.length - (D.pool s).pushed.length)
            ≤ Ψ (D.pool s) := hpaid
        rw [hpushed, hpushed] at hpaid
        have hmul := hmul hpaid
        rw [Nat.add_mul R 1 (t.pushed.length - _), Nat.one_mul] at hmul
        simp only [Pays, budget, Event.inUnit] at hleft ⊢
        omega
      | _ => exact hlike.elim

end Pool

end Detail

end Loomlib.ThreadPool
