import Loomlib.ThreadPool.Signals

/-!
# ThreadPool — Ledger

The history of a pool. `History` ties the units pushed to those popped
and those still queued; `Hands` says that a worker past its last unit has
popped a signal. `Account` follows one push through the hands of the
workers: popped, started, finished, freed.
-/

namespace Loomlib.ThreadPool

variable {P : Program} {n : Nat}

/-- Every unit pushed has been popped or is queued, in this order, and
units are numbered by their push. -/
structure History (s : Pool P n) : Prop where
  fifo : s.pushed = s.popped.map Prod.fst ++ s.workQueue
  ids : s.pushed.map WorkUnit.id = List.range s.pushed.length

/-- A worker that is past popping has popped a signal. -/
def Hands (s : Pool P n) : Prop :=
  ∀ i, (s.workers i).stage ≠ .before → ∃ u, (u, i) ∈ s.popped ∧ u.func = .termSig

theorem History.push {s : Pool P n} (h : History s) (g : Func P.Data) :
    History (s.threadPoolPush g) where
  fifo := by simp [Pool.threadPoolPush, h.fifo]
  ids := by simp [Pool.threadPoolPush, h.ids, List.range_succ]

theorem History.serve {s : Pool P n} (h : History s) (r : Request P.Data) :
    History (s.serve r) := by
  cases r with
  | push d => exact h.push (.call d)
  | terminate => exact ⟨(h.push .termSig).fifo, (h.push .termSig).ids⟩

theorem history_step {s t : Pool P n} {e : Event P n} (hI : History s)
    (h : step s e = some t) : History t := by
  cases step_cases h with
  | take _ hq => exact ⟨by simpa [Pool.setWorker, hq] using hI.fifo, hI.ids⟩
  | sigPush _ => exact ⟨(hI.push .termSig).fifo, (hI.push .termSig).ids⟩
  | @request _ _ _ _ m r _ _ _ =>
    have hm : History { s with mem := m } := ⟨hI.fifo, hI.ids⟩
    exact ⟨(hm.serve r).fifo, (hm.serve r).ids⟩
  | @clientRequest _ m r _ =>
    have hm : History { s with mem := m } := ⟨hI.fifo, hI.ids⟩
    exact hm.serve r
  | _ => exact ⟨hI.fifo, hI.ids⟩

theorem history {m : P.Mem} {s : Pool P n} (h : (machine P n m).Reachable s) : History s :=
  h.invariant (I := History) ⟨rfl, rfl⟩ fun _ hI hs => history_step hI hs

/-- Distinct pushes have distinct numbers. -/
theorem History.nodup {s : Pool P n} (h : History s) : (s.pushed.map WorkUnit.id).Nodup :=
  h.ids ▸ List.nodup_range

theorem History.unique {s : Pool P n} (h : History s) {u v : WorkUnit P.Data}
    (hu : u ∈ s.pushed) (hv : v ∈ s.pushed) (hid : u.id = v.id) : u = v :=
  List.inj_on_of_nodup_map h.nodup hu hv hid

theorem History.popped_mem {s : Pool P n} (h : History s) {u : WorkUnit P.Data} {i : Fin n}
    (hu : (u, i) ∈ s.popped) : u ∈ s.pushed := by
  rw [h.fifo]
  exact List.mem_append_left _ (List.mem_map.mpr ⟨(u, i), hu, rfl⟩)

/-! ## Hands -/

/-- The worker that moves keeps `Hands` if it was past popping already. -/
private theorem hands_move {s : Pool P n} (hI : Hands s) {i : Fin n} {w : Worker P}
    (hw : w.stage ≠ .before → (s.workers i).stage ≠ .before)
    {g : Fin n → Worker P} (hg : ∀ j, (g j).stage = (s.workers j).stage) :
    ∀ j, (Function.update g i w j).stage ≠ .before →
      ∃ u, (u, j) ∈ s.popped ∧ u.func = .termSig := by
  intro j hj
  by_cases hji : j = i
  · subst hji
    rw [Function.update_self] at hj
    exact hI j (hw hj)
  · rw [Function.update_of_ne hji, hg] at hj
    exact hI j hj

theorem hands_step {s t : Pool P n} {e : Event P n} (hI : Hands s)
    (h : step s e = some t) : Hands t := by
  have hwake : ∀ j, ((s.workers j).wake).stage = (s.workers j).stage := by
    intro j
    exact by simp
  cases step_cases h with
  | @take i u _ hw _ =>
    intro j hj
    by_cases hji : j = i
    · subst hji
      refine ⟨u, by simp [Pool.setWorker], Func.isSig_iff.mp ?_⟩
      by_contra hu
      simp [Pool.setWorker, hu] at hj
    · simp only [Pool.setWorker, Function.update_of_ne hji] at hj
      obtain ⟨v, hv, hf⟩ := hI j hj
      exact ⟨v, List.mem_append_left _ hv, hf⟩
  | sigPush hw => exact hands_move hI (by simp [hw]) hwake
  | @request _ _ _ _ m r _ hw _ =>
    cases r <;> exact hands_move hI (by simp) hwake
  | receive hw hf => exact hands_move hI (by simp [hw, hf, Func.isSig]) fun _ => rfl
  | sleep hw | wakeUp hw | start hw | free hw | sigLock hw | sigTest hw | sigDecr hw
  | sigUnlock hw | sigFree hw | go hw | ret hw =>
    exact hands_move hI (by simp [hw]) fun _ => rfl
  | client _ => exact hI
  | @clientRequest _ m r _ =>
    cases r <;> exact fun j hj => hI j (hwake j ▸ hj)

theorem hands {m : P.Mem} {s : Pool P n} (h : (machine P n m).Reachable s) : Hands s :=
  h.invariant (I := Hands) (fun _ hi => absurd rfl hi) fun _ hI hs => hands_step hI hs

/-! ## Accounts -/

section Weights

variable (x : Nat)

/-- It has popped the unit numbered `x`, no signal, and not started it. -/
def toStart : Worker P → Nat
  | .popped u => if u.id = x then (!u.func.isSig).toNat else 0
  | _ => 0

/-- It is inside the function of the unit numbered `x`. -/
def inside : Worker P → Nat
  | .running u _ => if u.id = x then 1 else 0
  | _ => 0

/-- It is to free the unit numbered `x`, run before, or a signal. -/
def toFree : Worker P → Nat
  | .ran u => if u.id = x then 1 else 0
  | .popped u => if u.id = x then u.func.isSig.toNat else 0
  | .signal u _ => if u.id = x then 1 else 0
  | _ => 0

@[simp] theorem toStart_wake (w : Worker P) : toStart x w.wake = toStart x w := by
  cases w <;> rfl

@[simp] theorem inside_wake (w : Worker P) : inside x w.wake = inside x w := by
  cases w <;> rfl

@[simp] theorem toFree_wake (w : Worker P) : toFree x w.wake = toFree x w := by
  cases w <;> rfl

end Weights

/-- How often the number `x` was popped as a unit with a function. -/
def poppedUnits (s : Pool P n) (x : Nat) : Nat :=
  s.popped.countP fun p => p.1.id = x && !p.1.func.isSig

/-- How often the number `x` was popped as a signal. -/
def poppedSignals (s : Pool P n) (x : Nat) : Nat :=
  s.popped.countP fun p => p.1.id = x && p.1.func.isSig

/-- What was popped was started or is about to be, what was started has
finished or is running, what has finished was freed or is about to be. -/
structure Account (s : Pool P n) (x : Nat) : Prop where
  started : s.started.count x + tally (toStart x) s.workers = poppedUnits s x
  finished : s.finished.count x + tally (inside x) s.workers = s.started.count x
  freed : s.freed.count x + tally (toFree x) s.workers = s.finished.count x + poppedSignals s x

/-- A broadcast leaves the account as it is. -/
private theorem account_push {s : Pool P n} {x : Nat} (hI : Account s x) (g : Func P.Data) :
    Account (s.threadPoolPush g) x where
  started := tally_push (toStart_wake x) s g ▸ hI.started
  finished := tally_push (inside_wake x) s g ▸ hI.finished
  freed := tally_push (toFree_wake x) s g ▸ hI.freed

private theorem account_serve {s : Pool P n} {x : Nat} (hI : Account s x) (r : Request P.Data) :
    Account (s.serve r) x := by
  cases r with
  | push d => exact account_push hI (.call d)
  | terminate =>
    obtain ⟨hs, hf, hd⟩ := account_push hI .termSig
    exact ⟨hs, hf, hd⟩

/-- A worker's move from `y` to `w` keeps the account if what it takes
from each sum is what the step adds to the history. -/
private theorem account_move {s t : Pool P n} {x : Nat} (hI : Account s x) {i : Fin n}
    {y w : Worker P} (hy : s.workers i = y) (ht : t.workers = Function.update s.workers i w)
    (h1 : t.started.count x + toStart x w + poppedUnits s x
      = s.started.count x + toStart x y + poppedUnits t x)
    (h2 : t.finished.count x + inside x w + s.started.count x
      = s.finished.count x + inside x y + t.started.count x)
    (h3 : t.freed.count x + toFree x w + s.finished.count x + poppedSignals s x
      = s.freed.count x + toFree x y + t.finished.count x + poppedSignals t x) :
    Account t x := by
  obtain ⟨hs, hf, hd⟩ := hI
  have ht1 := tally_move (toStart x) hy w
  have ht2 := tally_move (inside x) hy w
  have ht3 := tally_move (toFree x) hy w
  refine ⟨?_, ?_, ?_⟩ <;> rw [ht] <;> omega

theorem account_step {s t : Pool P n} {e : Event P n} {x : Nat} (hI : Account s x)
    (h : step s e = some t) : Account t x := by
  cases step_cases h with
  | sleep hw | wakeUp hw | sigLock hw | sigTest hw | sigDecr hw | sigUnlock hw | go hw =>
    exact account_move hI hw rfl rfl rfl rfl
  | @take i u rest hw hq =>
    refine account_move hI hw rfl ?_ rfl ?_ <;>
      by_cases hx : u.id = x <;> cases hs : u.func.isSig <;>
        simp [poppedUnits, poppedSignals, Pool.setWorker, toStart, toFree, hx, hs] <;> omega
  | receive hw hf =>
    refine account_move hI hw rfl ?_ rfl ?_ <;>
      simp [poppedUnits, poppedSignals, Pool.setWorker, toStart, toFree, hf, Func.isSig]
  | @start i u d hw hf =>
    refine account_move hI hw rfl ?_ ?_ ?_ <;> by_cases hx : u.id = x
    all_goals simp [poppedUnits, poppedSignals, Pool.setWorker, toStart, toFree, inside, hx, hf,
      Func.isSig]
    all_goals omega
  | @free i u hw | @sigFree i u hw =>
    refine account_move hI hw rfl rfl rfl ?_
    by_cases hx : u.id = x <;> simp [poppedSignals, Pool.setWorker, toFree, hx]
  | @sigPush i u hw =>
    have hw' : (s.threadPoolPush .termSig).workers i = .signal u .push := by
      simp [Pool.threadPoolPush, hw, Worker.wake]
    exact account_move (account_push hI .termSig) hw' rfl rfl rfl rfl
  | @request i c u f m r f' hw _ =>
    have hm : Account { s with mem := m } x := ⟨hI.started, hI.finished, hI.freed⟩
    have hw' : ({ s with mem := m }.serve r).workers i = .running u f := by
      cases r <;>
        simp [Pool.serve, Pool.threadPoolTerminate, Pool.threadPoolPush, hw, Worker.wake]
    exact account_move (account_serve hm r) hw' rfl rfl rfl rfl
  | @ret i c u f m hw _ =>
    refine account_move hI hw rfl rfl ?_ ?_ <;> by_cases hx : u.id = x
    all_goals simp [poppedSignals, Pool.setWorker, inside, toFree, hx]
    all_goals omega
  | client _ => exact ⟨hI.started, hI.finished, hI.freed⟩
  | @clientRequest _ m r _ =>
    have hm : Account { s with mem := m } x := ⟨hI.started, hI.finished, hI.freed⟩
    exact account_serve hm r

theorem account {m : P.Mem} {s : Pool P n} (h : (machine P n m).Reachable s) (x : Nat) :
    Account s x := by
  refine h.invariant (I := (Account · x)) ?_ fun _ hI hs => account_step hI hs
  constructor <;> simp [machine, threadPoolNew, tally, toStart, inside, toFree, poppedUnits,
    poppedSignals]

/-- A number that was started was popped with its unit. -/
theorem popped_of_started {m : P.Mem} {s : Pool P n} (h : (machine P n m).Reachable s)
    {u : WorkUnit P.Data} (hu : u ∈ s.pushed) (hs : u.id ∈ s.started) :
    u ∈ s.popped.map Prod.fst := by
  have hpos : 0 < poppedUnits s u.id := by
    have hcount := List.count_pos_iff.mpr hs
    have := (account h u.id).started
    omega
  obtain ⟨⟨v, i⟩, hv, hid⟩ := List.countP_pos_iff.mp hpos
  have hvu : v = u := (history h).unique ((history h).popped_mem hv) hu (by simp_all)
  exact List.mem_map.mpr ⟨(v, i), hv, hvu⟩

/-- Of the units with a given number at most one is popped, once. -/
theorem popped_once {s : Pool P n} (h : History s) (x : Nat) :
    (s.popped.countP fun p => p.1.id = x) ≤ 1 := by
  have hnd : (s.popped.map fun p => p.1.id).Nodup := by
    have := h.nodup
    rw [h.fifo, List.map_append, List.map_map] at this
    exact this.of_append_left
  have hcount := List.nodup_iff_count_le_one.mp hnd x
  rw [List.count, List.countP_map] at hcount
  exact hcount

theorem poppedUnits_add (s : Pool P n) (x : Nat) :
    poppedUnits s x + poppedSignals s x = s.popped.countP fun p => p.1.id = x := by
  unfold poppedUnits poppedSignals
  induction s.popped with
  | nil => rfl
  | cons p rest ih =>
    simp only [List.countP_cons]
    cases p.1.func.isSig <;> by_cases hx : p.1.id = x <;> simp [hx] <;> omega

end Loomlib.ThreadPool
