import Loomlib.ThreadPool.Ledger

/-!
# ThreadPool — Contract

What a pool promises its users, for any unit functions and any clients:
work is neither lost nor repeated, and once termination is asked for the
workers do not stall. Asking more than once leaves signals behind.
-/

namespace Loomlib.ThreadPool

variable {P : Program} {n : Nat} {m : P.Mem}

/-! ## Work -/

/-- A unit with no signal before it is popped once a worker has exited. -/
theorem early_popped {s : Pool P n} (h : (machine P n m).Reachable s) (hn : 1 ≤ n)
    (hdone : ∀ i, s.workers i = .exited) {pre post : List (WorkUnit P.Data)}
    {u : WorkUnit P.Data} (hu : s.pushed = pre ++ u :: post)
    (hpre : ∀ v ∈ pre, v.func ≠ .termSig) : u ∈ s.popped.map Prod.fst := by
  have hH := history h
  obtain ⟨g, hg, hsig⟩ := hands h ⟨0, hn⟩ (by simp [hdone])
  by_contra hno
  -- otherwise everything popped, the signal `g` included, stands before `u`
  have hmem : g ∈ s.popped.map Prod.fst := List.mem_map.mpr ⟨_, hg, rfl⟩
  have hsplit : s.popped.map Prod.fst ++ s.workQueue = pre ++ u :: post := hH.fifo ▸ hu
  rcases List.append_eq_append_iff.mp hsplit with ⟨as, rfl, -⟩ | ⟨as, hpop, hq⟩
  · exact hpre g (List.mem_append_left _ hmem) hsig
  · cases as with
    | nil =>
      rw [List.append_nil] at hpop
      exact hpre g (hpop ▸ hmem) hsig
    | cons v as =>
      obtain ⟨rfl, -⟩ := List.cons.inj hq
      exact hno (hpop ▸ by simp)

/-- **Work is neither lost nor repeated.** Units leave the queue in the
order they were pushed; each is popped, run and freed at most once, in
this order; and with all workers gone, the units pushed before the first
signal have been run to completion. -/
theorem work_neither_lost_nor_repeated {s : Pool P n} (h : (machine P n m).Reachable s)
    (hn : 1 ≤ n) :
    s.popped.map Prod.fst <+: s.pushed ∧
    (∀ u ∈ s.pushed, ∀ d, u.func = .call d →
      (s.popped.countP fun p => p.1.id = u.id) ≤ 1 ∧
      s.started.count u.id ≤ (s.popped.countP fun p => p.1.id = u.id) ∧
      s.finished.count u.id ≤ s.started.count u.id ∧
      s.freed.count u.id ≤ s.finished.count u.id) ∧
    ((∀ i, s.workers i = .exited) → ∀ pre u post d, s.pushed = pre ++ u :: post →
      u.func = .call d → (∀ v ∈ pre, v.func ≠ .termSig) → s.finished.count u.id = 1) := by
  have hH := history h
  have hno_signal : ∀ u ∈ s.pushed, ∀ d, u.func = .call d → poppedSignals s u.id = 0 := by
    intro u hu d hd
    refine List.countP_eq_zero.mpr fun ⟨v, i⟩ hv => ?_
    by_cases hid : v.id = u.id
    · rw [hH.unique (hH.popped_mem hv) hu hid]
      simp [hd, Func.isSig]
    · simp [hid]
  refine ⟨⟨s.workQueue, hH.fifo.symm⟩, ?_, ?_⟩
  · intro u hu d hd
    have hA := account h u.id
    have hadd := poppedUnits_add s u.id
    have hzero := hno_signal u hu d hd
    refine ⟨popped_once hH u.id, ?_, ?_, ?_⟩
    · have := hA.started; omega
    · have := hA.finished; omega
    · have := hA.freed; omega
  · intro hdone pre u post d hu hd hpre
    have hA := account h u.id
    have hmem : u ∈ s.pushed := hu ▸ by simp
    obtain ⟨⟨v, i⟩, hv, hvu⟩ := List.mem_map.mp (early_popped h hn hdone hu hpre)
    have hpos : 0 < s.popped.countP fun p => p.1.id = u.id :=
      List.countP_pos_iff.mpr ⟨(v, i), hv, by simp [← hvu]⟩
    have hadd := poppedUnits_add s u.id
    have hone := popped_once hH u.id
    have hzero := hno_signal u hmem d hd
    have hstart : tally (toStart u.id) s.workers = 0 :=
      tally_eq_zero.mpr fun j => by rw [hdone j]; rfl
    have hin : tally (inside u.id) s.workers = 0 :=
      tally_eq_zero.mpr fun j => by rw [hdone j]; rfl
    have h1 := hA.started
    have h2 := hA.finished
    omega

/-- One unit and one signal through a pool of two workers. -/
def shortRun : List (Event anyProgram 2) :=
  [.client (.push 7), .client .terminate, .loop first, .loop first, .unit first none,
    .loop first] ++ List.replicate 8 (.loop second) ++ List.replicate 7 (.loop first)

theorem work_neither_lost_nor_repeated_two :
    let s := (machine anyProgram 2 ()).final shortRun (by decide)
    (∀ i, s.workers i = .exited) ∧ s.finished.count 0 = 1 :=
  have h := work_neither_lost_nor_repeated
    ((machine anyProgram 2 ()).reachable_final shortRun (by decide)) (by decide)
  ⟨by decide, h.2.2 (by decide) [] ⟨.call (7 : Nat), 0⟩ _ (7 : Nat) rfl rfl (by simp)⟩

/-! ## Shutdown -/

/-- It has not popped a signal yet. -/
def Worker.NoSignal (w : Worker P) : Prop :=
  w.stage = .before

/-- It has popped a signal and has not reached its test `1 < num_threads`. -/
def Worker.BeforeTest (w : Worker P) : Prop :=
  w.stage = .hand ∨ w.stage = .test

/-- Its test has succeeded and the signal it passes on is not pushed yet. -/
def Worker.OwesSignal (w : Worker P) : Prop :=
  w.stage = .push

/-- It has performed its decrement of `num_threads`. -/
def Worker.Decremented (w : Worker P) : Prop :=
  w.stage = .unlock ∨ w.stage = .after

section Decidable

variable (w : Worker P)

instance : Decidable w.NoSignal := inferInstanceAs (Decidable (_ = _))
instance : Decidable w.BeforeTest := inferInstanceAs (Decidable (_ ∨ _))
instance : Decidable w.OwesSignal := inferInstanceAs (Decidable (_ = _))
instance : Decidable w.Decremented := inferInstanceAs (Decidable (_ ∨ _))

end Decidable

/-- The workers that have performed their decrement. -/
def Pool.decrements (s : Pool P n) : Nat :=
  (Finset.univ.filter fun i => (s.workers i).Decremented).card

theorem decrements_eq (s : Pool P n) :
    s.decrements = tally Stage.decremented s.relay.stage := by
  rw [Pool.decrements, Finset.card_filter]
  apply Finset.sum_congr rfl
  intro i _
  by_cases hd : (s.workers i).Decremented
  · rw [if_pos hd]
    rcases hd with hd | hd <;> simp [Pool.relay, hd, Stage.decremented]
  · rw [if_neg hd]
    unfold Worker.Decremented at hd
    cases hs : (s.workers i).stage <;> simp_all [Pool.relay, Stage.decremented]

/-- **The relay is not dropped**: while a termination is asked for and
some worker has no signal yet, a signal is queued, in hand before the
test, or owed by a worker whose test has succeeded. -/
theorem signal_in_flight {s : Pool P n} (h : (machine P n m).Reachable s)
    (hterm : 0 < s.terminates) (hlive : ∃ i, (s.workers i).NoSignal) :
    (∃ u ∈ s.workQueue, u.func = .termSig) ∨ (∃ i, (s.workers i).BeforeTest) ∨
      ∃ i, (s.workers i).OwesSignal := by
  obtain ⟨i, hi⟩ := hlive
  have hflight := (balance h).in_flight hi
  have hpos : 0 < s.relay.queued + tally Stage.untested s.relay.stage
      + tally Stage.relaying s.relay.stage := hflight ▸ hterm
  rcases Nat.eq_zero_or_pos s.relay.queued with hq | hq
  · rcases Nat.eq_zero_or_pos (tally Stage.untested s.relay.stage) with hu | hu
    · obtain ⟨j, hj⟩ := exists_of_tally_pos (f := Stage.relaying) (g := s.relay.stage) (by omega)
      refine .inr (.inr ⟨j, ?_⟩)
      change 0 < Stage.relaying (s.workers j).stage at hj
      unfold Worker.OwesSignal
      cases hs : (s.workers j).stage <;> simp_all [Stage.relaying]
    · obtain ⟨j, hj⟩ := exists_of_tally_pos hu
      refine .inr (.inl ⟨j, ?_⟩)
      change 0 < Stage.untested (s.workers j).stage at hj
      unfold Worker.BeforeTest
      cases hs : (s.workers j).stage <;> simp_all [Stage.untested]
  · exact .inl (exists_of_signals_pos hq)

/-- So workers that are all asleep or gone, beside an empty queue, are all
gone. -/
theorem all_exited {s : Pool P n} (h : (machine P n m).Reachable s) (hterm : 0 < s.terminates)
    (hq : s.workQueue = []) (hall : ∀ i, s.workers i = .exited ∨ s.workers i = .asleep) :
    ∀ i, s.workers i = .exited := by
  intro i
  by_contra hi
  have hasleep : s.workers i = .asleep := (hall i).resolve_left hi
  -- an exited or sleeping worker is neither before its test nor owes a signal
  have hidle : ∀ j, (s.workers j).stage = .after ∨ (s.workers j).stage = .before := fun j =>
    (hall j).imp (fun hj => by rw [hj]; rfl) (fun hj => by rw [hj]; rfl)
  rcases signal_in_flight h hterm ⟨i, by rw [hasleep]; rfl⟩ with ⟨u, hu, -⟩ | ⟨j, hj⟩ | ⟨j, hj⟩
  · simp [hq] at hu
  · rcases hidle j with hs | hs <;> simp [Worker.BeforeTest, hs] at hj
  · rcases hidle j with hs | hs <;> simp [Worker.OwesSignal, hs] at hj

/-- **Shutdown never stalls.** `num_threads` is what the decrements have
left of `n`, and none is applied at 0; the relay is not dropped; and no
state has a termination asked for, a live worker, and all live workers
asleep on an empty queue. -/
theorem shutdown_never_stalls {s : Pool P n} (h : (machine P n m).Reachable s) :
    s.numThreads = n - s.decrements ∧ s.decrements ≤ n ∧
    (∀ i u, s.workers i = .signal u .decr → 0 < s.numThreads) ∧
    (0 < s.terminates → (∃ i, (s.workers i).NoSignal) →
      (∃ u ∈ s.workQueue, u.func = .termSig) ∨ (∃ i, (s.workers i).BeforeTest) ∨
        ∃ i, (s.workers i).OwesSignal) ∧
    ¬ (0 < s.terminates ∧ s.workQueue = [] ∧ (∃ i, s.workers i ≠ .exited) ∧
      ∀ i, s.workers i = .exited ∨ s.workers i = .asleep) := by
  have hB := balance h
  have hthreads : s.numThreads + s.decrements = n := decrements_eq s ▸ hB.threads
  refine ⟨by omega, by omega, ?_, signal_in_flight h, ?_⟩
  · intro i u hi
    exact Relay.numThreads_pos hB (i := i) (by simp [Pool.relay, hi])
  · intro hstall
    obtain ⟨hterm, hq, ⟨i, hi⟩, hall⟩ := hstall
    exact hi (all_exited h hterm hq hall i)

/-- Two workers, one of them between its test and its push. -/
def owingRun : List (Event anyProgram 2) :=
  .client .terminate :: List.replicate 4 (.loop first)

theorem shutdown_never_stalls_owing :
    let s := (machine anyProgram 2 ()).final owingRun (by decide)
    0 < s.terminates ∧ s.numThreads = 2 ∧ ∃ i, (s.workers i).OwesSignal :=
  have h := shutdown_never_stalls
    ((machine anyProgram 2 ()).reachable_final owingRun (by decide))
  ⟨by decide, h.1, ((h.2.2.2.1 (by decide) ⟨1, by decide⟩).resolve_left
    (by decide)).resolve_left (by decide)⟩

/-- Between the test and the push the queue can be empty with no worker
before its test. -/
theorem no_signal_while_owing :
    ∃ s, (machine anyProgram 2 ()).Reachable s ∧ 0 < s.terminates ∧
      (∃ i, (s.workers i).NoSignal) ∧
      ¬ ((∃ u ∈ s.workQueue, u.func = .termSig) ∨ ∃ i, (s.workers i).BeforeTest) :=
  ⟨_, (machine anyProgram 2 ()).reachable_final owingRun (by decide), by decide,
    ⟨1, by decide⟩, by decide⟩

/-! ## What is left when all workers are gone -/

/-- **Asking once is the only way to an empty queue.** With all workers
gone and no unit pushed behind a signal, the queue is empty, and the
assertion of `thread_pool_free` holds, if and only if
`thread_pool_terminate` was called exactly once. -/
theorem freed_iff_one_terminate {s : Pool P n} (h : (machine P n m).Reachable s) (hn : 1 ≤ n)
    (hlate : s.pushed.Pairwise fun a b => a.func = .termSig → b.func = .termSig)
    (hdone : ∀ i, s.workers i = .exited) :
    (s.workQueue = [] ∧ threadPoolFree s = .done) ↔ s.terminates = 1 := by
  have hleft : signals s.workQueue + 1 = s.terminates :=
    (balance h).left_over hn fun i => by simp [Pool.relay, hdone i]
  obtain ⟨g, hg, hsig⟩ := hands h ⟨0, hn⟩ (by simp [hdone])
  -- the signal `g` was popped before anything still queued
  have hall : ∀ u ∈ s.workQueue, u.func.isSig = true := by
    intro u hu
    rw [(history h).fifo, List.pairwise_append] at hlate
    exact Func.isSig_iff.mpr (hlate.2.2 g (List.mem_map.mpr ⟨_, hg, rfl⟩) u hu hsig)
  have hlen : signals s.workQueue = s.workQueue.length := List.countP_eq_length.mpr hall
  have hfree : threadPoolFree s = .done ↔ s.workQueue.length = 0 := by
    simp [threadPoolFree, hdone]
  rw [hfree, List.length_eq_zero_iff, and_self, ← List.length_eq_zero_iff]
  omega

theorem freed_iff_one_terminate_two :
    let s := (machine anyProgram 2 ()).final shortRun (by decide)
    s.workQueue = [] ∧ threadPoolFree s = .done :=
  (freed_iff_one_terminate ((machine anyProgram 2 ()).reachable_final shortRun (by decide))
    (by decide) (by decide) (by decide)).mpr (by decide)

/-- One worker, two calls of `thread_pool_terminate`: a signal is left. -/
theorem two_terminates_fail :
    ∃ s, (machine anyProgram 1 ()).Reachable s ∧ s.terminates = 2 ∧
      (∀ u ∈ s.pushed, u.func = .termSig) ∧ (∀ i, s.workers i = .exited) ∧
      s.workQueue ≠ [] ∧ threadPoolFree s = .assertionFailed :=
  ⟨_, (machine anyProgram 1 ()).reachable_final
    (.client .terminate :: .client .terminate :: List.replicate 7 (.loop first)) (by decide),
    by decide, by decide, by decide, by decide, by decide⟩

end Loomlib.ThreadPool
