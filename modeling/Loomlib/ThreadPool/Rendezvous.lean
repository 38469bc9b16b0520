import Loomlib.ThreadPool.Meeting

/-!
# ThreadPool — Rendezvous

Who waits where in a call of `thread_pool_barrier_wait`. The barrier is at
the address `malloc` returns; the workers are handed `slot`, and the caller
waits at `g`. At neither of the two is a barrier ever initialised, unless
`malloc` happens to return what the pointer holds.
-/

namespace Loomlib.ThreadPool

open Barrier (loomlibBarrierInit UINT_RANGE)

variable {P : Program} {n : Nat} {s s' : Meeting P n} {slot : Nat} {g ans : Option Nat}

/-! ## Where nobody initialises a barrier -/

/-- A wait leaves an address without a barrier as it is. -/
theorem barrierWait_unset {mem mem' : Barriers} {p : Option Nat} {w : WaitPC} {r : Option WaitPC}
    (h : barrierWait mem p w = some (mem', r)) {x : Nat} (hx : mem x = none) : mem' x = none := by
  unfold barrierWait at h
  have hset : ∀ a b c, mem a = some b → Function.update mem a (some c) x = none := by
    intro a b c hab
    rw [Function.update_of_ne, hx]
    rintro rfl
    rw [hx] at hab
    cases hab
  split at h
  · cases h
    exact hx
  · split at h
    · cases h
      exact hx
    · rename_i hab
      split at h <;> cases h
      · exact hset _ _ _ hab
      · exact hset _ _ _ hab
  · split at h
    · cases h
    · split at h
      · cases h
        exact hx
      · cases h

/-- `malloc` does not return `x`. -/
def Spares (x : Nat) : MeetingEvent P n → Prop
  | .pool _ => True
  | .caller ans => ans ≠ some x

/-- What a step of the pool keeps of an address without a barrier. -/
theorem pool_unset {p p' : Pool (barrierProgram P) n} {e : Event (barrierProgram P) n}
    (hs : step p e = some p') {x : Nat} (hx : p.mem.2 x = none) : p'.mem.2 x = none := by
  have hbag : ∀ {b b' : Bag (barrierProgram P)} {a : Act (barrierProgram P)}, Bag.Step b a b' →
      b.mem.2 x = none → b'.mem.2 x = none := by
    intro b b' a h hx
    cases h with
    | unit h =>
      cases barrierMove_cases h with
      | unit => exact hx
      | released hb | wait hb => exact barrierWait_unset hb hx
    | client h | clientRequest h => exact (barrierClient_cases h).1 ▸ hx
  rcases bag_step hs with ⟨-, heq⟩ | ⟨a, -, hb⟩
  · have hmem : p'.mem = p.mem := congrArg Bag.mem heq
    exact hmem ▸ hx
  · exact hbag hb hx

/-- An address that `malloc` does not return gets no barrier, and `slot` is
none that it returns. -/
theorem unset_step {e : MeetingEvent P n} (hs : meetingStep slot g s e = some s') {x : Nat}
    (hspare : x = slot ∨ Spares x e) (hx : s.barriers x = none) : s'.barriers x = none := by
  cases e with
  | pool e =>
    obtain ⟨p, hp, rfl⟩ := poolStep_cases slot g hs
    exact pool_unset hp hx
  | caller ans =>
    have hm := callerMove_cases hs
    generalize s.caller = x at hm
    cases hm with
    | init hslot =>
      have hne : some x ≠ ans := by
        rcases hspare with rfl | hspare
        · exact Ne.symm hslot
        · exact Ne.symm hspare
      exact (Barrier.deref_init barrierNew s.barriers g hne).trans hx
    | released hb | wait hb => exact barrierWait_unset hb hx
    | destroy =>
      have hdestroy : barrierDestroy s.barriers g x = none := by
        unfold barrierDestroy
        split
        · exact hx
        · rename_i a
          by_cases hxa : x = a
          · subst hxa
            exact Function.update_self ..
          · exact (Function.update_of_ne hxa _ _).trans hx
      exact hdestroy
    | _ => exact hx

/-! ## Where the workers wait -/

/-- `barrier_thread` waits at the address of the pointer. -/
def AtSlot (slot : Nat) : (barrierProgram P).Frame → Prop
  | .inl _ => True
  | .inr (p, _) => p = some slot

theorem atSlot_bag {b b' : Bag (barrierProgram P)} {a : Act (barrierProgram P)}
    (h : Bag.Step b a b') (hb : ∀ f ∈ b.frames, AtSlot slot f) :
    ∀ f ∈ b'.frames, AtSlot slot f := by
  have hrequest : ∀ (q : Request P.Data) f,
      f ∈ (q.map (.inl : P.Data → P.Data ⊕ Option Nat)).frames (barrierProgram P).call →
        AtSlot slot f := by
    intro q f hf
    cases q with
    | push d => exact Multiset.mem_singleton.mp hf ▸ trivial
    | terminate => cases hf
  cases h with
  | @unit m f c m' o r k h =>
    intro f' hf'
    have hold := hb f (Multiset.mem_cons_self f r)
    rcases Multiset.mem_add.mp hf' with hnew | hrest
    · cases barrierMove_cases h with
      | @unit f c m' o h =>
        cases o with
        | go f'' => exact Multiset.mem_singleton.mp hnew ▸ trivial
        | request q f'' =>
          rcases Multiset.mem_cons.mp hnew with rfl | hnew
          · trivial
          · exact hrequest q f' hnew
        | ret => cases hnew
      | released => cases hnew
      | wait => exact Multiset.mem_singleton.mp hnew ▸ hold
    · exact hb f' (Multiset.mem_cons_of_mem hrest)
  | client h => exact hb
  | clientRequest h =>
    intro f hf
    obtain ⟨-, q, hq⟩ := barrierClient_cases h
    rcases Multiset.mem_add.mp hf with hf | hf
    · cases q with
      | none => cases hq
      | some q =>
        cases hq
        exact hrequest q f hf
    · exact hb f hf

theorem atSlot_step {e : MeetingEvent P n} (hs : meetingStep slot g s e = some s')
    (hI : ∀ f ∈ s.pool.bag.frames, AtSlot slot f) : ∀ f ∈ s'.pool.bag.frames, AtSlot slot f := by
  cases e with
  | pool e =>
    obtain ⟨p, hp, rfl⟩ := poolStep_cases slot g hs
    rcases bag_step hp with ⟨-, heq⟩ | ⟨a, -, hb⟩
    · exact (congrArg Bag.frames heq).symm ▸ hI
    · exact atSlot_bag hb hI
  | caller ans =>
    have hm := callerMove_cases hs
    generalize s.caller = x at hm
    cases hm with
    | push =>
      intro f hf
      rw [bag_threadPoolPush] at hf
      rcases Multiset.mem_add.mp hf with hf | hf
      · exact hI f hf
      · exact Multiset.mem_singleton.mp hf ▸ rfl
    | _ => exact hI

/-- **The workers wait where no barrier is.** -/
theorem waits_at_slot {m : P.Mem} (h : (meetingMachine P n m slot g).Reachable s) :
    (∀ f ∈ s.pool.bag.frames, AtSlot slot f) ∧ s.barriers slot = none := by
  refine h.invariant
    (I := fun s => (∀ f ∈ s.pool.bag.frames, AtSlot slot f) ∧ s.barriers slot = none) ⟨?_, rfl⟩
    fun _ hI hs => ⟨atSlot_step hs hI.1, unset_step hs (.inl rfl) hI.2⟩
  have hnone : tally Worker.frames (fun _ : Fin n => (.popping : Worker (barrierProgram P))) = 0 :=
    Finset.sum_eq_zero fun _ _ => rfl
  simp [meetingMachine, threadPoolNew, Pool.bag, hnone]

/-! ## The caller -/

/-- No barrier is initialised before the call. -/
theorem unset_before {m : P.Mem} (h : (meetingMachine P n m slot g).Reachable s) :
    s.caller = .idle → ∀ x, s.barriers x = none := by
  refine h.invariant (I := fun s => s.caller = .idle → ∀ x, s.barriers x = none)
    (fun _ _ => rfl) ?_
  intro s e s' _ hI hs hidle x
  cases e with
  | pool e =>
    obtain ⟨p, hp, rfl⟩ := poolStep_cases slot g hs
    exact pool_unset hp (hI hidle x)
  | caller ans =>
    have hm := callerMove_cases hs
    generalize s.caller = y at hm
    cases hm <;> cases hidle

/-- The call has come past its wait. -/
def CallerPC.passed : CallerPC → Bool
  | .destroy | .unlock | .returned => true
  | _ => false

/-- **The caller waits where no barrier is**, and is not released. -/
theorem never_passed {m : P.Mem} {x : Nat}
    (h : (meetingMachine P n m slot (some x)).ReachableBy (fun _ e => Spares x e) s) :
    s.barriers x = none ∧ s.caller.passed = false := by
  refine h.invariant (I := fun s => s.barriers x = none ∧ s.caller.passed = false) ⟨rfl, rfl⟩ ?_
  intro s e s' _ hI hc hs
  refine ⟨unset_step hs (.inr hc) hI.1, ?_⟩
  cases e with
  | pool e =>
    obtain ⟨p, hp, rfl⟩ := poolStep_cases slot (some x) hs
    exact hI.2
  | caller ans =>
    have hm := callerMove_cases hs
    have hpassed := hI.2
    generalize s.caller = y at hm hpassed
    cases hm with
    | @released w b hb =>
      -- nobody is released where no barrier is
      cases w <;> simp [barrierWait, hI.1] at hb
    | destroy | unlock => cases hpassed
    | _ => rfl

/-! ## Runs -/

/-- The pushes of `k` units of `barrier_thread`. -/
def Pool.pushBarriers (slot : Nat) : Nat → Pool (barrierProgram P) n → Pool (barrierProgram P) n
  | 0, p => p
  | k + 1, p => pushBarriers slot k (p.threadPoolPush (.call (.inr (some slot))))

@[simp] theorem pushBarriers_mem (k : Nat) (p : Pool (barrierProgram P) n) :
    (p.pushBarriers slot k).mem = p.mem := by
  induction k generalizing p with
  | zero => rfl
  | succ k ih => exact ih _

@[simp] theorem pushBarriers_finished (k : Nat) (p : Pool (barrierProgram P) n) :
    (p.pushBarriers slot k).finished = p.finished := by
  induction k generalizing p with
  | zero => rfl
  | succ k ih => exact ih _

/-- The pushes, and the way to the wait. -/
theorem push_leads {m : P.Mem} (k : Nat) (p : Pool (barrierProgram P) n) :
    (meetingMachine P n m slot g).Leads ⟨p, .push k⟩ ⟨p.pushBarriers slot k, .wait .arrive⟩ := by
  induction k generalizing p with
  | zero => exact .step (e := .caller none) rfl (.refl _)
  | succ k ih => exact .step (e := .caller none) rfl (ih _)

/-- The pool the caller waits beside, with a barrier at `a`. -/
def Pool.posted (slot a : Nat) (p : Pool (barrierProgram P) n) : Pool (barrierProgram P) n :=
  Pool.pushBarriers slot p.numThreads { p with
    locked := true
    mem := (p.mem.1, Function.update p.mem.2 a
      (some (barrierNew ((p.numThreads + 1) % UINT_RANGE)))) }

/-- The caller comes to its wait without a step of anybody else. -/
theorem call_leads {m : P.Mem} (hidle : s.caller = .idle) (hl : s.pool.locked = false) {a : Nat}
    (ha : a ≠ slot) (hunset : s.barriers a = none) :
    (meetingMachine P n m slot g).Leads s ⟨s.pool.posted slot a, .wait .arrive⟩ := by
  obtain ⟨p, c⟩ := s
  obtain rfl : c = .idle := hidle
  have hl : p.locked = false := hl
  refine .step (e := .caller none) rfl (.step (e := .caller none) rfl ?_)
  have hlock : (meetingMachine P n m slot g).step ⟨p, .lock p.numThreads⟩ (.caller none) =
      some ⟨{ p with locked := true }, .init p.numThreads⟩ := by
    simp [meetingMachine, meetingStep, Meeting.threadPoolBarrierWait, hl]
  refine .step hlock ?_
  have hinit : (meetingMachine P n m slot g).step ⟨{ p with locked := true }, .init p.numThreads⟩
      (.caller (some a)) = some ⟨{ p with
        locked := true
        mem := (p.mem.1, Function.update p.mem.2 a
          (some (barrierNew ((p.numThreads + 1) % UINT_RANGE)))) }, .push p.numThreads⟩ := by
    have hfree : ¬ (some a = some slot ∨
        (Barrier.deref (Meeting.barriers ⟨{ p with locked := true }, .init p.numThreads⟩)
          (some a)).isSome = true) := by
      rintro (h | h)
      · exact ha (Option.some.inj h)
      · have hnone : Barrier.deref p.mem.2 (some a) = none := hunset
        simp [Meeting.barriers, hnone] at h
    simp only [meetingMachine, meetingStep, Meeting.threadPoolBarrierWait, if_neg hfree]
    rfl
  exact .step hinit (push_leads _ _)

/-- `k` units of `barrier_thread` are queued, and the first `j` workers have
each taken one. -/
structure Gathering (slot : Nat) (p : Pool (barrierProgram P) n) (k j : Nat) : Prop where
  units : ∀ u ∈ p.workQueue, u.func = .call (.inr (some slot))
  queued : p.workQueue.length = k
  arrived : ∀ i, i.val < j → ∃ u, p.workers i = .running u (.inr (some slot, .blocked 0))
  popping : ∀ i, j ≤ i.val → p.workers i = .popping

theorem Gathering.push (k : Nat) {p : Pool (barrierProgram P) n} {l : Nat}
    (hG : Gathering slot p l 0) : Gathering slot (p.pushBarriers slot k) (l + k) 0 := by
  induction k generalizing p l with
  | zero => exact hG
  | succ k ih =>
    have hsucc : l + (k + 1) = l + 1 + k := by omega
    rw [hsucc]
    refine ih ⟨fun u hu => ?_, ?_, fun i hi => absurd hi (Nat.not_lt_zero _), fun i hi => ?_⟩
    · rcases List.mem_append.mp hu with hu | hu
      · exact hG.units u hu
      · exact List.mem_singleton.mp hu ▸ rfl
    · simp [Pool.threadPoolPush, hG.queued]
    · exact congrArg Worker.wake (hG.popping i hi)

/-- The next worker takes a unit, and waits. -/
theorem Gathering.next {m : P.Mem} {p : Pool (barrierProgram P) n} {c : CallerPC} {k j : Nat}
    (hG : Gathering slot p (k + 1) j) (hj : j < n) (hslot : p.mem.2 slot = none) :
    ∃ p', (meetingMachine P n m slot g).Leads ⟨p, c⟩ ⟨p', c⟩ ∧ Gathering slot p' k (j + 1) ∧
      p'.mem = p.mem := by
  obtain ⟨u, rest, hq⟩ := List.exists_cons_of_length_eq_add_one hG.queued
  have hw := hG.popping ⟨j, hj⟩ (le_refl j)
  have hf := hG.units u (hq ▸ List.mem_cons_self)
  have hwait : barrierWait p.mem.2 (some slot) .arrive = some (p.mem.2, some (.blocked 0)) := by
    simp [barrierWait, hslot]
  refine ⟨{ p with
    workQueue := rest
    popped := p.popped ++ [(u, ⟨j, hj⟩)]
    started := p.started ++ [u.id]
    workers := Function.update p.workers ⟨j, hj⟩
      (.running u (.inr (some slot, .blocked 0))) }, ?_, ⟨?_, ?_, ?_, ?_⟩, rfl⟩
  · refine ⟨[.pool (.loop ⟨j, hj⟩), .pool (.loop ⟨j, hj⟩), .pool (.unit ⟨j, hj⟩ none)], ?_⟩
    simp [Machine.run, meetingMachine, meetingStep, step, Pool.threadLoop, Pool.runUnit,
      Pool.setWorker, hw, hq, hf, barrierProgram, hwait]
  · exact fun v hv => hG.units v (hq ▸ List.mem_cons_of_mem u hv)
  · have hlength := hG.queued
    rw [hq] at hlength
    exact Nat.succ.inj hlength
  · intro i hi
    by_cases hij : i = ⟨j, hj⟩
    · subst hij
      exact ⟨u, Function.update_self ..⟩
    · have hne : i.val ≠ j := fun h => hij (Fin.ext h)
      obtain ⟨v, hv⟩ := hG.arrived i (by omega)
      exact ⟨v, (Function.update_of_ne hij _ _).trans hv⟩
  · intro i hi
    have hij : i ≠ ⟨j, hj⟩ := fun h => by simp [h] at hi
    exact (Function.update_of_ne hij _ _).trans (hG.popping i (by omega))

/-- All of them wait. -/
theorem Gathering.all {m : P.Mem} {c : CallerPC} {k : Nat} :
    ∀ {p : Pool (barrierProgram P) n} {j : Nat}, Gathering slot p k j → k + j = n →
      p.mem.2 slot = none →
        ∃ p', (meetingMachine P n m slot g).Leads ⟨p, c⟩ ⟨p', c⟩ ∧ Gathering slot p' 0 n ∧
          p'.mem = p.mem := by
  induction k with
  | zero =>
    intro p j hG hj _
    obtain rfl : j = n := by omega
    exact ⟨p, .refl _, hG, rfl⟩
  | succ k ih =>
    intro p j hG hj hslot
    obtain ⟨p', hlead, hG', hmem⟩ := hG.next (m := m) (g := g) (c := c) (by omega) hslot
    obtain ⟨q, hlead', hG'', hmem'⟩ := ih hG' (by omega) (hmem ▸ hslot)
    exact ⟨q, hlead.trans hlead', hG'', hmem'.trans hmem⟩

/-- The caller comes to its wait and every worker waits; `x` has no
barrier. -/
theorem all_wait (P : Program) (n : Nat) (m : P.Mem) (slot : Nat) (g : Option Nat) (x : Nat) :
    ∃ p, (meetingMachine P n m slot g).Reachable ⟨p, .wait .arrive⟩ ∧ Gathering slot p 0 n ∧
      p.mem.2 x = none ∧ p.mem.2 slot = none := by
  have hslot : slot + x + 1 ≠ slot := by omega
  have hx : x ≠ slot + x + 1 := by omega
  let start : Pool (barrierProgram P) n := threadPoolNew n (m, fun _ => none)
  have hcall := call_leads (m := m) (g := g) (s := ⟨start, .idle⟩) rfl rfl hslot rfl
  have hposted : (start.posted slot (slot + x + 1)).mem.2 =
      Function.update (fun _ => none) (slot + x + 1) (some (barrierNew ((n + 1) % UINT_RANGE))) :=
    congrArg Prod.snd (pushBarriers_mem n _)
  have hG : Gathering slot (start.posted slot (slot + x + 1)) (0 + n) 0 :=
    Gathering.push n ⟨nofun, rfl, nofun, fun _ _ => rfl⟩
  obtain ⟨p, hlead, hG', hmem⟩ := hG.all (m := m) (g := g) (c := .wait .arrive) (by omega) (by
    rw [hposted, Function.update_of_ne (Ne.symm hslot)])
  refine ⟨p, (hcall.trans hlead).reachable .init, hG', ?_, ?_⟩
  · rw [hmem, hposted, Function.update_of_ne hx]
  · rw [hmem, hposted, Function.update_of_ne (Ne.symm hslot)]

/-! ## What the call promises -/

/-- The caller is blocked in its wait, and every worker is blocked or has
exited. -/
def Meeting.Stuck (slot : Nat) (g : Option Nat) (s : Meeting P n) : Prop :=
  (∃ w, s.caller = .wait w) ∧ (∀ ans, s.threadPoolBarrierWait slot g ans = none) ∧
    ∀ i, s.pool.threadLoop i = none ∧ ∀ c, s.pool.runUnit i c = none

/-- What `thread_pool_barrier_wait` promises. -/
structure Rendezvous (P : Program) (n : Nat) (m : P.Mem) (slot : Nat) (g : Option Nat) : Prop where
  /-- the workers that wait do so at the caller's barrier, which is initialised -/
  together : ∀ s, (meetingMachine P n m slot g).Reachable s → (∃ w, s.caller = .wait w) →
    ∀ i u p w, s.pool.workers i = .running u (.inr (p, w)) →
      p = g ∧ ∃ b, Barrier.deref s.barriers p = some b
  /-- the units pushed before the call have finished when it returns -/
  finished : ∀ s s', (meetingMachine P n m slot g).Reachable s → s.caller = .idle →
    (meetingMachine P n m slot g).Leads s s' → s'.caller = .returned →
      ∀ u ∈ s.pool.pushed, u.func ≠ .termSig → u.id ∈ s'.pool.finished
  unblocked : ∀ s, (meetingMachine P n m slot g).Reachable s → ¬ s.Stuck slot g

/-- A worker that waits at `slot` stays there. -/
theorem worker_blocked {p : Pool (barrierProgram P) n} {i : Fin n}
    {u : WorkUnit (barrierProgram P).Data}
    (hw : p.workers i = .running u (.inr (some slot, .blocked 0))) (hslot : p.mem.2 slot = none) :
    p.threadLoop i = none ∧ ∀ c, p.runUnit i c = none := by
  refine ⟨by simp [Pool.threadLoop, hw], fun c => ?_⟩
  cases c <;> simp [Pool.runUnit, hw, barrierProgram, barrierWait, hslot]

/-- A pointer that holds some address leaves everybody blocked. -/
theorem stuck_reachable (P : Program) (n : Nat) (m : P.Mem) (slot x : Nat) :
    ∃ s, (meetingMachine P n m slot (some x)).Reachable s ∧ s.Stuck slot (some x) := by
  obtain ⟨p, hr, hG, hx, hslot⟩ := all_wait P n m slot (some x) x
  have harrive : (meetingMachine P n m slot (some x)).step ⟨p, .wait .arrive⟩ (.caller none) =
      some ⟨p, .wait (.blocked 0)⟩ := by
    have hwait : barrierWait p.mem.2 (some x) .arrive = some (p.mem.2, some (.blocked 0)) := by
      simp [barrierWait, hx]
    simp only [meetingMachine, meetingStep, Meeting.threadPoolBarrierWait, Meeting.barriers, hwait]
    rfl
  refine ⟨_, .step hr trivial harrive, ⟨_, rfl⟩, fun ans => ?_, fun i => ?_⟩
  · simp [Meeting.threadPoolBarrierWait, barrierWait, Meeting.barriers, hx]
  · obtain ⟨u, hu⟩ := hG.arrived i i.isLt
    exact worker_blocked hu hslot

/-- A pointer that holds NULL has the call return at once. -/
theorem returns_at_once {m : P.Mem} (h : (meetingMachine P n m slot none).Reachable s)
    (hidle : s.caller = .idle) (hl : s.pool.locked = false) :
    ∃ s', (meetingMachine P n m slot none).Leads s s' ∧ s'.caller = .returned ∧
      s'.pool.finished = s.pool.finished := by
  have hcall := call_leads (m := m) (g := none) hidle hl (Nat.succ_ne_self slot)
    (unset_before h hidle _)
  refine ⟨_, hcall.trans (.step (e := .caller none) rfl (.step (e := .caller none) rfl
    (.step (e := .caller none) rfl (.refl _)))), rfl, ?_⟩
  exact pushBarriers_finished _ _

/-- **The caller and the workers never meet.** The workers wait at the
address of the caller's pointer, where no barrier is, and
`loomlib_barrier_init` does not set the pointer. If it holds an address,
the caller and all workers can come to be blocked for good, and unless
`malloc` returns that very address no call returns; if it holds NULL, the
call returns before any work is done. -/
theorem no_rendezvous {m : P.Mem} (hn : 1 ≤ n) :
    ¬ Rendezvous P n m slot g ∧
    (∀ s, (meetingMachine P n m slot g).Reachable s →
      ∀ i u p w, s.pool.workers i = .running u (.inr (p, w)) →
        p = some slot ∧ s.barriers slot = none) ∧
    (∀ x, g = some x →
      (∃ s, (meetingMachine P n m slot g).Reachable s ∧ s.Stuck slot g) ∧
        ∀ s, (meetingMachine P n m slot g).ReachableBy (fun _ e => Spares x e) s →
          s.caller ≠ .returned) ∧
    (g = none → ∀ s, (meetingMachine P n m slot g).Reachable s →
      s.caller = .idle → s.pool.locked = false →
        ∃ s', (meetingMachine P n m slot g).Leads s s' ∧ s'.caller = .returned ∧
          s'.pool.finished = s.pool.finished) := by
  refine ⟨fun h => ?_, fun s hs i u p w hw => ?_, ?_, ?_⟩
  · obtain ⟨p, hr, hG, -, hslot⟩ := all_wait P n m slot g 0
    obtain ⟨u, hu⟩ := hG.arrived ⟨0, hn⟩ hn
    obtain ⟨b, hb⟩ := (h.together _ hr ⟨_, rfl⟩ _ u _ _ hu).2
    exact absurd hb (by simp [Barrier.deref, Meeting.barriers, hslot])
  · obtain ⟨hat, hslot⟩ := waits_at_slot hs
    exact ⟨hat _ (mem_bag_of_running hw), hslot⟩
  · rintro x rfl
    refine ⟨stuck_reachable P n m slot x, fun s hs hret => ?_⟩
    have hpassed := (never_passed hs).2
    rw [hret] at hpassed
    cases hpassed
  · rintro rfl s hs hidle hl
    exact returns_at_once hs hidle hl

theorem no_rendezvous_one : 1 ≤ 1 ∧ ¬ Rendezvous anyProgram 1 () 8 (some 5) :=
  ⟨le_refl 1, (no_rendezvous (le_refl 1)).1⟩

/-- The caller of a pool of two posts the units and waits, and the workers
follow. -/
def meetingRun : List (MeetingEvent anyProgram 2) :=
  List.replicate 3 (.caller none) ++ .caller (some 9) :: List.replicate 4 (.caller none) ++
    [.pool (.loop first), .pool (.loop first), .pool (.unit first none),
     .pool (.loop second), .pool (.loop second), .pool (.unit second none)]

/-- The caller waits at 5 and the workers at 8, but the barrier is at 9. -/
theorem apart : ¬ Rendezvous anyProgram 2 () 8 (some 5) := by
  intro h
  have hr := Machine.reachable_final (M := meetingMachine anyProgram 2 () 8 (some 5)) meetingRun rfl
  have hmeet := h.together _ hr ⟨_, rfl⟩ first _ _ _ rfl
  cases hmeet.1

end Loomlib.ThreadPool
