import Loomlib.Barrier.Model
import Loomlib.Core.Mutex
import Loomlib.Core.Tally

/-!
# Barrier — Rounds

`loomlib_barrier_init (b, attr, n)` starts `count` at `n` and a wait adds 1
to it, so the barrier trips only where the sum wraps to 0: at the arrival
`2 ^ 32 - n`, whatever round it belongs to. Which parts of what a barrier
promises survive that depends on `n`; that the caller's pointer designates
the object and that a round leaves the barrier ready for the next one fail
for every `n`.
-/

namespace Loomlib.Barrier

variable {ι : Type} [DecidableEq ι] {n : Nat} {s s' : State ι} {t : ι}

/-- The steps of the thread `t` from a control point. -/
inductive Move (s : State ι) (t : ι) : PC → State ι → Prop where
  | call : Move s t .idle (s.goto t .acquire)
  | acquire (hl : s.lock = none) : Move s t .acquire ({ s with lock := some t }.goto t .incr)
  | incr : Move s t .incr
      ({ s with count := (s.count + 1) % UINT_RANGE, arrivals := s.arrivals + 1 }.goto t .test)
  | trip (hc : s.count ≤ s.tripped) : Move s t .test ({ s with tripped := 0 }.goto t .broadcast)
  | sleep (hc : ¬ s.count ≤ s.tripped) : Move s t .test ({ s with lock := none }.goto t .asleep)
  | broadcast :
      Move s t .broadcast ({ s with pc := fun u => (s.pc u).wake }.goto t (.release true))
  | wakeUp : Move s t .asleep (s.goto t .woken)
  | reacquire (hl : s.lock = none) :
      Move s t .woken ({ s with lock := some t }.goto t (.release false))
  | release {last} : Move s t (.release last)
      ({ s with lock := none, returns := s.returns ++ [last.toNat] }.goto t .idle)

/-- **Step inversion**: a step of the machine is a `Move` of its thread. -/
theorem move_cases (h : loomlibBarrierWait s t = some s') : Move s t (s.pc t) s' := by
  unfold loomlibBarrierWait at h
  split at h <;> rename_i hpc <;> rw [hpc]
  case h_1 => cases h; exact .call
  case h_2 =>
    unfold State.acquire at h
    split at h
    · rename_i hl; cases h; exact .acquire hl
    · cases h
  case h_3 => cases h; exact .incr
  case h_4 =>
    split at h
    · rename_i hc; cases h; exact .trip hc
    · rename_i hc; cases h; exact .sleep hc
  case h_5 => cases h; exact .broadcast
  case h_6 => cases h; exact .wakeUp
  case h_7 =>
    unfold State.acquire at h
    split at h
    · rename_i hl; cases h; exact .reacquire hl
    · cases h
  case h_8 => cases h; exact .release

/-! ## Arrivals and returns -/

/-- Between taking the lock and releasing it. -/
def PC.inside : PC → Bool
  | .incr | .test | .broadcast | .release _ => true
  | _ => false

/-- Has counted itself, and has not returned. -/
def PC.arrived : PC → Nat
  | .idle | .acquire | .incr => 0
  | _ => 1

/-- Will return 1, if `count` is `c`. -/
def PC.owed (c : Nat) : PC → Nat
  | .test => if c = 0 then 1 else 0
  | .broadcast => 1
  | .release last => last.toNat
  | _ => 0

theorem PC.inside_wake (x : PC) : x.wake.inside = x.inside := by
  cases x <;> rfl

theorem PC.owed_wake (c : Nat) (x : PC) : x.wake.owed c = x.owed c := by
  cases x <;> rfl

theorem PC.arrived_wake (x : PC) : x.wake.arrived = x.arrived := by
  cases x <;> rfl

/-- What the holder of the lock adds to the returned 1s. -/
def State.owed (s : State ι) : Nat :=
  match s.lock with
  | none => 0
  | some t => (s.pc t).owed s.count

/-- The counters against the calls, for a barrier of `n` on the threads `ι`. -/
structure Counts [Fintype ι] (n : Nat) (s : State ι) : Prop where
  mutex : Mutex s.lock PC.inside s.pc
  tripped : s.tripped = 0
  count : s.count = (n + s.arrivals) % UINT_RANGE
  arrived : s.arrivals = s.returns.length + tally PC.arrived s.pc
  -- the calls that return 1 are those whose increment wraps
  trips : s.returns.count 1 + s.owed = (n + s.arrivals) / UINT_RANGE
  zeroOrOne : ∀ r ∈ s.returns, r ≤ 1

namespace Counts

variable [Fintype ι]

omit [Fintype ι] in
/-- Whoever is outside the lock owes nothing. -/
theorem owed_goto (hm : Mutex s.lock PC.inside s.pc) (hout : (s.pc t).inside = false) (y : PC) :
    (s.goto t y).owed = s.owed := by
  unfold State.owed State.goto
  cases hl : s.lock with
  | none => rfl
  | some u =>
    have hin := (hm u).mpr hl
    have hne : u ≠ t := fun hut => by simp [← hut, hin] at hout
    simp only [Function.update_of_ne hne]

omit [Fintype ι] [DecidableEq ι] in
/-- What the holder owes is what his control point says. -/
theorem owed_eq (hm : Mutex s.lock PC.inside s.pc) {x : PC} (hpc : s.pc t = x)
    (hin : x.inside = true) : s.owed = x.owed s.count := by
  have hl := (hm t).mp (hpc ▸ hin)
  simp [State.owed, hl, hpc]

/-- A step of a thread from `x` to `y` that leaves `count` as it is. -/
theorem update (hI : Counts n s) {x y : PC} (hpc : s.pc t = x)
    (hs' : s'.pc = Function.update s.pc t y)
    (hmutex : Mutex s'.lock PC.inside s'.pc)
    (hcount : s'.count = s.count ∧ s'.arrivals = s.arrivals) (htripped : s'.tripped = 0)
    (harrived : s'.returns.length + y.arrived = s.returns.length + x.arrived)
    (howed : s'.returns.count 1 + s'.owed = s.returns.count 1 + s.owed)
    (hbit : ∀ r ∈ s'.returns, r ≤ 1) : Counts n s' := by
  obtain ⟨hc, ha⟩ := hcount
  refine ⟨hmutex, htripped, hc ▸ ha ▸ hI.count, ?_, howed ▸ ha ▸ hI.trips, hbit⟩
  have hmove := tally_move PC.arrived hpc y
  have := hI.arrived
  rw [hs', ha]
  omega

omit [DecidableEq ι] in
theorem wake (hI : Counts n s) : Counts n { s with pc := fun u => (s.pc u).wake } := by
  have howed : ({ s with pc := fun u => (s.pc u).wake } : State ι).owed = s.owed := by
    unfold State.owed
    cases s.lock with
    | none => rfl
    | some t => exact PC.owed_wake s.count (s.pc t)
  exact { hI with
    mutex := hI.mutex.map fun u => PC.inside_wake (s.pc u)
    arrived := (tally_comp PC.arrived_wake s.pc).symm ▸ hI.arrived
    trips := howed.symm ▸ hI.trips }

theorem step (hI : Counts n s) (hs : loomlibBarrierWait s t = some s') : Counts n s' := by
  have hm := move_cases hs
  generalize hpc : s.pc t = x at hm
  have hlock : s.lock = none → s.owed = 0 := fun hl => by simp [State.owed, hl]
  cases hm with
  | call | wakeUp =>
    exact hI.update hpc rfl (hI.mutex.stay hpc rfl) ⟨rfl, rfl⟩ hI.tripped rfl
      (congrArg _ (owed_goto hI.mutex (hpc ▸ rfl) _)) hI.zeroOrOne
  | acquire hl | reacquire hl =>
    refine hI.update hpc rfl (Mutex.acquire (hl ▸ hI.mutex) rfl) ⟨rfl, rfl⟩ hI.tripped rfl
      (congrArg _ ?_) hI.zeroOrOne
    rw [hlock hl]
    simp [State.owed, State.goto, PC.owed]
  | incr =>
    have howed := owed_eq hI.mutex hpc rfl
    have hmutex := hI.mutex.stay hpc (y := .test) rfl
    have hcount := hI.count
    have htrips := hI.trips
    have hmove := tally_move PC.arrived hpc .test
    refine ⟨hmutex, hI.tripped, ?_, ?_, ?_, hI.zeroOrOne⟩
    · simp only [State.goto, hcount, Nat.mod_add_mod, add_assoc]
    · have := hI.arrived
      simp only [State.goto, PC.arrived] at hmove ⊢
      omega
    · -- the increment wraps where the quotient grows
      rw [owed_eq hmutex (Function.update_self ..) rfl]
      simp only [PC.owed] at howed
      simp only [State.goto, PC.owed, hcount, Nat.mod_add_mod]
      rw [howed] at htrips
      simp only [← add_assoc n, Nat.succ_div, ← htrips, Nat.dvd_iff_mod_eq_zero]
      rfl
  | trip hc =>
    have howed := owed_eq hI.mutex hpc rfl
    have hmutex := hI.mutex.stay hpc (y := .broadcast) rfl
    have hzero : s.count = 0 := Nat.le_zero.mp (hI.tripped ▸ hc)
    refine hI.update hpc rfl hmutex ⟨rfl, rfl⟩ rfl rfl (congrArg _ ?_) hI.zeroOrOne
    rw [howed, owed_eq hmutex (Function.update_self ..) rfl]
    simp [PC.owed, hzero]
  | sleep hc =>
    have howed := owed_eq hI.mutex hpc rfl
    have hpos : s.count ≠ 0 := fun h0 => hc (h0 ▸ Nat.zero_le _)
    refine hI.update hpc rfl (hI.mutex.release hpc rfl rfl) ⟨rfl, rfl⟩ hI.tripped rfl
      (congrArg _ ?_) hI.zeroOrOne
    rw [howed]
    simp [State.owed, State.goto, PC.owed, hpos]
  | broadcast =>
    have hwoken := hI.wake
    have hpc' : (s.pc t).wake = .broadcast := by rw [hpc]; rfl
    have hmutex := hwoken.mutex.stay hpc' (y := .release true) rfl
    refine hwoken.update hpc' rfl hmutex ⟨rfl, rfl⟩ hI.tripped rfl (congrArg _ ?_) hI.zeroOrOne
    rw [owed_eq hwoken.mutex hpc' rfl, owed_eq hmutex (Function.update_self ..) rfl]
    rfl
  | @release last =>
    have howed := owed_eq hI.mutex hpc rfl
    refine hI.update hpc rfl (hI.mutex.release hpc rfl rfl) ⟨rfl, rfl⟩ hI.tripped ?_ ?_ ?_
    · simp [State.goto, PC.arrived]
    · rw [howed]
      cases last <;> simp [State.owed, State.goto, PC.owed]
    · intro r hr
      rcases List.mem_append.mp hr with hr | hr
      · exact hI.zeroOrOne r hr
      · exact List.mem_singleton.mp hr ▸ last.toNat_le

theorem init (hn : n < UINT_RANGE) : Counts n (machine ι n).init where
  mutex t := by simp [machine, PC.inside]
  tripped := rfl
  count := (Nat.mod_eq_of_lt hn).symm
  arrived := by
    have hzero : tally PC.arrived (fun _ : ι => .idle) = 0 := tally_eq_zero.mpr fun _ => rfl
    simp [machine, hzero]
  trips := (Nat.div_eq_of_lt hn).symm
  zeroOrOne := nofun

/-- **`count` is never what it counts**: it is `n` too large, and it is not
taken back when the barrier trips. -/
theorem of_reachable (hn : n < UINT_RANGE) (h : (machine ι n).Reachable s) : Counts n s :=
  h.invariant (init hn) fun _ hI hs => hI.step hs

end Counts

/-! ## Runs -/

/-- A thread that arrives where `count` does not wrap falls asleep. -/
theorem arrives_asleep (h : (machine ι n).Reachable s) (hl : s.lock = none) (ht : s.pc t = .idle)
    (htripped : s.tripped = 0) (hc : (s.count + 1) % UINT_RANGE ≠ 0) :
    ∃ s', (machine ι n).Reachable s' ∧ s'.lock = none ∧ s'.arrivals = s.arrivals + 1 ∧
      s'.pc = Function.update s.pc t .asleep := by
  have hrun : (machine ι n).run s [t, t, t, t] = some { s with
      count := (s.count + 1) % UINT_RANGE
      arrivals := s.arrivals + 1
      lock := none
      pc := Function.update s.pc t .asleep } := by
    simp [Machine.run, machine, loomlibBarrierWait, State.acquire, State.goto, ht, hl, htripped, hc]
  exact ⟨_, h.run hrun, rfl, rfl, rfl⟩

/-- A thread that finds nobody inside can arrive and return. -/
theorem arrives_returns (h : (machine ι n).Reachable s) (hl : s.lock = none)
    (hidle : ∀ u, s.pc u = .idle) (htripped : s.tripped = 0) (t : ι) :
    ∃ s', (machine ι n).Reachable s' ∧ s'.arrivals = s.arrivals + 1 ∧ ∀ u, s'.pc u = .idle := by
  have hback : Function.update s.pc t .idle = s.pc := Function.update_eq_self_iff.mpr (hidle t).symm
  have hwake : (fun u => (Function.update s.pc t .broadcast u).wake) =
      Function.update s.pc t .broadcast := by
    funext u
    by_cases hu : u = t
    · subst hu; simp [PC.wake]
    · simp [hu, hidle, PC.wake]
  by_cases hc : (s.count + 1) % UINT_RANGE = 0
  · have hrun : (machine ι n).run s [t, t, t, t, t, t] = some { s with
        count := 0
        arrivals := s.arrivals + 1
        returns := s.returns ++ [1] } := by
      simp [Machine.run, machine, loomlibBarrierWait, State.acquire, State.goto, hidle, hl,
        htripped, hc, hwake, hback]
    exact ⟨_, h.run hrun, rfl, hidle⟩
  · have hrun : (machine ι n).run s [t, t, t, t, t, t, t] = some { s with
        count := (s.count + 1) % UINT_RANGE
        arrivals := s.arrivals + 1
        returns := s.returns ++ [0] } := by
      simp [Machine.run, machine, loomlibBarrierWait, State.acquire, State.goto, hidle, hl,
        htripped, hc, hback]
    exact ⟨_, h.run hrun, rfl, hidle⟩

/-- The first `k` threads arrive, and sleep. -/
theorem asleep_upto {k : Nat} (hk : k ≤ n) (hlt : n + k < UINT_RANGE) :
    ∃ s, (machine (Fin n) n).Reachable s ∧ s.lock = none ∧ s.arrivals = k ∧
      ∀ t : Fin n, s.pc t = if t.val < k then .asleep else .idle := by
  induction k with
  | zero => exact ⟨_, .init, rfl, rfl, fun t => rfl⟩
  | succ k ih =>
    obtain ⟨s, hr, hl, ha, hpc⟩ := ih (by omega) (by omega)
    have hC := Counts.of_reachable (by omega) hr
    have hcount : s.count + 1 = n + k + 1 := by
      rw [hC.count, ha, Nat.mod_eq_of_lt (by omega)]
    have ht : s.pc ⟨k, hk⟩ = .idle := by rw [hpc, if_neg (lt_irrefl k)]
    have hc : (s.count + 1) % UINT_RANGE ≠ 0 := by
      rw [hcount, Nat.mod_eq_of_lt (by omega)]
      exact Nat.succ_ne_zero _
    obtain ⟨s', hr', hl', ha', hpc'⟩ := arrives_asleep hr hl ht hC.tripped hc
    refine ⟨s', hr', hl', ha'.trans (congrArg (· + 1) ha), fun t => ?_⟩
    rw [hpc']
    by_cases htk : t = ⟨k, hk⟩
    · subst htk
      rw [Function.update_self, if_pos (Nat.lt_succ_self k)]
    · have hne : t.val ≠ k := fun h => htk (Fin.ext h)
      rw [Function.update_of_ne htk, hpc]
      exact if_congr (by omega) rfl rfl

/-- The first `k` threads arrive one after the other, and each returns
before the next. -/
theorem one_by_one (hn : n < UINT_RANGE) {k : Nat} (hk : k ≤ n) :
    ∃ s, (machine (Fin n) n).Reachable s ∧ s.arrivals = k ∧ ∀ t, s.pc t = .idle := by
  induction k with
  | zero => exact ⟨_, .init, rfl, fun _ => rfl⟩
  | succ k ih =>
    obtain ⟨s, hr, ha, hidle⟩ := ih (by omega)
    have hC := Counts.of_reachable hn hr
    obtain ⟨s', hr', ha', hidle'⟩ :=
      arrives_returns hr (hC.mutex.free fun t => by rw [hidle]; rfl) hidle hC.tripped ⟨k, hk⟩
    exact ⟨s', hr', ha'.trans (congrArg (· + 1) ha), hidle'⟩

/-! ## What a barrier promises -/

/-- The caller's pointer designates the barrier that a successful
`loomlib_barrier_init` has set up. -/
def Designates (n : Nat) : Prop :=
  ∀ (mem : Nat → Option Counters) (b ans : Option Nat),
    (loomlibBarrierInit fresh mem b n ans).2 = 0 →
      deref (loomlibBarrierInit fresh mem b n ans).1 b = some (fresh n)

/-- No wait returns before `n` calls have arrived. -/
def NoEarlyRelease (n : Nat) : Prop :=
  ∀ s, (machine (Fin n) n).Reachable s → s.returns ≠ [] → n ≤ s.arrivals

/-- With `n` arrivals they are not all asleep. -/
def NoneForgotten (n : Nat) : Prop :=
  ∀ s, (machine (Fin n) n).Reachable s → s.arrivals = n → ¬ ∀ t, s.pc t = .asleep

/-- One of `n` calls returns 1, and the others 0. -/
def OneReturnsOne (n : Nat) : Prop :=
  ∀ s, (machine (Fin n) n).Reachable s → s.arrivals = n → (∀ t, s.pc t = .idle) →
    s.returns.length = n ∧ s.returns.count 1 = 1 ∧ ∀ r ∈ s.returns, r ≤ 1

/-- After `n` calls the barrier is as it was set up, or at least trips at
the `n`-th call from then on. -/
def Rearmed (n : Nat) : Prop :=
  ∀ s, (machine (Fin n) n).Reachable s → s.arrivals = n → (∀ t, s.pc t = .idle) →
    s.tripped = 0 ∧ (s.count = n ∨ (s.count + n) % UINT_RANGE = 0)

structure IsBarrier (n : Nat) : Prop where
  designates : Designates n
  noEarlyRelease : NoEarlyRelease n
  noneForgotten : NoneForgotten n
  oneReturnsOne : OneReturnsOne n
  rearmed : Rearmed n

theorem not_designates (n : Nat) : ¬ Designates n := by
  intro h
  have hne : (none : Option Nat) ≠ some 0 := nofun
  have hderef := h (fun _ => none) none (some 0) rfl
  rw [deref_init fresh _ none hne] at hderef
  cases hderef

theorem noEarlyRelease_iff (hn : 1 ≤ n) (hlt : n < UINT_RANGE) : NoEarlyRelease n ↔ n = 1 := by
  constructor
  · intro h
    by_contra hne
    obtain ⟨s, hr, ha, hidle⟩ := one_by_one hlt hn
    have hC := Counts.of_reachable hlt hr
    have hzero : tally PC.arrived s.pc = 0 := tally_eq_zero.mpr fun t => by rw [hidle]; rfl
    have harrived := hC.arrived
    have hreturned : s.returns ≠ [] := fun hnil => by simp [hnil, ha, hzero] at harrived
    have := h s hr hreturned
    omega
  · rintro rfl s hr hreturned
    have harrived := (Counts.of_reachable hlt hr).arrived
    have := List.length_pos_iff.mpr hreturned
    omega

theorem noneForgotten_iff (hlt : n < UINT_RANGE) : NoneForgotten n ↔ UINT_RANGE ≤ 2 * n := by
  constructor
  · intro h
    by_contra hle
    obtain ⟨s, hr, -, ha, hpc⟩ := asleep_upto (le_refl n) (by omega)
    exact h s hr ha fun t => (hpc t).trans (if_pos t.isLt)
  · intro hle s hr ha hasleep
    have hC := Counts.of_reachable hlt hr
    have hl : s.lock = none := hC.mutex.free fun t => by rw [hasleep]; rfl
    -- one call has returned, so one of the `n` is not asleep
    have htrips := hC.trips
    rw [ha, State.owed, hl, add_zero] at htrips
    have hone : 1 ≤ (n + n) / UINT_RANGE := (Nat.one_le_div_iff (by decide)).mpr (by omega)
    have hall : tally PC.arrived s.pc = n := by
      rw [tally_congr (h := fun _ => 1) fun t => by rw [hasleep]; rfl, tally_const]
      simp
    have hnone : s.returns = [] := List.length_eq_zero_iff.mp (by have := hC.arrived; omega)
    rw [hnone, List.count_nil] at htrips
    omega

theorem oneReturnsOne_iff (hlt : n < UINT_RANGE) :
    OneReturnsOne n ↔ UINT_RANGE ≤ 2 * n := by
  have htrips : ∀ s, (machine (Fin n) n).Reachable s → s.arrivals = n → (∀ t, s.pc t = .idle) →
      s.returns.count 1 = (n + n) / UINT_RANGE := by
    intro s hr ha hidle
    have hC := Counts.of_reachable hlt hr
    have hl : s.lock = none := hC.mutex.free fun t => by rw [hidle]; rfl
    have htrips := hC.trips
    rwa [ha, State.owed, hl, add_zero] at htrips
  constructor
  · intro h
    obtain ⟨s, hr, ha, hidle⟩ := one_by_one hlt (le_refl n)
    have hone := (htrips s hr ha hidle).symm.trans (h s hr ha hidle).2.1
    have := (Nat.one_le_div_iff (by decide)).mp hone.ge
    omega
  · intro hle s hr ha hidle
    have hC := Counts.of_reachable hlt hr
    have hzero : tally PC.arrived s.pc = 0 := tally_eq_zero.mpr fun t => by rw [hidle]; rfl
    refine ⟨by have := hC.arrived; omega, (htrips s hr ha hidle).trans ?_, hC.zeroOrOne⟩
    exact Nat.div_eq_of_lt_le (by omega) (by omega)

theorem not_rearmed (hn : 1 ≤ n) (hlt : n < UINT_RANGE) : ¬ Rearmed n := by
  intro h
  obtain ⟨s, hr, ha, hidle⟩ := one_by_one hlt (le_refl n)
  have hcount := (Counts.of_reachable hlt hr).count
  have hready := (h s hr ha hidle).2
  rw [hcount, ha, Nat.mod_add_mod] at hready
  rcases hready with hsame | hwraps
  · unfold UINT_RANGE at hlt hsame
    omega
  · -- the word size has no factor 3
    have hthree : 3 * n = n + n + n := by omega
    have hdvd : UINT_RANGE ∣ 3 * n := hthree ▸ Nat.dvd_of_mod_eq_zero hwraps
    have hle := Nat.le_of_dvd hn (Nat.Coprime.dvd_of_dvd_mul_left (by decide) hdvd)
    omega

/-- **No count makes it a barrier.** The caller's pointer does not come to
designate it; a wait may return before the `n`-th arrival, unless `n` is 1;
after `n` arrivals all can be asleep, and none of the `n` calls returns 1,
unless `n` is so large that `count` wraps on the way; and it is not ready
for another round. -/
theorem not_a_barrier (hn : 1 ≤ n) (hlt : n < UINT_RANGE) :
    ¬ IsBarrier n ∧ ¬ Designates n ∧ (NoEarlyRelease n ↔ n = 1) ∧
      (NoneForgotten n ↔ UINT_RANGE ≤ 2 * n) ∧ (OneReturnsOne n ↔ UINT_RANGE ≤ 2 * n) ∧
      ¬ Rearmed n :=
  ⟨fun h => not_rearmed hn hlt h.rearmed, not_designates n, noEarlyRelease_iff hn hlt,
    noneForgotten_iff hlt, oneReturnsOne_iff hlt, not_rearmed hn hlt⟩

theorem not_a_barrier_two : 1 ≤ 2 ∧ 2 < UINT_RANGE ∧
    ¬ IsBarrier 2 ∧ ¬ Designates 2 ∧ (NoEarlyRelease 2 ↔ 2 = 1) ∧
      (NoneForgotten 2 ↔ UINT_RANGE ≤ 2 * 2) ∧ (OneReturnsOne 2 ↔ UINT_RANGE ≤ 2 * 2) ∧
      ¬ Rearmed 2 :=
  ⟨by decide, by decide, not_a_barrier (by decide) (by decide)⟩

/-- A barrier of two: the first thread wakes up spuriously, and returns
alone. -/
def wakesAlone : List (Fin 2) :=
  List.replicate 7 ⟨0, by decide⟩

/-- Both threads arrive, and sleep. -/
def bothSleep : List (Fin 2) :=
  List.replicate 4 ⟨0, by decide⟩ ++ List.replicate 4 ⟨1, by decide⟩

/-- The caller's pointer stays what it was, one thread returns before the
other has arrived, and the two sleep with nobody left to wake them. -/
theorem barrier_of_two : ¬ Designates 2 ∧ ¬ NoEarlyRelease 2 ∧ ¬ NoneForgotten 2 := by
  refine ⟨fun h => ?_, fun h => ?_, fun h => ?_⟩
  · exact absurd (h (fun _ => none) none (some 0) rfl) (by decide)
  · exact absurd (h _ (Machine.reachable_final wakesAlone (by decide)) (by decide)) (by decide)
  · have hasleep : ∀ t, ((machine (Fin 2) 2).final bothSleep (by decide)).pc t = .asleep := by
      decide
    exact h _ (Machine.reachable_final bothSleep (by decide)) (by decide) hasleep

end Loomlib.Barrier
