import Loomlib.AsyncQueue.Wakeup
import Loomlib.Core.Cost
import Loomlib.Core.Tally

/-!
# AsyncQueue — Progress

How far the threads of a queue get. Whoever holds the lock can go on until
it gives the lock back, so somebody can always go on, until all threads
are out of their calls or asleep beside nothing they wait for. And a call
takes a bounded number of steps before it returns or sleeps; a broadcast
costs what those it wakes can do.
-/

namespace Loomlib.AsyncQueue

variable {ι α : Type} [DecidableEq ι] {s s' : Queue ι α} {t : ι}

/-! ## Somebody can go on -/

/-- It is in no call, or sleeps and what it waits for is not there. -/
def Queue.Rests (s : Queue ι α) (t : ι) : Prop :=
  s.pc t = .idle ∨ ((s.pc t).awaitsItem = true ∧ s.size = 0) ∨
    ((s.pc t).awaitsEmpty = true ∧ s.size ≠ 0)

/-- Whoever is inside can go on, also where `malloc` answers NULL. -/
theorem inside_goes_on (hfreed : s.freed = false) (hin : (s.pc t).inside = true) :
    (s.pc t).sleeps = none ∧ (step s (.step t none)).isSome = true := by
  cases hpc : s.pc t with
  | idle => rw [hpc] at hin; cases hin
  | push p =>
    rw [hpc] at hin
    refine ⟨rfl, ?_⟩
    cases p with
    | acquire => cases hin
    | _ => simp [step, hfreed, hpc, Queue.asyncQueuePush]
  | pop w p =>
    rw [hpc] at hin
    cases p with
    | acquire | asleep | woken => cases hin
    | test =>
      refine ⟨rfl, ?_⟩
      simp only [step, hfreed, hpc, Queue.asyncQueuePop, Bool.false_eq_true, if_false]
      split
      · rfl
      · rfl
      · split <;> rfl
    | empty =>
      refine ⟨rfl, ?_⟩
      simp only [step, hfreed, hpc, Queue.asyncQueuePop, Bool.false_eq_true, if_false]
      split <;> rfl
    | _ => exact ⟨rfl, by simp [step, hfreed, hpc, Queue.asyncQueuePop]⟩
  | count p =>
    rw [hpc] at hin
    refine ⟨rfl, ?_⟩
    cases p with
    | acquire => cases hin
    | _ => simp [step, hfreed, hpc, Queue.asyncQueueCount]
  | free p =>
    rw [hpc] at hin
    cases p with
    | acquire | asleep | woken | destroy => cases hin
    | _ => exact ⟨rfl, by simp [step, hfreed, hpc, Queue.asyncQueueFree]⟩

/-- Whoever is outside and not asleep can go on while the lock is free. -/
theorem outside_goes_on (hfreed : s.freed = false) (hlock : s.lock = none)
    (hout : (s.pc t).inside = false) (hidle : s.pc t ≠ .idle) (hsleep : (s.pc t).sleeps = none) :
    (step s (.step t none)).isSome = true := by
  cases hpc : s.pc t with
  | idle => exact absurd hpc hidle
  | push p =>
    rw [hpc] at hout
    cases p with
    | acquire => simp [step, hfreed, hpc, Queue.asyncQueuePush, Queue.acquire, hlock]
    | _ => cases hout
  | pop w p =>
    rw [hpc] at hout hsleep
    cases p with
    | acquire | woken => simp [step, hfreed, hpc, Queue.asyncQueuePop, Queue.acquire, hlock]
    | asleep => cases hsleep
    | _ => cases hout
  | count p =>
    rw [hpc] at hout
    cases p with
    | acquire => simp [step, hfreed, hpc, Queue.asyncQueueCount, Queue.acquire, hlock]
    | _ => cases hout
  | free p =>
    rw [hpc] at hout hsleep
    cases p with
    | acquire | woken => simp [step, hfreed, hpc, Queue.asyncQueueFree, Queue.acquire, hlock]
    | destroy => simp [step, hfreed, hpc, Queue.asyncQueueFree]
    | asleep => cases hsleep
    | _ => cases hout

omit [DecidableEq ι] in
/-- A sleeper waits for an item, or for the queue to be empty. -/
theorem PC.awaits_of_sleeps {x : PC α} (hx : x.sleeps ≠ none) :
    x.awaitsItem = true ∨ x.awaitsEmpty = true := by
  unfold PC.sleeps at hx
  split at hx
  · exact .inl rfl
  · exact .inr rfl
  · exact absurd rfl hx

/-- **Somebody can go on**, other than by waking up for nothing, or all
threads rest. -/
theorem goes_on_or_rests (h : (machine ι α).Reachable s) (hfreed : s.freed = false) :
    (∃ t, (s.pc t).sleeps = none ∧ (step s (.step t none)).isSome = true) ∨ ∀ t, s.Rests t := by
  have hL := locked h
  have hT := tended h
  cases hlock : s.lock with
  | some t => exact .inl ⟨t, inside_goes_on hfreed ((hL t).mpr hlock)⟩
  | none =>
    have hout : ∀ t, (s.pc t).inside = false := by
      intro t
      by_contra hin
      cases hlock.symm.trans ((hL t).mp (by simpa using hin))
    by_cases hbusy : ∃ t, s.pc t ≠ .idle ∧ (s.pc t).sleeps = none
    · obtain ⟨t, hidle, hsleep⟩ := hbusy
      exact .inl ⟨t, hsleep, outside_goes_on hfreed hlock (hout t) hidle hsleep⟩
    · refine .inr ?_
      intro t
      by_cases hidle : s.pc t = .idle
      · exact .inl hidle
      · refine .inr ?_
        rcases PC.awaits_of_sleeps fun hs => hbusy ⟨t, hidle, hs⟩ with hitem | hempty
        · refine .inl ⟨hitem, ?_⟩
          by_contra hne
          obtain ⟨u, hu⟩ := hT.item ⟨t, hitem⟩ (Nat.pos_of_ne_zero hne)
          have hin := (s.pc u).owes_inside.1 hu
          rw [hout u] at hin
          cases hin
        · refine .inr ⟨hempty, ?_⟩
          intro hzero
          obtain ⟨u, hu⟩ := hT.empty ⟨t, hempty⟩ hzero
          have hin := (s.pc u).owes_inside.2 hu
          rw [hout u] at hin
          cases hin

/-! ## What a call costs -/

/-- The steps a thread takes before its call returns or sleeps, with those
of the at most `n` threads that its broadcasts wake. -/
def PC.rest (n : Nat) : PC α → Nat
  | .idle => 0
  | .push (.acquire _) => 4 * n * (n + 1) + 4
  | .push (.body _) => 4 * n * (n + 1) + 3
  | .push (.broadcast _ _) => 4 * n * (n + 1) + 2
  | .push (.release _ _) => 1
  | .pop _ .acquire | .pop _ .woken => 4 * (n + 1)
  | .pop _ .test => 4 * n + 3
  | .pop _ (.empty _) => 4 * n + 2
  | .pop _ .sleep | .pop _ (.release _) => 1
  | .pop _ .asleep => 0
  | .count .acquire => 3
  | .count .body => 2
  | .count (.release _) => 1
  | .free .acquire | .free .woken => 4
  | .free .test => 3
  | .free .release => 2
  | .free .sleep | .free .destroy => 1
  | .free .asleep => 0

/-- What a call, and a wake-up without a broadcast, may cost. -/
def PC.credit (n : Nat) : PC α → Nat
  | .idle => 4 * (n + 1) * (n + 1) + 1
  | .pop _ .asleep | .free .asleep => 4 * (n + 1) + 1
  | _ => 0

/-- A thread calls. -/
def Event.calls : Event ι α → Nat
  | .call _ _ => 1
  | .step _ _ => 0

/-- A thread wakes up without a broadcast. -/
def Queue.spurious (s : Queue ι α) : Event ι α → Nat
  | .call _ _ => 0
  | .step t _ => if (s.pc t).sleeps.isSome then 1 else 0

section Rest

variable {n : Nat} {x y : PC α}

omit [DecidableEq ι]

theorem PC.credit_step (hx : x ≠ .idle) :
    x.credit n = (4 * (n + 1) + 1) * if x.sleeps.isSome then 1 else 0 := by
  cases x with
  | idle => exact absurd rfl hx
  | pop w p => cases p <;> simp [credit, sleeps]
  | free p => cases p <;> simp [credit, sleeps]
  | _ => rfl

theorem PC.rest_acquires (hx : x.acquires = some y) : y.rest n + 1 = x.rest n := by
  unfold PC.acquires at hx
  split at hx <;> cases hx <;> rfl

theorem PC.rest_releases (hx : x.releases = some y) : y.rest n + 1 ≤ x.rest n := by
  unfold PC.releases at hx
  split at hx <;> cases hx <;> simp [rest]

theorem PC.rest_sleeps (hx : x.sleeps = some y) : y.rest n ≤ x.rest n + 4 * (n + 1) := by
  unfold PC.sleeps at hx
  split at hx <;> cases hx <;> simp only [rest] <;> omega

theorem PC.rest_wakeNonempty (x : PC α) : x.wakeNonempty.rest n ≤ x.rest n + 4 * (n + 1) := by
  unfold wakeNonempty
  split <;> simp [rest]

theorem PC.rest_wakeEmpty (x : PC α) : x.wakeEmpty.rest n ≤ x.rest n + 4 := by
  unfold wakeEmpty
  split <;> simp [rest]

theorem Call.rest_start (c : Call α) : c.start.rest n ≤ 4 * (n + 1) * (n + 1) := by
  have hmul : 4 * (n + 1) * (n + 1) = 4 * n * (n + 1) + 4 * (n + 1) :=
    Nat.add_mul (4 * n) 4 (n + 1)
  cases c <;> simp only [start, PC.rest, hmul] <;> omega

end Rest

section Effort

variable [Fintype ι]

/-- The steps that are left before all calls have returned or sleep. -/
def Queue.effort (s : Queue ι α) : Nat :=
  tally (PC.rest (Fintype.card ι)) s.pc

omit [DecidableEq ι] in
/-- A broadcast wakes at most all threads. -/
private theorem tally_wake {f : PC α → PC α} {k : Nat}
    (hf : ∀ x : PC α, (f x).rest (Fintype.card ι) ≤ x.rest (Fintype.card ι) + k) (g : ι → PC α) :
    tally (PC.rest (Fintype.card ι)) (fun u => f (g u))
      ≤ tally (PC.rest (Fintype.card ι)) g + Fintype.card ι * k := by
  calc tally (PC.rest (Fintype.card ι)) (fun u => f (g u))
      = tally (fun x => (f x).rest (Fintype.card ι)) g := rfl
    _ ≤ tally (fun x => x.rest (Fintype.card ι) + k) g := tally_mono fun u => hf (g u)
    _ = tally (PC.rest (Fintype.card ι)) g + Fintype.card ι * k := by rw [tally_add, tally_const]

/-- A step pays for itself, but for a call and a spurious wake-up. -/
theorem effort_move {x : PC α} (hpc : s.pc t = x) (hm : Move s t x s') (hfault : s'.fault = false) :
    s'.effort + 1 ≤ s.effort + x.credit (Fintype.card ι) := by
  -- all but one thread stay where they are
  have hstay : ∀ {y : PC α}, s'.pc = Function.update s.pc t y →
      y.rest (Fintype.card ι) + 1 ≤ x.rest (Fintype.card ι) + x.credit (Fintype.card ι) →
      s'.effort + 1 ≤ s.effort + x.credit (Fintype.card ι) := by
    intro y hs' hy
    have hmove := tally_move (PC.rest (Fintype.card ι)) hpc y
    unfold Queue.effort
    rw [hs']
    omega
  -- or a broadcast moves them as well
  have hwake : ∀ {y : PC α} {f : PC α → PC α} {k : Nat}, f x = x →
      s'.pc = Function.update (fun u => f (s.pc u)) t y →
      (∀ z : PC α, (f z).rest (Fintype.card ι) ≤ z.rest (Fintype.card ι) + k) →
      y.rest (Fintype.card ι) + Fintype.card ι * k + 1 ≤ x.rest (Fintype.card ι) →
      s'.effort + 1 ≤ s.effort + x.credit (Fintype.card ι) := by
    intro y f k hx hs' hf hy
    have hmove := tally_move (PC.rest (Fintype.card ι)) (g := fun u => f (s.pc u))
      ((congrArg f hpc).trans hx) y
    have hall := tally_wake hf s.pc
    unfold Queue.effort
    rw [hs']
    omega
  cases hm with
  | @call c =>
    have hstart := c.rest_start (n := Fintype.card ι)
    refine hstay rfl ?_
    simp only [PC.credit]
    omega
  | acquire hx _ =>
    exact hstay rfl (Nat.le_add_right_of_le (Nat.le_of_eq (PC.rest_acquires hx)))
  | release hx => exact hstay rfl (Nat.le_add_right_of_le (PC.rest_releases hx))
  | @wakeUp x y hx =>
    have hrest := PC.rest_sleeps (n := Fintype.card ι) hx
    refine hstay rfl ?_
    unfold PC.sleeps at hx
    split at hx <;> simp only [PC.credit] at hrest ⊢ <;> first | omega | cases hx
  | failed | push | wait | popNone | popItem | notEmpty | count | destroy =>
    refine hstay rfl ?_
    simp only [PC.rest]
    omega
  | freeTest =>
    refine hstay rfl ?_
    split <;> simp only [PC.rest] <;> omega
  | broadcast =>
    refine hwake rfl rfl PC.rest_wakeNonempty ?_
    have hmul := Nat.mul_left_comm (Fintype.card ι) 4 (Fintype.card ι + 1)
    simp only [PC.rest, Nat.mul_assoc] at hmul ⊢
    omega
  | isEmpty =>
    refine hwake rfl rfl PC.rest_wakeEmpty ?_
    simp only [PC.rest]
    omega
  | pushDead | popDead => cases hfault

/-- **A step pays for itself**, but for calls and spurious wake-ups. -/
theorem effort_step {e : Event ι α} (h : (machine ι α).Reachable s) (hs : step s e = some s') :
    s'.effort + 1 ≤ s.effort + (4 * (Fintype.card ι + 1) * (Fintype.card ι + 1) + 1) * e.calls
      + (4 * (Fintype.card ι + 1) + 1) * s.spurious e := by
  have hle := effort_move rfl (move_cases hs) (fault_free (h.step trivial hs))
  cases e with
  | call t c =>
    have hidle : s.pc t = .idle := by
      by_contra hne
      simp [step] at hs
    rw [Event.thread, hidle] at hle
    simp only [PC.credit, Event.calls, Queue.spurious] at hle ⊢
    omega
  | step t ans =>
    have hidle : s.pc t ≠ .idle := by
      intro hpc
      simp [step, hpc] at hs
    rw [Event.thread, PC.credit_step hidle] at hle
    simp only [Event.calls, Queue.spurious]
    omega

/-- **The calls come to rest.** A run has a bounded number of steps for
each call and for each spurious wake-up; and where it cannot go on with a
step of another kind every thread is out of its call, or sleeps beside
nothing it waits for, unless the queue is freed. -/
theorem calls_come_to_rest {es : List (Event ι α)}
    (hrun : (machine ι α).run (machine ι α).init es = some s) :
    es.length ≤ (4 * (Fintype.card ι + 1) * (Fintype.card ι + 1) + 1) * (es.map Event.calls).sum
      + (4 * (Fintype.card ι + 1) + 1)
        * (machine ι α).total Queue.spurious (machine ι α).init es ∧
    (s.freed = false →
      (∃ t, (s.pc t).sleeps = none ∧ (step s (.step t none)).isSome = true) ∨
        ∀ t, s.Rests t) := by
  refine ⟨?_, goes_on_or_rests (Machine.Reachable.run .init hrun)⟩
  have hstep : ∀ {s e t}, (machine ι α).Reachable s → True → (machine ι α).step s e = some t →
      (machine ι α).Reachable t ∧ t.effort + 1 ≤ s.effort
        + ((4 * (Fintype.card ι + 1) * (Fintype.card ι + 1) + 1) * e.calls
          + (4 * (Fintype.card ι + 1) + 1) * s.spurious e) :=
    fun hr _ hs => ⟨hr.step trivial hs, (effort_step hr hs).trans_eq (Nat.add_assoc ..)⟩
  have hpaid := Machine.total_le hstep .init (Machine.meets_true _ es) hrun
  have hstart : (machine ι α).init.effort = 0 := tally_eq_zero.mpr fun _ => rfl
  have hlength : (machine ι α).total (fun _ _ => 1) (machine ι α).init es = es.length := by
    rw [Machine.total_events hrun]
    simp
  rw [hlength, hstart, Machine.total_add, Machine.total_mul, Machine.total_mul,
    Machine.total_events hrun] at hpaid
  omega

/-- After the run in which thread 0 is woken both threads are out of their
calls. -/
theorem calls_come_to_rest_woken :
    let s := (machine Bool Nat).final wokenRun (by decide)
    wokenRun.length = 18 ∧ (wokenRun.map Event.calls).sum = 3 ∧ (∀ t, s.Rests t) ∧
      wokenRun.length ≤ 37 * 3
        + 13 * (machine Bool Nat).total Queue.spurious (machine Bool Nat).init wokenRun :=
  have hrun : (machine Bool Nat).run (machine Bool Nat).init wokenRun
    = some ((machine Bool Nat).final wokenRun (by decide)) := (Option.some_get _).symm
  have h := calls_come_to_rest hrun
  ⟨by decide, by decide, (h.2 (by decide)).resolve_left (by decide), h.1⟩

end Effort

end Loomlib.AsyncQueue
