import Loomlib.AsyncList.Ndebug
import Loomlib.LinkedQueue.Drain

/-!
# LinkedQueue — Ndebug

`beta_queue` compiled with NDEBUG. Every lock operation of `src/lock.c` is
the operand of an `assert`, so it is gone: a thread that acquires a lock
goes on whoever is inside. A run of the checked build is a run of this one;
the converse holds of the runs in which no thread enters an end of the
queue while another is inside.
-/

namespace Loomlib.LinkedQueue

variable {ι α : Type} [DecidableEq ι]

/-! ## The build without assertions -/

/-- Which lock the next step takes (the tail's if `true`), and where it
goes. No `beta_queue_pop` waits, so none is ever `woken`. -/
def PC.acquires : PC α → Option (Bool × PC α)
  | .push (.acquire item new) => some (true, .push (.readTail item new))
  | .pop w .acquire => some (false, .pop w (if w then .loopHead else .testHead))
  | .pop w .woken => some (false, .pop w .loopHead)
  | _ => none

/-- The two lock operations are compiled out: acquiring takes nothing, and
releasing sets a lock free that nobody holds. -/
def ndebugStep (s : Queue ι α) (e : Event ι α) : Option (Queue ι α) :=
  match e with
  | .step t ans =>
    match (s.pc t).acquires with
    | some (_, y) => some (s.goto t y)
    | none => step betaQueue s (.step t ans)
  | e => step betaQueue s e

/-- `beta_queue` with NDEBUG, used by the threads `ι`. -/
def ndebugMachine (ι α : Type) [DecidableEq ι] : Machine (Queue ι α) (Event ι α) where
  init := queueNew
  step := ndebugStep

/-- A state but for its locks. -/
def Queue.lockless (s : Queue ι α) : Queue ι α :=
  { s with headLock := none, tailLock := none }

/-- A thread that takes a lock finds nobody inside the end it guards. -/
def Unoccupied (s : Queue ι α) : Event ι α → Prop
  | .step t _ =>
    match (s.pc t).acquires with
    | some (true, _) => ∀ u, (s.pc u).inTail = false
    | some (false, _) => ∀ u, (s.pc u).inHead = false
    | none => True
  | _ => True

section Lockless

variable {s s' : Queue ι α} {t : ι}

omit [DecidableEq ι] in
@[simp] theorem lockless_heap (s : Queue ι α) : s.lockless.heap = s.heap := rfl

omit [DecidableEq ι] in
@[simp] theorem lockless_pc (s : Queue ι α) : s.lockless.pc = s.pc := rfl

theorem lockless_goto (s : Queue ι α) (t : ι) (y : PC α) :
    (s.goto t y).lockless = s.lockless.goto t y := rfl

omit [DecidableEq ι] in
theorem lockless_store (s : Queue ι α) (a : Nat) (f : Node (Option α) → Node (Option α)) :
    (s.store a f).lockless = s.lockless.store a f := by
  simp only [Queue.store, lockless_heap]
  cases s.heap a <;> rfl

theorem lockless_load (s : Queue ι α) (t : ι) (a : Nat) (k : Node (Option α) → PC α) :
    (s.load t a k).lockless = s.lockless.load t a k := by
  simp only [Queue.load, lockless_heap]
  cases s.heap a <;> rfl

/-- Where no lock is taken, the locks are not looked at. -/
theorem push_lockless {p : PushPC α} (ans : Option Nat) (hp : (PC.push p).acquires = none) :
    s.lockless.queuePush betaQueue t ans p
      = (s.queuePush betaQueue t ans p).map Queue.lockless := by
  cases p with
  | acquire => cases hp
  | alloc item =>
    cases ans with
    | none => rfl
    | some a =>
      change (if (s.heap a).isNone = true then _ else none)
        = Option.map _ (if (s.heap a).isNone = true then _ else none)
      cases (s.heap a).isNone <;> rfl
  | setItem item new =>
    simp only [Queue.queuePush, Option.map_some, lockless_goto, lockless_store]
  | setNext item new tail =>
    simp only [Queue.queuePush, Queue.store, lockless_heap]
    cases s.heap tail <;> rfl
  | _ => rfl

theorem pop_lockless {w : Bool} {p : PopPC α} (hp : (PC.pop w p).acquires = none) :
    s.lockless.queuePop betaQueue t w p = (s.queuePop betaQueue t w p).map Queue.lockless := by
  cases p with
  | acquire | woken => cases hp
  | testNext | loopNext | itemRead =>
    simp only [Queue.queuePop, Option.map_some, lockless_load]
  | itemNext a | advanceNext item temp a =>
    simp only [Queue.queuePop, lockless_heap]
    rcases s.heap a with _ | ⟨_, _ | _⟩ <;> rfl
  | free item temp =>
    simp only [Queue.queuePop, lockless_heap]
    cases s.heap temp <;> rfl
  | _ => rfl

theorem step_lockless (ans : Option Nat) (hx : (s.pc t).acquires = none) :
    step betaQueue s.lockless (.step t ans)
      = (step betaQueue s (.step t ans)).map Queue.lockless := by
  simp only [step, lockless_pc]
  cases hpc : s.pc t with
  | idle => rfl
  | push p => exact push_lockless ans (hpc ▸ hx)
  | pop w p => exact pop_lockless (hpc ▸ hx)

theorem push_event_lockless (item : Option α) :
    step betaQueue s.lockless (.push t item)
      = (step betaQueue s (.push t item)).map Queue.lockless := by
  simp only [step, lockless_pc]
  cases s.pc t <;> rfl

theorem pop_event_lockless (w : Bool) :
    step betaQueue s.lockless (.pop t w)
      = (step betaQueue s (.pop t w)).map Queue.lockless := by
  simp only [step, lockless_pc]
  cases s.pc t <;> cases w <;> rfl

/-- Taking a lock, with assertions. -/
theorem step_acquires {ans : Option Nat} {tail : Bool} {y : PC α}
    (hx : (s.pc t).acquires = some (tail, y)) :
    step betaQueue s (.step t ans) = if tail
      then (if s.tailLock = none then some ({ s with tailLock := some t }.goto t y) else none)
      else (if s.headLock = none then some ({ s with headLock := some t }.goto t y) else none) := by
  simp only [step]
  cases hpc : s.pc t with
  | idle =>
    rw [hpc] at hx
    cases hx
  | push p =>
    rw [hpc] at hx
    cases p <;> cases hx
    simp only [Queue.queuePush]
    cases s.tailLock <;> rfl
  | pop w p =>
    rw [hpc] at hx
    cases p <;> cases hx <;> simp only [Queue.queuePop] <;> cases s.headLock <;> rfl

end Lockless

/-! ## The two builds step by step -/

section Step

variable {s s' : Queue ι α} {e : Event ι α}

omit [DecidableEq ι] in
/-- A lock is free if and only if nobody is inside the end it guards. -/
theorem free_iff (hL : Locked s) :
    (s.tailLock = none ↔ ∀ u, (s.pc u).inTail = false) ∧
      (s.headLock = none ↔ ∀ u, (s.pc u).inHead = false) := by
  refine ⟨⟨?_, hL.tail.free⟩, ⟨?_, hL.head.free⟩⟩
  · intro hfree u
    by_contra hin
    cases hfree.symm.trans ((hL.tail u).mp ((Bool.not_eq_false _).mp hin))
  · intro hfree u
    by_contra hin
    cases hfree.symm.trans ((hL.head u).mp ((Bool.not_eq_false _).mp hin))

/-- What the checked build does, the other does, and nobody enters an end
that is occupied. -/
theorem ndebug_of_step (hL : Locked s) (hs : step betaQueue s e = some s') :
    ndebugStep s.lockless e = some s'.lockless ∧ Unoccupied s.lockless e := by
  cases e with
  | push t item =>
    refine ⟨?_, trivial⟩
    show step betaQueue s.lockless (.push t item) = _
    rw [push_event_lockless, hs]
    rfl
  | pop t w =>
    refine ⟨?_, trivial⟩
    show step betaQueue s.lockless (.pop t w) = _
    rw [pop_event_lockless, hs]
    rfl
  | step t ans =>
    change (match (s.pc t).acquires with | some (_, y) => _ | none => _) = _ ∧
      (match (s.pc t).acquires with | some (true, _) => _ | some (false, _) => _ | none => _)
    cases hx : (s.pc t).acquires with
    | none => exact ⟨by rw [step_lockless ans hx, hs]; rfl, trivial⟩
    | some by' =>
      obtain ⟨tail, y⟩ := by'
      rw [step_acquires hx] at hs
      cases tail with
      | true =>
        rw [if_pos rfl] at hs
        by_cases hfree : s.tailLock = none
        · rw [if_pos hfree] at hs
          cases hs
          exact ⟨rfl, (free_iff hL).1.mp hfree⟩
        · rw [if_neg hfree] at hs
          cases hs
      | false =>
        rw [if_neg Bool.false_ne_true] at hs
        by_cases hfree : s.headLock = none
        · rw [if_pos hfree] at hs
          cases hs
          exact ⟨rfl, (free_iff hL).2.mp hfree⟩
        · rw [if_neg hfree] at hs
          cases hs

/-- What the other build does without entering an end that is occupied, the
checked build does. -/
theorem step_of_ndebug (hL : Locked s) {t : Queue ι α} (hs : ndebugStep s.lockless e = some t)
    (hc : Unoccupied s.lockless e) : ∃ s', step betaQueue s e = some s' ∧ s'.lockless = t := by
  cases e with
  | push u item =>
    have hs : step betaQueue s.lockless (.push u item) = some t := hs
    rw [push_event_lockless] at hs
    exact Option.map_eq_some_iff.mp hs
  | pop u w =>
    have hs : step betaQueue s.lockless (.pop u w) = some t := hs
    rw [pop_event_lockless] at hs
    exact Option.map_eq_some_iff.mp hs
  | step u ans =>
    change (match (s.pc u).acquires with | some (_, y) => _ | none => _) = _ at hs
    change (match (s.pc u).acquires with
      | some (true, _) => _ | some (false, _) => _ | none => _) at hc
    cases hx : (s.pc u).acquires with
    | none =>
      rw [hx] at hs
      change step betaQueue s.lockless (.step u ans) = _ at hs
      rw [step_lockless ans hx] at hs
      exact Option.map_eq_some_iff.mp hs
    | some by' =>
      obtain ⟨tail, y⟩ := by'
      rw [hx] at hs hc
      rw [step_acquires hx]
      cases hs
      cases tail with
      | true =>
        rw [if_pos rfl, if_pos ((free_iff hL).1.mpr hc)]
        exact ⟨_, rfl, rfl⟩
      | false =>
        rw [if_neg Bool.false_ne_true, if_pos ((free_iff hL).2.mpr hc)]
        exact ⟨_, rfl, rfl⟩

end Step

/-! ## Runs -/

section Run

variable {s t : Queue ι α} {es : List (Event ι α)}

/-- **Every run with assertions is a run without**, up to the locks. -/
theorem ndebug_of_run (h : (machine ι α betaQueue).Reachable s)
    (hrun : (machine ι α betaQueue).run s es = some t) :
    (ndebugMachine ι α).run s.lockless es = some t.lockless ∧
      (ndebugMachine ι α).Meets Unoccupied s.lockless es := by
  induction es generalizing s with
  | nil =>
    cases hrun
    exact ⟨rfl, trivial⟩
  | cons e es ih =>
    obtain ⟨u, hu, hrun⟩ := Option.bind_eq_some_iff.mp hrun
    obtain ⟨hstep, hc⟩ := ndebug_of_step (locked rfl h) hu
    obtain ⟨hrest, hmeets⟩ := ih (.step h trivial hu) hrun
    have hstep : (ndebugMachine ι α).step s.lockless e = some u.lockless := hstep
    refine ⟨by rw [Machine.run, hstep]; exact hrest, hc, ?_⟩
    intro v hv
    cases hstep.symm.trans hv
    exact hmeets

/-- And a run without assertions in which nobody enters an occupied end is
a run with them. -/
theorem run_of_ndebug (h : (machine ι α betaQueue).Reachable s)
    (hrun : (ndebugMachine ι α).run s.lockless es = some t)
    (hmeets : (ndebugMachine ι α).Meets Unoccupied s.lockless es) :
    ∃ s', (machine ι α betaQueue).run s es = some s' ∧ s'.lockless = t := by
  induction es generalizing s with
  | nil =>
    cases hrun
    exact ⟨s, rfl, rfl⟩
  | cons e es ih =>
    obtain ⟨u, hu, hrun⟩ := Option.bind_eq_some_iff.mp hrun
    obtain ⟨v, hv, rfl⟩ := step_of_ndebug (locked rfl h) hu hmeets.1
    obtain ⟨s', hrest, heq⟩ := ih (.step h trivial hv) hrun (hmeets.2 _ hu)
    have hv : (machine ι α betaQueue).step s e = some v := hv
    exact ⟨s', by rw [Machine.run, hv]; exact hrest, heq⟩

end Run

/-- **The two builds agree** on a sequence of calls on a list, of those
that fail no assertion, if and only if it contains no `async_list_add`; and
a run of the queue without assertions is a run with them, up to the locks,
if and only if no thread takes a lock while another is inside the end it
guards. Every run with assertions is a run without. -/
theorem same_in_both_builds_iff {β : Type} (cs : List (AsyncList.Call β))
    (hcs : (AsyncList.behaviour .debug AsyncList.zeroed cs).2 ≠ some .assertion)
    (es : List (Event ι α)) :
    (AsyncList.behaviour .ndebug AsyncList.zeroed cs
        = AsyncList.behaviour .debug AsyncList.zeroed cs ↔
        ∀ c ∈ cs, c.isAdd = false) ∧
      (∀ t, (ndebugMachine ι α).run queueNew es = some t →
        ((∃ s, (machine ι α betaQueue).run queueNew es = some s ∧ s.lockless = t) ↔
          (ndebugMachine ι α).Meets Unoccupied queueNew es)) ∧
      ∀ s, (machine ι α betaQueue).run queueNew es = some s →
        (ndebugMachine ι α).run queueNew es = some s.lockless := by
  refine ⟨AsyncList.behaviour_eq_iff cs hcs, ?_, fun s hrun => (ndebug_of_run .init hrun).1⟩
  intro t ht
  constructor
  · rintro ⟨s, hrun, -⟩
    exact (ndebug_of_run .init hrun).2
  · intro hmeets
    exact run_of_ndebug .init ht hmeets

/-- Both builds count the same; an `async_list_add`, and the
`async_list_get` past the last item that its assertion asks for, tell them
apart; and two pushes one after the other need no lock. -/
theorem same_in_both_builds_push :
    AsyncList.behaviour .ndebug AsyncList.zeroed [AsyncList.Call.count (α := Nat), .count]
        = AsyncList.behaviour .debug AsyncList.zeroed [.count, .count] ∧
      AsyncList.behaviour .ndebug AsyncList.zeroed [AsyncList.Call.count, .add 5 true, .get 1]
        ≠ AsyncList.behaviour .debug AsyncList.zeroed [.count, .add 5 true, .get 1] ∧
      ((ndebugMachine Unit Nat).run queueNew (pushTwo 6 (some 7) (some 8))).isSome = true := by
  obtain ⟨hcount, -, hqueue⟩ := same_in_both_builds_iff
    [AsyncList.Call.count (α := Nat), .count] (by decide) (pushTwo 6 (some 7) (some 8))
  obtain ⟨hadd, -⟩ := same_in_both_builds_iff
    [AsyncList.Call.count, .add 5 true, .get 1] (by decide) (pushTwo 6 (some 7) (some 8))
  refine ⟨hcount.mpr (by decide), ?_, ?_⟩
  · intro heq
    exact absurd (hadd.mp heq) (by decide)
  · rw [hqueue _ (Option.some_get (by decide)).symm]
    rfl

/-- Threads 0 and 1 push 7 and 8 and are both inside when they read the
tail; then thread 0 pops twice. -/
def overlapping : List (Event (Fin 2) Nat) :=
  [.push 0 (some 7), .step 0 (some 1), .step 0 none, .step 0 none, .step 0 none,
    .push 1 (some 8), .step 1 (some 2), .step 1 none, .step 1 none, .step 1 none,
    .step 0 none, .step 0 none, .step 0 none,
    .step 1 none, .step 1 none, .step 1 none,
    .pop 0 false] ++ List.replicate 12 (.step 0 none) ++
    .pop 0 false :: List.replicate 4 (.step 0 none)

/-- Without assertions the first `async_list_add` faults, and of two pushes
one is lost; with them it returns, and the second push is kept out. -/
theorem builds_differ :
    AsyncList.behaviour .debug AsyncList.zeroed [AsyncList.Call.add 5 true] = ([.added], none) ∧
      AsyncList.behaviour .ndebug AsyncList.zeroed [AsyncList.Call.add 5 true] = ([], some .fault) ∧
      (∃ t, (ndebugMachine (Fin 2) Nat).run queueNew overlapping = some t ∧
        t.linked = [some 7, some 8] ∧ t.returned = [⟨false, some (some 8)⟩, ⟨false, none⟩]) ∧
      (machine (Fin 2) Nat betaQueue).run queueNew overlapping = none :=
  ⟨by decide, by decide, ⟨_, rfl, rfl, rfl⟩, rfl⟩

end Loomlib.LinkedQueue
