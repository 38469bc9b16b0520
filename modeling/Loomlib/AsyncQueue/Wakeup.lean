import Loomlib.AsyncQueue.Fifo
import Mathlib.Data.Fintype.Basic

/-!
# AsyncQueue — Wakeup

A pop goes to sleep with the lock that covers its test, and a push
broadcasts before it gives the lock back; `async_queue_free` and the pop
that empties the queue do the same the other way round. So between two
critical sections nobody sleeps beside what he waits for.
-/

namespace Loomlib.AsyncQueue

variable {ι α : Type} [DecidableEq ι] {s s' : Queue ι α} {t : ι}

/-- Asleep on `nonempty`, and not notified. -/
def PC.awaitsItem : PC α → Bool
  | .pop _ .asleep => true
  | _ => false

/-- Asleep on `is_empty`, and not notified. -/
def PC.awaitsEmpty : PC α → Bool
  | .free .asleep => true
  | _ => false

/-- About to broadcast `nonempty`. -/
def PC.owesItem : PC α → Bool
  | .push (.broadcast _ _) => true
  | _ => false

/-- About to broadcast `is_empty` if the queue is empty. -/
def PC.owesEmpty : PC α → Bool
  | .pop _ (.empty _) => true
  | _ => false

/-- Has found the queue empty, and is going to sleep. -/
def PC.dozesItem : PC α → Bool
  | .pop _ .sleep => true
  | _ => false

/-- Has found the queue not empty, and is going to sleep. -/
def PC.dozesEmpty : PC α → Bool
  | .free .sleep => true
  | _ => false

/-- Who sleeps has nothing to wait for, unless the broadcast is due; and
who is about to sleep still has nothing. -/
structure Tended (s : Queue ι α) : Prop where
  item : (∃ t, (s.pc t).awaitsItem = true) → 0 < s.size → ∃ t, (s.pc t).owesItem = true
  empty : (∃ t, (s.pc t).awaitsEmpty = true) → s.size = 0 → ∃ t, (s.pc t).owesEmpty = true
  dozesItem : (∃ t, (s.pc t).dozesItem = true) → s.size = 0
  dozesEmpty : (∃ t, (s.pc t).dozesEmpty = true) → s.size ≠ 0

/-- A thread that does not fall asleep, and keeps what it owes. -/
theorem Tended.stay (hI : Tended s) {x y : PC α} (hpc : s.pc t = x)
    (hs' : s'.pc = Function.update s.pc t y) (hsize : s'.size = s.size)
    (hawaits : (y.awaitsItem && !x.awaitsItem) = false ∧ (y.awaitsEmpty && !x.awaitsEmpty) = false)
    (hdozes : (y.dozesItem && !x.dozesItem) = false ∧ (y.dozesEmpty && !x.dozesEmpty) = false)
    (howes : (x.owesItem && !y.owesItem) = false ∧ (x.owesEmpty && !y.owesEmpty) = false) :
    Tended s' := by
  constructor <;> rw [hs', hsize]
  · exact fun h hpos => exists_update hpc howes.1 (hI.item (exists_of_update hpc hawaits.1 h) hpos)
  · exact fun h h0 => exists_update hpc howes.2 (hI.empty (exists_of_update hpc hawaits.2 h) h0)
  · exact fun h => hI.dozesItem (exists_of_update hpc hdozes.1 h)
  · exact fun h => hI.dozesEmpty (exists_of_update hpc hdozes.2 h)

/-- While a thread is inside nobody else is about to sleep. -/
theorem alone (hL : Locked s) {flag : PC α → Bool} (hflag : ∀ z, flag z = true → z.inside = true)
    {x y : PC α} (hpc : s.pc t = x) (hin : x.inside = true) (hx : flag x = false)
    (hy : flag y = false) : ¬ ∃ u, flag (Function.update s.pc t y u) = true := by
  intro h
  obtain ⟨u, hu⟩ : ∃ u, flag (s.pc u) = true := exists_of_update hpc (by simp [hy]) h
  obtain rfl : u = t := Mutex.unique hL (hflag _ hu) (hpc ▸ hin)
  rw [hpc, hx] at hu
  cases hu

theorem PC.dozes_inside (z : PC α) :
    (z.dozesItem = true → z.inside = true) ∧ (z.dozesEmpty = true → z.inside = true) := by
  unfold dozesItem dozesEmpty
  constructor <;> split <;> first | exact fun _ => rfl | exact nofun

theorem PC.owes_inside (z : PC α) :
    (z.owesItem = true → z.inside = true) ∧ (z.owesEmpty = true → z.inside = true) := by
  unfold owesItem owesEmpty
  constructor <;> split <;> first | exact fun _ => rfl | exact nofun

theorem PC.wakeNonempty_flags (z : PC α) : z.wakeNonempty.awaitsItem = false ∧
    z.wakeNonempty.awaitsEmpty = z.awaitsEmpty ∧ z.wakeNonempty.owesEmpty = z.owesEmpty ∧
    z.wakeNonempty.dozesItem = z.dozesItem ∧ z.wakeNonempty.dozesEmpty = z.dozesEmpty := by
  cases z with
  | pop w p => cases p <;> exact ⟨rfl, rfl, rfl, rfl, rfl⟩
  | _ => exact ⟨rfl, rfl, rfl, rfl, rfl⟩

theorem PC.wakeEmpty_flags (z : PC α) : z.wakeEmpty.awaitsEmpty = false ∧
    z.wakeEmpty.awaitsItem = z.awaitsItem ∧ z.wakeEmpty.owesItem = z.owesItem ∧
    z.wakeEmpty.dozesItem = z.dozesItem ∧ z.wakeEmpty.dozesEmpty = z.dozesEmpty := by
  cases z with
  | free p => cases p <;> exact ⟨rfl, rfl, rfl, rfl, rfl⟩
  | _ => exact ⟨rfl, rfl, rfl, rfl, rfl⟩

/-- After its broadcast nobody waits for an item. -/
theorem Tended.broadcast (hI : Tended s) {item : α} {rv : Bool}
    (hpc : s.pc t = .push (.broadcast item rv)) :
    Tended ({ s with pc := fun u => (s.pc u).wakeNonempty }.goto t (.push (.release item rv))) := by
  have hflags := fun u => (s.pc u).wakeNonempty_flags
  constructor <;> intro h
  · obtain ⟨u, hu⟩ := exists_of_broadcast PC.awaitsItem PC.wakeNonempty hpc rfl rfl h
    rw [(hflags u).1] at hu
    cases hu
  · intro h0
    obtain ⟨u, hu⟩ := exists_of_broadcast PC.awaitsEmpty PC.wakeNonempty hpc rfl rfl h
    obtain ⟨v, hv⟩ := hI.empty ⟨u, (hflags u).2.1 ▸ hu⟩ h0
    exact exists_broadcast PC.owesEmpty PC.wakeNonempty hpc rfl rfl ⟨v, (hflags v).2.2.1.symm ▸ hv⟩
  · obtain ⟨u, hu⟩ := exists_of_broadcast PC.dozesItem PC.wakeNonempty hpc rfl rfl h
    exact hI.dozesItem ⟨u, (hflags u).2.2.2.1 ▸ hu⟩
  · obtain ⟨u, hu⟩ := exists_of_broadcast PC.dozesEmpty PC.wakeNonempty hpc rfl rfl h
    exact hI.dozesEmpty ⟨u, (hflags u).2.2.2.2 ▸ hu⟩

/-- After its broadcast nobody waits for the queue to be empty. -/
theorem Tended.isEmpty (hI : Tended s) {w : Bool} {rv : Option α}
    (hpc : s.pc t = .pop w (.empty rv)) :
    Tended ({ s with pc := fun u => (s.pc u).wakeEmpty }.goto t (.pop w (.release rv))) := by
  have hflags := fun u => (s.pc u).wakeEmpty_flags
  constructor <;> intro h
  · intro hpos
    obtain ⟨u, hu⟩ := exists_of_broadcast PC.awaitsItem PC.wakeEmpty hpc rfl rfl h
    obtain ⟨v, hv⟩ := hI.item ⟨u, (hflags u).2.1 ▸ hu⟩ hpos
    exact exists_broadcast PC.owesItem PC.wakeEmpty hpc rfl rfl ⟨v, (hflags v).2.2.1.symm ▸ hv⟩
  · obtain ⟨u, hu⟩ := exists_of_broadcast PC.awaitsEmpty PC.wakeEmpty hpc rfl rfl h
    rw [(hflags u).1] at hu
    cases hu
  · obtain ⟨u, hu⟩ := exists_of_broadcast PC.dozesItem PC.wakeEmpty hpc rfl rfl h
    exact hI.dozesItem ⟨u, (hflags u).2.2.2.1 ▸ hu⟩
  · obtain ⟨u, hu⟩ := exists_of_broadcast PC.dozesEmpty PC.wakeEmpty hpc rfl rfl h
    exact hI.dozesEmpty ⟨u, (hflags u).2.2.2.2 ▸ hu⟩

/-- Going to sleep with the lock that covers the test. -/
theorem Tended.release (hI : Tended s) {x y : PC α} (hpc : s.pc t = x)
    (hx : x.releases = some y) : Tended (s.release t y) := by
  cases hi : x.dozesItem with
  | true =>
    have h0 : s.size = 0 := hI.dozesItem ⟨t, hpc ▸ hi⟩
    unfold PC.dozesItem at hi
    split at hi <;> cases hi
    cases hx
    exact ⟨fun _ hpos => absurd h0 (Nat.ne_of_gt hpos),
      fun h h0 => exists_update hpc rfl (hI.empty (exists_of_update hpc rfl h) h0),
      fun h => hI.dozesItem (exists_of_update hpc rfl h),
      fun h => hI.dozesEmpty (exists_of_update hpc rfl h)⟩
  | false =>
    cases he : x.dozesEmpty with
    | true =>
      have hne : s.size ≠ 0 := hI.dozesEmpty ⟨t, hpc ▸ he⟩
      unfold PC.dozesEmpty at he
      split at he <;> cases he
      cases hx
      exact ⟨fun h hpos => exists_update hpc rfl (hI.item (exists_of_update hpc rfl h) hpos),
        fun _ h0 => absurd h0 hne, fun h => hI.dozesItem (exists_of_update hpc rfl h),
        fun h => hI.dozesEmpty (exists_of_update hpc rfl h)⟩
    | false =>
      unfold PC.releases at hx
      split at hx <;> cases hx <;>
        first
        | cases hi; done
        | cases he; done
        | exact hI.stay hpc rfl rfl ⟨rfl, rfl⟩ ⟨rfl, rfl⟩ ⟨rfl, rfl⟩

theorem Tended.move (hI : Tended s) (hL : Locked s) {ops : List (Op α)} {l : List (Nat × α)}
    (hR : Refines s ops l) {x : PC α} (hpc : s.pc t = x) (hm : Move s t x s') : Tended s' := by
  cases hm with
  | @call c => cases c <;> exact hI.stay hpc rfl rfl ⟨rfl, rfl⟩ ⟨rfl, rfl⟩ ⟨rfl, rfl⟩
  | @acquire x y hx =>
    unfold PC.acquires at hx
    split at hx <;> cases hx <;> exact hI.stay hpc rfl rfl ⟨rfl, rfl⟩ ⟨rfl, rfl⟩ ⟨rfl, rfl⟩
  | release hx => exact hI.release hpc hx
  | @wakeUp x y hx =>
    unfold PC.sleeps at hx
    split at hx <;> cases hx <;> exact hI.stay hpc rfl rfl ⟨rfl, rfl⟩ ⟨rfl, rfl⟩ ⟨rfl, rfl⟩
  | push =>
    exact ⟨fun _ _ => ⟨t, by simp [Queue.goto, PC.owesItem]⟩, nofun,
      fun h => absurd h (alone hL (fun z => z.dozes_inside.1) hpc rfl rfl rfl),
      fun _ => Nat.succ_ne_zero _⟩
  | broadcast => exact hI.broadcast hpc
  | @wait h q hq =>
    -- nothing was there, so going to sleep is right
    have hsize : s.size = 0 := by
      obtain ⟨h', q', hq', -⟩ := queuePop_ring hR.ring
      obtain ⟨-, -, rfl⟩ : h = h' ∧ q = q' ∧ l = [] := by simpa using hq.symm.trans hq'
      exact hR.size
    exact ⟨fun h hpos => absurd hsize (Nat.ne_of_gt hpos),
      fun h h0 => exists_update hpc rfl (hI.empty (exists_of_update hpc rfl h) h0),
      fun _ => hsize, fun h => hI.dozesEmpty (exists_of_update hpc rfl h)⟩
  | popItem =>
    exact ⟨fun h hpos => exists_update hpc rfl
        (hI.item (exists_of_update hpc rfl h) (Nat.lt_of_lt_of_le hpos (Nat.sub_le ..))),
      fun _ _ => ⟨t, by simp [Queue.goto, PC.owesEmpty]⟩,
      fun h => absurd h (alone hL (fun z => z.dozes_inside.1) hpc rfl rfl rfl),
      fun h => absurd h (alone hL (fun z => z.dozes_inside.2) hpc rfl rfl rfl)⟩
  | isEmpty => exact hI.isEmpty hpc
  | notEmpty hne =>
    exact ⟨fun h hpos => exists_update hpc rfl (hI.item (exists_of_update hpc rfl h) hpos),
      fun _ h0 => absurd h0 hne, fun h => hI.dozesItem (exists_of_update hpc rfl h),
      fun h => hI.dozesEmpty (exists_of_update hpc rfl h)⟩
  | freeTest =>
    split
    · exact hI.stay hpc rfl rfl ⟨rfl, rfl⟩ ⟨rfl, rfl⟩ ⟨rfl, rfl⟩
    · rename_i hne
      exact ⟨fun h hpos => exists_update hpc rfl (hI.item (exists_of_update hpc rfl h) hpos),
        fun _ h0 => absurd h0 hne, fun h => hI.dozesItem (exists_of_update hpc rfl h),
        fun _ => hne⟩
  | pushDead | popDead => exact ⟨hI.item, hI.empty, hI.dozesItem, hI.dozesEmpty⟩
  | _ => exact hI.stay hpc rfl rfl ⟨rfl, rfl⟩ ⟨rfl, rfl⟩ ⟨rfl, rfl⟩

theorem tended (h : (machine ι α).Reachable s) : Tended s := by
  refine h.invariant (I := Tended) ?_ ?_
  · constructor <;> rintro ⟨t, ht⟩ <;> cases ht
  · intro s e s' hr hI hs
    obtain ⟨ops, hops⟩ : ∃ ops, ((machine ι α).traced returns).Reachable (s, ops) :=
      Machine.ReachableBy.traced hr returns
    obtain ⟨l, hR⟩ := refines hops
    exact hI.move (locked hr) hR rfl (move_cases hs)

/-- **No wake-up is lost**: while nobody holds the lock, no pop sleeps
beside an item, and `async_queue_free` does not sleep beside an empty
queue. -/
theorem wakeup_never_lost (h : (machine ι α).Reachable s) (hlock : s.lock = none) :
    (0 < s.size → ∀ t w, s.pc t ≠ .pop w .asleep) ∧
      (s.size = 0 → ∀ t, s.pc t ≠ .free .asleep) := by
  have hI := tended h
  -- who owes a broadcast holds the lock
  have hnone : ∀ t, (s.pc t).inside = false := by
    intro t
    by_contra hin
    have := (locked h t).mp (by simpa using hin)
    rw [hlock] at this
    cases this
  constructor
  · intro hpos t w ht
    obtain ⟨u, hu⟩ := hI.item ⟨t, by rw [ht]; rfl⟩ hpos
    have := (s.pc u).owes_inside.1 hu
    rw [hnone] at this
    cases this
  · intro h0 t ht
    obtain ⟨u, hu⟩ := hI.empty ⟨t, by rw [ht]; rfl⟩ h0
    have := (s.pc u).owes_inside.2 hu
    rw [hnone] at this
    cases this

/-- Thread 0 sleeps on the empty queue when thread 1 pushes: it has been
woken before the lock is free. -/
theorem wakeup_never_lost_pop :
    let es : List (Event Bool Nat) :=
      .call false (.pop true) :: List.replicate 3 (.step false none) ++ .call true (.push 7) ::
        .step true none :: .step true (some 5) :: List.replicate 2 (.step true none)
    ∃ h, ((machine Bool Nat).final es h).size = 1 ∧
      ∀ t w, ((machine Bool Nat).final es h).pc t ≠ .pop w .asleep :=
  ⟨by decide, by decide,
    (wakeup_never_lost (Machine.reachable_final _ (by decide)) (by decide)).1 (by decide)⟩

end Loomlib.AsyncQueue
