import Loomlib.AsyncQueue.Model
import Loomlib.Core.Mutex

/-!
# AsyncQueue — Steps

What one step of one thread can do, said once: `move_cases` inverts the
step function into the relation `Move`. The steps that take the lock differ
in their control points only, as do those that release it and those that
wake up.
-/

namespace Loomlib.AsyncQueue

variable {ι α : Type} [DecidableEq ι]

/-- Where a thread that waits for the lock goes with it. -/
def PC.acquires : PC α → Option (PC α)
  | .push (.acquire item) => some (.push (.body item))
  | .pop w .acquire | .pop w .woken => some (.pop w .test)
  | .count .acquire => some (.count .body)
  | .free .acquire | .free .woken => some (.free .test)
  | _ => none

/-- Where a thread that releases the lock goes. -/
def PC.releases : PC α → Option (PC α)
  | .push (.release _ _) | .pop _ (.release _) | .count (.release _) => some .idle
  | .pop w .sleep => some (.pop w .asleep)
  | .free .sleep => some (.free .asleep)
  | .free .release => some (.free .destroy)
  | _ => none

/-- Where a sleeper goes. -/
def PC.sleeps : PC α → Option (PC α)
  | .pop w .asleep => some (.pop w .woken)
  | .free .asleep => some (.free .woken)
  | _ => none

/-- Between taking the lock and releasing it. -/
def PC.inside (x : PC α) : Bool :=
  match x with
  | .push (.body _) | .push (.broadcast _ _) | .pop _ .test | .pop _ (.empty _) | .count .body
  | .free .test => true
  | x => x.releases.isSome

/-- The steps of the thread `t` from a control point, the two kinds of
fault last. -/
inductive Move (s : Queue ι α) (t : ι) : PC α → Queue ι α → Prop where
  | call {c : Call α} :
      Move s t .idle ({ s with freeing := s.freeing || c.frees }.goto t c.start)
  | acquire {x y} (hx : x.acquires = some y) (hl : s.lock = none) :
      Move s t x ({ s with lock := some t }.goto t y)
  | release {x y} (hx : x.releases = some y) : Move s t x (s.release t y)
  | wakeUp {x y} (hx : x.sleeps = some y) : Move s t x (s.goto t y)
  | failed {item} : Move s t (.push (.body item)) (s.goto t (.push (.broadcast item false)))
  | push {item new h q} (hnew : s.heap new = none)
      (hq : queuePush s.heap s.queue item new = some (h, q)) :
      Move s t (.push (.body item))
        ({ s with heap := h, queue := q, size := s.size + 1 }.goto t
          (.push (.broadcast item true)))
  | broadcast {item rv} : Move s t (.push (.broadcast item rv))
      ({ s with pc := fun u => (s.pc u).wakeNonempty }.goto t (.push (.release item rv)))
  | wait {h q} (hq : queuePop s.heap s.queue = some (h, q, none)) :
      Move s t (.pop true .test) ({ s with heap := h, queue := q }.goto t (.pop true .sleep))
  | popNone {h q} (hq : queuePop s.heap s.queue = some (h, q, none)) :
      Move s t (.pop false .test)
        ({ s with heap := h, queue := q }.goto t (.pop false (.empty none)))
  | popItem {w h q item} (hq : queuePop s.heap s.queue = some (h, q, some item))
      (hsize : s.size ≠ 0) :
      Move s t (.pop w .test)
        ({ s with heap := h, queue := q, size := s.size - 1 }.goto t
          (.pop w (.empty (some item))))
  | isEmpty {w rv} (hsize : s.size = 0) : Move s t (.pop w (.empty rv))
      ({ s with pc := fun u => (s.pc u).wakeEmpty }.goto t (.pop w (.release rv)))
  | notEmpty {w rv} (hsize : s.size ≠ 0) :
      Move s t (.pop w (.empty rv)) (s.goto t (.pop w (.release rv)))
  | count : Move s t (.count .body) (s.goto t (.count (.release s.size)))
  | freeTest :
      Move s t (.free .test) (s.goto t (.free (if s.size = 0 then .release else .sleep)))
  | destroy : Move s t (.free .destroy) ({ s with freed := true }.goto t .idle)
  | pushDead {item new} (hnew : s.heap new = none)
      (hq : queuePush s.heap s.queue item new = none) :
      Move s t (.push (.body item)) { s with fault := true }
  | popDead {w} (hq : queuePop s.heap s.queue = none ∨
      (∃ h q item, queuePop s.heap s.queue = some (h, q, some item)) ∧ s.size = 0) :
      Move s t (.pop w .test) { s with fault := true }

def Event.thread : Event ι α → ι
  | .call t _ | .step t _ => t

section Cases

variable {s s' : Queue ι α} {t : ι}

private theorem acquire_cases {x y : PC α} (hx : x.acquires = some y)
    (h : s.acquire t y = some s') : Move s t x s' := by
  unfold Queue.acquire at h
  split at h
  · rename_i hl; cases h; exact .acquire hx hl
  · cases h

/-- **Step inversion**: a step of the machine is a `Move` of its thread. -/
theorem move_cases {e : Event ι α} (h : step s e = some s') :
    Move s e.thread (s.pc e.thread) s' := by
  unfold step at h
  split at h
  · cases h
  cases e with
  | call t c =>
    simp only at h
    split at h
    · rename_i hpc
      split at h
      · cases h
      · cases h; exact hpc ▸ .call
    · cases h
  | step t ans =>
    simp only [Event.thread] at h ⊢
    split at h
    · cases h
    · rename_i p hpc
      rw [hpc]
      cases p with
      | acquire item => exact acquire_cases rfl h
      | body item =>
        simp only [Queue.asyncQueuePush] at h
        split at h
        · cases h; exact .failed
        · split at h
          · rename_i hnew
            have hnew := Option.isNone_iff_eq_none.mp hnew
            split at h
            · rename_i hq; cases h; exact .pushDead hnew hq
            · rename_i hq; cases h; exact .push hnew hq
          · cases h
      | broadcast item rv => cases h; exact .broadcast
      | release item rv => cases h; exact .release rfl
    · rename_i w p hpc
      rw [hpc]
      cases p with
      | acquire => exact acquire_cases rfl h
      | test =>
        simp only [Queue.asyncQueuePop] at h
        split at h
        · rename_i hq; cases h; exact .popDead (.inl hq)
        · rename_i hq
          cases h
          cases w
          · exact .popNone hq
          · exact .wait hq
        · rename_i hq
          split at h
          · rename_i hsize; cases h; exact .popDead (.inr ⟨⟨_, _, _, hq⟩, hsize⟩)
          · rename_i hsize; cases h; exact .popItem hq hsize
      | sleep => cases h; exact .release rfl
      | asleep => cases h; exact .wakeUp rfl
      | woken => exact acquire_cases rfl h
      | empty rv =>
        simp only [Queue.asyncQueuePop] at h
        split at h
        · rename_i hsize; cases h; exact .isEmpty hsize
        · rename_i hsize; cases h; exact .notEmpty hsize
      | release rv => cases h; exact .release rfl
    · rename_i p hpc
      rw [hpc]
      cases p with
      | acquire => exact acquire_cases rfl h
      | body => cases h; exact .count
      | release rv => cases h; exact .release rfl
    · rename_i p hpc
      rw [hpc]
      cases p with
      | acquire => exact acquire_cases rfl h
      | test => cases h; exact .freeTest
      | sleep => cases h; exact .release rfl
      | asleep => cases h; exact .wakeUp rfl
      | woken => exact acquire_cases rfl h
      | release => cases h; exact .release rfl
      | destroy => cases h; exact .destroy

/-- A call starts from where its thread is in none. -/
theorem call_cases {c : Call α} (h : step s (.call t c) = some s') :
    s.pc t = .idle ∧ s' = { s with freeing := s.freeing || c.frees }.goto t c.start := by
  simp only [step] at h
  split at h
  · cases h
  · split at h
    · rename_i hidle
      split at h
      · cases h
      · cases h
        exact ⟨hidle, rfl⟩
    · cases h

/-- A push that gets memory does not fail. -/
theorem pushed_of_some {a : Nat} {item item' : α} (h : step s (.step t (some a)) = some s')
    (hpc : s.pc t = .push (.body item)) : s'.pc t ≠ .push (.broadcast item' false) := by
  simp only [step, hpc, Queue.asyncQueuePush] at h
  split at h
  · cases h
  · split at h
    · split at h
      · cases h
        simp [hpc]
      · cases h
        simp [Queue.goto]
    · cases h

end Cases

/-! ## The lock -/

/-- `queue->lock` is held by the thread inside. -/
def Locked (s : Queue ι α) : Prop :=
  Mutex s.lock PC.inside s.pc

theorem Locked.move {s s' : Queue ι α} {t : ι} {x : PC α} (hI : Locked s) (hpc : s.pc t = x)
    (hm : Move s t x s') : Locked s' := by
  have hlock : Mutex s.lock PC.inside s.pc := hI
  cases hm with
  | @call c => exact hlock.stay hpc (by cases c <;> rfl)
  | @acquire x y hx hl =>
    refine (hl ▸ hlock).acquire ?_
    unfold PC.acquires at hx
    split at hx <;> cases hx <;> rfl
  | @release x y hx =>
    refine hlock.release hpc ?_ ?_
    · unfold PC.inside
      split <;> simp [hx]
    · unfold PC.releases at hx
      split at hx <;> cases hx <;> rfl
  | @wakeUp x y hx =>
    refine hlock.stay hpc ?_
    unfold PC.sleeps at hx
    split at hx <;> cases hx <;> rfl
  | @broadcast item rv =>
    have hwake : ∀ y : PC α, y.wakeNonempty.inside = y.inside := by
      intro y
      unfold PC.wakeNonempty
      split <;> rfl
    have hpc' : (s.pc t).wakeNonempty = .push (.broadcast item rv) := by rw [hpc]; rfl
    exact (hlock.map fun u => hwake (s.pc u)).stay hpc' rfl
  | @isEmpty w rv =>
    have hwake : ∀ y : PC α, y.wakeEmpty.inside = y.inside := by
      intro y
      unfold PC.wakeEmpty
      split <;> rfl
    have hpc' : (s.pc t).wakeEmpty = .pop w (.empty rv) := by rw [hpc]; rfl
    exact (hlock.map fun u => hwake (s.pc u)).stay hpc' rfl
  | freeTest => exact hlock.stay hpc (by split <;> rfl)
  | pushDead | popDead => exact hlock
  | _ => exact hlock.stay hpc rfl

theorem locked {s : Queue ι α} (h : (machine ι α).Reachable s) : Locked s := by
  refine h.invariant (I := Locked) ?_ ?_
  · simp [Locked, Mutex, machine, asyncQueueNew, PC.inside, PC.releases]
  · intro s e s' _ hI hs
    exact hI.move rfl (move_cases hs)

end Loomlib.AsyncQueue
