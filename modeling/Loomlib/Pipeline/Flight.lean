import Loomlib.Pipeline.Counts
import Mathlib.Algebra.GroupWithZero.Nat

/-!
# Pipeline — Flight

What `active_lines` counts, seen from the pool: the lines queued as product
tokens and those in the hands of workers. The gate lets the counter come
to `max_threads + 1` and no further, so whoever finds it above
`max_threads` finds that many other lines under way.
-/

namespace Loomlib.Pipeline

open ThreadPool

variable {V : Type} {k n : Nat}

/-! ## Queued and held -/

/-- What a worker has in hand, weighed by `w`. -/
def held (w : Frame V → Nat) : Worker (program V k n) → Nat
  | .popped u => load w u.frames
  | .running _ f => w f
  | _ => 0

/-- What waits in the work queue, weighed by `w`. -/
def queued (w : Frame V → Nat) (s : Pool (program V k n) n) : Nat :=
  (s.workQueue.map fun u => match u.func with
    | .call d => w (.enter d)
    | .termSig => 0).sum

/-- The lines queued or held by workers other than `i`. -/
def otherLines (s : Pool (program V k n) n) (i : Fin n) : Nat :=
  queued Frame.counted s + ∑ j ∈ Finset.univ.erase i, held Frame.counted (s.workers j)

section Held

variable (w : Frame V → Nat)

theorem held_eq (x : Worker (program V k n)) : held w x = weigh w x.frames := by
  cases x with
  | running u f => exact (weigh_singleton w f).symm
  | _ => rfl

theorem queued_eq (s : Pool (program V k n) n) :
    queued w s = weigh w (s.workQueue.map WorkUnit.frames).sum := by
  unfold queued
  induction s.workQueue with
  | nil => rfl
  | cons u q ih =>
    rw [List.map_cons, List.map_cons, List.sum_cons, List.sum_cons, weigh_add, ih]
    congr 1
    unfold WorkUnit.frames
    cases u.func with
    | termSig => rfl
    | call d => exact (weigh_singleton w _).symm

/-- Every activation is queued or held. -/
theorem load_bag (s : Pool (program V k n) n) :
    load w s.bag.frames = queued w s + tally (held w) s.workers := by
  have hheld : tally (held w) s.workers = weigh w (tally Worker.frames s.workers) := by
    rw [weigh_tally]
    exact tally_congr fun i => held_eq w (s.workers i)
  rw [queued_eq, hheld]
  exact weigh_add _ _ _

end Held

theorem otherLines_add (s : Pool (program V k n) n) (i : Fin n) :
    held Frame.counted (s.workers i) + otherLines s i
      = queued Frame.counted s + tally (held Frame.counted) s.workers := by
  have hsum := Finset.add_sum_erase Finset.univ (fun j => held Frame.counted (s.workers j))
    (Finset.mem_univ i)
  unfold otherLines tally
  omega

/-! ## The bound -/

/-- The gate is shut beyond `max_threads`. -/
theorem bounded_move {m m' : Mem V} {f : Frame V} {o : Outcome (Ref (State V)) (Frame V)}
    (h : Move k n m f m' o) (hI : m.activeLines ≤ n + 1) : m'.activeLines ≤ n + 1 := by
  cases h with
  | «open» ht hroom => exact Nat.succ_le_succ hroom
  | retire ha =>
    show _ + 1 ≤ n + 1
    omega
  | retireLast => exact Nat.zero_le _
  | _ => exact hI

theorem bounded {s : Pool (program V k n) n} (h : (machine V k n).Reachable s) :
    s.mem.activeLines ≤ n + 1 := by
  apply bag_invariant (I := fun b : Bag (program V k n) => b.mem.activeLines ≤ n + 1)
    (Nat.zero_le _) ?_ (reachable_onBag h)
  intro b a b' hI _ hs
  cases bagMove_cases hs with
  | unit hmove => exact bounded_move hmove hI
  | terminate | execute => exact hI

/-- What `active_lines` is, in a state of the pipeline. -/
structure Flight (s : Pool (program V k n) n) : Prop where
  /-- It is the number of lines queued or held by workers. -/
  counts : s.mem.activeLines = queued Frame.counted s + tally (held Frame.counted) s.workers
  bound : s.mem.activeLines ≤ n + 1
  /-- The decrement is never applied at 0. -/
  positive : ∀ i u, s.workers i = .running u .retire → 0 < s.mem.activeLines
  live : s.mem.fault = false
  /-- An inlet token that finds the gate shut has a line to wait for. -/
  deferred : ∀ i u d, s.workers i = .running u (.gate d) → s.mem.terminated = false →
    n < s.mem.activeLines → otherLines s i = n + 1

/-- **`active_lines` counts the lines in flight**, whatever the routines
return and whether the pipeline is terminated or not. -/
theorem active_lines_in_flight {s : Pool (program V k n) n} (h : (machine V k n).Reachable s) :
    Flight s := by
  have hC := (sound h).counts
  have hlines : s.mem.activeLines
      = queued Frame.counted s + tally (held Frame.counted) s.workers := by
    rw [← load_bag]
    exact hC.lines.symm
  have hbound := bounded h
  refine ⟨hlines, hbound, ?_, hC.sound, ?_⟩
  · intro i u hw
    have hheld := le_tally (held Frame.counted) s.workers i
    rw [hw] at hheld
    have hone : held Frame.counted (.running u .retire : Worker (program V k n)) = 1 := rfl
    omega
  · intro i u d hw _ hfull
    have hsplit := otherLines_add s i
    rw [hw] at hsplit
    have hzero : held Frame.counted (.running u (.gate d) : Worker (program V k n)) = 0 := rfl
    omega

/-- One worker, one pump and two products: the inlet token is back at the
gate before any line has ended. -/
def deferredRun : List (Event (program Nat 1 1) 1) :=
  .client (.execute 0) :: take first ++ go first 3 ++ .unit first (.returns (some 7)) ::
    .unit first (.malloc 1) :: go first 4 ++ .loop first :: take first ++ go first 3 ++
    .unit first (.returns (some 8)) :: .unit first (.malloc 2) :: go first 4 ++ .loop first ::
    take first ++ go first 2 ++ .unit first (.returns (some 9)) :: go first 3 ++ .loop first ::
    take first ++ go first 1

theorem active_lines_deferred :
    let s := (machine Nat 1 1).final deferredRun (by decide)
    s.mem.activeLines = 2 ∧ otherLines s first = 2 ∧ Flight s :=
  ⟨by decide, by decide, active_lines_in_flight
    ((machine Nat 1 1).reachable_final deferredRun (by decide))⟩

end Loomlib.Pipeline
