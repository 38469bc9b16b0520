import Loomlib.Cache.Moves
import Mathlib.Data.Nat.ModEq

/-!
# Cache — Concurrent

What the threads make of the cache together. In the order of the writes of
the slots the objects leave as they came, whatever the interleaving. Each
end decides by what it reads of one slot under its own lock, while the
other end may be at work: it reads NULL at the head if and only if nothing
is stored at that moment, and an object at the tail if and only if `nmemb`
objects are, provided `nmemb` divides `2 ^ w`.
-/

namespace Loomlib.Cache

variable {ι α : Type} [DecidableEq ι] [DecidableEq α] {nmemb w : Nat}

/-- The queue of a cache is what was stored and not taken out again. -/
theorem filed {s : State ι α} {ms : List (Moved α)}
    (h : ((machine ι α nmemb w).traced moves).Reachable (s, ms)) :
    ∃ a q, Slots nmemb w s a q ∧ stored ms = reused ms ++ q := by
  refine h.invariant (I := fun sm => ∃ a q, Slots nmemb w sm.1 a q ∧ stored sm.2 = reused sm.2 ++ q)
    ⟨0, [], .new, rfl⟩ ?_
  rintro ⟨s, ms⟩ e ⟨s', ms'⟩ - ⟨a, q, hS, hq⟩ hs
  obtain ⟨hs, rfl⟩ := Machine.traced_step hs
  obtain ⟨a', q', hS', hq'⟩ := hS.step hs
  refine ⟨a', q', hS', ?_⟩
  rw [stored_append, reused_append, hq, List.append_assoc, hq', List.append_assoc]

/-- What the threads can rely on, in a state after the writes `ms`. -/
structure Concurrent (nmemb w : Nat) (s : State ι α) (ms : List (Moved α)) : Prop where
  /-- The objects leave the cache in the order they were stored. -/
  order : reused ms <+: stored ms
  room : (stored ms).length ≤ (reused ms).length + nmemb
  /-- `cache_alloc` finds NULL if and only if the cache is empty, -/
  empty : ∀ t head, s.pc t = .alloc (.testSlot head) →
    (s.table (head % nmemb) = none ↔ stored ms = reused ms)
  /-- and else it takes the object that has been stored longest. -/
  oldest : ∀ t ptr head, s.pc t = .alloc (.clear ptr head .both) →
    ptr ≠ none ∧ ptr = (stored ms)[(reused ms).length]?
  /-- `cache_free` finds no room if and only if the cache is full. -/
  full : nmemb ∣ 2 ^ w → ∀ t ptr tail, s.pc t = .free ptr (.testSlot tail) →
    (s.table (tail % nmemb) ≠ none ↔ (stored ms).length = (reused ms).length + nmemb)

/-- **The cache is a bounded FIFO queue of its threads**, in every
interleaving of any number of calls. -/
theorem concurrent_fifo (hn : 0 < nmemb) {s : State ι α} {ms : List (Moved α)}
    (h : ((machine ι α nmemb w).traced moves).Reachable (s, ms)) : Concurrent nmemb w s ms := by
  obtain ⟨a, q, hS, hq⟩ := filed h
  have hslot : ∀ p, slot nmemb w p < nmemb := fun p => Nat.mod_lt _ hn
  have hroom := hS.window.length_le hslot
  have hlen : (stored ms).length = (reused ms).length + q.length := by
    rw [hq, List.length_append]
  refine ⟨⟨q, hq.symm⟩, by omega, ?_, ?_, ?_⟩
  · intro t hd hpc
    have hlocal := hpc ▸ hS.locals t
    obtain rfl : hd = a % 2 ^ w := hlocal
    rw [mod_slot, hS.window.front, List.head?_eq_none_iff, hq]
    simp
  · intro t ptr hd hpc
    have hlocal := hpc ▸ hS.locals t
    obtain ⟨rfl, hne, -⟩ : q.head? = ptr ∧ q ≠ [] ∧ hd = a % 2 ^ w := hlocal
    refine ⟨?_, ?_⟩
    · rwa [Ne, List.head?_eq_none_iff]
    · rw [hq, List.getElem?_append_right (Nat.le_refl _), Nat.sub_self, List.head?_eq_getElem?]
  · intro hdvd t ptr tl hpc
    have hlocal := hpc ▸ hS.locals t
    obtain rfl : tl = (a + q.length) % 2 ^ w := hlocal
    have hmod : ∀ p, slot nmemb w p = p % nmemb := fun p => Nat.mod_mod_of_dvd p hdvd
    rw [mod_slot, hlen, Nat.add_left_cancel_iff]
    constructor
    · intro hused
      obtain ⟨y, hy⟩ := Option.ne_none_iff_exists'.mp hused
      obtain ⟨j, hj, hs⟩ := hS.window.used _ y hy
      obtain ⟨hjlt, -⟩ := List.getElem?_eq_some_iff.mp hj
      -- two positions of one slot are a multiple of `nmemb` apart
      rw [hmod, hmod] at hs
      have hd : nmemb ∣ a + q.length - (a + j) := (Nat.modEq_iff_dvd' (by omega)).mp hs
      have := Nat.le_of_dvd (by omega) hd
      omega
    · intro hfull
      exact hS.window.full hslot hfull (hslot _)

/-- Two threads at both ends of a cache of one object: thread 0 finds it
full while thread 1 is about to take the object out. -/
def bothEnds : List (Event Bool Nat) :=
  let go (t : Bool) (k : Nat) : List (Event Bool Nat) := List.replicate k (.step t none true)
  .alloc false :: go false 4 ++ .step false (some 7) true :: .alloc false :: go false 4 ++
    .step false (some 8) true :: .free false (some 7) :: go false 7 ++ .alloc true :: go true 6 ++
    .free false (some 8) :: go false 2

theorem concurrent_fifo_both :
    let s := ((machine Bool Nat 1 2).traced moves).final bothEnds (by decide)
    s.2 = [.stored 7] ∧ s.1.pc true = .alloc (.clear (some 7) 0 .both) ∧
      s.1.pc false = .free 8 (.testSlot 1) ∧ Concurrent 1 2 s.1 s.2 :=
  ⟨by decide, by decide, by decide, concurrent_fifo (by decide)
    (Machine.reachable_final bothEnds (by decide))⟩

end Loomlib.Cache
