import Loomlib.Cache.Moves
import Mathlib.Data.List.Count
import Mathlib.Data.Nat.ModEq

/-!
# Cache — Owners

Every object that `ALLOC` has answered has one owner: the client that
holds it, the call that has it in hand, the slot that stores it, or `FREE`.
-/

namespace Loomlib.Cache

variable {ι α : Type} [DecidableEq ι] [DecidableEq α] {nmemb w : Nat}

/-- How often a call has the object `o` in hand: `cache_alloc` from
clearing its slot until it returns, `cache_free` until it has stored it or
passed it to `FREE`. -/
def PC.hand (o : α) : PC α → Nat
  | .alloc (.clear ptr _ .counter) | .alloc (.release ptr) => if ptr = some o then 1 else 0
  | .free _ .release | .free _ (.store _ .counter) => 0
  | .free ptr _ => if ptr = o then 1 else 0
  | _ => 0

structure Owners [Fintype ι] (s : State ι α) (q : List α) : Prop where
  once : ∀ o, (s.held.countP fun p => p.2 = o) + tally (PC.hand o) s.pc + q.count o
    + s.freed.count o = s.allocated.count o
  fresh : s.allocated.Nodup

/-- What the clients, the calls and `FREE` gain in a step that makes the
writes `ms` has left a slot or comes from `ALLOC`, and what they lose has
been stored. -/
structure Trade [Fintype ι] (s s' : State ι α) (ms : List (Moved α)) : Prop where
  even : ∀ o, (s'.held.countP fun p => p.2 = o) + tally (PC.hand o) s'.pc + (stored ms).count o
      + s'.freed.count o + s.allocated.count o
    = (s.held.countP fun p => p.2 = o) + tally (PC.hand o) s.pc + (reused ms).count o
      + s.freed.count o + s'.allocated.count o
  fresh : s.allocated.Nodup → s'.allocated.Nodup

section Step

variable [Fintype ι] {s s' : State ι α} {q q' : List α} {ms : List (Moved α)} {t : ι} {x y : PC α}

omit [DecidableEq ι] in
theorem Owners.trade (h : Owners s q) (ht : Trade s s' ms) (hq : q ++ stored ms = reused ms ++ q') :
    Owners s' q' where
  fresh := ht.fresh h.fresh
  once o := by
    have hcount := congrArg (List.count o) hq
    rw [List.count_append, List.count_append] at hcount
    have hold := h.once o
    have heven := ht.even o
    omega

/-- One thread trades what it has in hand. -/
theorem Trade.update (hpc : s'.pc = Function.update s.pc t y) (hx : s.pc t = x)
    (heven : ∀ o, (s'.held.countP fun p => p.2 = o) + y.hand o + (stored ms).count o
        + s'.freed.count o + s.allocated.count o
      = (s.held.countP fun p => p.2 = o) + x.hand o + (reused ms).count o
        + s.freed.count o + s'.allocated.count o)
    (hfresh : s.allocated.Nodup → s'.allocated.Nodup) : Trade s s' ms where
  fresh := hfresh
  even o := by
    have hmove := tally_move (PC.hand o) hx y
    have := heven o
    rw [hpc]
    omega

/-- A step that moves no object. -/
theorem Trade.quiet (hpc : s'.pc = Function.update s.pc t y) (hheld : s'.held = s.held)
    (hfreed : s'.freed = s.freed) (hall : s'.allocated = s.allocated) (hx : s.pc t = x)
    (hhand : ∀ o, y.hand o = x.hand o) (hms : ms = []) : Trade s s' ms := by
  apply Trade.update hpc hx
  · intro o
    rw [hheld, hfreed, hall, hhand o, hms]
    rfl
  · intro h
    rwa [hall]

omit [DecidableEq ι] [Fintype ι] in
/-- A call returns an object to its thread. -/
private theorem countP_give (l : List (ι × α)) (ptr : Option α) (o : α) :
    ((ptr.map (t, ·)).toList ++ l).countP (fun p => p.2 = o)
      = l.countP (fun p => p.2 = o) + if ptr = some o then 1 else 0 := by
  cases ptr with
  | none => rfl
  | some x =>
    rw [Option.map_some, Option.toList_some, List.singleton_append, List.countP_cons]
    simp

omit [Fintype ι] in
/-- A client passes an object it holds to `cache_free`. -/
private theorem countP_erase {l : List (ι × α)} {x : α} (h : (t, x) ∈ l) (o : α) :
    (l.erase (t, x)).countP (fun p => p.2 = o) + (if x = o then 1 else 0)
      = l.countP (fun p => p.2 = o) := by
  rw [(List.perm_cons_erase h).countP_eq, List.countP_cons]
  simp

omit [DecidableEq ι] [Fintype ι] in
private theorem count_toList (ptr : Option α) (o : α) :
    ptr.toList.count o = if ptr = some o then 1 else 0 := by
  cases ptr <;> simp [List.count_singleton]

theorem Trade.allocStep {p : AllocPC α} {obj : Option α} {first : Bool}
    (hpc : s.pc t = .alloc p) (hs : s.allocStep nmemb w t obj first p = some s') :
    Trade s s' (moves s (.step t obj first)) := by
  cases p with
  | acquire =>
    simp only [State.allocStep] at hs
    split at hs
    · cases hs
      exact .quiet rfl rfl rfl rfl hpc (fun _ => rfl) (moves_alloc hpc (by simp))
    · cases hs
  | testSlot hd =>
    cases hs
    refine .quiet rfl rfl rfl rfl hpc ?_ (moves_alloc hpc (by simp))
    intro o
    cases s.table (hd % nmemb) <;> rfl
  | callAlloc =>
    cases obj with
    | none =>
      cases hs
      exact .quiet rfl rfl rfl rfl hpc (fun _ => rfl) (moves_alloc hpc (by simp))
    | some x =>
      obtain ⟨hnew, hs⟩ := Option.ite_none_left_eq_some.mp hs
      cases hs
      refine .update rfl hpc ?_ fun h => List.nodup_cons.mpr ⟨hnew, h⟩
      intro o
      simp only [moves_alloc hpc (by simp), stored_nil, reused_nil, State.goto, State.give,
        countP_give, PC.hand, List.count_cons, Option.some.injEq, beq_iff_eq]
      omega
  | clear ptr hd left =>
    have hms : moves s (.step t obj first) = _ := moves_clear hpc
    cases left with
    | both =>
      cases first with
      | true =>
        cases hs
        exact .quiet rfl rfl rfl rfl hpc (fun _ => rfl) hms
      | false =>
        cases hs
        refine .update rfl hpc ?_ id
        intro o
        simp [hms, Left.writesSlot, PC.hand, State.goto, count_toList]
    | counter =>
      cases hs
      exact .quiet rfl rfl rfl rfl hpc (fun _ => rfl) hms
    | slot =>
      cases hs
      refine .update rfl hpc ?_ id
      intro o
      simp [hms, Left.writesSlot, PC.hand, State.goto, count_toList]
  | release ptr =>
    cases hs
    refine .update rfl hpc ?_ id
    intro o
    simp only [moves_alloc hpc (by simp), stored_nil, reused_nil, State.goto, State.give,
      countP_give, PC.hand]
    omega
  | _ =>
    cases hs
    exact .quiet rfl rfl rfl rfl hpc (fun _ => rfl) (moves_alloc hpc (by simp))

theorem Trade.freeStep {ptr : α} {p : FreePC} {obj : Option α} {first : Bool}
    (hpc : s.pc t = .free ptr p) (hs : s.freeStep nmemb w t first ptr p = some s') :
    Trade s s' (moves s (.step t obj first)) := by
  cases p with
  | acquire =>
    simp only [State.freeStep] at hs
    split at hs
    · cases hs
      exact .quiet rfl rfl rfl rfl hpc (fun _ => rfl) (moves_free hpc (by simp))
    · cases hs
  | testSlot tl =>
    cases hs
    refine .quiet rfl rfl rfl rfl hpc ?_ (moves_free hpc (by simp))
    intro o
    cases s.table (tl % nmemb) <;> rfl
  | store tl left =>
    have hms : moves s (.step t obj first) = _ := moves_store hpc
    cases left with
    | both =>
      cases first with
      | true =>
        cases hs
        exact .quiet rfl rfl rfl rfl hpc (fun _ => rfl) hms
      | false =>
        cases hs
        refine .update rfl hpc ?_ id
        intro o
        simp [hms, Left.writesSlot, PC.hand, State.goto, List.count_singleton]
    | counter =>
      cases hs
      exact .quiet rfl rfl rfl rfl hpc (fun _ => rfl) hms
    | slot =>
      cases hs
      refine .update rfl hpc ?_ id
      intro o
      simp [hms, Left.writesSlot, PC.hand, State.goto, List.count_singleton]
  | callFree =>
    cases hs
    refine .update rfl hpc ?_ id
    intro o
    simp only [moves_free hpc (by simp), stored_nil, reused_nil, State.goto, PC.hand,
      List.count_cons, beq_iff_eq]
    omega
  | _ =>
    cases hs
    exact .quiet rfl rfl rfl rfl hpc (fun _ => rfl) (moves_free hpc (by simp))

/-- **Every step is a fair trade.** -/
theorem Trade.step {e : Event ι α} (hs : Cache.step nmemb w s e = some s') :
    Trade s s' (moves s e) := by
  cases e with
  | alloc t =>
    simp only [Cache.step] at hs
    split at hs
    · rename_i hpc
      cases hs
      exact .quiet rfl rfl rfl rfl hpc (fun _ => rfl) rfl
    · cases hs
  | free t ptr =>
    simp only [Cache.step] at hs
    split at hs
    · cases hs
      exact ⟨fun _ => rfl, id⟩
    · rename_i x hpc
      obtain ⟨hheld, hs⟩ := Option.ite_none_right_eq_some.mp hs
      cases hs
      refine .update rfl hpc ?_ id
      intro o
      have := countP_erase hheld o
      simp only [moves, stored_nil, reused_nil, State.goto, PC.hand]
      omega
    · cases hs
  | step t obj first =>
    simp only [Cache.step] at hs
    split at hs
    · cases hs
    · rename_i hpc
      exact .allocStep hpc hs
    · rename_i hpc
      exact .freeStep hpc hs

end Step

/-- What holds of a cache in use. -/
def Sound [Fintype ι] (nmemb w : Nat) (s : State ι α) : Prop :=
  ∃ a q, Slots nmemb w s a q ∧ Owners s q

theorem sound [Fintype ι] {s : State ι α} (hr : (machine ι α nmemb w).Reachable s) :
    Sound nmemb w s := by
  refine hr.invariant (I := Sound nmemb w) ⟨0, [], .new, ?_, List.nodup_nil⟩ ?_
  · intro o
    simp [machine, cacheNew, tally, PC.hand]
  · intro s e s' _ hI hs
    obtain ⟨a, q, hS, hO⟩ := hI
    obtain ⟨a', q', hS', hq⟩ := hS.step hs
    exact ⟨a', q', hS', hO.trade (.step hs) hq⟩

/-- In how many slots the object `o` is stored. -/
def Store.slots (nmemb : Nat) (c : Store α) (o : α) : Nat :=
  ((Finset.range nmemb).filter fun i => c.table i = some o).card

/-- How many owners the object `o` has: clients that hold it, calls that
have it in hand, slots that store it, calls of `FREE`. -/
def State.owners [Fintype ι] (nmemb : Nat) (s : State ι α) (o : α) : Nat :=
  (s.held.countP fun p => p.2 = o) + tally (PC.hand o) s.pc + s.slots nmemb o + s.freed.count o

omit [DecidableEq α] in
/-- The loop of `cache_destroy` walks the queue from its head to its tail,
whose positions differ until it is done: a queue is shorter than `2 ^ w`. -/
theorem destroy_go {c : Store α} {q : List α} {a : Nat}
    (hheld : ∀ j x, q[j]? = some x → c.table (slot nmemb w (a + j)) = some x)
    (htail : c.tail = (a + q.length) % 2 ^ w) (hlen : q.length < 2 ^ w) :
    cacheDestroy.go nmemb w c q.length (a % 2 ^ w) = some (q.map some) := by
  induction q generalizing a with
  | nil =>
    have hend : a % 2 ^ w = c.tail := htail.symm
    rw [List.length_nil, cacheDestroy.go, if_pos hend]
    rfl
  | cons x q ih =>
    have hmore : a % 2 ^ w ≠ c.tail := by
      intro heq
      have hdvd : 2 ^ w ∣ (x :: q).length := Nat.left_modEq_add_iff.mp (heq.trans htail)
      exact absurd (Nat.le_of_dvd (Nat.succ_pos _) hdvd) (Nat.not_le_of_lt hlen)
    have hrest := ih (a := a + 1) (fun j y hj => by
      have := hheld (j + 1) y hj
      rwa [← Nat.add_assoc, Nat.add_right_comm] at this)
      (htail.trans (by rw [List.length_cons, ← Nat.add_assoc, Nat.add_right_comm]))
      (Nat.lt_of_succ_lt hlen)
    have hfirst : c.table (slot nmemb w a) = some x := hheld 0 x rfl
    rw [List.length_cons, cacheDestroy.go, if_neg hmore, incr_mod, hrest, mod_slot, hfirst]
    rfl

section Main

variable [Fintype ι] {s : State ι α}

omit [DecidableEq ι] in
/-- Between calls the loop of `cache_destroy` frees the queue. -/
theorem Sound.destroy (hI : Sound nmemb w s) (hn : 0 < nmemb) (hw : nmemb < 2 ^ w)
    (hidle : ∀ t, s.pc t = .idle) :
    ∃ l : List α, (∃ fuel, cacheDestroy nmemb w s.toStore fuel = some (l.map some)) ∧ l.Nodup ∧
      ∀ o, o ∈ l ↔ ∃ i < nmemb, s.table i = some o := by
  obtain ⟨a, q, hS, hO⟩ := hI
  have hslot : ∀ p, slot nmemb w p < nmemb := by
    intro p
    exact Nat.mod_lt _ hn
  have hhead : s.head = a % 2 ^ w := hS.head.resolve_left fun ⟨t, ht⟩ => by
    rw [hidle t] at ht; cases ht
  have htail : s.tail = (a + q.length) % 2 ^ w := hS.tail.resolve_left fun ⟨t, ht⟩ => by
    rw [hidle t] at ht; cases ht
  refine ⟨q, ⟨q.length, ?_⟩, List.nodup_iff_count_le_one.mpr ?_, ?_⟩
  · rw [cacheDestroy, hhead]
    exact destroy_go hS.window.held htail
      (Nat.lt_of_le_of_lt (hS.window.length_le hslot) hw)
  · intro o
    have := hO.once o
    have := List.nodup_iff_count_le_one.mp hO.fresh o
    omega
  · intro o
    rw [hS.window.mem_iff]
    refine ⟨fun ⟨i, hi⟩ => ?_, fun ⟨i, _, hi⟩ => ⟨i, hi⟩⟩
    obtain ⟨j, -, rfl⟩ := hS.window.used i o hi
    exact ⟨_, hslot _, hi⟩

/-- **Every object has one owner**: in every state a cache can reach, an
object that `ALLOC` has answered is held by one client, or in the hands of
one call, or in one slot, or was passed to `FREE` once, and any other is
nowhere; and between calls `cache_destroy` ends and frees the objects of
the slots, each once. `nmemb` is a `size_t` like the counters. -/
theorem owned_once (hn : 0 < nmemb) (hw : nmemb < 2 ^ w)
    (hr : (machine ι α nmemb w).Reachable s) :
    (∀ o, s.owners nmemb o = if o ∈ s.allocated then 1 else 0) ∧
    ((∀ t, s.pc t = .idle) →
      ∃ l : List α, (∃ fuel, cacheDestroy nmemb w s.toStore fuel = some (l.map some)) ∧ l.Nodup ∧
        ∀ o, o ∈ l ↔ ∃ i < nmemb, s.table i = some o) := by
  refine ⟨?_, (sound hr).destroy hn hw⟩
  intro o
  obtain ⟨a, q, hS, hO⟩ := sound hr
  have hslots : s.slots nmemb o = q.count o :=
    hS.window.card_slots (fun p => Nat.mod_lt _ hn) o
  rw [State.owners, hslots, hO.once o, hO.fresh.count]

end Main

/-- One thread frees the object 7; the other finds the cache empty just
before it is stored, and calls `ALLOC`. -/
def crossing : List (Event Bool Nat) :=
  let go (t : Bool) (k : Nat) : List (Event Bool Nat) := List.replicate k (.step t none true)
  .alloc false :: go false 4 ++ .step false (some 7) true :: .free false (some 7) :: go false 5 ++
    .alloc true :: go true 4 ++ go false 2 ++ [.step true (some 8) true]

theorem owned_once_crossing :
    let s := (machine Bool Nat 2 2).final crossing (by decide)
    s.held = [(true, 8)] ∧ s.owners 2 7 = 1 ∧
    ∃ l : List Nat, (∃ fuel, cacheDestroy 2 2 s.toStore fuel = some (l.map some)) ∧ l.Nodup ∧
      ∀ o, o ∈ l ↔ ∃ i < 2, s.table i = some o :=
  have h := owned_once (by decide) (by decide)
    ((machine Bool Nat 2 2).reachable_final crossing (by decide))
  ⟨by decide, h.1 7, h.2 (by decide)⟩

end Loomlib.Cache
