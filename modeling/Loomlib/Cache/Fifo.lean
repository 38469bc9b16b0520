import Loomlib.Cache.Calls
import Loomlib.Cache.Slots
import Mathlib.Data.Fintype.EquivFin
import Mathlib.Data.Nat.ModEq

/-!
# Cache — Fifo

Calls that do not overlap, against a queue of `nmemb` objects. The head end
is always right: it hands out the oldest object there is. The tail end takes
the cache for full when its slot is used, and that is so exactly when
positions `nmemb` apart share a slot, across the wrap of the counters too.
-/

namespace Loomlib.Cache

variable {α : Type} [DecidableEq α] {nmemb w : Nat} {s s' : Session α} {a : Nat}

/-- The session's objects are in the slots of the positions from `a` on. -/
structure Session.At (nmemb w : Nat) (s : Session α) (a : Nat) : Prop where
  window : Window (slot nmemb w) s.table a s.cached
  head : s.head = a % 2 ^ w
  tail : s.tail = (a + s.cached.length) % 2 ^ w

/-- What the calls answer is what a queue of `nmemb` objects would:
`cache_alloc` the oldest object, and nothing only if there is none, and
`cache_free` gives its object to `FREE` if there are `nmemb` of them, and
to nobody otherwise. -/
structure Session.Agrees (nmemb w : Nat) (s : Session α) : Prop where
  alloc : (cacheAlloc nmemb w s.toStore).2 = s.cached.head?
  free : ∀ x ∈ s.held, (cacheFree nmemb w s.toStore (some x)).2
    = if s.cached.length = nmemb then some x else none

/-- The tail counter has wrapped, and stands at a slot that is in use since
before, though there is room. -/
def Session.Skewed (nmemb w : Nat) (s : Session α) : Prop :=
  s.tail < 2 ^ w % nmemb ∧ 2 ^ w % nmemb ≤ s.cached.length ∧ s.cached.length < nmemb

namespace Session.At

/-! ## The calls -/

omit [DecidableEq α] in
theorem head_slot (h : s.At nmemb w a) : s.table (s.head % nmemb) = s.cached.head? := by
  rw [h.head, mod_slot, h.window.front]

omit [DecidableEq α] in
theorem tail_slot (h : s.At nmemb w a) :
    s.tail % nmemb = slot nmemb w (a + s.cached.length) := by
  rw [h.tail, mod_slot]

/-- `cache_alloc` calls `ALLOC`. -/
theorem call_alloc (h : s.At nmemb w a) (hq : s.cached = []) {x : α} (hx : x ∉ s.allocated) :
    s.call nmemb w (.alloc (some x))
      = some { s with held := x :: s.held, allocated := x :: s.allocated } := by
  have hslot := h.head_slot
  rw [hq, List.head?_nil] at hslot
  simp [Session.call, cacheAlloc, hslot, hx]

/-- `cache_alloc` takes the oldest object out. -/
theorem call_take (h : s.At nmemb w a) {y : α} {q : List α} (hq : s.cached = y :: q)
    (obj : Option α) : ∃ s', s.call nmemb w (.alloc obj) = some s' ∧ s'.At nmemb w (a + 1) ∧
      s'.cached = q ∧ s'.held = y :: s.held := by
  have hslot := h.head_slot
  rw [hq, List.head?_cons] at hslot
  have hrest : s.cached.erase y = q := by rw [hq, List.erase_cons_head]
  refine ⟨{ s with
    head := incr w s.head
    table := Function.update s.table (s.head % nmemb) none
    cached := s.cached.erase y
    held := y :: s.held }, by simp only [Session.call, cacheAlloc, hslot], ⟨?_, ?_, ?_⟩, hrest, rfl⟩
  · rw [hrest, h.head]
    exact (hq ▸ h.window).pop
  · rw [h.head, incr_mod]
  · rw [hrest, h.tail, hq, List.length_cons, ← Nat.add_assoc, Nat.add_right_comm]

/-- `cache_free` stores the object. -/
theorem call_store (h : s.At nmemb w a) {x : α} (hx : x ∈ s.held)
    (hfree : s.table (slot nmemb w (a + s.cached.length)) = none) :
    ∃ s', s.call nmemb w (.free (some x)) = some s' ∧ s'.At nmemb w a ∧
      s'.cached = s.cached ++ [x] ∧ s'.held = s.held.erase x := by
  have hslot := hfree
  rw [← h.tail_slot] at hslot
  refine ⟨{ s with
    tail := incr w s.tail
    table := Function.update s.table (s.tail % nmemb) (some x)
    cached := s.cached ++ [x]
    held := s.held.erase x },
    by simp only [Session.call, cacheFree, hslot, if_pos hx], ⟨?_, h.head, ?_⟩, rfl, rfl⟩
  · rw [h.tail_slot]
    exact h.window.push hfree x
  · rw [h.tail, incr_mod, List.length_append]
    rfl

/-- Every call leaves the objects in a row of positions. -/
theorem call (h : s.At nmemb w a) {c : Call α} (hs : s.call nmemb w c = some s') :
    ∃ a', s'.At nmemb w a' := by
  cases c with
  | alloc obj =>
    cases hq : s.cached with
    | nil =>
      have hslot := h.head_slot
      rw [hq, List.head?_nil] at hslot
      simp only [Session.call, cacheAlloc, hslot] at hs
      refine ⟨a, ?_⟩
      cases obj with
      | none => cases hs; exact ⟨h.window, h.head, h.tail⟩
      | some x =>
        obtain ⟨-, hs⟩ := Option.ite_none_left_eq_some.mp hs
        cases hs
        exact ⟨h.window, h.head, h.tail⟩
    | cons y q =>
      obtain ⟨s₁, hcall, h₁, -, -⟩ := h.call_take hq obj
      cases hs.symm.trans hcall
      exact ⟨_, h₁⟩
  | free ptr =>
    cases ptr with
    | none => cases hs; exact ⟨a, h⟩
    | some x =>
      obtain ⟨hx, hs'⟩ := Option.ite_none_right_eq_some.mp hs
      cases hslot : s.table (s.tail % nmemb) with
      | none =>
        obtain ⟨s₁, hcall, h₁, -, -⟩ := h.call_store hx (h.tail_slot ▸ hslot)
        cases hs.symm.trans hcall
        exact ⟨_, h₁⟩
      | some y =>
        simp only [cacheFree, hslot] at hs'
        cases hs'
        exact ⟨a, h.window, h.head, h.tail⟩

end Session.At

theorem exists_at (h : (calls α nmemb w).Reachable s) : ∃ a, s.At nmemb w a := by
  refine h.invariant (I := fun s => ∃ a, s.At nmemb w a) ⟨0, .empty _ _, ?_, ?_⟩ ?_
  · intro s c s' _ hI hs
    obtain ⟨a, h⟩ := hI
    exact h.call hs
  · exact (Nat.zero_mod _).symm
  · exact (Nat.zero_mod _).symm

/-! ## When the last slot is used -/

/-- Positions less than `nmemb` apart share a slot only across the wrap,
and only at one distance. -/
theorem slot_eq_iff (hw : nmemb < 2 ^ w) {p d : Nat} (hd : 0 < d) (hdn : d < nmemb) :
    slot nmemb w p = slot nmemb w (p + d) ↔ (p + d) % 2 ^ w < d ∧ d = 2 ^ w % nmemb := by
  have hp : p % 2 ^ w < 2 ^ w := Nat.mod_lt _ (by omega)
  have hdw : d % 2 ^ w = d := Nat.mod_eq_of_lt (by omega)
  unfold slot
  rw [Nat.add_mod, hdw]
  generalize p % 2 ^ w = x at hp ⊢
  by_cases hwrap : x + d < 2 ^ w
  · rw [Nat.mod_eq_of_lt hwrap]
    refine iff_of_false ?_ (by omega)
    intro heq
    have hdvd : nmemb ∣ d := Nat.left_modEq_add_iff.mp heq
    exact absurd (Nat.le_of_dvd hd hdvd) (by omega)
  · have hlt : x + d - 2 ^ w < 2 ^ w := by omega
    have hsub : (x + d) % 2 ^ w = x + d - 2 ^ w := by
      rw [Nat.mod_eq_sub_mod (by omega), Nat.mod_eq_of_lt hlt]
    rw [hsub]
    obtain ⟨y, rfl⟩ : ∃ y, x = y + (2 ^ w - d) := ⟨x - (2 ^ w - d), by omega⟩
    have hback : y + (2 ^ w - d) + d - 2 ^ w = y := by omega
    rw [hback]
    constructor
    · intro heq
      have hdvd : nmemb ∣ 2 ^ w - d := Nat.left_modEq_add_iff.mp heq.symm
      have hmod : 2 ^ w % nmemb = d % nmemb := (Nat.modEq_iff_dvd' (by omega)).mpr hdvd |>.symm
      exact ⟨by omega, by rw [hmod, Nat.mod_eq_of_lt hdn]⟩
    · intro hboth
      obtain ⟨-, rfl⟩ := hboth
      have hdvd : nmemb ∣ 2 ^ w - 2 ^ w % nmemb := Nat.dvd_sub_mod _
      exact (Nat.left_modEq_add_iff.mpr hdvd).symm

omit [DecidableEq α] in
/-- `cache_free` finds its slot used if the cache is full, or skewed. -/
theorem Session.At.used_iff (h : s.At nmemb w a) (hn : 0 < nmemb) (hw : nmemb < 2 ^ w) :
    s.table (s.tail % nmemb) ≠ none ↔ s.cached.length = nmemb ∨ s.Skewed nmemb w := by
  have hlt : ∀ p, slot nmemb w p < nmemb := by
    intro p
    exact Nat.mod_lt _ hn
  have hlen := h.window.length_le hlt
  rw [h.tail_slot]
  constructor
  · intro hused
    apply (Nat.lt_or_eq_of_le hlen).symm.imp_right
    intro hroom
    obtain ⟨y, hy⟩ := Option.ne_none_iff_exists'.mp hused
    obtain ⟨j, hj, hs⟩ := h.window.used _ y hy
    obtain ⟨hjlt, -⟩ := List.getElem?_eq_some_iff.mp hj
    have hdist : a + s.cached.length = a + j + (s.cached.length - j) := by omega
    rw [hdist, slot_eq_iff hw (by omega) (by omega), ← hdist, ← h.tail] at hs
    exact ⟨by omega, by omega, hroom⟩
  · rintro (hfull | ⟨htail, hle, hroom⟩)
    · exact h.window.full hlt hfull (hlt _)
    · -- the position that far before the end is used, and has the same slot
      obtain ⟨j, hj⟩ : ∃ j, s.cached.length = j + 2 ^ w % nmemb :=
        ⟨_, (Nat.sub_add_cancel hle).symm⟩
      have hpos : 0 < 2 ^ w % nmemb := Nat.zero_lt_of_lt htail
      have hdist : a + s.cached.length = a + j + 2 ^ w % nmemb := by omega
      have hshare : slot nmemb w (a + j) = slot nmemb w (a + s.cached.length) := by
        rw [hdist]
        apply (slot_eq_iff hw hpos (Nat.mod_lt _ hn)).mpr
        rw [← hdist, ← h.tail]
        exact ⟨htail, rfl⟩
      have hjlt : j < s.cached.length := by omega
      rw [← hshare, h.window.held j _ (List.getElem?_eq_getElem hjlt)]
      exact Option.some_ne_none _

omit [DecidableEq α] in
theorem Session.At.alloc (h : s.At nmemb w a) :
    (cacheAlloc nmemb w s.toStore).2 = s.cached.head? := by
  unfold cacheAlloc
  rw [h.head_slot]
  cases s.cached.head? <;> rfl

omit [DecidableEq α] in
theorem Session.At.free_iff (h : s.At nmemb w a) (hn : 0 < nmemb) (hw : nmemb < 2 ^ w) (x : α) :
    (cacheFree nmemb w s.toStore (some x)).2 = (if s.cached.length = nmemb then some x else none)
      ↔ ¬ s.Skewed nmemb w := by
  have hused := h.used_iff hn hw
  unfold cacheFree
  by_cases hfull : s.cached.length = nmemb
  · have hno : ¬ s.Skewed nmemb w := fun hsk => absurd hfull (Nat.ne_of_lt hsk.2.2)
    obtain ⟨y, hy⟩ := Option.ne_none_iff_exists'.mp (hused.mpr (.inl hfull))
    simp only [hy, if_pos hfull, hno, not_false_eq_true]
  · rw [if_neg hfull]
    cases hslot : s.table (s.tail % nmemb) with
    | none =>
      apply iff_of_true rfl
      intro hsk
      exact hused.mpr (.inr hsk) hslot
    | some y =>
      have hne : s.table (s.tail % nmemb) ≠ none := by
        rw [hslot]
        exact Option.some_ne_none _
      have hskew : s.Skewed nmemb w := (hused.mp hne).resolve_left hfull
      exact iff_of_false (Option.some_ne_none _) (not_not_intro hskew)

/-! ## How a cache gets skewed -/

section Growth

variable [Infinite α]

/-- The clients hold `k` objects of a cache that is still as it was made. -/
private theorem exists_holding (k : Nat) : ∃ s : Session α, (calls α nmemb w).Reachable s ∧
    s.At nmemb w 0 ∧ s.cached = [] ∧ s.held.length = k := by
  induction k with
  | zero =>
    refine ⟨_, .init, ⟨.empty _ _, ?_, ?_⟩, rfl, rfl⟩
    · exact (Nat.zero_mod _).symm
    · exact (Nat.zero_mod _).symm
  | succ k ih =>
    obtain ⟨s, hr, h, hq, hk⟩ := ih
    obtain ⟨x, hx⟩ := Infinite.exists_notMem_finset s.allocated.toFinset
    have hcall := h.call_alloc hq (fun hmem => hx (List.mem_toFinset.mpr hmem))
    exact ⟨_, reachable_call hr hcall, ⟨h.window, h.head, h.tail⟩, hq, by rw [List.length_cons, hk]⟩

/-- One object goes in and out until the counters stand at `a`. -/
private theorem exists_moved (k a : Nat) : ∃ s : Session α, (calls α nmemb w).Reachable s ∧
    s.At nmemb w a ∧ s.cached = [] ∧ s.held.length = k + 1 := by
  induction a with
  | zero => exact exists_holding (k + 1)
  | succ a ih =>
    obtain ⟨s, hr, h, hq, hk⟩ := ih
    obtain ⟨x, hx⟩ := List.exists_mem_of_length_pos (l := s.held) (by omega)
    have hfree : s.table (slot nmemb w (a + s.cached.length)) = none :=
      h.window.free fun j hj => by rw [hq] at hj; cases hj
    obtain ⟨s₁, hcall₁, h₁, hq₁, hheld₁⟩ := h.call_store hx hfree
    rw [hq, List.nil_append] at hq₁
    obtain ⟨s₂, hcall₂, h₂, hq₂, hheld₂⟩ := h₁.call_take hq₁ none
    refine ⟨s₂, reachable_call (reachable_call hr hcall₁) hcall₂, h₂, hq₂, ?_⟩
    rw [hheld₂, hheld₁, List.length_cons, List.length_erase_of_mem hx]
    omega

/-- The last `2 ^ w % nmemb` positions before the wrap are filled. -/
private theorem exists_filled (hn : 0 < nmemb) (hw : nmemb < 2 ^ w) {j : Nat}
    (hj : j ≤ 2 ^ w % nmemb) : ∃ s : Session α, (calls α nmemb w).Reachable s ∧
      s.At nmemb w (2 ^ w - 2 ^ w % nmemb) ∧ s.cached.length = j ∧
      s.held.length = 2 ^ w % nmemb - j + 1 := by
  have hr := Nat.mod_lt (2 ^ w) hn
  induction j with
  | zero =>
    obtain ⟨s, hreach, h, hq, hk⟩ : ∃ s : Session α, _ :=
      exists_moved (2 ^ w % nmemb) (2 ^ w - 2 ^ w % nmemb)
    exact ⟨s, hreach, h, congrArg List.length hq, hk⟩
  | succ j ih =>
    obtain ⟨s, hreach, h, hq, hk⟩ := ih (Nat.le_of_succ_le hj)
    obtain ⟨x, hx⟩ := List.exists_mem_of_length_pos (l := s.held) (by omega)
    have hfree : s.table (s.tail % nmemb) = none := by
      by_contra hused
      have htail : s.tail = 2 ^ w - 2 ^ w % nmemb + j := by
        rw [h.tail, hq, Nat.mod_eq_of_lt (by omega)]
      rcases (h.used_iff hn hw).mp hused with hfull | ⟨-, hle, -⟩ <;> omega
    obtain ⟨s₁, hcall₁, h₁, hq₁, hheld₁⟩ := h.call_store hx (h.tail_slot ▸ hfree)
    refine ⟨s₁, reachable_call hreach hcall₁, h₁, ?_, ?_⟩
    · rw [hq₁, List.length_append, hq]
      rfl
    · rw [hheld₁, List.length_erase_of_mem hx]
      omega

theorem exists_skewed (hn : 0 < nmemb) (hw : nmemb < 2 ^ w) (hdvd : ¬ nmemb ∣ 2 ^ w) :
    ∃ s : Session α, (calls α nmemb w).Reachable s ∧ s.Skewed nmemb w ∧
      s.cached.length = 2 ^ w % nmemb ∧ ∃ x, x ∈ s.held := by
  have hpos : 0 < 2 ^ w % nmemb := Nat.pos_of_ne_zero fun hz => hdvd (Nat.dvd_of_mod_eq_zero hz)
  have hle := Nat.mod_le (2 ^ w) nmemb
  obtain ⟨s, hreach, h, hq, hk⟩ : ∃ s : Session α, _ := exists_filled hn hw le_rfl
  have htail : s.tail = 0 := by rw [h.tail, hq, Nat.sub_add_cancel hle, Nat.mod_self]
  exact ⟨s, hreach, ⟨htail ▸ hpos, hq.ge, hq ▸ Nat.mod_lt _ hn⟩, hq,
    List.exists_mem_of_length_pos (by omega)⟩

end Growth

/-- **The cache is a queue of `nmemb` objects, for ever, exactly if
`nmemb` divides `2 ^ w`**. Whatever calls were made before, `cache_alloc`
answers the object stored earliest, or calls `ALLOC` if there is none;
and `cache_free` passes its object to `FREE` if there are `nmemb` cached
and to nobody otherwise, exactly if the cache is not skewed. -/
theorem fifo_iff [Infinite α] (hn : 0 < nmemb) (hw : nmemb < 2 ^ w) :
    (∀ s : Session α, (calls α nmemb w).Reachable s →
      (cacheAlloc nmemb w s.toStore).2 = s.cached.head? ∧
      ∀ x ∈ s.held, ((cacheFree nmemb w s.toStore (some x)).2
        = (if s.cached.length = nmemb then some x else none) ↔ ¬ s.Skewed nmemb w)) ∧
    ((∀ s : Session α, (calls α nmemb w).Reachable s → s.Agrees nmemb w) ↔ nmemb ∣ 2 ^ w) := by
  refine ⟨?_, ?_, ?_⟩
  · intro s hr
    obtain ⟨a, h⟩ := exists_at hr
    exact ⟨h.alloc, fun x _ => h.free_iff hn hw x⟩
  · intro hall
    by_contra hdvd
    obtain ⟨s, hr, hskew, -, x, hx⟩ : ∃ s : Session α, _ := exists_skewed hn hw hdvd
    obtain ⟨a, h⟩ := exists_at hr
    exact (h.free_iff hn hw x).mp ((hall s hr).free x hx) hskew
  · intro hdvd s hr
    obtain ⟨a, h⟩ := exists_at hr
    have hno : ¬ s.Skewed nmemb w := by
      intro hsk
      have hzero := hsk.1
      rw [Nat.mod_eq_zero_of_dvd hdvd] at hzero
      exact absurd hzero (Nat.not_lt_zero _)
    exact ⟨h.alloc, fun x _ => (h.free_iff hn hw x).mpr hno⟩

/-- A cache of 2 fills up, with 9 left in its client's hands. -/
def filled : List (Call Nat) :=
  [.alloc (some 7), .alloc (some 8), .alloc (some 9), .free (some 7), .free (some 8)]

theorem fifo_iff_filled :
    let s := (calls Nat 2 2).final filled (by decide)
    s.cached = [7, 8] ∧ s.held = [9] ∧ s.Agrees 2 2 :=
  ⟨by decide, by decide, (fifo_iff (by decide) (by decide)).2.mpr (by decide) _
    ((calls Nat 2 2).reachable_final filled (by decide))⟩

/-- A cache of 3 whose counters have 2 bits: after three rounds the object
7 is stored at position 3, and the tail counter wraps to its slot. -/
def wrapped : List (Call Nat) :=
  [.alloc (some 7), .alloc (some 8), .free (some 7), .alloc none, .free (some 7), .alloc none,
    .free (some 7), .alloc none, .free (some 7)]

/-- Then 8 goes to `FREE` with one object cached; and the same comes to pass
with counters of 64 bits. -/
theorem freed_with_room :
    (∃ s, (calls Nat 3 2).Reachable s ∧ s.cached = [7] ∧ 8 ∈ s.held ∧
      (cacheFree 3 2 s.toStore (some 8)).2 = some 8) ∧
    ∃ s : Session Nat, (calls Nat 3 64).Reachable s ∧ s.cached.length = 1 ∧
      ∃ x ∈ s.held, (cacheFree 3 64 s.toStore (some x)).2 ≠ none := by
  refine ⟨⟨_, (calls Nat 3 2).reachable_final wrapped (by decide), by decide, by decide,
    by decide⟩, ?_⟩
  obtain ⟨s, hr, hskew, hlen, x, hx⟩ : ∃ s : Session Nat, (calls Nat 3 64).Reachable s ∧ _ :=
    exists_skewed (by decide) (by decide) (by decide)
  obtain ⟨a, h⟩ := exists_at hr
  refine ⟨s, hr, hlen, x, hx, ?_⟩
  intro hnone
  refine (h.free_iff (by decide) (by decide) x).mp ?_ hskew
  rw [hnone, if_neg (Nat.ne_of_lt hskew.2.2)]

end Loomlib.Cache
