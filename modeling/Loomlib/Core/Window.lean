import Mathlib.Data.Finset.Card
import Mathlib.Logic.Function.Basic

/-!
# Window — a queue kept in the slots of a table

A table with numbered slots keeps the queue `q` in the slots of the
positions `a`, `a + 1`, ... , which need not be the slots `a`, `a + 1`,
... modulo anything: `slot` is arbitrary. `Window slot table a q` says that
the table holds the queue there and nothing else. A writer that stores at
the end only where it finds the slot empty keeps the positions apart.
-/

namespace Loomlib

universe u

variable {α : Type u} {slot : Nat → Nat} {table : Nat → Option α} {a : Nat} {q : List α}

structure Window (slot : Nat → Nat) (table : Nat → Option α) (a : Nat) (q : List α) : Prop where
  held : ∀ j x, q[j]? = some x → table (slot (a + j)) = some x
  used : ∀ i x, table i = some x → ∃ j, q[j]? = some x ∧ slot (a + j) = i
  apart : ∀ j k, j < q.length → k < q.length → slot (a + j) = slot (a + k) → j = k

namespace Window

theorem empty (slot : Nat → Nat) (a : Nat) : Window slot (fun _ => none : Nat → Option α) a [] :=
  ⟨nofun, nofun, nofun⟩

/-- The first slot holds the oldest entry. -/
theorem front (h : Window slot table a q) : table (slot a) = q.head? := by
  cases q with
  | nil =>
    cases hx : table (slot a) with
    | none => rfl
    | some x =>
      obtain ⟨j, hj, -⟩ := h.used _ x hx
      cases hj
  | cons x q => exact h.held 0 x rfl

/-- The slot of a position whose slot no position of the queue has. -/
theorem free (h : Window slot table a q) {p : Nat}
    (hp : ∀ j, j < q.length → slot (a + j) ≠ slot p) : table (slot p) = none := by
  cases hx : table (slot p) with
  | none => rfl
  | some x =>
    obtain ⟨j, hj, hs⟩ := h.used _ x hx
    obtain ⟨hlt, -⟩ := List.getElem?_eq_some_iff.mp hj
    exact absurd hs (hp j hlt)

/-- Storing at the end, where the slot is empty. -/
theorem push (h : Window slot table a q) (hfree : table (slot (a + q.length)) = none) (x : α) :
    Window slot (Function.update table (slot (a + q.length)) (some x)) a (q ++ [x]) where
  held j y hj := by
    by_cases hjq : j < q.length
    · rw [List.getElem?_append_left hjq] at hj
      have hold := h.held j y hj
      have hne : slot (a + j) ≠ slot (a + q.length) := fun heq =>
        nomatch (heq ▸ hold).symm.trans hfree
      exact (Function.update_of_ne hne _ _).trans hold
    · rw [List.getElem?_append_right (by omega)] at hj
      obtain ⟨hlt, hy⟩ := List.getElem?_eq_some_iff.mp hj
      simp only [List.length_singleton] at hlt
      obtain rfl : j = q.length := by omega
      simp only [Nat.sub_self, List.getElem_singleton] at hy
      rw [Function.update_self, hy]
  used i y hi := by
    by_cases hie : i = slot (a + q.length)
    · subst hie
      rw [Function.update_self] at hi
      exact ⟨q.length, by simp [Option.some.inj hi], rfl⟩
    · rw [Function.update_of_ne hie] at hi
      obtain ⟨j, hj, hs⟩ := h.used i y hi
      obtain ⟨hlt, -⟩ := List.getElem?_eq_some_iff.mp hj
      exact ⟨j, by rw [List.getElem?_append_left hlt, hj], hs⟩
  apart j k hj hk hs := by
    -- the slot at the end was empty, so no position before has it
    have hnew : ∀ l, l < q.length → slot (a + l) ≠ slot (a + q.length) := by
      intro l hl heq
      have hold := h.held l q[l] (List.getElem?_eq_getElem hl)
      rw [heq, hfree] at hold
      cases hold
    rw [List.length_append, List.length_singleton] at hj hk
    by_cases hjq : j < q.length <;> by_cases hkq : k < q.length
    · exact h.apart j k hjq hkq hs
    · obtain rfl : k = q.length := by omega
      exact absurd hs (hnew j hjq)
    · obtain rfl : j = q.length := by omega
      exact absurd hs.symm (hnew k hkq)
    · omega

private theorem shift (a j : Nat) : a + 1 + j = a + (j + 1) := by omega

/-- Clearing the first slot. -/
theorem pop {x : α} (h : Window slot table a (x :: q)) :
    Window slot (Function.update table (slot a) none) (a + 1) q where
  held j y hj := by
    have hlt : j + 1 < (x :: q).length := by
      obtain ⟨hlt, -⟩ := List.getElem?_eq_some_iff.mp hj
      simpa using hlt
    have hne : slot (a + (j + 1)) ≠ slot a := fun heq =>
      nomatch h.apart (j + 1) 0 hlt (Nat.succ_pos _) heq
    rw [shift, Function.update_of_ne hne]
    exact h.held (j + 1) y hj
  used i y hi := by
    by_cases hia : i = slot a
    · subst hia
      rw [Function.update_self] at hi
      cases hi
    · rw [Function.update_of_ne hia] at hi
      obtain ⟨j, hj, hs⟩ := h.used i y hi
      cases j with
      | zero => exact absurd hs.symm hia
      | succ j => exact ⟨j, hj, shift a j ▸ hs⟩
  apart j k hj hk hs := by
    rw [shift, shift] at hs
    exact Nat.succ.inj (h.apart (j + 1) (k + 1) (Nat.succ_lt_succ hj) (Nat.succ_lt_succ hk) hs)

/-- Some entry is in every slot that is used, once. -/
theorem mem_iff (h : Window slot table a q) {x : α} : x ∈ q ↔ ∃ i, table i = some x := by
  constructor
  · intro hx
    obtain ⟨j, hj⟩ := List.mem_iff_getElem?.mp hx
    exact ⟨_, h.held j x hj⟩
  · intro hused
    obtain ⟨i, hi⟩ := hused
    obtain ⟨j, hj, -⟩ := h.used i x hi
    exact List.mem_of_getElem? hj

/-- An entry is in as many slots of the table as it is in the queue. -/
theorem card_slots [DecidableEq α] (h : Window slot table a q) {n : Nat} (hslot : ∀ p, slot p < n)
    (x : α) : ((Finset.range n).filter fun i => table i = some x).card = q.count x := by
  induction q generalizing table a with
  | nil =>
    rw [List.count_nil, Finset.card_eq_zero, Finset.filter_eq_empty_iff]
    intro i _ hi
    obtain ⟨j, hj, -⟩ := h.used i x hi
    cases hj
  | cons y q ih =>
    have hfront := h.front
    rw [List.count_cons, ← ih h.pop]
    by_cases hxy : y = x
    · subst hxy
      have hmem : slot a ∈ (Finset.range n).filter fun i => table i = some y :=
        Finset.mem_filter.mpr ⟨Finset.mem_range.mpr (hslot a), hfront⟩
      have hrest : ((Finset.range n).filter fun i => Function.update table (slot a) none i = some y)
          = ((Finset.range n).filter fun i => table i = some y).erase (slot a) := by
        ext i
        by_cases hi : i = slot a <;> simp [hi, Function.update_of_ne]
      rw [hrest, Finset.card_erase_of_mem hmem]
      have := Finset.card_pos.mpr ⟨_, hmem⟩
      simp
      omega
    · have hrest : ((Finset.range n).filter fun i => Function.update table (slot a) none i = some x)
          = (Finset.range n).filter fun i => table i = some x := by
        ext i
        by_cases hi : i = slot a
        · subst hi; simp [hfront, hxy]
        · simp [Function.update_of_ne hi]
      rw [hrest]
      simp [hxy]

theorem slot_injOn (h : Window slot table a q) :
    Set.InjOn (fun j => slot (a + j)) (Finset.range q.length : Set Nat) := by
  intro j hj k hk hs
  rw [Finset.mem_coe, Finset.mem_range] at hj hk
  exact h.apart j k hj hk hs

/-- A queue is no longer than its table. -/
theorem length_le (h : Window slot table a q) {n : Nat} (hslot : ∀ p, slot p < n) :
    q.length ≤ n := by
  have := Finset.card_le_card_of_injOn (s := Finset.range q.length) (t := Finset.range n)
    (fun j => slot (a + j)) (fun j _ => by simpa using hslot (a + j)) h.slot_injOn
  simpa using this

/-- When it is as long as the table, every slot is used. -/
theorem full (h : Window slot table a q) {n : Nat} (hslot : ∀ p, slot p < n)
    (hlen : q.length = n) {i : Nat} (hi : i < n) : table i ≠ none := by
  have himage : (Finset.range q.length).image (fun j => slot (a + j)) = Finset.range n := by
    refine Finset.eq_of_subset_of_card_le ?_ ?_
    · intro k hk
      obtain ⟨j, -, rfl⟩ := Finset.mem_image.mp hk
      simpa using hslot (a + j)
    · rw [Finset.card_image_of_injOn h.slot_injOn]
      simp [hlen]
  obtain ⟨j, hj, rfl⟩ := Finset.mem_image.mp (himage ▸ Finset.mem_range.mpr hi)
  have hj := Finset.mem_range.mp hj
  rw [h.held j q[j] (List.getElem?_eq_getElem hj)]
  nofun

end Window

end Loomlib
