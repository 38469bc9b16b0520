import Mathlib.Data.List.Infix

/-!
# Block — blocks of memory that grow

What a program with `malloc`, `realloc` and pointer arithmetic does to one
block of slots. A pointer is NULL or leads to a block; an access outside
the block is a `fault`. The invariants of a growable array follow: `Grown`
of one between two calls, `Ready` of one that is about to take one more
item. A capacity comes about by doubling.

Sizes are those of a 64-bit machine: a slot takes 8 bytes, and sizes and
counters are numbers modulo `word`.
-/

namespace Loomlib

universe u

variable {α : Type u} {items : List α} {slots n c i : Nat}

/-- Why a run ends before its end. -/
inductive Stop where
  | assertion
  | fault
  deriving DecidableEq, Repr

/-- The slots of a block, `none` where nothing has been stored. -/
abbrev Block (α : Type u) := List (Option α)

/-- `2 ^ 64`, the range of `size_t` and `uint64_t`. -/
def word : Nat := 18446744073709551616

/-- The slots in `8 * size` bytes. -/
def slotsOf (size : Nat) : Nat := 8 * size % word / 8

theorem slotsOf_eq (h : 8 * slots < word) : slotsOf slots = slots := by
  unfold slotsOf
  rw [Nat.mod_eq_of_lt h]
  exact Nat.mul_div_cancel_left slots (by decide)

namespace Block

/-- The number of slots behind a pointer. -/
def room (p : Option (Block α)) : Nat := (p.getD []).length

/-- `realloc`: the old slots, as far as they fit, and new ones. -/
def realloc (p : Option (Block α)) (slots : Nat) : Block α :=
  (p.getD []).take slots ++ List.replicate (slots - room p) none

/-- `malloc` -/
def malloc (slots : Nat) : Block α := List.replicate slots none

/-- `p[i] = a` -/
def store (p : Option (Block α)) (i : Nat) (a : α) : Except Stop (Option (Block α)) :=
  match p with
  | none => .error .fault
  | some b => if i < b.length then .ok (some (b.set i (some a))) else .error .fault

/-- `p[i]` -/
def fetch (p : Option (Block α)) (i : Nat) : Except Stop α :=
  match p with
  | none => .error .fault
  | some b =>
    match b[i]? with
    | some (some a) => .ok a
    | _ => .error .fault

@[simp] theorem room_none : room (none : Option (Block α)) = 0 := rfl

@[simp] theorem room_malloc : room (some (malloc slots : Block α)) = slots :=
  List.length_replicate

@[simp] theorem room_realloc (p : Option (Block α)) :
    room (some (realloc p slots)) = slots := by
  unfold realloc room
  simp only [Option.getD_some, List.length_append, List.length_take, List.length_replicate]
  omega

/-- The first slots hold the items. -/
def Filled (p : Option (Block α)) (items : List α) : Prop :=
  items.map some <+: p.getD []

theorem Filled.nil (p : Option (Block α)) : Filled p [] :=
  List.nil_prefix

theorem Filled.le {p : Option (Block α)} (h : Filled p items) : items.length ≤ room p := by
  have hle := h.length_le
  rwa [List.length_map] at hle

theorem Filled.realloc {p : Option (Block α)} (h : Filled p items)
    (hle : items.length ≤ slots) : Filled (some (realloc p slots)) items := by
  obtain ⟨rest, hrest⟩ := h
  unfold Filled Block.realloc
  rw [Option.getD_some, ← hrest, List.take_append, List.take_of_length_le (by simpa using hle),
    List.append_assoc]
  exact List.prefix_append _ _

/-- A store behind the items adds one. -/
theorem Filled.store {p : Option (Block α)} (h : Filled p items) (hroom : items.length < room p)
    (a : α) : ∃ q, store p items.length a = .ok q ∧ Filled q (items ++ [a]) ∧ room q = room p := by
  cases p with
  | none => exact absurd hroom (Nat.not_lt_zero _)
  | some b =>
    obtain ⟨rest, hrest⟩ := h
    change items.map some ++ rest = b at hrest
    change items.length < b.length at hroom
    refine ⟨_, if_pos hroom, ?_, List.length_set⟩
    cases rest with
    | nil => simp [← hrest] at hroom
    | cons r rest =>
      have hset : b.set items.length (some a) = (items ++ [a]).map some ++ rest := by
        rw [← hrest, List.set_append_right _ _ (by simp)]
        simp
      change _ <+: b.set items.length (some a)
      rw [hset]
      exact List.prefix_append _ _

theorem Filled.fetch {p : Option (Block α)} (h : Filled p items) {a : α} (ha : items[i]? = some a) :
    fetch p i = .ok a := by
  obtain ⟨rest, hrest⟩ := h
  cases p with
  | none =>
    obtain rfl : items = [] := by simpa using (List.append_eq_nil_iff.mp hrest).1
    cases ha
  | some b =>
    have hb : b[i]? = some (some a) := by
      obtain ⟨hi, -⟩ := List.getElem?_eq_some_iff.mp ha
      change _ = b at hrest
      rw [← hrest, List.getElem?_append_left (by simpa using hi), List.getElem?_map, ha]
      rfl
    simp only [Block.fetch, hb]

end Block

/-! ## Doubling -/

/-- A capacity for `n` items that came about by doubling. -/
structure Capacity (n c : Nat) : Prop where
  pow : c.isPowerOfTwo
  le : n ≤ c
  le_twice : c ≤ 2 * n
  lt : 1 < n → c < 2 * n

theorem Capacity.one : Capacity 1 1 :=
  ⟨⟨0, rfl⟩, by decide, by decide, by decide⟩

theorem Capacity.two : Capacity 1 2 :=
  ⟨⟨1, rfl⟩, by decide, by decide, by decide⟩

/-- One more item has room. -/
theorem Capacity.keep (h : Capacity n c) (hroom : n < c) : Capacity (n + 1) c where
  pow := h.pow
  le := hroom
  le_twice := by
    have := h.le_twice
    omega
  lt _ := by
    have := h.le_twice
    omega

/-- One more item has no room. -/
theorem Capacity.double (h : Capacity n c) (hfull : c ≤ n) (hn : 0 < n) :
    Capacity (n + 1) (c * 2) where
  pow := Nat.isPowerOfTwo_mul_two_of_isPowerOfTwo h.pow
  le := by
    have := h.le
    omega
  le_twice := by omega
  lt _ := by omega

/-! ## Growable arrays -/

section Grown

open Block

variable {p : Option (Block α)} {size first : Nat}

/-- An array of this capacity that holds the items. -/
structure Grown (p : Option (Block α)) (items : List α) (size : Nat) : Prop where
  filled : Filled p items
  room : room p = size
  fresh : items = [] → size = 0
  capacity : items ≠ [] → Capacity items.length size

/-- It has room for one more. -/
structure Ready (p : Option (Block α)) (items : List α) (size : Nat) : Prop where
  filled : Filled p items
  room : room p = size
  capacity : Capacity (items.length + 1) size

theorem Grown.null : Grown (none : Option (Block α)) [] 0 :=
  ⟨.nil _, rfl, fun _ => rfl, fun h => absurd rfl h⟩

/-- An array that is not full. -/
theorem Grown.ready (h : Grown p items size) (hroom : items.length < size) :
    Ready p items size := by
  have hne : items ≠ [] := by
    intro hnil
    have := h.fresh hnil
    omega
  exact ⟨h.filled, h.room, (h.capacity hne).keep hroom⟩

/-- The next capacity of an array that is full, and its bytes. -/
theorem Grown.next (h : Grown p items size) (hfirst : Capacity 1 first)
    (hn : 2 * (8 * (items.length + 1)) ≤ word) (hfull : size ≤ items.length) :
    Capacity (items.length + 1) (if size ≠ 0 then size * 2 % word else first) ∧
      8 * (if size ≠ 0 then size * 2 % word else first) < word := by
  by_cases hnil : items = []
  · rw [h.fresh hnil, hnil]
    have htwice := hfirst.le_twice
    have : 16 < word := by decide
    exact ⟨hfirst, by simp only [ne_eq, not_true_eq_false, if_false]; omega⟩
  · have hpos := List.length_pos_iff.mpr hnil
    have hcap := h.capacity hnil
    have hle := hcap.le
    rw [if_pos (by omega), Nat.mod_eq_of_lt (by omega)]
    exact ⟨hcap.double hfull hpos, by omega⟩

/-- A block of the next capacity, with the old slots. -/
theorem Grown.realloc (h : Grown p items size) (hcap : Capacity (items.length + 1) n)
    (hbytes : 8 * n < word) : Ready (some (realloc p (slotsOf n))) items n := by
  rw [slotsOf_eq hbytes]
  have hle := hcap.le
  exact ⟨h.filled.realloc (by omega), room_realloc p, hcap⟩

theorem Ready.lt_room (h : Ready p items size) : items.length < Block.room p := by
  rw [h.room]
  exact h.capacity.le

theorem Ready.store (h : Ready p items size) (a : α) :
    ∃ q, store p items.length a = .ok q ∧ Grown q (items ++ [a]) size := by
  obtain ⟨q, hq, hfilled, hroom⟩ := h.filled.store h.lt_room a
  refine ⟨q, hq, hfilled, hroom.trans h.room, ?_, ?_⟩
  · intro hnil
    simp at hnil
  · intro _
    rw [List.length_append]
    exact h.capacity

end Grown

end Loomlib
