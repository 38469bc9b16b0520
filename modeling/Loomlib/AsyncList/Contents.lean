import Loomlib.AsyncList.Model

/-!
# AsyncList — Contents

What a list holds after any number of `async_list_add`, with assertions:
count, capacity and block agree through every growth step. The guard of
`async_list_get` is the wrong way round, so none of it can be read.
-/

namespace Loomlib.AsyncList

open Block

variable {α : Type} {l l' : AsyncList α} {items : List α} {i : Nat} {a : α}

/-- The list holds the items, in order. -/
structure Holds (l : AsyncList α) (items : List α) : Prop where
  count : l.count = items.length
  grown : Grown l.data items l.size

theorem Holds.new : Holds (zeroed : AsyncList α) [] :=
  ⟨rfl, .null⟩

/-- `reserve` makes room for one more item and keeps those there are. -/
theorem Holds.reserve (h : Holds l items) (hn : 2 * (8 * (items.length + 1)) ≤ word) :
    ∃ l', reserve .debug l true = .ok l' ∧ l'.count = items.length ∧
      Ready l'.data items l'.size := by
  unfold AsyncList.reserve
  rw [h.count]
  by_cases hfull : l.size ≤ items.length
  · rw [if_pos hfull]
    obtain ⟨hcap, hbytes⟩ := h.grown.next .two hn hfull
    exact ⟨_, rfl, rfl, h.grown.realloc hcap hbytes⟩
  · rw [if_neg hfull]
    exact ⟨l, rfl, h.count, h.grown.ready (Nat.lt_of_not_le hfull)⟩

theorem Holds.add (h : Holds l items) (hn : 2 * (8 * (items.length + 1)) ≤ word) (a : α) :
    ∃ l', asyncListAdd .debug l a true = .ok l' ∧ Holds l' (items ++ [a]) := by
  obtain ⟨r, hr, hcount, hready⟩ := h.reserve hn
  obtain ⟨q, hq, hgrown⟩ := hready.store a
  refine ⟨⟨q, (r.count + 1) % word, r.size⟩, ?_, ?_, hgrown⟩
  · simp only [asyncListAdd, hr, hcount, hq, bind, Except.bind, pure, Except.pure]
  · rw [List.length_append, hcount]
    exact Nat.mod_eq_of_lt (by omega)

/-- **Every item is kept**, whatever the number of growth steps. -/
theorem Holds.adds (h : Holds l items) (more : List α)
    (hn : 2 * (8 * (items.length + more.length)) ≤ word) :
    ∃ l', asyncListAdds .debug l more = .ok l' ∧ Holds l' (items ++ more) := by
  induction more generalizing l items with
  | nil => exact ⟨l, rfl, by simpa using h⟩
  | cons a more ih =>
    rw [List.length_cons] at hn
    obtain ⟨l₁, hadd, h₁⟩ := h.add (by omega) a
    have hlen : (items ++ [a]).length = items.length + 1 := List.length_append
    obtain ⟨l₂, hadds, h₂⟩ := ih h₁ (by omega)
    refine ⟨l₂, ?_, by simpa using h₂⟩
    rw [asyncListAdds, List.foldlM_cons, hadd]
    exact hadds

/-- What becomes of the items: they are all in the list, and every store
was inside the block last requested. -/
structure Kept (items : List α) : Prop where
  kept : ∃ l, asyncListAdds .debug zeroed items = .ok l ∧ Holds l items
  inside : ∀ pre a, pre ++ [a] <+: items → ∃ l l', asyncListAdds .debug zeroed pre = .ok l ∧
    AsyncList.reserve .debug l true = .ok l' ∧ l'.count < room l'.data

theorem kept_of_le (hn : 2 * (8 * items.length) ≤ word) : Kept items where
  kept := by
    have hadds := Holds.new.adds items (by simpa using hn)
    rwa [List.nil_append] at hadds
  inside pre a hpre := by
    have hle := hpre.length_le
    rw [List.length_append, List.length_singleton] at hle
    obtain ⟨l, hl, hholds⟩ := Holds.new.adds pre (by simp; omega)
    rw [List.nil_append] at hholds
    obtain ⟨l', hl', hcount, hready⟩ := hholds.reserve (by omega)
    exact ⟨l, l', hl, hl', hcount ▸ hready.lt_room⟩

/-! ## The guard of async_list_get -/

/-- An index below the count does not pass `assert (l->count <= i)`. -/
theorem get_of_lt (hi : i < l.count) : asyncListGet .debug l i = .error .assertion := by
  unfold asyncListGet
  cases hd : l.data with
  | none => rfl
  | some b =>
    rw [decide_eq_false (Nat.not_le.mpr hi)]
    rfl

/-- An index from the count on passes it, and is read. -/
theorem get_of_le (hi : l.count ≤ i) (hdata : l.data.isSome = true) :
    asyncListGet .debug l i = fetch l.data i := by
  unfold asyncListGet
  rw [hdata, decide_eq_true hi]
  rfl

/-- What was stored cannot be read, and what was not is not guarded. -/
theorem Holds.get (h : Holds l items) (hne : items ≠ []) (i : Nat) :
    asyncListGet .debug l i
      = if i < items.length then .error .assertion else fetch l.data i := by
  by_cases hi : i < items.length
  · rw [if_pos hi]
    exact get_of_lt (h.count ▸ hi)
  · rw [if_neg hi]
    apply get_of_le
    · rw [h.count]
      exact Nat.le_of_not_lt hi
    · cases hd : l.data with
      | some b => rfl
      | none =>
        have hle := h.grown.filled.le
        rw [hd] at hle
        exact absurd (List.eq_nil_of_length_eq_zero (Nat.le_zero.mp hle)) hne

/-- `tree_loop` stops at the first child. -/
theorem Holds.childLoop (h : Holds l items) (hne : items ≠ []) :
    childLoop .debug l = .error .assertion := by
  obtain ⟨n, hn⟩ := Nat.exists_eq_succ_of_ne_zero (List.length_pos_iff.mpr hne).ne'
  have hfirst := h.get hne 0
  rw [if_pos (by omega)] at hfirst
  unfold AsyncList.childLoop asyncListCount
  rw [h.count, hn, List.range_succ_eq_map, List.mapM_cons, hfirst]
  rfl

/-- An indexable sequence: the items can be counted and read, and nothing
beyond them can. -/
structure Indexable (l : AsyncList α) (items : List α) : Prop where
  count : asyncListCount l = items.length
  get : ∀ i a, items[i]? = some a → asyncListGet .debug l i = .ok a
  guarded : ∀ i, items.length ≤ i → i < word → asyncListGet .debug l i = .error .assertion
  loop : childLoop .debug l = .ok items

/-- **A list is an indexable sequence while it is empty, and never again.** -/
theorem indexable_iff_empty (items : List α) :
    (∃ l, asyncListAdds .debug zeroed items = .ok l ∧ Indexable l items) ↔ items = [] := by
  constructor
  · rintro ⟨l, -, h⟩
    cases items with
    | nil => rfl
    | cons a items =>
      have hget := h.get 0 a rfl
      have hcount : l.count = items.length + 1 := h.count
      rw [get_of_lt (by omega)] at hget
      cases hget
  · rintro rfl
    refine ⟨zeroed, rfl, rfl, ?_, ?_, rfl⟩
    · intro i a ha
      cases ha
    · intro i _ _
      rfl

/-- One item: it cannot be read, and the slot behind it is not guarded. -/
theorem indexable_fails_at_one :
    ∃ l : AsyncList Nat, asyncListAdds .debug zeroed [7] = .ok l ∧
      asyncListGet .debug l 0 = .error .assertion ∧ asyncListGet .debug l 1 = .error .fault ∧
      childLoop .debug l = .error .assertion ∧ ¬ Indexable l [7] :=
  ⟨⟨some [some 7, none], 1, 2⟩, rfl, rfl, rfl, rfl, fun h => by cases h.get 0 7 rfl⟩

end Loomlib.AsyncList
