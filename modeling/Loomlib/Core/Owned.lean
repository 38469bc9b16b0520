import Mathlib.Data.Fintype.EquivFin
import Mathlib.Data.Multiset.Bind
import Mathlib.Logic.Function.Basic

/-!
# Owned — heaps whose blocks have one owner

A program that passes every block of its heap on from owner to owner keeps
the bag of all pointers it holds in step with the heap. A pointer carries
what its block holds; `Owned h refs` says that this is right, that no two
pointers meet, and that nothing in the heap has been forgotten.
-/

namespace Loomlib

universe u

/-- A pointer, with what the block it points to holds. -/
structure Ref (β : Type u) where
  addr : Nat
  block : β
  deriving DecidableEq, Repr

variable {β : Type u} {h : Nat → Option β} {refs : Multiset (Ref β)}

structure Owned (h : Nat → Option β) (refs : Multiset (Ref β)) : Prop where
  held : ∀ d ∈ refs, h d.addr = some d.block
  nodup : (refs.map Ref.addr).Nodup
  used : ∀ a, h a ≠ none → a ∈ refs.map Ref.addr

namespace Owned

theorem empty : Owned (fun _ => none : Nat → Option β) 0 :=
  ⟨nofun, Multiset.nodup_zero, fun _ h => absurd rfl h⟩

/-- A new block. -/
theorem alloc (ho : Owned h refs) {a : Nat} (ha : h a = none) (b : β) :
    Owned (Function.update h a (some b)) (⟨a, b⟩ ::ₘ refs) where
  held d hd := by
    rcases Multiset.mem_cons.mp hd with rfl | hmem
    · exact Function.update_self ..
    · have hne : d.addr ≠ a := fun heq => nomatch (heq ▸ ha).symm.trans (ho.held d hmem)
      exact (Function.update_of_ne hne _ _).trans (ho.held d hmem)
  nodup := by
    rw [Multiset.map_cons, Multiset.nodup_cons]
    refine ⟨?_, ho.nodup⟩
    intro hm
    obtain ⟨d, hd, rfl⟩ := Multiset.mem_map.mp hm
    exact nomatch ha.symm.trans (ho.held d hd)
  used x hx := by
    rw [Multiset.map_cons]
    by_cases hxa : x = a
    · exact Multiset.mem_cons.mpr (.inl hxa)
    · rw [Function.update_of_ne hxa] at hx
      exact Multiset.mem_cons_of_mem (ho.used x hx)

/-- The owner of a block frees it. -/
theorem free {d : Ref β} (ho : Owned h (d ::ₘ refs)) :
    Owned (Function.update h d.addr none) refs := by
  have hnd := ho.nodup
  rw [Multiset.map_cons, Multiset.nodup_cons] at hnd
  refine ⟨?_, hnd.2, ?_⟩
  · intro e he
    have hne : e.addr ≠ d.addr := fun heq => hnd.1 (heq ▸ Multiset.mem_map_of_mem _ he)
    exact (Function.update_of_ne hne _ _).trans (ho.held e (Multiset.mem_cons_of_mem he))
  · intro x hx
    have hne : x ≠ d.addr := by
      intro heq
      subst heq
      simp at hx
    rw [Function.update_of_ne hne] at hx
    have hmem := ho.used x hx
    rw [Multiset.map_cons] at hmem
    exact (Multiset.mem_cons.mp hmem).resolve_left hne

/-- The owner of a block writes to it. -/
theorem write {d : Ref β} (ho : Owned h (d ::ₘ refs)) (b : β) :
    Owned (Function.update h d.addr (some b)) (⟨d.addr, b⟩ ::ₘ refs) := by
  have hfree := ho.free.alloc (a := d.addr) (Function.update_self ..) b
  rwa [Function.update_idem] at hfree

/-- A pointer read through is right about its block. -/
theorem block_eq {d : Ref β} (ho : Owned h (d ::ₘ refs)) {b : β} (hb : h d.addr = some b) :
    b = d.block :=
  Option.some.inj (hb.symm.trans (ho.held d (Multiset.mem_cons_self _ _)))

/-- There is an address left for a new block. -/
theorem fresh (ho : Owned h refs) : ∃ a, h a = none := by
  obtain ⟨a, ha⟩ := Infinite.exists_notMem_finset (refs.map Ref.addr).toFinset
  refine ⟨a, ?_⟩
  by_contra hused
  exact ha (Multiset.mem_toFinset.mpr (ho.used a hused))

/-- No block that has an owner is dead. -/
theorem live {d : Ref β} (ho : Owned h (d ::ₘ refs)) : h d.addr ≠ none := by
  rw [ho.held d (Multiset.mem_cons_self _ _)]
  nofun

end Owned

end Loomlib
