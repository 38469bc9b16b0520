import Mathlib.Algebra.Order.BigOperators.Group.Finset
import Mathlib.Data.Fintype.BigOperators

/-!
# Tally — sums over the threads of a program

Invariants of a program with `n` threads are mostly equations between
shared counters and sums over the threads' control points ("as many
threads hold the token as ..."). `tally f g` is the sum of the weight `f`
over the control points `g`; a step moves one thread, and `tally_update`
says what that does to the sum. The weights may be numbers, or the
multisets of things the threads hold. Where threads come and go they are a
bag, and `weigh f s` is the sum over it.
-/

namespace Loomlib

universe u v w

variable {ι : Type u} [Fintype ι] {α : Type v} {M : Type w} [AddCommMonoid M]

/-- The total weight of the control points `g`. -/
def tally (f : α → M) (g : ι → α) : M :=
  ∑ i, f (g i)

/-- The weight of one thread beside that of the others, which its moves
leave alone. -/
theorem tally_split [DecidableEq ι] (f : α → M) (g : ι → α) (i : ι) :
    ∃ others, tally f g = f (g i) + others ∧
      ∀ x, tally f (Function.update g i x) = f x + others := by
  refine ⟨∑ j ∈ Finset.univ.erase i, f (g j), ?_, ?_⟩
  · exact (Finset.add_sum_erase _ (fun j => f (g j)) (Finset.mem_univ i)).symm
  · intro x
    unfold tally
    rw [← Finset.add_sum_erase _ _ (Finset.mem_univ i), Function.update_self]
    exact congrArg _ (Finset.sum_congr rfl fun j hj => by
      rw [Function.update_of_ne (Finset.ne_of_mem_erase hj)])

/-- One thread moving to `x` trades its old weight for that of `x`. -/
theorem tally_update [DecidableEq ι] (f : α → M) (g : ι → α) (i : ι) (x : α) :
    tally f (Function.update g i x) + f (g i) = tally f g + f x := by
  obtain ⟨others, hg, hx⟩ := tally_split f g i
  rw [hg, hx, add_right_comm, add_comm (f x), add_right_comm]

/-- `tally_update` for a thread known to stand at `y`. -/
theorem tally_move [DecidableEq ι] (f : α → M) {g : ι → α} {i : ι} {y : α} (hy : g i = y)
    (x : α) : tally f (Function.update g i x) + f y = tally f g + f x :=
  hy ▸ tally_update f g i x

/-- A change of all control points that no weight notices. -/
theorem tally_comp {f : α → M} {h : α → α} (hf : ∀ x, f (h x) = f x) (g : ι → α) :
    tally f (fun i => h (g i)) = tally f g :=
  Finset.sum_congr rfl fun i _ => hf (g i)

theorem tally_congr {f h : α → M} {g : ι → α} (heq : ∀ i, f (g i) = h (g i)) :
    tally f g = tally h g :=
  Finset.sum_congr rfl fun i _ => heq i

theorem tally_add (f f' : α → M) (g : ι → α) :
    tally (fun x => f x + f' x) g = tally f g + tally f' g :=
  Finset.sum_add_distrib

theorem tally_const (k : Nat) (g : ι → α) :
    tally (fun _ => k) g = Fintype.card ι * k := by
  simp [tally]

theorem le_tally (f : α → Nat) (g : ι → α) (i : ι) : f (g i) ≤ tally f g :=
  Finset.single_le_sum (f := fun i => f (g i)) (fun _ _ => Nat.zero_le _) (Finset.mem_univ i)

/-- Two different threads weigh at most as much as all of them. -/
theorem add_le_tally [DecidableEq ι] (f : α → Nat) (g : ι → α) {i j : ι} (hij : i ≠ j) :
    f (g i) + f (g j) ≤ tally f g := by
  unfold tally
  rw [← Finset.add_sum_erase _ _ (Finset.mem_univ i)]
  have hj : f (g j) ≤ ∑ k ∈ Finset.univ.erase i, f (g k) :=
    Finset.single_le_sum (f := fun k => f (g k)) (fun _ _ => Nat.zero_le _)
      (Finset.mem_erase.mpr ⟨hij.symm, Finset.mem_univ j⟩)
  omega

theorem tally_mono {f f' : α → Nat} {g : ι → α} (h : ∀ i, f (g i) ≤ f' (g i)) :
    tally f g ≤ tally f' g :=
  Finset.sum_le_sum fun i _ => h i

theorem tally_eq_zero {f : α → Nat} {g : ι → α} :
    tally f g = 0 ↔ ∀ i, f (g i) = 0 := by
  simp [tally]

theorem exists_of_tally_pos {f : α → Nat} {g : ι → α} (h : 0 < tally f g) :
    ∃ i, 0 < f (g i) := by
  by_contra hno
  have hzero : tally f g = 0 := tally_eq_zero.mpr fun i => by
    have := not_exists.mp hno i
    omega
  omega

/-! ## Bags -/

/-- The total weight of a bag. -/
def weigh {α : Type v} (f : α → Nat) (s : Multiset α) : Nat :=
  (s.map f).sum

section Weigh

variable {α : Type v} (f : α → Nat)

@[simp] theorem weigh_zero : weigh f 0 = 0 := rfl

@[simp] theorem weigh_cons (a : α) (s : Multiset α) : weigh f (a ::ₘ s) = f a + weigh f s := by
  simp [weigh]

@[simp] theorem weigh_singleton (a : α) : weigh f {a} = f a := by simp [weigh]

@[simp] theorem weigh_add (s t : Multiset α) : weigh f (s + t) = weigh f s + weigh f t := by
  simp [weigh]

variable {f}

theorem weigh_eq_zero {s : Multiset α} : weigh f s = 0 ↔ ∀ a ∈ s, f a = 0 := by
  simp [weigh, Multiset.sum_eq_zero_iff]

theorem weigh_mono {f' : α → Nat} (h : ∀ a, f a ≤ f' a) (s : Multiset α) :
    weigh f s ≤ weigh f' s :=
  Multiset.sum_map_le_sum_map f f' fun a _ => h a

theorem le_weigh {s : Multiset α} {a : α} (ha : a ∈ s) : f a ≤ weigh f s := by
  obtain ⟨t, rfl⟩ := Multiset.exists_cons_of_mem ha
  rw [weigh_cons]
  exact Nat.le_add_right _ _

/-- The bags of all threads together. -/
theorem weigh_tally {β : Type w} (f : α → Nat) (h : β → Multiset α) (g : ι → β) :
    weigh f (tally h g) = tally (fun x => weigh f (h x)) g :=
  map_sum (Multiset.sumAddMonoidHom.comp (Multiset.mapAddMonoidHom f)) (fun i => h (g i))
    Finset.univ

end Weigh

end Loomlib
