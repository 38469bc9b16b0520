import Mathlib.Logic.Function.Basic
import Mathlib.Data.List.Nodup

/-!
# Ring — circular lists in a heap

A list of nodes with one link each, the last of which leads back to the
first, is held by a pointer to the last node. `Linked h l a` says that the
nodes of `l` follow each other and that the last of them leads to `a`;
`Ring h q l` that `q` holds the ring of the nodes `l`. A node is given by
its address and its item.
-/

namespace Loomlib

universe u

/-- A node with its item and its link. -/
structure Link (β : Type u) where
  item : β
  prev : Nat
  deriving DecidableEq, Repr

abbrev Links (β : Type u) := Nat → Option (Link β)

variable {β : Type u} {h : Links β}

/-- The address of the first node of `l`, or `a` if there is none. -/
def startOf : List (Nat × β) → Nat → Nat
  | [], a => a
  | p :: _, _ => p.1

@[simp] theorem startOf_nil (a : Nat) : startOf ([] : List (Nat × β)) a = a := rfl

@[simp] theorem startOf_cons (p : Nat × β) (l : List (Nat × β)) (a : Nat) :
    startOf (p :: l) a = p.1 := rfl

def Linked (h : Links β) : List (Nat × β) → Nat → Prop
  | [], _ => True
  | p :: l, a => h p.1 = some ⟨p.2, startOf l a⟩ ∧ Linked h l a

namespace Linked

theorem append {l r : List (Nat × β)} {a : Nat} :
    Linked h (l ++ r) a ↔ Linked h l (startOf r a) ∧ Linked h r a := by
  induction l with
  | nil => simp [Linked]
  | cons p l ih =>
    have hstart : startOf (l ++ r) a = startOf l (startOf r a) := by cases l <;> rfl
    simp only [List.cons_append, Linked, ih, hstart, and_assoc]

theorem snoc {l : List (Nat × β)} {p : Nat × β} {a : Nat} :
    Linked h (l ++ [p]) a ↔ Linked h l p.1 ∧ h p.1 = some ⟨p.2, a⟩ := by
  simp [append, Linked]

/-- A write beside the nodes. -/
theorem frame {l : List (Nat × β)} {a : Nat} (hl : Linked h l a) {b : Nat}
    (hb : b ∉ l.map Prod.fst) (v : Option (Link β)) : Linked (Function.update h b v) l a := by
  induction l with
  | nil => trivial
  | cons p l ih =>
    obtain ⟨hne, hrest⟩ := not_or.mp (mt List.mem_cons.mpr hb)
    exact ⟨(Function.update_of_ne (Ne.symm hne) _ _).trans hl.1, ih hl.2 hrest⟩

theorem allocated {l : List (Nat × β)} {a : Nat} (hl : Linked h l a) {b : Nat}
    (hb : b ∈ l.map Prod.fst) : h b ≠ none := by
  induction l with
  | nil => cases hb
  | cons p l ih =>
    rcases List.mem_cons.mp hb with rfl | hb
    · rw [hl.1]; nofun
    · exact ih hl.2 hb

end Linked

/-- The pointer `q` to the last node holds the ring of the nodes `l`. -/
structure Ring (h : Links β) (q : Option Nat) (l : List (Nat × β)) : Prop where
  last : q = l.getLast?.map Prod.fst
  linked : Linked h l (startOf l 0)
  nodup : (l.map Prod.fst).Nodup

namespace Ring

variable {q : Option Nat} {l : List (Nat × β)} {a b : Nat} {x y : β}

theorem nil : Ring h none [] := ⟨rfl, trivial, List.nodup_nil⟩

theorem eq_nil (hr : Ring h none l) : l = [] := by
  have := hr.last
  simpa using this.symm

/-- A ring that is held has a last node, which leads to the first. -/
theorem hold (hr : Ring h (some b) l) :
    ∃ l' x, l = l' ++ [(b, x)] ∧ h b = some ⟨x, startOf l 0⟩ := by
  obtain ⟨⟨b', x⟩, hlast, rfl⟩ := Option.map_eq_some_iff.mp hr.last.symm
  obtain ⟨l', rfl⟩ := List.getLast?_eq_some_iff.mp hlast
  exact ⟨l', x, rfl, (Linked.snoc.mp hr.linked).2⟩

theorem singleton (x : β) (a : Nat) :
    Ring (Function.update h a (some ⟨x, a⟩)) (some a) [(a, x)] :=
  ⟨rfl, ⟨by simp, trivial⟩, List.nodup_singleton a⟩

/-- A new node between the last one and the first. -/
theorem snoc (hr : Ring h (some b) l) {nd : Link β} (hb : h b = some nd) (ha : h a = none) (x : β) :
    Ring (Function.update (Function.update h a (some ⟨x, nd.prev⟩)) b (some { nd with prev := a }))
      (some a) (l ++ [(a, x)]) := by
  obtain ⟨l', y, rfl, hb'⟩ := hr.hold
  obtain rfl : nd = ⟨y, startOf (l' ++ [(b, y)]) 0⟩ := Option.some.inj (hb.symm.trans hb')
  obtain ⟨hl', -⟩ := Linked.snoc.mp hr.linked
  have hfresh : a ∉ (l' ++ [(b, y)]).map Prod.fst := fun hm => hr.linked.allocated hm ha
  have hnd := hr.nodup
  simp only [List.map_append, List.map_cons, List.map_nil] at hfresh hnd
  obtain ⟨ha', hab⟩ := not_or.mp (mt List.mem_append.mpr hfresh)
  have hab : a ≠ b := by simpa using hab
  have hb'' : b ∉ l'.map Prod.fst := by
    have := List.disjoint_of_nodup_append hnd
    exact fun hm => this hm (List.mem_singleton_self b)
  have hstart : startOf (l' ++ [(b, y)] ++ [(a, x)]) 0 = startOf (l' ++ [(b, y)]) 0 := by
    cases l' <;> rfl
  refine ⟨by simp, ?_, ?_⟩
  · rw [hstart]
    refine Linked.snoc.mpr ⟨Linked.snoc.mpr ⟨(hl'.frame ha' _).frame hb'' _, by simp⟩, ?_⟩
    simp [hab]
  · simp only [List.map_append, List.map_cons, List.map_nil]
    exact hnd.append (List.nodup_singleton a) (List.disjoint_singleton.mpr hfresh)

/-- A ring of one node. -/
theorem single (hr : Ring h (some b) l) {nd : Link β} (hb : h b = some nd) (hself : nd.prev = b) :
    l = [(b, nd.item)] := by
  obtain ⟨l', y, rfl, hb'⟩ := hr.hold
  obtain rfl : nd = ⟨y, startOf (l' ++ [(b, y)]) 0⟩ := Option.some.inj (hb.symm.trans hb')
  cases l' with
  | nil => rfl
  | cons p l' =>
    have hnd := hr.nodup
    simp only [List.cons_append, startOf_cons] at hself
    simp [hself] at hnd

/-- A ring of more nodes, without the first. -/
theorem tail (hr : Ring h (some b) l) {nd : Link β} (hb : h b = some nd) (hother : nd.prev ≠ b) :
    ∃ head rest, l = (nd.prev, head.item) :: rest ∧ h nd.prev = some head ∧
      Ring (Function.update (Function.update h nd.prev none) b (some { nd with prev := head.prev }))
        (some b) rest := by
  obtain ⟨l', y, rfl, hb'⟩ := hr.hold
  obtain rfl : nd = ⟨y, startOf (l' ++ [(b, y)]) 0⟩ := Option.some.inj (hb.symm.trans hb')
  cases l' with
  | nil => exact absurd rfl hother
  | cons p l' =>
    obtain ⟨hp, hrest⟩ := hr.linked
    have hnd := hr.nodup
    simp only [List.cons_append, startOf_cons, List.map_cons, List.map_append] at hp hnd ⊢
    obtain ⟨hpr, hnd'⟩ := List.nodup_cons.mp hnd
    obtain ⟨hpl, hpb⟩ := not_or.mp (mt List.mem_append.mpr hpr)
    have hb'' : b ∉ l'.map Prod.fst := by
      have := List.disjoint_of_nodup_append hnd'
      exact fun hm => this hm (List.mem_singleton_self b)
    refine ⟨_, l' ++ [(b, y)], rfl, hp, by simp, ?_, by simpa using hnd'⟩
    refine Linked.snoc.mpr ⟨((Linked.snoc.mp hrest).1.frame hpl _).frame hb'' _, ?_⟩
    simp only [Function.update_self]
    cases l' <;> rfl

end Ring

end Loomlib
