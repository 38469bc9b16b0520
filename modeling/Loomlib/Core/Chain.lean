import Mathlib.Logic.Function.Basic
import Mathlib.Data.List.Nodup

/-!
# Chain — singly linked lists in a heap

A heap maps the live addresses to nodes; an address that was never
allocated, or was freed, has none. `Chain h p rest` says that the list
which starts at the node `p` continues through `rest` and ends there, each
node given by its address and its item.
-/

namespace Loomlib

universe u

/-- A node with its item and the address of the next one. -/
structure Node (β : Type u) where
  item : β
  next : Option Nat
  deriving DecidableEq, Repr

abbrev Heap (β : Type u) := Nat → Option (Node β)

variable {β : Type u} {h : Heap β}

def Chain (h : Heap β) : Nat × β → List (Nat × β) → Prop
  | p, [] => h p.1 = some ⟨p.2, none⟩
  | p, q :: rest => h p.1 = some ⟨p.2, some q.1⟩ ∧ Chain h q rest

/-- The address of the last node. -/
def endOf : Nat → List (Nat × β) → Nat
  | a, [] => a
  | _, q :: rest => endOf q.1 rest

@[simp] theorem endOf_nil (a : Nat) : endOf a ([] : List (Nat × β)) = a := rfl

@[simp] theorem endOf_append (a : Nat) (rest : List (Nat × β)) (q : Nat × β) :
    endOf a (rest ++ [q]) = q.1 := by
  induction rest generalizing a with
  | nil => rfl
  | cons r rest ih => exact ih r.1

theorem endOf_mem (a : Nat) (rest : List (Nat × β)) :
    endOf a rest ∈ a :: rest.map Prod.fst := by
  induction rest generalizing a with
  | nil => exact List.mem_singleton.mpr rfl
  | cons r rest ih => exact List.mem_cons_of_mem _ (ih r.1)

namespace Chain

/-- What the first node holds. -/
theorem head {p : Nat × β} {rest : List (Nat × β)} (hc : Chain h p rest) :
    h p.1 = some ⟨p.2, rest.head?.map Prod.fst⟩ := by
  cases rest with
  | nil => exact hc
  | cons q rest => exact hc.1

/-- Every node of the list is allocated. -/
theorem allocated {p : Nat × β} {rest : List (Nat × β)} (hc : Chain h p rest) {a : Nat}
    (ha : a ∈ p.1 :: rest.map Prod.fst) : h a ≠ none := by
  induction rest generalizing p with
  | nil => rw [List.mem_singleton.mp ha, hc.head]; nofun
  | cons q rest ih =>
    rcases List.mem_cons.mp ha with rfl | ha
    · rw [hc.1]; nofun
    · exact ih hc.2 ha

/-- A write beside the list. -/
theorem frame {p : Nat × β} {rest : List (Nat × β)} (hc : Chain h p rest) {a : Nat}
    (ha : a ∉ p.1 :: rest.map Prod.fst) (v : Option (Node β)) :
    Chain (Function.update h a v) p rest := by
  induction rest generalizing p with
  | nil =>
    have hne : p.1 ≠ a := by
      intro he
      exact ha (he ▸ List.mem_singleton.mpr rfl)
    exact (Function.update_of_ne hne _ _).trans hc
  | cons q rest ih =>
    obtain ⟨hne, hrest⟩ := not_or.mp (mt List.mem_cons.mpr ha)
    exact ⟨(Function.update_of_ne (Ne.symm hne) _ _).trans hc.1, ih hc.2 hrest⟩

/-- The write that links a new node behind the last one. -/
theorem link {p : Nat × β} {rest : List (Nat × β)} (hc : Chain h p rest)
    (hnd : (p.1 :: rest.map Prod.fst).Nodup) {q : Nat × β} (hq : h q.1 = some ⟨q.2, none⟩)
    (hnew : q.1 ∉ p.1 :: rest.map Prod.fst) {nd : Node β} (hnd' : h (endOf p.1 rest) = some nd) :
    Chain (Function.update h (endOf p.1 rest) (some { nd with next := some q.1 })) p
      (rest ++ [q]) := by
  induction rest generalizing p with
  | nil =>
    have hne : q.1 ≠ p.1 := by
      intro he
      exact hnew (he ▸ List.mem_singleton.mpr rfl)
    have hitem : nd.item = p.2 := by
      have := hnd'.symm.trans hc
      exact congrArg Node.item (Option.some.inj this)
    exact ⟨by simp [hitem], (Function.update_of_ne hne _ _).trans hq⟩
  | cons r rest ih =>
    obtain ⟨hp, hrest⟩ := List.nodup_cons.mp hnd
    have hne : p.1 ≠ endOf r.1 rest := by
      intro he
      exact hp (he ▸ endOf_mem r.1 rest)
    exact ⟨(Function.update_of_ne hne _ _).trans hc.1,
      ih hc.2 hrest (fun hm => hnew (List.mem_cons_of_mem _ hm)) hnd'⟩

end Chain

end Loomlib
