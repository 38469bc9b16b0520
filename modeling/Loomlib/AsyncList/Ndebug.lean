import Loomlib.AsyncList.Model

/-!
# AsyncList — Ndebug

The calls on one list in the two builds. The `realloc` of `async_list_add`
is the operand of an `assert`; compiled with NDEBUG the call records a
capacity of 2, allocates nothing and stores through NULL.
-/

namespace Loomlib.AsyncList

open Block

variable {α : Type}

/-- A call on a list; `granted` is for its `realloc`. -/
inductive Call (α : Type) where
  | add (item : α) (granted : Bool)
  | get (i : Nat)
  | count
  deriving DecidableEq, Repr

def Call.isAdd : Call α → Bool
  | .add _ _ => true
  | _ => false

/-- What a call returns. -/
inductive Answer (α : Type) where
  | added
  | got (item : α)
  | counted (n : Nat)
  deriving DecidableEq, Repr

def call (b : Build) (l : AsyncList α) : Call α → Except Stop (AsyncList α × Answer α)
  | .add item granted => (asyncListAdd b l item granted).map fun l' => (l', .added)
  | .get i => (asyncListGet b l i).map fun item => (l, .got item)
  | .count => .ok (l, .counted (asyncListCount l))

/-- What a sequence of calls does: the answers of the calls that return,
and what ends it before its end. -/
def behaviour (b : Build) (l : AsyncList α) : List (Call α) → List (Answer α) × Option Stop
  | [] => ([], none)
  | c :: cs =>
    match call b l c with
    | .error e => ([], some e)
    | .ok (l', r) => ((r :: (behaviour b l' cs).1), (behaviour b l' cs).2)

/-- The first item with assertions, and without. -/
theorem add_debug (item : α) :
    ∃ l, call .debug zeroed (.add item true) = .ok (l, .added) := by
  refine ⟨⟨some [some item, none], 1, 2⟩, ?_⟩
  simp [call, asyncListAdd, reserve, zeroed, store, realloc, slotsOf, word, room, bind,
    Except.bind, pure, Except.pure, Except.map]

theorem add_ndebug (item : α) (granted : Bool) :
    call .ndebug zeroed (.add item granted) = .error .fault := rfl

/-- **The list is the same in both builds** in the sequences without
`async_list_add` only, of those that fail no assertion. -/
theorem behaviour_eq_iff (cs : List (Call α))
    (hcs : (behaviour .debug zeroed cs).2 ≠ some .assertion) :
    behaviour .ndebug zeroed cs = behaviour .debug zeroed cs ↔ ∀ c ∈ cs, c.isAdd = false := by
  induction cs with
  | nil => simp [behaviour]
  | cons c cs ih =>
    cases c with
    | add item granted =>
      apply iff_of_false
      · intro heq
        cases granted with
        | false => exact hcs rfl
        | true =>
          obtain ⟨l, hadd⟩ := add_debug item
          simp only [behaviour, add_ndebug, hadd] at heq
          cases congrArg Prod.fst heq
      · intro hnone
        cases hnone _ List.mem_cons_self
    | get i => exact absurd rfl hcs
    | count =>
      have ih := ih hcs
      simp only [behaviour, call, List.forall_mem_cons] at ih ⊢
      rw [← ih]
      simp [Call.isAdd, Prod.ext_iff]

end Loomlib.AsyncList
