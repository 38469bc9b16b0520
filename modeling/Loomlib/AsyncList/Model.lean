import Loomlib.Core.Block

/-!
# AsyncList — Model

`src/async_list.c`. Every call takes `l->lock` first and gives it back last,
so a sequence of calls is a sequence of steps; the list it is applied to is
the one `async_list_new` returned, so `assert (l)` holds. Two builds are
modelled: with NDEBUG the operand of an `assert` is not evaluated.

Whether `malloc` and `realloc` find the memory comes from outside.
-/

namespace Loomlib

/-- With assertions, or compiled with NDEBUG. -/
inductive Build where
  | debug
  | ndebug
  deriving DecidableEq, Repr

/-- `assert (e)` -/
def Build.assert (b : Build) (e : Bool) : Except Stop Unit :=
  match b with
  | .debug => if e then .ok () else .error .assertion
  | .ndebug => .ok ()

/-- `struct async_list` -/
structure AsyncList (α : Type) where
  data : Option (Block α)
  count : Nat
  size : Nat
  deriving DecidableEq, Repr

namespace AsyncList

open Block

variable {α : Type}

/-- `calloc (1, sizeof (struct async_list))` -/
def zeroed : AsyncList α := ⟨none, 0, 0⟩

def asyncListNew (granted : Bool) : Option (AsyncList α) :=
  if granted then some zeroed else none

/-- `if (l->size <= l->count) { ... }`. The `realloc` stands inside the
assertion. -/
def reserve (b : Build) (l : AsyncList α) (granted : Bool) : Except Stop (AsyncList α) :=
  if l.size ≤ l.count then
    let l := { l with size := if l.size ≠ 0 then l.size * 2 % word else 2 }
    match b with
    | .debug =>
      if granted then .ok { l with data := some (realloc l.data (slotsOf l.size)) }
      else .error .assertion
    | .ndebug => .ok l
  else .ok l

def asyncListAdd (b : Build) (l : AsyncList α) (item : α) (granted : Bool) :
    Except Stop (AsyncList α) := do
  let l ← reserve b l granted
  let data ← store l.data l.count item
  return { l with data := data, count := (l.count + 1) % word }

def asyncListGet (b : Build) (l : AsyncList α) (i : Nat) : Except Stop α := do
  b.assert l.data.isSome
  b.assert (decide (l.count ≤ i))
  fetch l.data i

def asyncListCount (l : AsyncList α) : Nat := l.count

/-- `async_list_add` for each of the items, every `realloc` granted. -/
def asyncListAdds (b : Build) (l : AsyncList α) (items : List α) : Except Stop (AsyncList α) :=
  items.foldlM (fun l a => asyncListAdd b l a true) l

/-- What `tree_loop` reads of the children of a vertice:
`for (i = 0; i < async_list_count (children); i++) async_list_get (children, i)`. -/
def childLoop (b : Build) (l : AsyncList α) : Except Stop (List α) :=
  (List.range (asyncListCount l)).mapM (asyncListGet b l)

end AsyncList

end Loomlib
