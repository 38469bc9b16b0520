import Loomlib.Core.Machine
import Mathlib.Algebra.Group.Nat.Defs
import Mathlib.Logic.Function.Basic

/-!
# Cache — Model

`src/cache.c`: a table of `nmemb` slots with a head counter, guarded by
`head_lock`, and a tail counter, guarded by `tail_lock`. The counters are
`size_t` of `w` bits, so they wrap modulo `2 ^ w`, and are taken modulo
`nmemb` at each access to the table.

Granularity. Each lock operation and each read or write of `head`, `tail`
or a slot is one atomic step. C does not say in which order the two writes
of `cache->table[cache->head++ % cache->nmemb] = NULL` are made, so a
thread may make them in either order. Objects are told apart by their
addresses; `none` is NULL. `ALLOC` answers NULL or an object it has never
answered before.
-/

namespace Loomlib.Cache

/-- The writes still to be made of `table[counter++ % nmemb] = ...`. -/
inductive Left where
  | both
  | counter
  | slot
  deriving DecidableEq, Repr

/-- The control points of `cache_alloc`. -/
inductive AllocPC (α : Type) where
  | acquire
  -- NULL == cache->table[cache->head % cache->nmemb]
  | testHead
  | testSlot (head : Nat)
  | releaseEmpty
  | callAlloc
  -- ptr = cache->table[cache->head % cache->nmemb]
  | ptrHead
  | ptrSlot (head : Nat)
  -- cache->table[cache->head++ % cache->nmemb] = NULL
  | clearHead (ptr : Option α)
  | clear (ptr : Option α) (head : Nat) (left : Left)
  | release (ptr : Option α)
  deriving DecidableEq, Repr

/-- The control points of `cache_free`. -/
inductive FreePC where
  | acquire
  -- NULL == cache->table[cache->tail % cache->nmemb]
  | testTail
  | testSlot (tail : Nat)
  -- cache->table[cache->tail++ % cache->nmemb] = ptr
  | storeTail
  | store (tail : Nat) (left : Left)
  | release
  | releaseFull
  | callFree
  deriving DecidableEq, Repr

/-- A thread between calls, in `cache_alloc`, or in `cache_free (ptr)`. -/
inductive PC (α : Type) where
  | idle
  | alloc (p : AllocPC α)
  | free (ptr : α) (p : FreePC)
  deriving DecidableEq, Repr

/-- The fields of `struct cache` that change. -/
structure Store (α : Type) where
  head : Nat
  tail : Nat
  table : Nat → Option α

/-- A cache with the threads `ι` that use it: which thread holds which
object, the objects `ALLOC` has answered, and those passed to `FREE`. -/
structure State (ι α : Type) extends Store α where
  headLock : Option ι
  tailLock : Option ι
  pc : ι → PC α
  held : List (ι × α)
  allocated : List α
  freed : List α

/-- `counter++` -/
def incr (w x : Nat) : Nat := (x + 1) % 2 ^ w

section Sequential

variable {α : Type} (nmemb w : Nat) (c : Store α)

/-- `cache_alloc` with nobody else inside; `none` where it calls `ALLOC`. -/
def cacheAlloc : Store α × Option α :=
  match c.table (c.head % nmemb) with
  | none => (c, none)
  | some ptr =>
    ({ c with
      table := Function.update c.table (c.head % nmemb) none
      head := incr w c.head }, some ptr)

/-- `cache_free` with nobody else inside, and what it passes to `FREE`. -/
def cacheFree (ptr : Option α) : Store α × Option α :=
  match ptr with
  | none => (c, none)
  | some ptr =>
    match c.table (c.tail % nmemb) with
    | none =>
      ({ c with
        table := Function.update c.table (c.tail % nmemb) (some ptr)
        tail := incr w c.tail }, none)
    | some _ => (c, some ptr)

/-- The loop of `cache_destroy`, and what it passes to `FREE`; `none` if
`fuel` rounds do not end it. -/
def cacheDestroy : Nat → Option (List (Option α))
  | fuel =>
    go fuel c.head
where
  go : Nat → Nat → Option (List (Option α))
    | 0, head => if head = c.tail then some [] else none
    | fuel + 1, head =>
      if head = c.tail then some []
      else (go fuel (incr w head)).map (c.table (head % nmemb) :: ·)

end Sequential

namespace State

variable {ι α : Type} [DecidableEq ι] [DecidableEq α] (nmemb w : Nat)

def goto (s : State ι α) (t : ι) (x : PC α) : State ι α :=
  { s with pc := Function.update s.pc t x }

/-- A call returns `ptr` to its thread. -/
def give (s : State ι α) (t : ι) (ptr : Option α) : State ι α :=
  { s with held := (ptr.map (t, ·)).toList ++ s.held }

/-- The next step of thread `t` in `cache_alloc`; `obj` is what `ALLOC`
answers, `counterFirst` the order of the last two writes. -/
def allocStep (s : State ι α) (t : ι) (obj : Option α) (counterFirst : Bool) :
    AllocPC α → Option (State ι α)
  | .acquire =>
    match s.headLock with
    | none => some ({ s with headLock := some t }.goto t (.alloc .testHead))
    | some _ => none
  | .testHead => some (s.goto t (.alloc (.testSlot s.head)))
  | .testSlot head =>
    some (s.goto t (.alloc (match s.table (head % nmemb) with
      | none => .releaseEmpty
      | some _ => .ptrHead)))
  | .releaseEmpty => some ({ s with headLock := none }.goto t (.alloc .callAlloc))
  | .callAlloc =>
    match obj with
    | none => some (s.goto t .idle)
    | some x =>
      if x ∈ s.allocated then none
      else some (({ s with allocated := x :: s.allocated }.give t (some x)).goto t .idle)
  | .ptrHead => some (s.goto t (.alloc (.ptrSlot s.head)))
  | .ptrSlot head => some (s.goto t (.alloc (.clearHead (s.table (head % nmemb)))))
  | .clearHead ptr => some (s.goto t (.alloc (.clear ptr s.head .both)))
  | .clear ptr head .both =>
    if counterFirst then
      some ({ s with head := incr w head }.goto t (.alloc (.clear ptr head .slot)))
    else
      some ({ s with table := Function.update s.table (head % nmemb) none }.goto t
        (.alloc (.clear ptr head .counter)))
  | .clear ptr head .counter =>
    some ({ s with head := incr w head }.goto t (.alloc (.release ptr)))
  | .clear ptr head .slot =>
    some ({ s with table := Function.update s.table (head % nmemb) none }.goto t
      (.alloc (.release ptr)))
  | .release ptr => some (({ s with headLock := none }.give t ptr).goto t .idle)

/-- The next step of thread `t` in `cache_free (ptr)`. -/
def freeStep (s : State ι α) (t : ι) (counterFirst : Bool) (ptr : α) :
    FreePC → Option (State ι α)
  | .acquire =>
    match s.tailLock with
    | none => some ({ s with tailLock := some t }.goto t (.free ptr .testTail))
    | some _ => none
  | .testTail => some (s.goto t (.free ptr (.testSlot s.tail)))
  | .testSlot tail =>
    some (s.goto t (.free ptr (match s.table (tail % nmemb) with
      | none => .storeTail
      | some _ => .releaseFull)))
  | .storeTail => some (s.goto t (.free ptr (.store s.tail .both)))
  | .store tail .both =>
    if counterFirst then
      some ({ s with tail := incr w tail }.goto t (.free ptr (.store tail .slot)))
    else
      some ({ s with table := Function.update s.table (tail % nmemb) (some ptr) }.goto t
        (.free ptr (.store tail .counter)))
  | .store tail .counter => some ({ s with tail := incr w tail }.goto t (.free ptr .release))
  | .store tail .slot =>
    some ({ s with table := Function.update s.table (tail % nmemb) (some ptr) }.goto t
      (.free ptr .release))
  | .release => some ({ s with tailLock := none }.goto t .idle)
  | .releaseFull => some ({ s with tailLock := none }.goto t (.free ptr .callFree))
  | .callFree => some ({ s with freed := ptr :: s.freed }.goto t .idle)

end State

/-- A thread calls `cache_alloc`, calls `cache_free` with NULL or an
object it holds, or takes its next step. -/
inductive Event (ι α : Type) where
  | alloc (t : ι)
  | free (t : ι) (ptr : Option α)
  | step (t : ι) (obj : Option α) (counterFirst : Bool)

variable {ι α : Type} [DecidableEq ι] [DecidableEq α]

def step (nmemb w : Nat) (s : State ι α) : Event ι α → Option (State ι α)
  | .alloc t =>
    match s.pc t with
    | .idle => some (s.goto t (.alloc .acquire))
    | _ => none
  | .free t ptr =>
    match s.pc t, ptr with
    | .idle, none => some s
    | .idle, some x =>
      if (t, x) ∈ s.held then
        some ({ s with held := s.held.erase (t, x) }.goto t (.free x .acquire))
      else none
    | _, _ => none
  | .step t obj counterFirst =>
    match s.pc t with
    | .idle => none
    | .alloc p => s.allocStep nmemb w t obj counterFirst p
    | .free ptr p => s.freeStep nmemb w t counterFirst ptr p

/-- `cache_init` -/
def cacheInit : Store α := ⟨0, 0, fun _ => none⟩

def cacheNew : State ι α where
  toStore := cacheInit
  headLock := none
  tailLock := none
  pc := fun _ => .idle
  held := []
  allocated := []
  freed := []

/-- A cache of `nmemb` objects with counters of `w` bits. -/
def machine (ι α : Type) [DecidableEq ι] [DecidableEq α] (nmemb w : Nat) :
    Machine (State ι α) (Event ι α) where
  init := cacheNew
  step := step nmemb w

end Loomlib.Cache
