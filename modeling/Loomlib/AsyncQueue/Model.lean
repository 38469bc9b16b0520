import Loomlib.Core.Machine
import Loomlib.Core.Ring

/-!
# AsyncQueue — Model

`src/queue.c`, a ring of nodes reached through the pointer to its newest
node, and `src/async_queue.c`, which wraps one with a lock, a size and two
condition variables.

Granularity. Taking and releasing `queue->lock` are steps, as are each
`pthread_cond_wait` (which releases the lock and sleeps, at once), each
broadcast, and what a critical section does to the ring and the size
between two of these. A sleeper may wake up without a broadcast. Addresses
are numbers; `malloc` may return any that is not live. A step that reads
through an address that is not live, or takes `size` below 0, sets
`fault`; `size` counts live nodes, so its increment does not wrap. Items
are the non-NULL pointers, and a pop that returns NULL returns `none`.
-/

namespace Loomlib.AsyncQueue

variable {ι α : Type} [DecidableEq ι]

/-! ## The ring -/

/-- `queue_push (queue, item)`, for which `malloc` has returned `new`:
`none` if it reads what is not live. -/
def queuePush (h : Links α) (queue : Option Nat) (item : α) (new : Nat) :
    Option (Links α × Option Nat) :=
  match queue with
  | none => some (Function.update h new (some ⟨item, new⟩), some new)
  | some q =>
    match h q with
    | none => none
    | some nd =>
      some (Function.update (Function.update h new (some ⟨item, nd.prev⟩)) q
        (some { nd with prev := new }), some new)

/-- `queue_pop (queue)` -/
def queuePop (h : Links α) (queue : Option Nat) : Option (Links α × Option Nat × Option α) :=
  match queue with
  | none => some (h, none, none)
  | some q =>
    match h q with
    | none => none
    | some nd =>
      if nd.prev = q then some (Function.update h q none, none, some nd.item)
      else
        match h nd.prev with
        | none => none
        | some head =>
          some (Function.update (Function.update h nd.prev none) q
            (some { nd with prev := head.prev }), some q, some head.item)

/-! ## The queue -/

/-- The control points of `async_queue_push`. -/
inductive PushPC (α : Type) where
  | acquire (item : α)
  | body (item : α)
  | broadcast (item : α) (rv : Bool)
  | release (item : α) (rv : Bool)
  deriving DecidableEq, Repr

/-- The control points of `async_queue_pop`. -/
inductive PopPC (α : Type) where
  | acquire
  -- (rv = queue_pop (&queue->queue)) == NULL && wait; if (rv) queue->size--
  | test
  | sleep
  | asleep
  | woken
  -- if (queue->size == 0) pthread_cond_broadcast (&queue->is_empty)
  | empty (rv : Option α)
  | release (rv : Option α)
  deriving DecidableEq, Repr

/-- The control points of `async_queue_count`. -/
inductive CountPC where
  | acquire
  | body
  | release (rv : Nat)
  deriving DecidableEq, Repr

/-- The control points of `async_queue_free`. -/
inductive FreePC where
  | acquire
  | test
  | sleep
  | asleep
  | woken
  | release
  | destroy
  deriving DecidableEq, Repr

inductive PC (α : Type) where
  | idle
  | push (p : PushPC α)
  | pop (wait : Bool) (p : PopPC α)
  | count (p : CountPC)
  | free (p : FreePC)
  deriving DecidableEq, Repr

/-- `pthread_cond_broadcast (&queue->nonempty)`, for one waiter. -/
def PC.wakeNonempty : PC α → PC α
  | .pop w .asleep => .pop w .woken
  | x => x

/-- `pthread_cond_broadcast (&queue->is_empty)`, for one waiter. -/
def PC.wakeEmpty : PC α → PC α
  | .free .asleep => .free .woken
  | x => x

/-- `struct async_queue` with the threads `ι` that use it. `freeing` says
that `async_queue_free` was called, `freed` that it has returned. -/
structure Queue (ι α : Type) where
  queue : Option Nat
  size : Nat
  lock : Option ι
  heap : Links α
  pc : ι → PC α
  freeing : Bool
  freed : Bool
  fault : Bool

namespace Queue

def goto (s : Queue ι α) (t : ι) (x : PC α) : Queue ι α :=
  { s with pc := Function.update s.pc t x }

/-- Thread `t` takes the lock, if it is free, and goes to `x`. -/
def acquire (s : Queue ι α) (t : ι) (x : PC α) : Option (Queue ι α) :=
  match s.lock with
  | none => some ({ s with lock := some t }.goto t x)
  | some _ => none

/-- It releases the lock and goes to `x`. -/
def release (s : Queue ι α) (t : ι) (x : PC α) : Queue ι α :=
  { s with lock := none }.goto t x

/-- The next step of thread `t` in `async_queue_push`; `ans` is what
`malloc` answers. -/
def asyncQueuePush (s : Queue ι α) (t : ι) (ans : Option Nat) : PushPC α → Option (Queue ι α)
  | .acquire item => s.acquire t (.push (.body item))
  | .body item =>
    match ans with
    | none => some (s.goto t (.push (.broadcast item false)))
    | some new =>
      if (s.heap new).isNone then
        match queuePush s.heap s.queue item new with
        | none => some { s with fault := true }
        | some (h, q) =>
          some ({ s with heap := h, queue := q, size := s.size + 1 }.goto t
            (.push (.broadcast item true)))
      else none
  | .broadcast item rv =>
    some ({ s with pc := fun u => (s.pc u).wakeNonempty }.goto t (.push (.release item rv)))
  | .release _ _ => some (s.release t .idle)

/-- The next step of thread `t` in `async_queue_pop`. -/
def asyncQueuePop (s : Queue ι α) (t : ι) (wait : Bool) : PopPC α → Option (Queue ι α)
  | .acquire => s.acquire t (.pop wait .test)
  | .test =>
    match queuePop s.heap s.queue with
    | none => some { s with fault := true }
    | some (h, q, none) =>
      some ({ s with heap := h, queue := q }.goto t
        (.pop wait (if wait then .sleep else .empty none)))
    | some (h, q, some item) =>
      if s.size = 0 then some { s with fault := true }
      else
        some ({ s with heap := h, queue := q, size := s.size - 1 }.goto t
          (.pop wait (.empty (some item))))
  | .sleep => some (s.release t (.pop wait .asleep))
  -- a spurious wake-up
  | .asleep => some (s.goto t (.pop wait .woken))
  | .woken => s.acquire t (.pop wait .test)
  | .empty rv =>
    if s.size = 0 then
      some ({ s with pc := fun u => (s.pc u).wakeEmpty }.goto t (.pop wait (.release rv)))
    else some (s.goto t (.pop wait (.release rv)))
  | .release _ => some (s.release t .idle)

/-- The next step of thread `t` in `async_queue_count`. -/
def asyncQueueCount (s : Queue ι α) (t : ι) : CountPC → Option (Queue ι α)
  | .acquire => s.acquire t (.count .body)
  | .body => some (s.goto t (.count (.release s.size)))
  | .release _ => some (s.release t .idle)

/-- The next step of thread `t` in `async_queue_free`. -/
def asyncQueueFree (s : Queue ι α) (t : ι) : FreePC → Option (Queue ι α)
  | .acquire => s.acquire t (.free .test)
  | .test => some (s.goto t (.free (if s.size = 0 then .release else .sleep)))
  | .sleep => some (s.release t (.free .asleep))
  -- a spurious wake-up
  | .asleep => some (s.goto t (.free .woken))
  | .woken => s.acquire t (.free .test)
  | .release => some (s.release t (.free .destroy))
  | .destroy => some ({ s with freed := true }.goto t .idle)

end Queue

/-- A call of thread `t`. -/
inductive Call (α : Type) where
  | push (item : α)
  | pop (wait : Bool)
  | count
  | free
  deriving DecidableEq, Repr

/-- Where a call starts. -/
def Call.start : Call α → PC α
  | .push item => .push (.acquire item)
  | .pop wait => .pop wait .acquire
  | .count => .count .acquire
  | .free => .free .acquire

def Call.frees : Call α → Bool
  | .free => true
  | _ => false

/-- A thread calls, or takes its next step; `ans` is what `malloc` answers
if that step calls it. -/
inductive Event (ι α : Type) where
  | call (t : ι) (c : Call α)
  | step (t : ι) (ans : Option Nat)

/-- One thread calls `async_queue_free`, once; what the threads do to a
queue that is gone is left open. -/
def step (s : Queue ι α) (e : Event ι α) : Option (Queue ι α) :=
  if s.freed then none
  else
    match e with
    | .call t c =>
      match s.pc t with
      | .idle =>
        if s.freeing && c.frees then none
        else some ({ s with freeing := s.freeing || c.frees }.goto t c.start)
      | _ => none
    | .step t ans =>
      match s.pc t with
      | .idle => none
      | .push p => s.asyncQueuePush t ans p
      | .pop w p => s.asyncQueuePop t w p
      | .count p => s.asyncQueueCount t p
      | .free p => s.asyncQueueFree t p

/-- `async_queue_new` -/
def asyncQueueNew : Queue ι α where
  queue := none
  size := 0
  lock := none
  heap := fun _ => none
  pc := fun _ => .idle
  freeing := false
  freed := false
  fault := false

/-- A queue used by the threads `ι`. -/
def machine (ι α : Type) [DecidableEq ι] : Machine (Queue ι α) (Event ι α) where
  init := asyncQueueNew
  step := step

end Loomlib.AsyncQueue
