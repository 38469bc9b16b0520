import Loomlib.Core.Machine
import Loomlib.Core.Chain

/-!
# LinkedQueue — Model

`src/alpha_queue.c`, `src/beta_queue.c` and `src/gamma_queue.c`: one
queue, a singly linked list that starts with a dummy node, without locks,
with one lock for each end, and with these locks and a condition variable.
The three differ in the steps around the same reads and writes, so the
model has one push and one pop, parametrised by the `Flavour`.

Granularity. Each lock operation, each read or write of `head`, `tail`,
`next` or `item`, each `calloc` and `free` is one atomic step. Addresses
are numbers; `calloc` may return any address that is not live, also one
that was freed before. A step that reads or writes through an address
that is not live sets `fault`. An item is a `void *`, `none` is NULL.
-/

namespace Loomlib.LinkedQueue

/-- Whether the queue takes locks, and whether its pop can wait. -/
structure Flavour where
  locks : Bool
  waits : Bool
  deriving DecidableEq, Repr

def alphaQueue : Flavour := ⟨false, false⟩
def betaQueue : Flavour := ⟨true, false⟩
def gammaQueue : Flavour := ⟨true, true⟩

/-- The control points of a push, in program order. -/
inductive PushPC (α : Type) where
  | alloc (item : Option α)
  | setItem (item : Option α) (new : Nat)
  | acquire (item : Option α) (new : Nat)
  -- queue->tail->next = new
  | readTail (item : Option α) (new : Nat)
  | setNext (item : Option α) (new tail : Nat)
  -- queue->tail = new
  | setTail (new : Nat)
  | release
  | broadcast
  deriving DecidableEq, Repr

/-- The control points of a pop, in program order. -/
inductive PopPC (α : Type) where
  | acquire
  -- NULL == queue->head->next
  | testHead
  | testNext (head : Nat)
  | releaseEmpty
  -- while (NULL == queue->head->next) loomlib_cond_wait
  | loopHead
  | loopNext (head : Nat)
  | sleep
  | asleep
  | woken
  -- item = queue->head->next->item
  | itemHead
  | itemNext (head : Nat)
  | itemRead (next : Nat)
  -- temp = queue->head
  | setTemp (item : Option α)
  -- queue->head = queue->head->next
  | advanceHead (item : Option α) (temp : Nat)
  | advanceNext (item : Option α) (temp head : Nat)
  | setHead (item : Option α) (temp next : Nat)
  | release (item : Option α) (temp : Nat)
  | free (item : Option α) (temp : Nat)
  deriving DecidableEq, Repr

/-- A thread between calls, in a push, or in a pop with its `wait`. -/
inductive PC (α : Type) where
  | idle
  | push (p : PushPC α)
  | pop (wait : Bool) (p : PopPC α)
  deriving DecidableEq, Repr

/-- `loomlib_cond_broadcast (&queue->nonempty)`, for one waiter. -/
def PC.wake {α : Type} : PC α → PC α
  | .pop w .asleep => .pop w .woken
  | x => x

/-- A pop that has returned: its `wait`, and its item unless it found the
queue empty. -/
structure Return (α : Type) where
  wait : Bool
  item : Option (Option α)
  deriving DecidableEq, Repr

/-- A queue with the threads `ι` that use it. The history: the items
pushed in the order their nodes were linked, the items popped in the order
`head` moved, and the pops that returned. -/
structure Queue (ι α : Type) where
  head : Nat
  tail : Nat
  headLock : Option ι
  tailLock : Option ι
  heap : Heap (Option α)
  pc : ι → PC α
  fault : Bool
  linked : List (Option α)
  taken : List (Option α)
  returned : List (Return α)

namespace Queue

variable {ι α : Type} [DecidableEq ι]

def goto (s : Queue ι α) (t : ι) (x : PC α) : Queue ι α :=
  { s with pc := Function.update s.pc t x }

/-- A write through the address `a`. -/
def store (s : Queue ι α) (a : Nat) (f : Node (Option α) → Node (Option α)) : Queue ι α :=
  match s.heap a with
  | none => { s with fault := true }
  | some nd => { s with heap := Function.update s.heap a (some (f nd)) }

section Store

variable (s : Queue ι α) (a : Nat) (f : Node (Option α) → Node (Option α))

omit [DecidableEq ι]

@[simp] theorem store_pc : (s.store a f).pc = s.pc := by unfold store; split <;> rfl

@[simp] theorem store_head : (s.store a f).head = s.head := by unfold store; split <;> rfl

@[simp] theorem store_headLock : (s.store a f).headLock = s.headLock := by
  unfold store; split <;> rfl

@[simp] theorem store_tailLock : (s.store a f).tailLock = s.tailLock := by
  unfold store; split <;> rfl

@[simp] theorem store_linked : (s.store a f).linked = s.linked := by unfold store; split <;> rfl

@[simp] theorem store_taken : (s.store a f).taken = s.taken := by unfold store; split <;> rfl

@[simp] theorem store_returned : (s.store a f).returned = s.returned := by
  unfold store; split <;> rfl

end Store

/-- A read through the address `a`; the thread goes on to what `k` says. -/
def load (s : Queue ι α) (t : ι) (a : Nat) (k : Node (Option α) → PC α) : Queue ι α :=
  match s.heap a with
  | none => { s with fault := true }
  | some nd => s.goto t (k nd)

/-- The next step of thread `t` in `*_queue_push`; `ans` answers `calloc`. -/
def queuePush (fl : Flavour) (s : Queue ι α) (t : ι) (ans : Option Nat) :
    PushPC α → Option (Queue ι α)
  | .alloc item =>
    match ans with
    | none => some (s.goto t .idle)
    | some a =>
      if (s.heap a).isNone then
        some ({ s with heap := Function.update s.heap a (some ⟨none, none⟩) }.goto t
          (.push (.setItem item a)))
      else none
  | .setItem item new =>
    some ((s.store new fun nd => { nd with item := item }).goto t
      (.push (if fl.locks then .acquire item new else .readTail item new)))
  | .acquire item new =>
    match s.tailLock with
    | none => some ({ s with tailLock := some t }.goto t (.push (.readTail item new)))
    | some _ => none
  | .readTail item new => some (s.goto t (.push (.setNext item new s.tail)))
  | .setNext item new tail =>
    some ({ s.store tail (fun nd => { nd with next := some new }) with
      linked := s.linked ++ [item] }.goto t (.push (.setTail new)))
  | .setTail new =>
    some ({ s with tail := new }.goto t (if fl.locks then .push .release else .idle))
  | .release =>
    some ({ s with tailLock := none }.goto t (if fl.waits then .push .broadcast else .idle))
  | .broadcast => some ({ s with pc := fun u => (s.pc u).wake }.goto t .idle)

/-- The next step of thread `t` in `*_queue_pop`. -/
def queuePop (fl : Flavour) (s : Queue ι α) (t : ι) (w : Bool) : PopPC α → Option (Queue ι α)
  | .acquire =>
    match s.headLock with
    | none =>
      some ({ s with headLock := some t }.goto t (.pop w (if w then .loopHead else .testHead)))
    | some _ => none
  | .testHead => some (s.goto t (.pop w (.testNext s.head)))
  | .testNext head =>
    some (s.load t head fun nd => .pop w (match nd.next with
      | none => .releaseEmpty
      | some _ => if fl.waits then .loopHead else .itemHead))
  | .releaseEmpty =>
    some ({ s with
      headLock := if fl.locks then none else s.headLock
      returned := s.returned ++ [Return.mk w none] }.goto t .idle)
  | .loopHead => some (s.goto t (.pop w (.loopNext s.head)))
  | .loopNext head =>
    some (s.load t head fun nd => .pop w (match nd.next with
      | none => .sleep
      | some _ => .itemHead))
  | .sleep => some ({ s with headLock := none }.goto t (.pop w .asleep))
  -- a spurious wake-up
  | .asleep => some (s.goto t (.pop w .woken))
  | .woken =>
    match s.headLock with
    | none => some ({ s with headLock := some t }.goto t (.pop w .loopHead))
    | some _ => none
  | .itemHead => some (s.goto t (.pop w (.itemNext s.head)))
  | .itemNext head =>
    match s.heap head with
    | none => some { s with fault := true }
    | some nd =>
      match nd.next with
      | none => some { s with fault := true }
      | some next => some (s.goto t (.pop w (.itemRead next)))
  | .itemRead next => some (s.load t next fun nd => .pop w (.setTemp nd.item))
  | .setTemp item => some (s.goto t (.pop w (.advanceHead item s.head)))
  | .advanceHead item temp => some (s.goto t (.pop w (.advanceNext item temp s.head)))
  | .advanceNext item temp head =>
    match s.heap head with
    | none => some { s with fault := true }
    | some nd =>
      match nd.next with
      | none => some { s with fault := true }
      | some next => some (s.goto t (.pop w (.setHead item temp next)))
  | .setHead item temp next =>
    some ({ s with head := next, taken := s.taken ++ [item] }.goto t
      (.pop w (if fl.locks then .release item temp else .free item temp)))
  | .release item temp => some ({ s with headLock := none }.goto t (.pop w (.free item temp)))
  | .free item temp =>
    match s.heap temp with
    | none => some { s with fault := true }
    | some _ =>
      some ({ s with
        heap := Function.update s.heap temp none
        returned := s.returned ++ [Return.mk w (some item)] }.goto t .idle)

def alphaQueuePush (s : Queue ι α) := s.queuePush alphaQueue
def alphaQueuePop (s : Queue ι α) (t : ι) := s.queuePop alphaQueue t false
def betaQueuePush (s : Queue ι α) := s.queuePush betaQueue
def betaQueuePop (s : Queue ι α) (t : ι) := s.queuePop betaQueue t false
def gammaQueuePush (s : Queue ι α) := s.queuePush gammaQueue
def gammaQueuePop (s : Queue ι α) := s.queuePop gammaQueue

end Queue

/-- A thread calls push, calls pop, or takes its next step; `ans` is what
`calloc` answers if that step calls it. -/
inductive Event (ι α : Type) where
  | push (t : ι) (item : Option α)
  | pop (t : ι) (wait : Bool)
  | step (t : ι) (ans : Option Nat)

variable {ι α : Type} [DecidableEq ι]

/-- Only the pop of `gamma_queue` can be asked to wait. -/
def step (fl : Flavour) (s : Queue ι α) : Event ι α → Option (Queue ι α)
  | .push t item =>
    match s.pc t with
    | .idle => some (s.goto t (.push (.alloc item)))
    | _ => none
  | .pop t w =>
    match s.pc t with
    | .idle =>
      if w && !fl.waits then none
      else some (s.goto t (.pop w (if fl.locks then .acquire else .testHead)))
    | _ => none
  | .step t ans =>
    match s.pc t with
    | .idle => none
    | .push p => s.queuePush fl t ans p
    | .pop w p => s.queuePop fl t w p

/-- `*_queue_new`: head and tail at a dummy node, nobody inside. -/
def queueNew : Queue ι α where
  head := 0
  tail := 0
  headLock := none
  tailLock := none
  heap := Function.update (fun _ => none) 0 (some ⟨none, none⟩)
  pc := fun _ => .idle
  fault := false
  linked := []
  taken := []
  returned := []

/-- The queue of flavour `fl`, used by the threads `ι`. -/
def machine (ι α : Type) [DecidableEq ι] (fl : Flavour) : Machine (Queue ι α) (Event ι α) where
  init := queueNew
  step := step fl

end Loomlib.LinkedQueue
