import Loomlib.Core.Machine
import Mathlib.Logic.Function.Basic

/-!
# Barrier — Model

`src/barrier.c`. `loomlib_barrier_init` is a function on the memory; a
barrier that is used is the machine of its threads, each with its control
point in `loomlib_barrier_wait`.

Granularity. Taking and releasing `barrier->lock` are steps, as are the
increment of `barrier->count`, the test with what its branch does first
(`barrier->tripped = 0`, or `loomlib_cond_wait`, which releases the lock
and sleeps, at once), and the broadcast. A sleeper may wake up without a
broadcast. `unsigned` has 32 bits. A wait through NULL returns `-EINVAL`
and touches nothing; it is left out here.
-/

namespace Loomlib.Barrier

/-- What an `unsigned` counts to before it wraps. -/
def UINT_RANGE : Nat := 4294967296

/-- The counters of `struct loomlib_barrier`. -/
structure Counters where
  count : Nat
  tripped : Nat
  deriving DecidableEq, Repr

/-- What `loomlib_barrier_init` writes to the object it allocates. -/
def fresh (count : Nat) : Counters := ⟨count, 0⟩

def ENOMEM : Int := 12

/-- `loomlib_barrier_init (barrier, attr, count)` where `malloc` answers
`ans`: the memory afterwards, and the return value. `new` is what it makes
of the object. -/
def loomlibBarrierInit {β : Type} (new : Nat → β) (mem : Nat → Option β) (_barrier : Option Nat)
    (count : Nat) (ans : Option Nat) : (Nat → Option β) × Int :=
  -- the assignment is to the function's own copy of the pointer
  let barrier := ans
  match barrier with
  | none => (mem, -ENOMEM)
  | some a => (Function.update mem a (some (new count)), 0)

/-- The object a pointer designates. -/
def deref {β : Type} (mem : Nat → Option β) (p : Option Nat) : Option β :=
  p.bind mem

/-- `loomlib_barrier_init` leaves what a pointer designates as it was,
unless the pointer is the one `malloc` returns. -/
theorem deref_init {β : Type} (new : Nat → β) (mem : Nat → Option β) (barrier : Option Nat)
    {p ans : Option Nat} {count : Nat} (hne : p ≠ ans) :
    deref (loomlibBarrierInit new mem barrier count ans).1 p = deref mem p := by
  cases ans with
  | none => rfl
  | some a =>
    cases p with
    | none => rfl
    | some x => exact Function.update_of_ne (fun hxa => hne (congrArg some hxa)) _ _

/-- The control points of `loomlib_barrier_wait`. -/
inductive PC where
  | idle
  | acquire
  -- barrier->count++
  | incr
  -- barrier->count <= barrier->tripped
  | test
  | broadcast
  | asleep
  | woken
  -- loomlib_lock_release, and return 1 or 0
  | release (last : Bool)
  deriving DecidableEq, Repr

/-- `loomlib_cond_broadcast (&barrier->cond)`, for one waiter. -/
def PC.wake : PC → PC
  | .asleep => .woken
  | x => x

/-- A barrier with the threads `ι` that use it, the number of calls that
have counted themselves and what the calls returned. -/
structure State (ι : Type) extends Counters where
  lock : Option ι
  pc : ι → PC
  arrivals : Nat
  returns : List Nat

variable {ι : Type} [DecidableEq ι]

def State.goto (s : State ι) (t : ι) (x : PC) : State ι :=
  { s with pc := Function.update s.pc t x }

/-- Thread `t` takes the lock, if it is free, and goes to `x`. -/
def State.acquire (s : State ι) (t : ι) (x : PC) : Option (State ι) :=
  match s.lock with
  | none => some ({ s with lock := some t }.goto t x)
  | some _ => none

/-- One step of `loomlib_barrier_wait` by thread `t`; a thread that is idle
calls it. -/
def loomlibBarrierWait (s : State ι) (t : ι) : Option (State ι) :=
  match s.pc t with
  | .idle => some (s.goto t .acquire)
  | .acquire => s.acquire t .incr
  | .incr =>
    some ({ s with count := (s.count + 1) % UINT_RANGE, arrivals := s.arrivals + 1 }.goto t .test)
  | .test =>
    if s.count ≤ s.tripped then some ({ s with tripped := 0 }.goto t .broadcast)
    else some ({ s with lock := none }.goto t .asleep)
  | .broadcast => some ({ s with pc := fun u => (s.pc u).wake }.goto t (.release true))
  -- a spurious wake-up of `loomlib_cond_wait`
  | .asleep => some (s.goto t .woken)
  | .woken => s.acquire t (.release false)
  | .release last =>
    some ({ s with lock := none, returns := s.returns ++ [last.toNat] }.goto t .idle)

/-- The threads `ι` on a barrier that `loomlib_barrier_init` has set up for
`count` of them. -/
def machine (ι : Type) [DecidableEq ι] (count : Nat) : Machine (State ι) ι where
  init := ⟨fresh count, none, fun _ => .idle, 0, []⟩
  step := loomlibBarrierWait

end Loomlib.Barrier
