import Loomlib.Core.Machine
import Loomlib.Core.Tally

/-!
# ThreadPool — Model

`src/thread_pool.c` with the work queue it is built on. A pool is generic
in the functions its work units call, so the model is generic in a
`Program`: the unit functions, as step functions on an activation frame
and on the memory they share, and the client threads beside the workers.

Granularity. A worker takes one step for each critical section of
`async_queue_pop` and of `async_queue_push` (whose lock is the queue's
own), and separate steps for taking `pool->lock`, for the test
`1 < pool->num_threads`, for the push it guards, for the decrement, for
the unlock and for `free (work)`. The work queue is the list of its
units, the oldest first; a worker whose pop finds it empty is `asleep` in
`pthread_cond_wait` until a push broadcasts `nonempty` (or it wakes
spuriously) and then enters the critical section again.
-/

namespace Loomlib.ThreadPool

/-- A call a unit function or a client makes on the pool:
`thread_pool_push (pool, func, data)` or `thread_pool_terminate (pool)`. -/
inductive Request (δ : Type) where
  | push (d : δ)
  | terminate
  deriving DecidableEq, Repr

/-- How one step of a unit function ends: it goes on, it goes on after a
call on the pool, or it returns. -/
inductive Outcome (δ φ : Type) where
  | go (f : φ)
  | request (r : Request δ) (f : φ)
  | ret

/-- The code around a pool: what work units run, and the other threads. -/
structure Program where
  /-- the `func` and `data` of a work unit that is no signal -/
  Data : Type
  /-- the activation of a unit function -/
  Frame : Type
  /-- the memory the unit functions and the clients share -/
  Mem : Type
  /-- what a step of a unit function is told from outside the program -/
  Choice : Type
  /-- the steps of the client threads -/
  Client : Type
  /-- the activation `work->func (work->data)` creates -/
  call : Data → Frame
  step : Mem → Frame → Choice → Option (Mem × Outcome Data Frame)
  client : Mem → Client → Option (Mem × Option (Request Data))

/-- `work->func`: the signal function, or a function with its data. -/
inductive Func (δ : Type) where
  | termSig
  | call (d : δ)
  deriving DecidableEq, Repr

instance {δ : Type} (f : Func δ) : Decidable (f = .termSig) :=
  match f with
  | .termSig => isTrue rfl
  | .call _ => isFalse nofun

/-- `struct work_unit`. Pushes allocate one each; `id` numbers them. -/
structure WorkUnit (δ : Type) where
  func : Func δ
  id : Nat
  deriving DecidableEq, Repr

/-- The control points of the `THREAD_POOL_TERM_SIG` branch. -/
inductive SigPC where
  | lock
  | test
  | push
  | decr
  | unlock
  | free
  deriving DecidableEq, Repr

/-- The control points of `thread_loop`, with the work unit in hand. -/
inductive Worker (P : Program) where
  | popping
  | asleep
  | popped (u : WorkUnit P.Data)
  | running (u : WorkUnit P.Data) (f : P.Frame)
  | ran (u : WorkUnit P.Data)
  | signal (u : WorkUnit P.Data) (pc : SigPC)
  | exited

/-- `pthread_cond_broadcast (&queue->nonempty)`, for one waiter. -/
def Worker.wake {P : Program} : Worker P → Worker P
  | .asleep => .popping
  | w => w

/-- `struct thread_pool` with `n` workers, and the history of the pool:
the units pushed, those popped with the worker that popped them, the
runs started and finished, the units freed, and the number of
`thread_pool_terminate` calls. -/
structure Pool (P : Program) (n : Nat) where
  workQueue : List (WorkUnit P.Data)
  numThreads : Nat
  locked : Bool
  workers : Fin n → Worker P
  mem : P.Mem
  pushed : List (WorkUnit P.Data)
  popped : List (WorkUnit P.Data × Fin n)
  started : List Nat
  finished : List Nat
  freed : List Nat
  terminates : Nat

namespace Pool

variable {P : Program} {n : Nat}

def setWorker (s : Pool P n) (i : Fin n) (w : Worker P) : Pool P n :=
  { s with workers := Function.update s.workers i w }

/-- `thread_pool_push`: the unit goes to the end of the queue and every
worker that waits for work is woken. -/
def threadPoolPush (s : Pool P n) (func : Func P.Data) : Pool P n :=
  let u := ⟨func, s.pushed.length⟩
  { s with
    workQueue := s.workQueue ++ [u]
    workers := fun i => (s.workers i).wake
    pushed := s.pushed ++ [u] }

/-- `thread_pool_terminate`. -/
def threadPoolTerminate (s : Pool P n) : Pool P n :=
  { s.threadPoolPush .termSig with terminates := s.terminates + 1 }

def serve (s : Pool P n) : Request P.Data → Pool P n
  | .push d => s.threadPoolPush (.call d)
  | .terminate => s.threadPoolTerminate

/-- One step of `thread_loop` by worker `i`, outside the unit function. -/
def threadLoop (s : Pool P n) (i : Fin n) : Option (Pool P n) :=
  match s.workers i with
  | .popping =>
    match s.workQueue with
    | [] => some (s.setWorker i .asleep)
    | u :: rest =>
      some ({ s with workQueue := rest, popped := s.popped ++ [(u, i)] }.setWorker i (.popped u))
  -- a spurious wake-up of `pthread_cond_wait`
  | .asleep => some (s.setWorker i .popping)
  | .popped u =>
    match u.func with
    | .termSig => some (s.setWorker i (.signal u .lock))
    | .call d =>
      some ({ s with started := s.started ++ [u.id] }.setWorker i (.running u (P.call d)))
  | .running _ _ => none
  | .ran u => some ({ s with freed := s.freed ++ [u.id] }.setWorker i .popping)
  | .signal u .lock =>
    if s.locked then none else some ({ s with locked := true }.setWorker i (.signal u .test))
  | .signal u .test =>
    some (s.setWorker i (.signal u (if 1 < s.numThreads then .push else .decr)))
  | .signal u .push => some ((s.threadPoolPush .termSig).setWorker i (.signal u .decr))
  | .signal u .decr =>
    some ({ s with numThreads := s.numThreads - 1 }.setWorker i (.signal u .unlock))
  | .signal u .unlock => some ({ s with locked := false }.setWorker i (.signal u .free))
  | .signal u .free => some ({ s with freed := s.freed ++ [u.id] }.setWorker i .exited)
  | .exited => none

/-- One step of the unit function worker `i` is running. -/
def runUnit (s : Pool P n) (i : Fin n) (c : P.Choice) : Option (Pool P n) :=
  match s.workers i with
  | .running u f =>
    match P.step s.mem f c with
    | none => none
    | some (m, .go f') => some ({ s with mem := m }.setWorker i (.running u f'))
    | some (m, .request r f') => some (({ s with mem := m }.serve r).setWorker i (.running u f'))
    | some (m, .ret) =>
      some ({ s with mem := m, finished := s.finished ++ [u.id] }.setWorker i (.ran u))
  | _ => none

/-- One step of a client thread. -/
def runClient (s : Pool P n) (x : P.Client) : Option (Pool P n) :=
  match P.client s.mem x with
  | none => none
  | some (m, none) => some { s with mem := m }
  | some (m, some r) => some ({ s with mem := m }.serve r)

end Pool

/-- Who moves next. -/
inductive Event (P : Program) (n : Nat) where
  | loop (i : Fin n)
  | unit (i : Fin n) (c : P.Choice)
  | client (x : P.Client)

variable {P : Program} {n : Nat}

def step (s : Pool P n) : Event P n → Option (Pool P n)
  | .loop i => s.threadLoop i
  | .unit i c => s.runUnit i c
  | .client x => s.runClient x

/-- `thread_pool_new (n)`: `n` workers about to pop, nothing queued. -/
def threadPoolNew (n : Nat) (m : P.Mem) : Pool P n where
  workQueue := []
  numThreads := n
  locked := false
  workers := fun _ => .popping
  mem := m
  pushed := []
  popped := []
  started := []
  finished := []
  freed := []
  terminates := 0

/-- The pool with `n` workers, started with the memory `m`. -/
def machine (P : Program) (n : Nat) (m : P.Mem) : Machine (Pool P n) (Event P n) where
  init := threadPoolNew n m
  step := step

/-- How `thread_pool_free` ends: a worker is still to be joined, the
assertion `0 == async_queue_count (pool->work_queue)` fails, or the pool
is gone. -/
inductive FreeResult where
  | joining
  | assertionFailed
  | done
  deriving DecidableEq, Repr

instance (w : Worker P) : Decidable (w = .exited) :=
  match w with
  | .exited => isTrue rfl
  | .popping | .asleep | .popped _ | .running _ _ | .ran _ | .signal _ _ => isFalse nofun

instance (w : Worker P) : Decidable (w = .asleep) :=
  match w with
  | .asleep => isTrue rfl
  | .popping | .popped _ | .running _ _ | .ran _ | .signal _ _ | .exited => isFalse nofun

/-- `thread_pool_free`: joins every worker, then asserts the queue empty. -/
def threadPoolFree (s : Pool P n) : FreeResult :=
  if ∀ i, s.workers i = .exited then
    if s.workQueue.length = 0 then .done else .assertionFailed
  else .joining

/-- The workers of a run on one or two of them. -/
def first : Fin (n + 1) := 0

def second : Fin (n + 2) := 1

/-- The program that restricts nothing: units carry a number, a running
unit makes any calls on the pool and returns at any time, and the clients
make any calls. -/
def anyProgram : Program where
  Data := Nat
  Frame := Unit
  Mem := Unit
  Choice := Option (Request Nat)
  Client := Request Nat
  call := fun _ => ()
  step := fun m f c => match c with
    | some r => some (m, .request r f)
    | none => some (m, .ret)
  client := fun m r => some (m, some r)

end Loomlib.ThreadPool
