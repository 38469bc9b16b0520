import Loomlib.AsyncQueue.Model
import Loomlib.ThreadPool.Model

/-!
# ThreadPool — OnQueue

`src/thread_pool.c` on top of `src/async_queue.c`: what is one step of the
pool where the work queue is a list takes the steps of `async_queue_push`
and `async_queue_pop` here, with the queue's own lock, the ring in the heap
and the condition variable, and those of other threads in between.

Granularity. That of `async_queue.c` for the calls on the work queue; that
of the pool else. Whoever calls `thread_pool_push` or
`thread_pool_terminate` is in that call until it returns, and then goes on
with what its step said; what that step does to the memory beside the call
is done when the unit enters the ring. An item of the queue is a
`struct work_unit`, given by its function and data; the numbers of the
units are history, and follow the order in which they enter and leave the
ring. Allocations succeed.
-/

namespace Loomlib.ThreadPool

/-- Which of the client threads `κ` may take which steps of the program,
and what of the memory is a client's own. -/
structure Callers (P : Program) (κ : Type) where
  Cell : Type
  cell : κ → P.Mem → Cell
  may : κ → P.Client → Bool

/-- The calls on the pool are steps of their own: a unit function makes
them whatever the memory is, and a client depends on what is its own, which
nobody else writes. -/
structure Callers.Separate {P : Program} {κ : Type} (C : Callers P κ) : Prop where
  unit : ∀ {m f c m' r f'}, P.step m f c = some (m', .request r f') →
    ∀ m₂, ∃ m₂', P.step m₂ f c = some (m₂', .request r f')
  client : ∀ {t x m m' r m₂}, C.may t x = true → P.client m x = some (m', some r) →
    C.cell t m₂ = C.cell t m → ∃ m₂', P.client m₂ x = some (m₂', some r)
  unitCell : ∀ {t m f c m' o}, P.step m f c = some (m', o) → C.cell t m' = C.cell t m
  clientCell : ∀ {t u x m m' r}, C.may u x = true → u ≠ t → P.client m x = some (m', r) →
    C.cell t m' = C.cell t m

/-- Where the clients share all they do. -/
def Callers.any (P : Program) (κ : Type) : Callers P κ where
  Cell := Unit
  cell := fun _ _ => ()
  may := fun _ _ => true

theorem anyCallers_separate (κ : Type) : (Callers.any anyProgram κ).Separate where
  unit := by
    rintro m f (_ | r) m' r' f' h
    · cases h
    · cases h
      exact fun m₂ => ⟨m₂, rfl⟩
  client := by
    rintro t x m m' r m₂ - h -
    cases h
    exact ⟨m₂, rfl⟩
  unitCell _ := rfl
  clientCell _ _ _ := rfl

/-- `struct thread_pool` with `n` workers, used by the client threads `κ`.
`workers` is where a worker is outside of its calls on the work queue, or
where it called from; `next` is where it goes when its call returns, and
`effect` what the step that called does to the memory. -/
structure QueuedPool (P : Program) (n : Nat) (κ : Type) where
  workQueue : AsyncQueue.Queue (Fin n ⊕ κ) (Func P.Data)
  numThreads : Nat
  locked : Bool
  workers : Fin n → Worker P
  next : Fin n → Worker P
  effect : Fin n ⊕ κ → P.Mem → P.Mem
  mem : P.Mem
  pushed : List (WorkUnit P.Data)
  popped : List (WorkUnit P.Data × Fin n)
  started : List Nat
  finished : List Nat
  freed : List Nat
  terminates : Nat

/-- The function a call on the pool pushes. -/
def Request.func {δ : Type} : Request δ → Func δ
  | .push d => .call d
  | .terminate => .termSig

/-- The calls of `thread_pool_terminate` that the push of a function is. -/
def Func.asks {δ : Type} : Func δ → Nat
  | .call _ => 0
  | .termSig => 1

/-- In the branch of the signal a worker passes it on. -/
def Worker.asks {P : Program} (w : Worker P) (func : Func P.Data) : Nat :=
  match w with
  | .signal _ _ => 0
  | _ => func.asks

namespace QueuedPool

variable {P : Program} {n : Nat} {κ : Type} [DecidableEq κ]

def setWorker (s : QueuedPool P n κ) (i : Fin n) (w : Worker P) : QueuedPool P n κ :=
  { s with workers := Function.update s.workers i w }

def setNext (s : QueuedPool P n κ) (i : Fin n) (w : Worker P) : QueuedPool P n κ :=
  { s with next := Function.update s.next i w }

def setEffect (s : QueuedPool P n κ) (t : Fin n ⊕ κ) (g : P.Mem → P.Mem) : QueuedPool P n κ :=
  { s with effect := Function.update s.effect t g }

/-- Thread `t` calls a function of the work queue. -/
def call (s : QueuedPool P n κ) (t : Fin n ⊕ κ) (c : AsyncQueue.Call (Func P.Data)) :
    Option (QueuedPool P n κ) :=
  (AsyncQueue.step s.workQueue (.call t c)).map fun q => { s with workQueue := q }

def asks (s : QueuedPool P n κ) (t : Fin n ⊕ κ) (func : Func P.Data) : Nat :=
  match t with
  | .inl i => (s.workers i).asks func
  | .inr _ => func.asks

/-- What a step in a call on the work queue means to the pool: a unit was
pushed or popped, or the call returns. -/
def after (s : QueuedPool P n κ) (t : Fin n ⊕ κ) :
    AsyncQueue.PC (Func P.Data) → QueuedPool P n κ
  | .push (.broadcast func true) =>
    { s with
      mem := s.effect t s.mem
      pushed := s.pushed ++ [⟨func, s.pushed.length⟩]
      terminates := s.terminates + s.asks t func }
  | .pop _ (.empty rv) =>
    match t, rv with
    | .inl i, some func =>
      let u := ⟨func, s.popped.length⟩
      { s with popped := s.popped ++ [(u, i)] }.setNext i (.popped u)
    -- while (NULL != (work = async_queue_pop (...)))
    | .inl i, none => s.setNext i .exited
    | .inr _, _ => s
  | .idle =>
    match t with
    | .inl i => s.setWorker i (s.next i)
    | .inr _ => s
  | _ => s

/-- The next step of thread `t` in its call on the work queue; `addr` is
what `malloc` returns. -/
def queueStep (s : QueuedPool P n κ) (t : Fin n ⊕ κ) (addr : Nat) : Option (QueuedPool P n κ) :=
  (AsyncQueue.step s.workQueue (.step t (some addr))).map fun q =>
    { s with workQueue := q }.after t (q.pc t)

/-- Thread `t` is in no call on the work queue. -/
def out (s : QueuedPool P n κ) (t : Fin n ⊕ κ) : Bool :=
  match s.workQueue.pc t with
  | .idle => true
  | _ => false

/-- One step of `thread_loop` by worker `i`, outside the unit function and
outside the work queue. -/
def threadLoop (s : QueuedPool P n κ) (i : Fin n) : Option (QueuedPool P n κ) :=
  if s.out (.inl i) then
    match s.workers i with
    | .popping => s.call (.inl i) (.pop true)
    | .asleep => none
    | .popped u =>
      match u.func with
      | .termSig => some (s.setWorker i (.signal u .lock))
      | .call d =>
        some ({ s with started := s.started ++ [u.id] }.setWorker i (.running u (P.call d)))
    | .running _ _ => none
    | .ran u => some ({ s with freed := s.freed ++ [u.id] }.setWorker i .popping)
    | .signal u .lock =>
      if s.locked then none else some ({ s with locked := true }.setWorker i (.signal u .test))
    | .signal u .test =>
      some (s.setWorker i (.signal u (if 1 < s.numThreads then .push else .decr)))
    | .signal u .push =>
      ((s.setNext i (.signal u .decr)).setEffect (.inl i) id).call (.inl i) (.push .termSig)
    | .signal u .decr =>
      some ({ s with numThreads := s.numThreads - 1 }.setWorker i (.signal u .unlock))
    | .signal u .unlock => some ({ s with locked := false }.setWorker i (.signal u .free))
    | .signal u .free => some ({ s with freed := s.freed ++ [u.id] }.setWorker i .exited)
    | .exited => none
  else none

/-- One step of the unit function worker `i` is running. -/
def runUnit (s : QueuedPool P n κ) (i : Fin n) (c : P.Choice) : Option (QueuedPool P n κ) :=
  if s.out (.inl i) then
    match s.workers i with
    | .running u f =>
      match P.step s.mem f c with
      | none => none
      | some (m, .go f') => some ({ s with mem := m }.setWorker i (.running u f'))
      | some (_, .request r f') =>
        ((s.setNext i (.running u f')).setEffect (.inl i)
          fun m => ((P.step m f c).map Prod.fst).getD m).call (.inl i) (.push r.func)
      | some (m, .ret) =>
        some ({ s with mem := m, finished := s.finished ++ [u.id] }.setWorker i (.ran u))
    | _ => none
  else none

/-- One step of the client thread `t`, outside the work queue. -/
def runClient (C : Callers P κ) (s : QueuedPool P n κ) (t : κ) (x : P.Client) :
    Option (QueuedPool P n κ) :=
  if s.out (.inr t) && C.may t x then
    match P.client s.mem x with
    | none => none
    | some (m, none) => some { s with mem := m }
    | some (_, some r) =>
      (s.setEffect (.inr t) fun m => ((P.client m x).map Prod.fst).getD m).call (.inr t)
        (.push r.func)
  else none

end QueuedPool

/-- Who moves next. -/
inductive QueuedEvent (P : Program) (n : Nat) (κ : Type) where
  | loop (i : Fin n)
  | unit (i : Fin n) (c : P.Choice)
  | client (t : κ) (x : P.Client)
  | queue (t : Fin n ⊕ κ) (addr : Nat)

variable {P : Program} {n : Nat} {κ : Type} [DecidableEq κ]

def queuedStep (C : Callers P κ) (s : QueuedPool P n κ) :
    QueuedEvent P n κ → Option (QueuedPool P n κ)
  | .loop i => s.threadLoop i
  | .unit i c => s.runUnit i c
  | .client t x => s.runClient C t x
  | .queue t addr => s.queueStep t addr

/-- `thread_pool_new (n)` -/
def queuedPoolNew (n : Nat) (κ : Type) (m : P.Mem) : QueuedPool P n κ where
  workQueue := AsyncQueue.asyncQueueNew
  numThreads := n
  locked := false
  workers := fun _ => .popping
  next := fun _ => .popping
  effect := fun _ => id
  mem := m
  pushed := []
  popped := []
  started := []
  finished := []
  freed := []
  terminates := 0

/-- The pool with `n` workers on its work queue, used by the clients `κ`. -/
def queuedMachine (n : Nat) (C : Callers P κ) (m : P.Mem) :
    Machine (QueuedPool P n κ) (QueuedEvent P n κ) where
  init := queuedPoolNew n κ m
  step := queuedStep C

end Loomlib.ThreadPool
