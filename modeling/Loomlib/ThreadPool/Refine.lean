import Loomlib.AsyncQueue.Wakeup
import Loomlib.ThreadPool.OnQueue
import Loomlib.ThreadPool.Steps

/-!
# ThreadPool — Refine

The pool on its work queue refines the pool whose work queue is a list. A
call on the queue takes effect where it links its node into the ring or
takes one out, while it holds the lock. A worker that waits for an item is
awake, as seen from above, from that moment of a push on, although the
broadcast is yet to come; whoever is about to broadcast still holds the
lock, so none can fall asleep in between.
-/

namespace Loomlib.AsyncQueue

variable {ι α : Type}

/-- Whoever holds the lock has pushed, and not broadcast yet. -/
def Queue.due (q : Queue ι α) : Bool :=
  match q.lock with
  | some t => (q.pc t).owesItem
  | none => false

section Due

variable {q q' : Queue ι α} {t : ι} {x y : PC α}

theorem due_inside (hL : Locked q) (hpc : q.pc t = x) (hin : x.inside = true) :
    q.due = x.owesItem := by
  subst hpc
  simp only [Queue.due, (hL t).mp hin]

theorem due_free (hlock : q.lock = none) : q.due = false := by
  simp only [Queue.due, hlock]

theorem due_outside [DecidableEq ι] (hL : Locked q) (hout : (q.pc t).inside = false)
    (hlock : q'.lock = q.lock) (hpc : q'.pc = Function.update q.pc t y) : q'.due = q.due := by
  simp only [Queue.due, hlock, hpc]
  cases hl : q.lock with
  | none => rfl
  | some u =>
    have hu : u ≠ t := by
      rintro rfl
      rw [(hL u).mpr hl] at hout
      cases hout
    simp only [Function.update_of_ne hu]

end Due

end Loomlib.AsyncQueue

namespace Loomlib.ThreadPool

variable {P : Program} {n : Nat} {κ : Type} [DecidableEq κ]

/-! ## The view from above -/

/-- Where a worker is seen that stands at `x` of a call on the work queue:
at `now`, where it called from, until the call takes effect, and then at
`next`. `due` says that a broadcast of `nonempty` is. -/
def seen (due : Bool) (x : AsyncQueue.PC (Func P.Data)) (now next : Worker P) : Worker P :=
  match x with
  | .push (.broadcast _ _) | .push (.release _ _) | .pop _ (.empty _) | .pop _ (.release _) => next
  | .pop _ .sleep => .asleep
  | .pop _ .asleep => if due then .popping else .asleep
  | _ => now

namespace QueuedPool

variable (s : QueuedPool P n κ)

def worker (i : Fin n) : Worker P :=
  seen s.workQueue.due (s.workQueue.pc (.inl i)) (s.workers i) (s.next i)

/-- The pool, its work queue being the list of what was pushed and not
popped. -/
def view : Pool P n where
  workQueue := s.pushed.drop s.popped.length
  numThreads := s.numThreads
  locked := s.locked
  workers := s.worker
  mem := s.mem
  pushed := s.pushed
  popped := s.popped
  started := s.started
  finished := s.finished
  freed := s.freed
  terminates := s.terminates

omit [DecidableEq κ] in
/-- A step that the workers alone notice. -/
theorem view_eq {s s' : QueuedPool P n κ} (hrest : { s'.view with workers := s.worker } = s.view) :
    s'.view = { s.view with workers := s'.worker } := by
  rw [← hrest]
  rfl

end QueuedPool

/-! ## The threads -/

/-- What a worker pushes, what its step does to the memory, and where it
goes. -/
inductive Asks : Worker P → (P.Mem → P.Mem) → Func P.Data → Worker P → Prop where
  | request {u f c r f' eff} (h : ∀ m, P.step m f c = some (eff m, .request r f')) :
      Asks (.running u f) eff r.func (.running u f')
  | signal {u} : Asks (.signal u .push) id .termSig (.signal u .decr)

/-- A worker at `x` of the work queue came from `now` and goes to `next`. -/
def Owed : AsyncQueue.PC (Func P.Data) → (P.Mem → P.Mem) → Worker P → Worker P → Prop
  | .idle, _, now, _ => now.wake = now
  | .push (.acquire func), eff, now, next | .push (.body func), eff, now, next =>
    Asks now eff func next
  | .push (.broadcast _ rv), _, _, next | .push (.release _ rv), _, _, next =>
    rv = true ∧ next.wake = next
  | .pop w (.empty rv), _, _, next | .pop w (.release rv), _, _, next =>
    w = true ∧ rv ≠ none ∧ next.wake = next
  | .pop w _, _, now, _ => w = true ∧ now = .popping
  | .count _, _, _, _ | .free _, _, _, _ => False

/-- A step of the client `t` pushes `func`, as long as nobody writes what
is its own. -/
def Pushing (C : Callers P κ) (mem : P.Mem) (t : κ) (eff : P.Mem → P.Mem) (func : Func P.Data) :
    Prop :=
  ∃ x r, C.may t x = true ∧ r.func = func ∧
    ∀ m, C.cell t m = C.cell t mem → P.client m x = some (eff m, some r)

/-- A client at `x` of the work queue pushes. -/
def InPush (C : Callers P κ) (mem : P.Mem) (t : κ) (eff : P.Mem → P.Mem) :
    AsyncQueue.PC (Func P.Data) → Prop
  | .idle => True
  | .push (.acquire func) | .push (.body func) => Pushing C mem t eff func
  | .push (.broadcast _ rv) | .push (.release _ rv) => rv = true
  | _ => False

omit [DecidableEq κ] in
theorem InPush.congr {C : Callers P κ} {mem mem' : P.Mem} {t : κ} {eff : P.Mem → P.Mem}
    {x : AsyncQueue.PC (Func P.Data)} (h : InPush C mem t eff x)
    (hcell : C.cell t mem' = C.cell t mem) : InPush C mem' t eff x := by
  cases x with
  | push p =>
    cases p with
    | acquire func | body func =>
      obtain ⟨x, r, hmay, hr, hx⟩ := h
      exact ⟨x, r, hmay, hr, fun m hm => hx m (hm.trans hcell)⟩
    | _ => exact h
  | _ => exact h

/-- What a thread at `x` of the work queue is doing there. -/
def QueuedPool.Fits (C : Callers P κ) (s : QueuedPool P n κ) (t : Fin n ⊕ κ)
    (x : AsyncQueue.PC (Func P.Data)) : Prop :=
  match t with
  | .inl i => Owed x (s.effect t) (s.workers i) (s.next i)
  | .inr c => InPush C s.mem c (s.effect t) x

/-- The pool and its work queue agree. -/
structure Agrees (C : Callers P κ) (s : QueuedPool P n κ) : Prop where
  queue : (AsyncQueue.machine (Fin n ⊕ κ) (Func P.Data)).Reachable s.workQueue
  freed : s.workQueue.freed = false
  ring : ∃ l, Ring s.workQueue.heap s.workQueue.queue l ∧
    l.map Prod.snd = (s.pushed.drop s.popped.length).map WorkUnit.func
  popped : s.popped.length ≤ s.pushed.length
  ids : ∀ (k : Nat) (u : WorkUnit P.Data), s.pushed[k]? = some u → u.id = k
  threads : ∀ t, s.Fits C t (s.workQueue.pc t)

/-- Nobody wakes up for nothing. -/
def Awake (s : Pool P n) : Event P n → Prop
  | .loop i => s.workers i ≠ .asleep
  | _ => True

/-- What a step comes to, seen from above: one of the steps `E`, or none if
it is one on the work queue. -/
def Seen (C : Callers P κ) (E : Event P n → Prop) (s s' : QueuedPool P n κ) : Prop :=
  Agrees C s' ∧ ((s'.view = s.view ∧ s'.workQueue ≠ s.workQueue) ∨
    ∃ e, E e ∧ step s.view e = some s'.view)

theorem Seen.mono {C : Callers P κ} {E E' : Event P n → Prop} {s s' : QueuedPool P n κ}
    (h : Seen C E s s') (hE : ∀ e, E e → E' e) : Seen C E' s s' :=
  ⟨h.1, h.2.imp_right fun ⟨e, he, hs⟩ => ⟨e, hE e he, hs⟩⟩

/-! ## Steps beside the work queue -/

section Beside

variable {C : Callers P κ} {s s' : QueuedPool P n κ} {i : Fin n} {w : Worker P}

omit [DecidableEq κ] in
theorem idle_of_out {t : Fin n ⊕ κ} (hout : s.out t = true) : s.workQueue.pc t = .idle := by
  unfold QueuedPool.out at hout
  split at hout
  · assumption
  · cases hout

omit [DecidableEq κ] in
/-- A worker outside of the queue is seen where it is. -/
theorem worker_idle (hidle : s.workQueue.pc (.inl i) = .idle) : s.worker i = s.workers i := by
  simp only [QueuedPool.worker, hidle, seen]

omit [DecidableEq κ] in
theorem worker_setWorker (hq : s'.workQueue = s.workQueue) (hn : s'.next = s.next)
    (hidle : s.workQueue.pc (.inl i) = .idle) (hw : s'.workers = Function.update s.workers i w) :
    s'.worker = Function.update s.worker i w := by
  funext j
  by_cases hj : j = i
  · subst hj
    rw [Function.update_self, worker_idle (hq ▸ hidle), hw, Function.update_self]
  · rw [Function.update_of_ne hj]
    simp only [QueuedPool.worker, hq, hn, hw, Function.update_of_ne hj]

/-- A step of a worker outside of the queue. -/
theorem Agrees.setWorker (hA : Agrees C s) (hq : s'.workQueue = s.workQueue) (hn : s'.next = s.next)
    (hidle : s.workQueue.pc (.inl i) = .idle) (hw : s'.workers = Function.update s.workers i w)
    (hwake : w.wake = w) (hpushed : s'.pushed = s.pushed) (hpopped : s'.popped = s.popped)
    (heffect : s'.effect = s.effect) (hcell : ∀ t, C.cell t s'.mem = C.cell t s.mem) :
    Agrees C s' := by
  refine ⟨hq ▸ hA.queue, hq ▸ hA.freed, ?_, ?_, ?_, ?_⟩
  · rw [hq, hpushed, hpopped]
    exact hA.ring
  · rw [hpushed, hpopped]
    exact hA.popped
  · rw [hpushed]
    exact hA.ids
  · intro t
    have ht := hA.threads t
    rw [hq]
    cases t with
    | inr t =>
      show InPush C s'.mem t (s'.effect (.inr t)) _
      rw [heffect]
      exact InPush.congr ht (hcell t)
    | inl j =>
      simp only [QueuedPool.Fits, hw, hn, heffect] at ht ⊢
      by_cases hj : j = i
      · subst hj
        rw [Function.update_self, hidle]
        exact hwake
      · rwa [Function.update_of_ne hj]

/-- It makes up its mind where to go after a call. -/
theorem Agrees.setNext (hA : Agrees C s) (hidle : s.workQueue.pc (.inl i) = .idle) (w : Worker P)
    (eff : P.Mem → P.Mem) :
    Agrees C ((s.setNext i w).setEffect (.inl i) eff) ∧
      ((s.setNext i w).setEffect (.inl i) eff).view = s.view := by
  refine ⟨⟨hA.queue, hA.freed, hA.ring, hA.popped, hA.ids, ?_⟩, ?_⟩
  · intro t
    have ht := hA.threads t
    cases t with
    | inr t => exact ht
    | inl j =>
      by_cases hj : j = i
      · subst hj
        show Owed (s.workQueue.pc (.inl j)) _ _ _
        rw [hidle]
        simp only [QueuedPool.Fits, hidle] at ht
        exact ht
      · simpa only [QueuedPool.Fits, QueuedPool.setNext, QueuedPool.setEffect,
          Function.update_of_ne hj,
          Function.update_of_ne (show (Sum.inl j : Fin n ⊕ κ) ≠ .inl i by simpa using hj)] using ht
  · rw [QueuedPool.view_eq (s := s) rfl]
    refine congrArg (fun g => { s.view with workers := g }) (funext fun j => ?_)
    by_cases hj : j = i
    · subst hj
      exact (worker_idle (s := (s.setNext j w).setEffect (.inl j) eff) hidle).trans
        (worker_idle hidle).symm
    · show QueuedPool.worker _ j = s.worker j
      simp only [QueuedPool.worker, QueuedPool.setNext, QueuedPool.setEffect,
        Function.update_of_ne hj]

end Beside

/-! ## Steps in a call on the work queue -/

section Queue

variable {C : Callers P κ} {E : Event P n → Prop} {s s' : QueuedPool P n κ} {t : Fin n ⊕ κ}
  {x y : AsyncQueue.PC (Func P.Data)}
  {f : AsyncQueue.PC (Func P.Data) → AsyncQueue.PC (Func P.Data)}

/-- What a broadcast does to the others leaves them where they belong. -/
structure Keeps (C : Callers P κ) (f : AsyncQueue.PC (Func P.Data) → AsyncQueue.PC (Func P.Data)) :
    Prop where
  owed : ∀ {x} {now next : Worker P}
      {eff : P.Mem → P.Mem}, Owed x eff now next → Owed (f x) eff now next
  inPush : ∀ {mem t eff x}, InPush C mem t eff x → InPush C mem t eff (f x)

omit [DecidableEq κ] in
theorem keeps_id : Keeps C id := ⟨id, id⟩

omit [DecidableEq κ] in
theorem keeps_wakeNonempty : Keeps C AsyncQueue.PC.wakeNonempty where
  owed := by
    intro x now next eff h
    unfold AsyncQueue.PC.wakeNonempty
    split
    · exact h
    · exact h
  inPush := by
    intro mem t eff x h
    unfold AsyncQueue.PC.wakeNonempty
    split
    · exact h
    · exact h

omit [DecidableEq κ] in
theorem keeps_wakeEmpty : Keeps C AsyncQueue.PC.wakeEmpty where
  owed := by
    intro x now next eff h
    unfold AsyncQueue.PC.wakeEmpty
    split
    · exact h
    · exact h
  inPush := by
    intro mem t eff x h
    unfold AsyncQueue.PC.wakeEmpty
    split
    · exact h
    · exact h

/-- Thread `t` has moved to `y` on the work queue, and `f` the others. -/
structure Moved (C : Callers P κ) (s s' : QueuedPool P n κ) (t : Fin n ⊕ κ)
    (f : AsyncQueue.PC (Func P.Data) → AsyncQueue.PC (Func P.Data))
    (y : AsyncQueue.PC (Func P.Data)) : Prop where
  pc : s'.workQueue.pc = Function.update (fun u => f (s.workQueue.pc u)) t y
  workers : ∀ j, .inl j ≠ t → s'.workers j = s.workers j
  next : ∀ j, .inl j ≠ t → s'.next j = s.next j
  effect : s'.effect = s.effect
  cell : ∀ c, .inr c ≠ t → C.cell c s'.mem = C.cell c s.mem

/-- Nothing but the queue has moved. -/
theorem Moved.queue {q' : AsyncQueue.Queue (Fin n ⊕ κ) (Func P.Data)}
    (hpc : q'.pc = Function.update (fun u => f (s.workQueue.pc u)) t y) :
    Moved C s { s with workQueue := q' } t f y :=
  ⟨hpc, fun _ _ => rfl, fun _ _ => rfl, rfl, fun _ _ => rfl⟩

theorem Moved.threads (h : Moved C s s' t f y) (hf : Keeps C f) (hA : Agrees C s)
    (hfit : s'.Fits C t y) (u : Fin n ⊕ κ) : s'.Fits C u (s'.workQueue.pc u) := by
  rw [h.pc]
  by_cases hu : u = t
  · subst hu
    rwa [Function.update_self]
  · rw [Function.update_of_ne hu]
    have hold := hA.threads u
    cases u with
    | inl j =>
      simp only [QueuedPool.Fits, h.workers j hu, h.next j hu, h.effect] at hold ⊢
      exact hf.owed hold
    | inr c =>
      show InPush C s'.mem c (s'.effect (.inr c)) _
      rw [h.effect]
      exact hf.inPush (InPush.congr hold (h.cell c hu))

/-- How the others are seen then. -/
theorem Moved.worker (h : Moved C s s' t f y) (hA : Agrees C s) {g : Worker P → Worker P}
    (hsee : ∀ {x : AsyncQueue.PC (Func P.Data)} {now next : Worker P}
      {eff : P.Mem → P.Mem}, (∃ u, u ≠ t ∧ s.workQueue.pc u = x) → Owed x eff now next →
      seen s'.workQueue.due (f x) now next = g (seen s.workQueue.due x now next))
    {j : Fin n} (hj : .inl j ≠ t) : s'.worker j = g (s.worker j) := by
  simp only [QueuedPool.worker, h.pc, Function.update_of_ne hj, h.workers j hj, h.next j hj]
  exact hsee ⟨_, hj, rfl⟩ (hA.threads (.inl j))

/-- All workers then, after a step of one of them. -/
theorem Moved.worker_inl {i : Fin n} {w : Worker P} (h : Moved C s s' (.inl i) f y)
    (hA : Agrees C s) {g : Worker P → Worker P}
    (hsee : ∀ {x : AsyncQueue.PC (Func P.Data)} {now next : Worker P}
      {eff : P.Mem → P.Mem}, (∃ u, u ≠ .inl i ∧ s.workQueue.pc u = x) → Owed x eff now next →
      seen s'.workQueue.due (f x) now next = g (seen s.workQueue.due x now next))
    (hi : seen s'.workQueue.due y (s'.workers i) (s'.next i) = w) :
    s'.worker = Function.update (fun j => g (s.worker j)) i w := by
  funext j
  by_cases hj : j = i
  · subst hj
    rw [Function.update_self, ← hi]
    simp only [QueuedPool.worker, h.pc, Function.update_self]
  · rw [Function.update_of_ne hj]
    exact h.worker hA hsee (by simpa using hj)

/-- A step that is not seen from above. -/
theorem Moved.unseen (h : Moved C s s' t f y) (hf : Keeps C f) (hA : Agrees C s)
    (hr : (AsyncQueue.machine (Fin n ⊕ κ) (Func P.Data)).Reachable s'.workQueue)
    (hring : s'.workQueue.heap = s.workQueue.heap ∧ s'.workQueue.queue = s.workQueue.queue ∧
      s'.workQueue.freed = s.workQueue.freed)
    (hfit : s'.Fits C t y)
    (hsee : ∀ {x : AsyncQueue.PC (Func P.Data)} {now next : Worker P}
      {eff : P.Mem → P.Mem}, Owed x eff now next →
      seen s'.workQueue.due (f x) now next = seen s.workQueue.due x now next)
    (hown : ∀ i, t = .inl i →
      seen s'.workQueue.due y (s'.workers i) (s'.next i) = s.worker i)
    (hne : s.workQueue.pc t ≠ y) (hrest : { s'.view with workers := s.worker } = s.view) :
    Seen C E s s' := by
  have hpushed : s'.pushed = s.pushed := congrArg Pool.pushed hrest
  have hpopped : s'.popped = s.popped := congrArg Pool.popped hrest
  refine ⟨⟨hr, hring.2.2.trans hA.freed, ?_, ?_, ?_, h.threads hf hA hfit⟩, .inl ⟨?_, ?_⟩⟩
  · rw [hring.1, hring.2.1, hpushed, hpopped]
    exact hA.ring
  · rw [hpushed, hpopped]
    exact hA.popped
  · rw [hpushed]
    exact hA.ids
  · rw [QueuedPool.view_eq hrest]
    refine congrArg (fun g => { s.view with workers := g }) (funext fun j => ?_)
    by_cases hj : .inl j = t
    · subst hj
      show s'.worker j = s.worker j
      rw [← hown j rfl]
      simp only [QueuedPool.worker, h.pc, Function.update_self]
    · exact h.worker hA (g := id) (fun _ => hsee) hj
  · intro heq
    apply hne
    rw [← heq, h.pc, Function.update_self]

omit [DecidableEq κ] in
theorem seen_start (due : Bool) (c : AsyncQueue.Call (Func P.Data)) (now next : Worker P) :
    seen due c.start now next = now := by
  cases c <;> rfl

theorem Agrees.queue_step (hA : Agrees C s) {e : AsyncQueue.Event (Fin n ⊕ κ) (Func P.Data)}
    {q' : AsyncQueue.Queue (Fin n ⊕ κ) (Func P.Data)}
    (h : AsyncQueue.step s.workQueue e = some q') :
    (AsyncQueue.machine (Fin n ⊕ κ) (Func P.Data)).Reachable q' :=
  .step (M := AsyncQueue.machine (Fin n ⊕ κ) (Func P.Data)) hA.queue trivial h

/-- A thread enters the queue. -/
theorem Agrees.call {c : AsyncQueue.Call (Func P.Data)} (hA : Agrees C s)
    (hfit : s.Fits C t c.start) (hs : s.call t c = some s') : Seen C E s s' := by
  obtain ⟨q', hstep, rfl⟩ := Option.map_eq_some_iff.mp hs
  have hr := hA.queue_step hstep
  obtain ⟨hidle, rfl⟩ := AsyncQueue.call_cases hstep
  have hdue : ({ s.workQueue with freeing := s.workQueue.freeing || c.frees }.goto t c.start).due
      = s.workQueue.due :=
    AsyncQueue.due_outside (AsyncQueue.locked hA.queue) (by rw [hidle]; rfl) rfl rfl
  refine (Moved.queue (f := id) (y := c.start) rfl).unseen keeps_id hA hr ⟨rfl, rfl, rfl⟩ hfit
    ?_ ?_ ?_ rfl
  · intro x now next eff _
    rw [hdue]
    rfl
  · rintro i rfl
    exact (seen_start ..).trans (worker_idle hidle).symm
  · rw [hidle]
    cases c <;> simp [AsyncQueue.Call.start]

variable {q' : AsyncQueue.Queue (Fin n ⊕ κ) (Func P.Data)}

/-- It takes the lock. -/
theorem Agrees.acquire (hA : Agrees C s)
    (hr : (AsyncQueue.machine (Fin n ⊕ κ) (Func P.Data)).Reachable q')
    (hpc : s.workQueue.pc t = x) (hx : x.acquires = some y) (hl : s.workQueue.lock = none)
    (hq' : q' = { s.workQueue with lock := some t }.goto t y) :
    Seen C E s ({ s with workQueue := q' }.after t y) := by
  have hfit := hA.threads t
  rw [hpc] at hfit
  obtain ⟨hfit', hin, howes, hne, hafter, hown⟩ : s.Fits C t y ∧ y.inside = true ∧
      y.owesItem = false ∧ x ≠ y ∧
      { s with workQueue := q' }.after t y = { s with workQueue := q' } ∧
      ∀ due (now next : Worker P), seen due y now next = seen due x now next := by
    unfold AsyncQueue.PC.acquires at hx
    split at hx <;> cases hx <;> cases t <;>
      exact ⟨hfit, rfl, rfl, by simp, rfl, fun _ _ _ => rfl⟩
  have hpc' : q'.pc t = y := by
    rw [hq']
    exact Function.update_self ..
  have hdue : q'.due = s.workQueue.due := by
    rw [AsyncQueue.due_free hl, AsyncQueue.due_inside (AsyncQueue.locked hr) hpc' hin, howes]
  rw [hafter]
  refine (Moved.queue (f := id) (by rw [hq']; rfl)).unseen keeps_id hA hr
    (by rw [hq']; exact ⟨rfl, rfl, rfl⟩) hfit' ?_ ?_ (hpc ▸ hne) rfl
  · intro x now next eff _
    exact congrArg (seen · x now next) hdue
  · rintro i rfl
    show seen q'.due y _ _ = _
    rw [hdue, hown, ← hpc]
    rfl

/-- A call returns, and the worker goes where the call leads. -/
theorem Agrees.leave (hA : Agrees C s)
    (hr : (AsyncQueue.machine (Fin n ⊕ κ) (Func P.Data)).Reachable (s.workQueue.release t .idle))
    (hpc : s.workQueue.pc t = x) (hdue : (s.workQueue.release t .idle).due = s.workQueue.due)
    (hne : x ≠ .idle) (hnext : ∀ i, t = .inl i → (s.next i).wake = s.next i ∧
      ∀ due, seen due x (s.workers i) (s.next i) = s.next i) :
    Seen C E s ({ s with workQueue := s.workQueue.release t .idle }.after t .idle) := by
  have hsee : ∀ {x : AsyncQueue.PC (Func P.Data)} {now next : Worker P}
      {eff : P.Mem → P.Mem}, Owed x eff now next →
      seen (s.workQueue.release t .idle).due x now next = seen s.workQueue.due x now next :=
    fun _ => congrArg (seen · _ _ _) hdue
  cases t with
  | inr c =>
    exact (Moved.queue (t := .inr c) (f := id) (y := .idle) rfl).unseen keeps_id hA hr
      ⟨rfl, rfl, rfl⟩ trivial hsee nofun (hpc ▸ hne) rfl
  | inl i =>
    obtain ⟨hwake, hseen⟩ := hnext i rfl
    refine Moved.unseen (t := .inl i) (y := .idle)
      ⟨rfl, ?_, fun _ _ => rfl, rfl, fun _ _ => rfl⟩ keeps_id hA hr ⟨rfl, rfl, rfl⟩ ?_ hsee ?_
      (hpc ▸ hne) rfl
    · intro j hj
      exact Function.update_of_ne (by simpa using hj) _ _
    · show Worker.wake (Function.update s.workers i (s.next i) i)
        = Function.update s.workers i (s.next i) i
      rwa [Function.update_self]
    · intro j hj
      cases hj
      show Function.update s.workers i (s.next i) i = _
      rw [Function.update_self, QueuedPool.worker, hpc, hseen]

/-- It gives the lock back. -/
theorem Agrees.release (hA : Agrees C s)
    (hr : (AsyncQueue.machine (Fin n ⊕ κ) (Func P.Data)).Reachable (s.workQueue.release t y))
    (hpc : s.workQueue.pc t = x) (hx : x.releases = some y) :
    Seen C E s ({ s with workQueue := s.workQueue.release t y }.after t y) := by
  have hfit := hA.threads t
  rw [hpc] at hfit
  have hdue : (s.workQueue.release t y).due = s.workQueue.due := by
    rw [AsyncQueue.due_free rfl, AsyncQueue.due_inside (AsyncQueue.locked hA.queue) hpc
      (AsyncQueue.PC.returned_of_releases hx).1]
    unfold AsyncQueue.PC.releases at hx
    split at hx <;> first | rfl | cases hx
  unfold AsyncQueue.PC.releases at hx
  split at hx <;> cases hx
  -- the calls return
  · refine hA.leave hr hpc hdue (by simp) ?_
    rintro i rfl
    exact ⟨hfit.2, fun _ => rfl⟩
  · refine hA.leave hr hpc hdue (by simp) ?_
    rintro i rfl
    exact ⟨hfit.2.2, fun _ => rfl⟩
  · cases t <;> exact hfit.elim
  -- a pop goes to sleep
  · rename_i w
    refine (Moved.queue (f := id) rfl).unseen keeps_id hA hr ⟨rfl, rfl, rfl⟩ ?_
      (fun _ => congrArg (seen · _ _ _) hdue) ?_ (by simp [hpc]) rfl
    · cases t <;> exact hfit
    · rintro i rfl
      have hfree : (s.workQueue.release (.inl i) (.pop w .asleep)).due = false :=
        AsyncQueue.due_free rfl
      rw [QueuedPool.worker, hpc]
      show seen (s.workQueue.release (.inl i) (.pop w .asleep)).due (.pop w .asleep) _ _ = _
      rw [hfree]
      rfl
  · cases t <;> exact hfit.elim
  · cases t <;> exact hfit.elim

/-- A step of a worker in a call that is seen as one of the worker alone. -/
theorem Moved.setWorker {i : Fin n} {w : Worker P} (h : Moved C s s' (.inl i) id y)
    (hA : Agrees C s) (hdue : s'.workQueue.due = s.workQueue.due)
    (hi : seen s'.workQueue.due y (s'.workers i) (s'.next i) = w)
    (hrest : { s'.view with workers := s.worker } = s.view) : s'.view = s.view.setWorker i w := by
  rw [QueuedPool.view_eq hrest,
    h.worker_inl hA (g := id) (fun _ _ => congrArg (seen · _ _ _) hdue) hi]
  rfl

/-- A sleeper wakes up: it is awake already if a broadcast is due. -/
theorem Agrees.wakeUp (hA : Agrees C s)
    (hr : (AsyncQueue.machine (Fin n ⊕ κ) (Func P.Data)).Reachable (s.workQueue.goto t y))
    (hpc : s.workQueue.pc t = x) (hx : x.sleeps = some y) :
    Seen C (fun _ => True) s ({ s with workQueue := s.workQueue.goto t y }.after t y) := by
  have hfit := hA.threads t
  rw [hpc] at hfit
  unfold AsyncQueue.PC.sleeps at hx
  split at hx <;> cases hx
  · rename_i w
    have hdue : (s.workQueue.goto t (.pop w .woken)).due = s.workQueue.due :=
      AsyncQueue.due_outside (AsyncQueue.locked hA.queue) (by rw [hpc]; rfl) rfl rfl
    have hmoved : Moved C s { s with workQueue := s.workQueue.goto t (.pop w .woken) } t id
        (.pop w .woken) := .queue rfl
    cases t with
    | inr c => exact hfit.elim
    | inl i =>
      have hnow : s.workers i = .popping := hfit.2
      cases hs : s.workQueue.due with
      | true =>
        refine hmoved.unseen keeps_id hA hr ⟨rfl, rfl, rfl⟩ hfit
          (fun _ => congrArg (seen · _ _ _) hdue) ?_ (by simp [hpc]) rfl
        rintro j hj
        cases hj
        rw [QueuedPool.worker, hpc, hs]
        exact hnow
      | false =>
        refine ⟨⟨hr, hA.freed, hA.ring, hA.popped, hA.ids, hmoved.threads keeps_id hA hfit⟩,
          .inr ⟨.loop i, trivial, ?_⟩⟩
        have hview : s.view.workers i = .asleep := by
          show s.worker i = .asleep
          rw [QueuedPool.worker, hpc, hs]
          rfl
        show Pool.threadLoop s.view i = _
        simp only [Pool.threadLoop, hview]
        exact congrArg some (hmoved.setWorker hA hdue hnow rfl).symm
  · cases t <;> exact hfit.elim

omit [DecidableEq κ] in
/-- Who is woken by the broadcast was seen awake since it was due. -/
theorem seen_wakeNonempty {now next : Worker P} {eff : P.Mem → P.Mem} (h : Owed x eff now next) :
    seen false x.wakeNonempty now next = seen true x now next := by
  cases x with
  | pop w p =>
    cases p with
    | asleep => exact h.2
    | _ => rfl
  | push p => cases p <;> rfl
  | _ => rfl

omit [DecidableEq κ] in
theorem seen_wakeEmpty {due : Bool} {now next : Worker P} {eff : P.Mem → P.Mem}
    (h : Owed x eff now next) : seen due x.wakeEmpty now next = seen due x now next := by
  cases x with
  | free p => exact h.elim
  | pop w p => cases p <;> rfl
  | _ => rfl

/-- The broadcast of a push. -/
theorem Agrees.broadcast {func : Func P.Data} {rv : Bool} (hA : Agrees C s)
    (hr : (AsyncQueue.machine (Fin n ⊕ κ) (Func P.Data)).Reachable q')
    (hpc : s.workQueue.pc t = .push (.broadcast func rv))
    (hq' : q' = { s.workQueue with pc := fun u => (s.workQueue.pc u).wakeNonempty }.goto t
      (.push (.release func rv))) :
    Seen C E s ({ s with workQueue := q' }.after t (.push (.release func rv))) := by
  have hfit := hA.threads t
  rw [hpc] at hfit
  have hpc' : q'.pc t = .push (.release func rv) := by
    rw [hq']
    exact Function.update_self ..
  have hdue : s.workQueue.due = true :=
    AsyncQueue.due_inside (AsyncQueue.locked hA.queue) hpc rfl
  have hdue' : q'.due = false := AsyncQueue.due_inside (AsyncQueue.locked hr) hpc' rfl
  refine (Moved.queue (by rw [hq']; rfl)).unseen keeps_wakeNonempty hA hr
    (by rw [hq']; exact ⟨rfl, rfl, rfl⟩) (by cases t <;> exact hfit) ?_ ?_ (by simp [hpc]) rfl
  · intro x now next eff h
    show seen q'.due _ _ _ = _
    rw [hdue, hdue']
    exact seen_wakeNonempty h
  · rintro i rfl
    rw [QueuedPool.worker, hpc]
    rfl

/-- What a pop does after it has taken its item out. -/
theorem Agrees.emptied {w : Bool} {rv : Option (Func P.Data)} (hA : Agrees C s)
    (hr : (AsyncQueue.machine (Fin n ⊕ κ) (Func P.Data)).Reachable q')
    (hpc : s.workQueue.pc t = .pop w (.empty rv)) (hf : Keeps C f)
    (hfsee : ∀ {x : AsyncQueue.PC (Func P.Data)} {due : Bool} {now next : Worker P}
      {eff : P.Mem → P.Mem}, Owed x eff now next → seen due (f x) now next = seen due x now next)
    (hq' : q' = { s.workQueue with pc := fun u => f (s.workQueue.pc u) }.goto t
      (.pop w (.release rv))) :
    Seen C E s ({ s with workQueue := q' }.after t (.pop w (.release rv))) := by
  have hfit := hA.threads t
  rw [hpc] at hfit
  have hpc' : q'.pc t = .pop w (.release rv) := by
    rw [hq']
    exact Function.update_self ..
  have hdue : q'.due = s.workQueue.due := by
    rw [AsyncQueue.due_inside (AsyncQueue.locked hA.queue) hpc rfl,
      AsyncQueue.due_inside (AsyncQueue.locked hr) hpc' rfl]
    rfl
  refine (Moved.queue (by rw [hq']; rfl)).unseen hf hA hr
    (by rw [hq']; exact ⟨rfl, rfl, rfl⟩) (by cases t <;> exact hfit) ?_ ?_ (by simp [hpc]) rfl
  · intro x now next eff h
    show seen q'.due _ _ _ = _
    rw [hdue]
    exact hfsee h
  · rintro i rfl
    rw [QueuedPool.worker, hpc]
    rfl

/-- A pop that finds the queue empty is about to sleep. -/
theorem Agrees.wait {h : Links (Func P.Data)} {q : Option Nat} (hA : Agrees C s)
    (hr : (AsyncQueue.machine (Fin n ⊕ κ) (Func P.Data)).Reachable q')
    (hpc : s.workQueue.pc t = .pop true .test)
    (hq : AsyncQueue.queuePop s.workQueue.heap s.workQueue.queue = some (h, q, none))
    (hq' : q' = { s.workQueue with heap := h, queue := q }.goto t (.pop true .sleep)) :
    Seen C (Awake s.view) s ({ s with workQueue := q' }.after t (.pop true .sleep)) := by
  have hfit := hA.threads t
  rw [hpc] at hfit
  have hpc' : q'.pc t = .pop true .sleep := by
    rw [hq']
    exact Function.update_self ..
  have hdue : q'.due = s.workQueue.due := by
    rw [AsyncQueue.due_inside (AsyncQueue.locked hA.queue) hpc rfl,
      AsyncQueue.due_inside (AsyncQueue.locked hr) hpc' rfl]
    rfl
  obtain ⟨l, hring, hl⟩ := hA.ring
  obtain ⟨h', q'', hpop, hring'⟩ := AsyncQueue.queuePop_ring hring
  simp only [hq, Option.some.injEq, Prod.mk.injEq] at hpop
  obtain ⟨rfl, rfl, hnone⟩ := hpop
  obtain rfl : l = [] := by simpa using hnone.symm
  have hempty : s.pushed.drop s.popped.length = [] := by simpa using hl.symm
  cases t with
  | inr c => exact hfit.elim
  | inl i =>
    have hview : s.view.workers i = .popping := by
      show s.worker i = .popping
      rw [QueuedPool.worker, hpc]
      exact hfit.2
    have hmoved : Moved C s { s with workQueue := q' } (.inl i) id (.pop true .sleep) :=
      .queue (by rw [hq']; rfl)
    refine ⟨⟨hr, by rw [hq']; exact hA.freed, ⟨[], ?_, hl⟩, hA.popped, hA.ids,
      hmoved.threads keeps_id hA hfit⟩, .inr ⟨.loop i, ?_, ?_⟩⟩
    · show Ring q'.heap q'.queue []
      rw [hq']
      exact hring'
    · show s.view.workers i ≠ .asleep
      rw [hview]
      simp
    · have hqueue : s.view.workQueue = [] := hempty
      show Pool.threadLoop s.view i = _
      simp only [Pool.threadLoop, hview, hqueue]
      exact congrArg some (hmoved.setWorker hA hdue rfl rfl).symm

/-- The unit that has been queued longest is the next one by its number. -/
theorem Agrees.oldest {l : List (Nat × Func P.Data)} {func : Func P.Data} (hA : Agrees C s)
    (hl : l.map Prod.snd = (s.pushed.drop s.popped.length).map WorkUnit.func)
    (hhead : some func = l.head?.map Prod.snd) :
    s.popped.length < s.pushed.length ∧
      s.pushed.drop s.popped.length
        = ⟨func, s.popped.length⟩ :: s.pushed.drop (s.popped.length + 1) ∧
      l.tail.map Prod.snd = (s.pushed.drop (s.popped.length + 1)).map WorkUnit.func := by
  cases l with
  | nil => cases hhead
  | cons p l =>
    obtain rfl : func = p.2 := Option.some.inj hhead
    cases hdrop : s.pushed.drop s.popped.length with
    | nil => rw [hdrop] at hl; cases hl
    | cons u rest =>
      rw [hdrop, List.map_cons, List.map_cons, List.cons.injEq] at hl
      have hget : s.pushed[s.popped.length]? = some u := by
        rw [← List.head?_drop, hdrop, List.head?_cons]
      have hrest : s.pushed.drop (s.popped.length + 1) = rest := by
        rw [← List.tail_drop, hdrop, List.tail_cons]
      refine ⟨(List.getElem?_eq_some_iff.mp hget).1, ?_, ?_⟩
      · rw [hrest, hl.1, ← hA.ids _ _ hget]
      · rw [hrest]
        exact hl.2

/-- A pop takes the oldest unit. -/
theorem Agrees.take {w : Bool} {h : Links (Func P.Data)} {q : Option Nat} {func : Func P.Data}
    (hA : Agrees C s) (hr : (AsyncQueue.machine (Fin n ⊕ κ) (Func P.Data)).Reachable q')
    (hpc : s.workQueue.pc t = .pop w .test)
    (hq : AsyncQueue.queuePop s.workQueue.heap s.workQueue.queue = some (h, q, some func))
    (hq' : q' = { s.workQueue with heap := h, queue := q, size := s.workQueue.size - 1 }.goto t
      (.pop w (.empty (some func)))) :
    Seen C (Awake s.view) s ({ s with workQueue := q' }.after t (.pop w (.empty (some func)))) := by
  have hfit := hA.threads t
  rw [hpc] at hfit
  have hpc' : q'.pc t = .pop w (.empty (some func)) := by
    rw [hq']
    exact Function.update_self ..
  have hdue : q'.due = s.workQueue.due := by
    rw [AsyncQueue.due_inside (AsyncQueue.locked hA.queue) hpc rfl,
      AsyncQueue.due_inside (AsyncQueue.locked hr) hpc' rfl]
    rfl
  obtain ⟨l, hring, hl⟩ := hA.ring
  obtain ⟨h', q'', hpop, hring'⟩ := AsyncQueue.queuePop_ring hring
  simp only [hq, Option.some.injEq, Prod.mk.injEq] at hpop
  obtain ⟨rfl, rfl, hhead⟩ := hpop
  obtain ⟨hlt, hdrop, hrest⟩ := hA.oldest hl hhead
  cases t with
  | inr c => exact hfit.elim
  | inl i =>
    have hview : s.view.workers i = .popping := by
      show s.worker i = .popping
      rw [QueuedPool.worker, hpc]
      exact hfit.2
    have hafter : { s with workQueue := q' }.after (.inl i) (.pop w (.empty (some func)))
        = { s with
            workQueue := q'
            popped := s.popped ++ [(⟨func, s.popped.length⟩, i)]
            next := Function.update s.next i (.popped ⟨func, s.popped.length⟩) } := rfl
    rw [hafter]
    have hmoved : Moved C s
        { s with
          workQueue := q'
          popped := s.popped ++ [(⟨func, s.popped.length⟩, i)]
          next := Function.update s.next i (.popped ⟨func, s.popped.length⟩) }
        (.inl i) id (.pop w (.empty (some func))) := by
      refine ⟨by rw [hq']; rfl, fun _ _ => rfl, ?_, rfl, fun _ _ => rfl⟩
      intro j hj
      exact Function.update_of_ne (by simpa using hj) _ _
    refine ⟨⟨hr, by rw [hq']; exact hA.freed, ⟨l.tail, by rw [hq']; exact hring', ?_⟩, ?_, hA.ids,
      hmoved.threads keeps_id hA ?_⟩, .inr ⟨.loop i, ?_, ?_⟩⟩
    · rw [List.length_append, List.length_singleton]
      exact hrest
    · rw [List.length_append, List.length_singleton]
      exact hlt
    · refine ⟨hfit.1, nofun, ?_⟩
      show Worker.wake (Function.update s.next i _ i) = Function.update s.next i _ i
      rw [Function.update_self]
      rfl
    · show s.view.workers i ≠ .asleep
      rw [hview]
      simp
    · have hqueue : s.view.workQueue
          = ⟨func, s.popped.length⟩ :: s.pushed.drop (s.popped.length + 1) := hdrop
      show Pool.threadLoop s.view i = _
      simp only [Pool.threadLoop, hview, hqueue]
      have hworker := hmoved.worker_inl hA (g := id) (w := .popped ⟨func, s.popped.length⟩)
        (fun _ _ => congrArg (seen · _ _ _) hdue) (Function.update_self ..)
      simp only [QueuedPool.view, hworker, List.length_append, List.length_singleton]
      rfl

omit [DecidableEq κ] in
/-- From a push on everybody is seen awake who is not about to sleep. -/
theorem seen_push {now next : Worker P} {eff : P.Mem → P.Mem} (h : Owed x eff now next)
    (hx : x.inside = false) : seen true x now next = (seen false x now next).wake := by
  cases x with
  | idle => exact h.symm
  | push p =>
    cases p with
    | acquire func => cases h <;> rfl
    | _ => cases hx
  | pop w p =>
    cases p with
    | acquire | woken =>
      obtain ⟨-, rfl⟩ : w = true ∧ now = .popping := h
      rfl
    | asleep => rfl
    | _ => cases hx
  | count p => exact h.elim
  | free p => exact h.elim

omit [DecidableEq κ] in
theorem Asks.wake_next {now next : Worker P} {eff : P.Mem → P.Mem} {func : Func P.Data}
    (h : Asks now eff func next) :
    next.wake = next := by
  cases h <;> rfl

omit [DecidableEq κ] in
/-- The push that a worker makes, seen from above. -/
theorem Asks.step {i : Fin n} {func : Func P.Data} {p p' : Pool P n} {next : Worker P}
    {eff : P.Mem → P.Mem} (h : Asks (p.workers i) eff func next)
    (hp' : p' = { (p.threadPoolPush func).setWorker i next with
      mem := eff p.mem
      terminates := p.terminates + (p.workers i).asks func }) :
    ∃ e, Awake p e ∧ ThreadPool.step p e = some p' := by
  generalize hw : p.workers i = w at h hp'
  cases h with
  | @request u f c r f' eff h =>
    refine ⟨.unit i c, trivial, ?_⟩
    show p.runUnit i c = _
    simp only [Pool.runUnit, hw, h p.mem, hp']
    cases r <;> rfl
  | signal =>
    refine ⟨.loop i, by simp [Awake, hw], ?_⟩
    show p.threadLoop i = _
    simp only [Pool.threadLoop, hw, hp']
    rfl

omit [DecidableEq κ] in
theorem Asks.cell {now next : Worker P} {eff : P.Mem → P.Mem} {func : Func P.Data} {c : κ}
    (hC : C.Separate) (h : Asks now eff func next) (m : P.Mem) : C.cell c (eff m) = C.cell c m := by
  cases h with
  | request h => exact hC.unitCell (h m)
  | signal => rfl

omit [DecidableEq κ] in
/-- The memory that is another client's own stays as it is. -/
theorem push_cell {func : Func P.Data} (hC : C.Separate) (hfit : s.Fits C t (.push (.body func)))
    {c : κ} (hc : .inr c ≠ t) : C.cell c (s.effect t s.mem) = C.cell c s.mem := by
  cases t with
  | inl i => exact Asks.cell hC hfit s.mem
  | inr d =>
    obtain ⟨x, r, hmay, -, hx⟩ := hfit
    exact hC.clientCell hmay (fun hdc => hc (congrArg Sum.inr hdc.symm)) (hx s.mem rfl)

/-- The next unit has the next number. -/
theorem Agrees.ids_snoc (hA : Agrees C s) {func : Func P.Data} {k : Nat} {u : WorkUnit P.Data}
    (hk : (s.pushed ++ [⟨func, s.pushed.length⟩])[k]? = some u) : u.id = k := by
  rw [List.getElem?_append] at hk
  split at hk
  · exact hA.ids k u hk
  · rw [List.getElem?_singleton] at hk
    split at hk
    · cases hk
      show s.pushed.length = k
      omega
    · cases hk

/-- A push links its unit into the ring. -/
theorem Agrees.push {h : Links (Func P.Data)} {q : Option Nat} {func : Func P.Data} {new : Nat}
    (hC : C.Separate) (hA : Agrees C s)
    (hr : (AsyncQueue.machine (Fin n ⊕ κ) (Func P.Data)).Reachable q')
    (hpc : s.workQueue.pc t = .push (.body func)) (hnew : s.workQueue.heap new = none)
    (hq : AsyncQueue.queuePush s.workQueue.heap s.workQueue.queue func new = some (h, q))
    (hq' : q' = { s.workQueue with heap := h, queue := q, size := s.workQueue.size + 1 }.goto t
      (.push (.broadcast func true))) :
    Seen C (Awake s.view) s
      ({ s with workQueue := q' }.after t (.push (.broadcast func true))) := by
  have hfit := hA.threads t
  rw [hpc] at hfit
  have hL := AsyncQueue.locked hA.queue
  have hpc' : q'.pc t = .push (.broadcast func true) := by
    rw [hq']
    exact Function.update_self ..
  have hdue : s.workQueue.due = false := AsyncQueue.due_inside hL hpc rfl
  have hdue' : q'.due = true := AsyncQueue.due_inside (AsyncQueue.locked hr) hpc' rfl
  obtain ⟨l, hring, hl⟩ := hA.ring
  obtain ⟨h', q'', hpush, hring'⟩ := AsyncQueue.queuePush_ring hring func hnew
  simp only [hq, Option.some.injEq, Prod.mk.injEq] at hpush
  obtain ⟨rfl, rfl⟩ := hpush
  have hafter : { s with workQueue := q' }.after t (.push (.broadcast func true))
      = { s with
          workQueue := q'
          mem := s.effect t s.mem
          pushed := s.pushed ++ [⟨func, s.pushed.length⟩]
          terminates := s.terminates + s.asks t func } := rfl
  rw [hafter]
  have hmoved : Moved C s
      { s with
        workQueue := q'
        mem := s.effect t s.mem
        pushed := s.pushed ++ [⟨func, s.pushed.length⟩]
        terminates := s.terminates + s.asks t func }
      t id (.push (.broadcast func true)) :=
    ⟨by rw [hq']; rfl, fun _ _ => rfl, fun _ _ => rfl, rfl, fun _ => push_cell hC hfit⟩
  have hdrop : (s.pushed ++ [(⟨func, s.pushed.length⟩ : WorkUnit P.Data)]).drop s.popped.length
      = s.pushed.drop s.popped.length ++ [⟨func, s.pushed.length⟩] :=
    List.drop_append_of_le_length hA.popped
  have hsee : ∀ {x : AsyncQueue.PC (Func P.Data)} {now next : Worker P}
      {eff : P.Mem → P.Mem}, (∃ u, u ≠ t ∧ s.workQueue.pc u = x) → Owed x eff now next →
      seen q'.due x now next = (seen s.workQueue.due x now next).wake := by
    rintro x now next eff ⟨u, hu, rfl⟩ howed
    rw [hdue, hdue']
    refine seen_push howed ?_
    by_contra hin
    exact hu (hL.unique (by simpa using hin) (by rw [hpc]; rfl))
  refine ⟨⟨hr, by rw [hq']; exact hA.freed, ⟨l ++ [(new, func)], by rw [hq']; exact hring', ?_⟩,
    ?_, fun _ _ => hA.ids_snoc, hmoved.threads keeps_id hA ?_⟩, .inr ?_⟩
  · simp only [hdrop, List.map_append, hl, List.map_cons, List.map_nil]
  · rw [List.length_append]
    exact Nat.le_add_right_of_le hA.popped
  · cases t with
    | inl i => exact ⟨rfl, hfit.wake_next⟩
    | inr c => rfl
  · cases t with
    | inl i =>
      have hview : s.view.workers i = s.workers i := by
        show s.worker i = s.workers i
        rw [QueuedPool.worker, hpc]
        rfl
      have hasks : Asks (s.view.workers i) (s.effect (.inl i)) func (s.next i) := hview ▸ hfit
      refine hasks.step ?_
      have hworker := hmoved.worker_inl hA (g := Worker.wake) (w := s.next i) hsee rfl
      rw [hview]
      simp only [QueuedPool.view, hworker, hdrop]
      rfl
    | inr c =>
      obtain ⟨x, r, -, rfl, hx⟩ := hfit
      have hx := hx s.mem rfl
      refine ⟨.client x, trivial, ?_⟩
      have hworker := funext fun j => hmoved.worker (j := j) hA (g := Worker.wake) hsee nofun
      show s.view.runClient x = _
      simp only [Pool.runClient, show P.client s.view.mem x = _ from hx]
      simp only [QueuedPool.view, hworker, hdrop]
      cases r <;> rfl

/-- **A step on the work queue**, seen from above. -/
theorem Agrees.queueStep {addr : Nat} (hC : C.Separate) (hA : Agrees C s)
    (hs : s.queueStep t addr = some s') :
    Seen C (fun d => (s.workQueue.pc t).sleeps = none → Awake s.view d) s s' := by
  obtain ⟨q', hstep, rfl⟩ := Option.map_eq_some_iff.mp hs
  have hr := hA.queue_step hstep
  have hm := AsyncQueue.move_cases hstep
  have hfit := hA.threads t
  have hcalls : s.workQueue.pc t ≠ .idle := by
    intro hidle
    simp [AsyncQueue.step, hidle] at hstep
  simp only [AsyncQueue.Event.thread] at hm
  generalize hpc : s.workQueue.pc t = x at hm hfit hcalls
  generalize hy : q'.pc t = y
  cases hm with
  | call => exact absurd rfl hcalls
  | acquire hx hl =>
    obtain rfl := (Function.update_self ..).symm.trans hy
    exact hA.acquire hr hpc hx hl rfl
  | release hx =>
    obtain rfl := (Function.update_self ..).symm.trans hy
    exact hA.release hr hpc hx
  | wakeUp hx =>
    obtain rfl := (Function.update_self ..).symm.trans hy
    exact (hA.wakeUp hr hpc hx).mono fun _ _ hnone => by cases hnone.symm.trans hx
  | failed => exact absurd (Function.update_self ..) (AsyncQueue.pushed_of_some hstep hpc)
  | push hnew hq =>
    obtain rfl := (Function.update_self ..).symm.trans hy
    exact (hA.push hC hr hpc hnew hq rfl).mono fun _ he _ => he
  | broadcast =>
    obtain rfl := (Function.update_self ..).symm.trans hy
    exact hA.broadcast hr hpc rfl
  | wait hq =>
    obtain rfl := (Function.update_self ..).symm.trans hy
    exact (hA.wait hr hpc hq rfl).mono fun _ he _ => he
  | popItem hq _ =>
    obtain rfl := (Function.update_self ..).symm.trans hy
    exact (hA.take hr hpc hq rfl).mono fun _ he _ => he
  | isEmpty _ =>
    obtain rfl := (Function.update_self ..).symm.trans hy
    exact hA.emptied hr hpc keeps_wakeEmpty seen_wakeEmpty rfl
  | notEmpty _ =>
    obtain rfl := (Function.update_self ..).symm.trans hy
    exact hA.emptied hr hpc keeps_id (fun _ => rfl) rfl
  -- all pops wait, and nobody counts or frees the work queue
  | popNone => cases t <;> [exact absurd hfit.1 Bool.false_ne_true; exact hfit.elim]
  | count | freeTest | destroy => cases t <;> exact hfit.elim
  | pushDead | popDead => cases AsyncQueue.fault_free hr

end Queue

/-! ## Every step -/

section Steps

variable {C : Callers P κ} {E : Event P n → Prop} {s s' : QueuedPool P n κ} {i : Fin n}

/-- A step of a worker outside of the queue, seen as the same step. -/
theorem Agrees.beside {w : Worker P} {e : Event P n} (hA : Agrees C s)
    (hE : E e) (hidle : s.workQueue.pc (.inl i) = .idle) (hwake : w.wake = w) {p : Pool P n}
    (hstep : step s.view e = some (p.setWorker i w))
    (hq : s'.workQueue = s.workQueue) (hn : s'.next = s.next)
    (hw : s'.workers = Function.update s.workers i w) (hpushed : s'.pushed = s.pushed)
    (hpopped : s'.popped = s.popped) (heffect : s'.effect = s.effect)
    (hcell : ∀ t, C.cell t s'.mem = C.cell t s.mem)
    (hrest : { s'.view with workers := s.worker } = p) : Seen C E s s' := by
  refine ⟨hA.setWorker hq hn hidle hw hwake hpushed hpopped heffect hcell, .inr ⟨e, hE, ?_⟩⟩
  rw [hstep, ← hrest]
  show some _ = some { s'.view with workers := s'.worker }
  rw [worker_setWorker hq hn hidle hw]
  rfl

/-- It calls the work queue to push `func`, and then goes to `w`. -/
theorem Agrees.callPush {w : Worker P} {func : Func P.Data} {eff : P.Mem → P.Mem} (hA : Agrees C s)
    (hidle : s.workQueue.pc (.inl i) = .idle) (hasks : Asks (s.workers i) eff func w)
    (hs : ((s.setNext i w).setEffect (.inl i) eff).call (.inl i) (.push func) = some s') :
    Seen C E s s' := by
  obtain ⟨hA', hview⟩ := hA.setNext hidle w eff
  have hfit : ((s.setNext i w).setEffect (.inl i) eff).Fits C (.inl i) (.push (.acquire func)) := by
    show Asks (s.workers i) (Function.update s.effect (.inl i) eff (.inl i)) func
      (Function.update s.next i w i)
    rwa [Function.update_self, Function.update_self]
  have hseen := hA'.call (E := E) hfit hs
  unfold Seen at hseen
  rwa [hview] at hseen

theorem Agrees.threadLoop (hA : Agrees C s) (hs : s.threadLoop i = some s') :
    Seen C (fun d => d = .loop i ∧ Awake s.view d) s s' := by
  unfold QueuedPool.threadLoop at hs
  split at hs
  case isFalse => cases hs
  case isTrue hout =>
    have hidle := idle_of_out hout
    have hview : s.view.workers i = s.workers i := worker_idle hidle
    have hawake : s.workers i ≠ .asleep → Awake s.view (.loop i) := fun hne => by
      show s.view.workers i ≠ .asleep
      rwa [hview]
    split at hs
    case h_1 hw => exact hA.call (t := .inl i) (c := .pop true) ⟨rfl, hw⟩ hs
    case h_2 => cases hs
    case h_3 hw =>
      split at hs
      · rename_i hf
        cases hs
        refine hA.beside (e := .loop i) (p := s.view) ⟨rfl, hawake (by rw [hw]; simp)⟩ hidle rfl ?_
          rfl rfl rfl rfl rfl rfl (fun _ => rfl) rfl
        simp only [step, Pool.threadLoop, hview, hw, hf]
      · rename_i hf
        cases hs
        refine hA.beside (e := .loop i) ⟨rfl, hawake (by rw [hw]; simp)⟩ hidle rfl ?_
          rfl rfl rfl rfl rfl rfl (fun _ => rfl) rfl
        simp only [step, Pool.threadLoop, hview, hw, hf]
        rfl
    case h_4 => cases hs
    case h_6 hw =>
      split at hs
      · cases hs
      · rename_i hl
        cases hs
        refine hA.beside (e := .loop i) ⟨rfl, hawake (by rw [hw]; simp)⟩ hidle rfl ?_
          rfl rfl rfl rfl rfl rfl (fun _ => rfl) rfl
        have hlocked : s.view.locked = false := Bool.eq_false_iff.mpr hl
        simp only [step, Pool.threadLoop, hview, hw, hlocked]
        rfl
    case h_8 hw => exact hA.callPush hidle (by rw [hw]; exact .signal) hs
    case h_12 => cases hs
    case h_5 hw | h_7 hw | h_9 hw | h_10 hw | h_11 hw =>
      cases hs
      refine hA.beside (e := .loop i) ⟨rfl, hawake (by rw [hw]; simp)⟩ hidle rfl ?_
        rfl rfl rfl rfl rfl rfl (fun _ => rfl) rfl
      simp only [step, Pool.threadLoop, hview, hw]
      rfl

theorem Agrees.runUnit {c : P.Choice} (hC : C.Separate) (hA : Agrees C s)
    (hs : s.runUnit i c = some s') : Seen C (· = .unit i c) s s' := by
  unfold QueuedPool.runUnit at hs
  split at hs
  case isFalse => cases hs
  case isTrue hout =>
    have hidle := idle_of_out hout
    have hview : s.view.workers i = s.workers i := worker_idle hidle
    split at hs
    case h_2 => cases hs
    case h_1 u f hw =>
      split at hs
      case h_1 => cases hs
      case h_2 hp | h_4 hp =>
        cases hs
        refine hA.beside (e := .unit i c) rfl hidle rfl ?_ rfl rfl rfl rfl rfl rfl
          (fun _ => hC.unitCell hp) rfl
        simp only [step, Pool.runUnit, hview, hw, show P.step s.view.mem f c = _ from hp]
        rfl
      case h_3 m r f' hp =>
        refine hA.callPush hidle ?_ hs
        rw [hw]
        refine .request (c := c) (fun m => ?_)
        obtain ⟨m', hm'⟩ := hC.unit hp m
        simp only [hm', Option.map_some, Option.getD_some]

theorem Agrees.runClient {t : κ} {x : P.Client} (hC : C.Separate) (hA : Agrees C s)
    (hs : s.runClient C t x = some s') : Seen C (· = .client x) s s' := by
  unfold QueuedPool.runClient at hs
  split at hs
  case isFalse => cases hs
  case isTrue hout =>
    obtain ⟨hout, hmay⟩ := Bool.and_eq_true_iff.mp hout
    have hidle := idle_of_out hout
    split at hs
    case h_1 => cases hs
    case h_2 m hp =>
      cases hs
      refine ⟨⟨hA.queue, hA.freed, hA.ring, hA.popped, hA.ids, ?_⟩, .inr ⟨.client x, rfl, ?_⟩⟩
      · intro u
        have hu := hA.threads u
        cases u with
        | inl i => exact hu
        | inr c =>
          by_cases hc : c = t
          · subst hc
            show InPush C m c (s.effect (.inr c)) (s.workQueue.pc (.inr c))
            rw [hidle]
            trivial
          · exact InPush.congr hu (hC.clientCell hmay (Ne.symm hc) hp)
      · simp only [step, Pool.runClient, show P.client s.view.mem x = _ from hp]
        rfl
    case h_3 m r hp =>
      have hA' : Agrees C (s.setEffect (.inr t) fun m => ((P.client m x).map Prod.fst).getD m) := by
        refine ⟨hA.queue, hA.freed, hA.ring, hA.popped, hA.ids, ?_⟩
        intro u
        have hu := hA.threads u
        cases u with
        | inl i => exact hu
        | inr c =>
          show InPush C s.mem c (Function.update s.effect (.inr t) _ (.inr c))
            (s.workQueue.pc (.inr c))
          by_cases hc : c = t
          · subst hc
            rw [hidle]
            trivial
          · rwa [Function.update_of_ne (by simpa using hc)]
      have hseen : Seen C (· = .client x)
          (s.setEffect (.inr t) fun m => ((P.client m x).map Prod.fst).getD m) s' := by
        refine hA'.call (t := .inr t) (c := .push r.func) ⟨x, r, hmay, rfl, fun m₂ hcell => ?_⟩ hs
        obtain ⟨m', hm'⟩ := hC.client hmay hp hcell
        simp only [QueuedPool.setEffect, Function.update_self, hm', Option.map_some,
          Option.getD_some]
      exact hseen

/-- How a step is seen if it is. -/
def QueuedPool.Shows (s : QueuedPool P n κ) : QueuedEvent P n κ → Event P n → Prop
  | .loop i, d => d = .loop i ∧ Awake s.view d
  | .unit i c, d => d = .unit i c
  | .client _ x, d => d = .client x
  | .queue t _, d => (s.workQueue.pc t).sleeps = none → Awake s.view d

/-- **Each step of the pool on its work queue is none or one of the pool.** -/
theorem Agrees.step {e : QueuedEvent P n κ} (hC : C.Separate) (hA : Agrees C s)
    (hs : queuedStep C s e = some s') : Seen C (s.Shows e) s s' := by
  cases e with
  | loop i => exact hA.threadLoop hs
  | unit i c => exact hA.runUnit hC hs
  | client t x => exact hA.runClient hC hs
  | queue t addr => exact hA.queueStep hC hs

end Steps

/-! ## Every run -/

theorem agrees_new (m : P.Mem) : Agrees C (queuedPoolNew n κ m) where
  queue := .init
  freed := rfl
  ring := ⟨[], .nil, rfl⟩
  popped := Nat.le_refl _
  ids := nofun
  threads := by
    rintro (i | t)
    · exact rfl
    · trivial

theorem agrees {m : P.Mem} {s : QueuedPool P n κ} (hC : C.Separate)
    (h : (queuedMachine n C m).Reachable s) : Agrees C s :=
  h.invariant (I := Agrees C) (agrees_new m) fun _ hA hs => (hA.step hC hs).1

theorem view_reachable {m : P.Mem} {s : QueuedPool P n κ} (hC : C.Separate)
    (h : (queuedMachine n C m).Reachable s) : (machine P n m).Reachable s.view := by
  refine h.invariant (I := fun s => (machine P n m).Reachable s.view) .init ?_
  intro s e s' hr hI hs
  obtain ⟨-, ⟨hview, -⟩ | ⟨d, -, hd⟩⟩ := (agrees hC hr).step hC hs
  · rwa [hview]
  · exact .step (M := machine P n m) hI trivial hd

/-- **The pool on its work queue is the pool.** What the code of both files
reaches, with all its steps interleaved, is seen from above as a state that
the pool reaches; the ring holds what the list does, and nothing dead is
read. -/
theorem refines_pool {m : P.Mem} {s : QueuedPool P n κ} (hC : C.Separate)
    (h : (queuedMachine n C m).Reachable s) :
    (machine P n m).Reachable s.view ∧ s.workQueue.fault = false ∧
      ∃ l, Ring s.workQueue.heap s.workQueue.queue l ∧
        l.map Prod.snd = s.view.workQueue.map WorkUnit.func := by
  have hA := agrees hC h
  exact ⟨view_reachable hC h, AsyncQueue.fault_free hA.queue, hA.ring⟩

/-- The one worker sleeps in `async_queue_pop` when a client has linked its
unit into the ring and not broadcast yet: from above it is awake already. -/
def dueRun : List (QueuedEvent anyProgram 1 Unit) :=
  .loop first :: List.replicate 3 (.queue (.inl first) 0) ++
    [.client () .terminate, .queue (.inr ()) 0, .queue (.inr ()) 7]

theorem refines_pool_due :
    let s := (queuedMachine 1 (Callers.any anyProgram Unit) ()).final dueRun (by decide)
    (s.workQueue.pc (.inl first)).awaitsItem = true ∧ s.view.workers first ≠ .asleep ∧
      s.view.workQueue.length = 1 ∧ (machine anyProgram 1 ()).Reachable s.view :=
  ⟨by decide, by decide, by decide, (refines_pool (anyCallers_separate Unit)
    (Machine.reachable_final dueRun (by decide))).1⟩

end Loomlib.ThreadPool
