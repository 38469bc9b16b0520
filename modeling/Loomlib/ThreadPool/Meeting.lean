import Loomlib.ThreadPool.Bag
import Loomlib.Barrier.Model

/-!
# ThreadPool — Meeting

`thread_pool_barrier_wait`, beside the workers and the clients of a pool.
Barriers are taken by their contract: one that is initialised for `parties`
threads releases them when that many wait at it, and where no barrier is
initialised nobody is released. The pointer `barrier` is a local of the
call; its address is `slot`, and `g` is what it holds, which nothing has
set.
-/

namespace Loomlib.ThreadPool

open Barrier (loomlibBarrierInit UINT_RANGE)

/-- A barrier by its contract: how many it is for, how many wait at it, and
how many rounds of them it has released. -/
structure BarrierObj where
  parties : Nat
  waiting : Nat
  releases : Nat

def barrierNew (count : Nat) : BarrierObj := ⟨count, 0, 0⟩

/-- The barriers that are initialised, by address. -/
abbrev Barriers := Nat → Option BarrierObj

/-- The control points of `loomlib_barrier_wait`. -/
inductive WaitPC where
  | arrive
  | blocked (round : Nat)
  deriving DecidableEq, Repr

/-- One step of `loomlib_barrier_wait (barrier)`: the barriers afterwards,
and where the call is then, if it has not returned. -/
def barrierWait (mem : Barriers) (barrier : Option Nat) (w : WaitPC) :
    Option (Barriers × Option WaitPC) :=
  match barrier, w with
  -- return -EINVAL
  | none, _ => some (mem, none)
  | some a, .arrive =>
    match mem a with
    | none => some (mem, some (.blocked 0))
    | some b =>
      if b.waiting + 1 = b.parties then
        some (Function.update mem a (some { b with waiting := 0, releases := b.releases + 1 }), none)
      else
        some (Function.update mem a (some { b with waiting := b.waiting + 1 }),
          some (.blocked b.releases))
  | some a, .blocked k =>
    match mem a with
    | none => none
    | some b => if k < b.releases then some (mem, none) else none

/-- The last of the parties to arrive is released, and with it all that
are there. -/
theorem barrierWait_last {mem : Barriers} {a : Nat} {b : BarrierObj} (hb : mem a = some b)
    (hlast : b.waiting + 1 = b.parties) :
    ∃ mem', barrierWait mem (some a) .arrive = some (mem', none) ∧
      ∀ k ≤ b.releases, barrierWait mem' (some a) (.blocked k) = some (mem', none) := by
  refine ⟨Function.update mem a (some { b with waiting := 0, releases := b.releases + 1 }),
    ?_, fun k hk => ?_⟩
  · simp only [barrierWait, hb, if_pos hlast]
  · simp only [barrierWait, Function.update_self, if_pos (Nat.lt_succ_of_le hk)]

/-- `loomlib_barrier_destroy (barrier)` -/
def barrierDestroy (mem : Barriers) (barrier : Option Nat) : Barriers :=
  match barrier with
  | none => mem
  | some a => Function.update mem a none

section Program

variable {δ φ δ' φ' : Type}

def Request.map (f : δ → δ') : Request δ → Request δ'
  | .push d => .push (f d)
  | .terminate => .terminate

def Outcome.map (f : δ → δ') (g : φ → φ') : Outcome δ φ → Outcome δ' φ'
  | .go x => .go (g x)
  | .request r x => .request (r.map f) (g x)
  | .ret => .ret

end Program

/-- The program `P` with the units of `thread_pool_barrier_wait`: such a
unit is `barrier_thread` with the pointer it is given. -/
def barrierProgram (P : Program) : Program where
  Data := P.Data ⊕ Option Nat
  Frame := P.Frame ⊕ Option Nat × WaitPC
  Mem := P.Mem × Barriers
  Choice := Option P.Choice
  Client := P.Client
  call
    | .inl d => .inl (P.call d)
    | .inr barrier => .inr (barrier, .arrive)
  step m f c :=
    match f, c with
    | .inl f, some c =>
      match P.step m.1 f c with
      | none => none
      | some (m', o) => some ((m', m.2), o.map .inl .inl)
    | .inr (barrier, w), none =>
      match barrierWait m.2 barrier w with
      | none => none
      | some (b, none) => some ((m.1, b), .ret)
      | some (b, some w') => some ((m.1, b), .go (.inr (barrier, w')))
    | _, _ => none
  client m x :=
    match P.client m.1 x with
    | none => none
    | some (m', r) => some ((m', m.2), r.map (Request.map .inl))

/-- The control points of `thread_pool_barrier_wait`, with `max_threads`. -/
inductive CallerPC where
  | idle
  | readNum
  | lock (maxThreads : Nat)
  | init (maxThreads : Nat)
  -- while (max_threads--)
  | push (maxThreads : Nat)
  | wait (w : WaitPC)
  | destroy
  | unlock
  | returned
  deriving DecidableEq, Repr

/-- A pool with the thread that calls `thread_pool_barrier_wait`. -/
structure Meeting (P : Program) (n : Nat) where
  pool : Pool (barrierProgram P) n
  caller : CallerPC

namespace Meeting

variable {P : Program} {n : Nat}

def barriers (s : Meeting P n) : Barriers := s.pool.mem.2

def setBarriers (s : Meeting P n) (b : Barriers) : Meeting P n :=
  { s with pool := { s.pool with mem := (s.pool.mem.1, b) } }

/-- One step of `thread_pool_barrier_wait (pool)`; `malloc` answers `ans`,
which is no address that is live. -/
def threadPoolBarrierWait (s : Meeting P n) (slot : Nat) (g ans : Option Nat) :
    Option (Meeting P n) :=
  match s.caller with
  | .idle => some { s with caller := .readNum }
  | .readNum => some { s with caller := .lock s.pool.numThreads }
  | .lock k =>
    if s.pool.locked then none
    else some { s with pool := { s.pool with locked := true }, caller := .init k }
  | .init k =>
    if ans = some slot ∨ (Barrier.deref s.barriers ans).isSome = true then none
    else
      let count := (s.pool.numThreads + 1) % UINT_RANGE
      some { s.setBarriers (loomlibBarrierInit barrierNew s.barriers g count ans).1 with
        caller := .push k }
  | .push 0 => some { s with caller := .wait .arrive }
  -- thread_pool_push (pool, barrier_thread, &barrier)
  | .push (k + 1) =>
    some { pool := s.pool.threadPoolPush (.call (.inr (some slot))), caller := .push k }
  | .wait w =>
    match barrierWait s.barriers g w with
    | none => none
    | some (b, none) => some { s.setBarriers b with caller := .destroy }
    | some (b, some w') => some { s.setBarriers b with caller := .wait w' }
  | .destroy => some { s.setBarriers (barrierDestroy s.barriers g) with caller := .unlock }
  | .unlock => some { s with pool := { s.pool with locked := false }, caller := .returned }
  | .returned => none

end Meeting

inductive MeetingEvent (P : Program) (n : Nat) where
  | pool (e : Event (barrierProgram P) n)
  | caller (ans : Option Nat)

variable {P : Program} {n : Nat}

def meetingStep (slot : Nat) (g : Option Nat) (s : Meeting P n) :
    MeetingEvent P n → Option (Meeting P n)
  | .pool e =>
    match step s.pool e with
    | none => none
    | some p => some { s with pool := p }
  | .caller ans => s.threadPoolBarrierWait slot g ans

/-- A pool of `n` workers, whose clients and units are those of `P`, and one
call of `thread_pool_barrier_wait`. -/
def meetingMachine (P : Program) (n : Nat) (m : P.Mem) (slot : Nat) (g : Option Nat) :
    Machine (Meeting P n) (MeetingEvent P n) where
  init := ⟨threadPoolNew n (m, fun _ => none), .idle⟩
  step := meetingStep slot g

/-! ## Steps -/

variable {s s' : Meeting P n} {slot : Nat} {g ans : Option Nat}

/-- The steps of `thread_pool_barrier_wait` from a control point. -/
inductive CallerMove (slot : Nat) (g ans : Option Nat) (s : Meeting P n) :
    CallerPC → Meeting P n → Prop where
  | call : CallerMove slot g ans s .idle { s with caller := .readNum }
  | readNum : CallerMove slot g ans s .readNum { s with caller := .lock s.pool.numThreads }
  | lock {k} (hl : s.pool.locked = false) : CallerMove slot g ans s (.lock k)
      { s with pool := { s.pool with locked := true }, caller := .init k }
  | init {k} (hslot : ans ≠ some slot) : CallerMove slot g ans s (.init k)
      { s.setBarriers (loomlibBarrierInit barrierNew s.barriers g
          ((s.pool.numThreads + 1) % UINT_RANGE) ans).1 with caller := .push k }
  | pushed : CallerMove slot g ans s (.push 0) { s with caller := .wait .arrive }
  | push {k} : CallerMove slot g ans s (.push (k + 1))
      { pool := s.pool.threadPoolPush (.call (.inr (some slot))), caller := .push k }
  | released {w b} (hb : barrierWait s.barriers g w = some (b, none)) :
      CallerMove slot g ans s (.wait w) { s.setBarriers b with caller := .destroy }
  | wait {w w' b} (hb : barrierWait s.barriers g w = some (b, some w')) :
      CallerMove slot g ans s (.wait w) { s.setBarriers b with caller := .wait w' }
  | destroy : CallerMove slot g ans s .destroy
      { s.setBarriers (barrierDestroy s.barriers g) with caller := .unlock }
  | unlock : CallerMove slot g ans s .unlock
      { s with pool := { s.pool with locked := false }, caller := .returned }

theorem callerMove_cases (h : s.threadPoolBarrierWait slot g ans = some s') :
    CallerMove slot g ans s s.caller s' := by
  unfold Meeting.threadPoolBarrierWait at h
  split at h <;> rename_i hpc <;> rw [hpc]
  case h_1 => cases h; exact .call
  case h_2 => cases h; exact .readNum
  case h_3 =>
    split at h
    · cases h
    · rename_i hl; cases h; exact .lock (by simpa using hl)
  case h_4 =>
    split at h
    · cases h
    · rename_i hans; cases h; exact .init (not_or.mp hans).1
  case h_5 => cases h; exact .pushed
  case h_6 => cases h; exact .push
  case h_7 =>
    split at h
    · cases h
    · rename_i hb; cases h; exact .released hb
    · rename_i hb; cases h; exact .wait hb
  case h_8 => cases h; exact .destroy
  case h_9 => cases h; exact .unlock
  case h_10 => cases h

theorem poolStep_cases (slot : Nat) (g : Option Nat) {e : Event (barrierProgram P) n}
    (h : meetingStep slot g s (.pool e) = some s') :
    ∃ p, step s.pool e = some p ∧ s' = { s with pool := p } := by
  simp only [meetingStep] at h
  split at h
  · cases h
  · rename_i p hp
    exact ⟨p, hp, (Option.some.inj h).symm⟩

/-- The steps of a work unit of `barrierProgram`. -/
inductive BarrierMove (m : (barrierProgram P).Mem) : (barrierProgram P).Frame →
    (barrierProgram P).Mem → Outcome (barrierProgram P).Data (barrierProgram P).Frame → Prop where
  | unit {f c m' o} (h : P.step m.1 f c = some (m', o)) :
      BarrierMove m (.inl f) (m', m.2) (o.map .inl .inl)
  | released {p w b} (h : barrierWait m.2 p w = some (b, none)) :
      BarrierMove m (.inr (p, w)) (m.1, b) .ret
  | wait {p w w' b} (h : barrierWait m.2 p w = some (b, some w')) :
      BarrierMove m (.inr (p, w)) (m.1, b) (.go (.inr (p, w')))

theorem barrierMove_cases {m m' : (barrierProgram P).Mem} {f : (barrierProgram P).Frame}
    {c : (barrierProgram P).Choice} {o : Outcome (barrierProgram P).Data (barrierProgram P).Frame}
    (h : (barrierProgram P).step m f c = some (m', o)) : BarrierMove m f m' o := by
  rcases f with f | ⟨p, w⟩ <;> rcases c with _ | c
  · cases h
  · simp only [barrierProgram] at h
    split at h
    · cases h
    · rename_i hp; cases h; exact .unit hp
  · simp only [barrierProgram] at h
    split at h
    · cases h
    · rename_i hb; cases h; exact .released hb
    · rename_i hb; cases h; exact .wait hb
  · cases h

/-- A client does not touch the barriers. -/
theorem barrierClient_cases {m m' : (barrierProgram P).Mem} {x : P.Client}
    {r : Option (Request (P.Data ⊕ Option Nat))}
    (h : (barrierProgram P).client m x = some (m', r)) :
    m'.2 = m.2 ∧ ∃ q : Option (Request P.Data), r = q.map (Request.map .inl) := by
  simp only [barrierProgram] at h
  split at h
  · cases h
  · cases h
    exact ⟨rfl, _, rfl⟩

end Loomlib.ThreadPool
