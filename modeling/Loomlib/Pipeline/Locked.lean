import Loomlib.Pipeline.Steps
import Loomlib.ThreadPool.Detail
import Loomlib.ThreadPool.OnQueue

/-!
# Pipeline — Locked

`src/pipeline.c` with `pipe->lock` taken and given back: what is one step
of the pipeline where a critical section is one takes the steps of its
reads and writes here, and those of other threads in between.
`thread_pool_terminate` is called with the lock held.

Granularity. One step for `pthread_mutex_lock`, for each test or write
under the lock, for the call of `thread_pool_terminate`, and for
`pthread_mutex_unlock`. What `pipeline_loop` does outside of its critical
sections is as before. The threads `κ` use the pipeline; `pipeline_execute`
fills its block in in one step and pushes it in another. It is called once.
-/

namespace Loomlib.Pipeline

open ThreadPool (Program Request Outcome Callers)

/-- Who holds `pipe->lock`: a unit of the pool, or a thread that uses the
pipeline. -/
inductive Holder (κ : Type) where
  | unit
  | caller (t : κ)
  deriving DecidableEq, Repr

/-- Where a thread is that uses the pipeline. -/
inductive Caller (V : Type) where
  | idle
  -- pipeline_execute, with the block to push
  | execute (state : Ref (State V))
  -- pipeline_terminate, under the lock
  | terminate
  | unlock
  deriving DecidableEq, Repr

/-- The memory of a pipeline with its lock. `ending` and `block` are
history: the last line has been counted down and the pool was not told yet;
`pipeline_execute` was called by this thread and has not pushed this block
yet. -/
structure LockedMem (V κ : Type) where
  mem : Mem V
  lock : Option (Holder κ)
  callers : κ → Caller V
  ending : Bool
  block : Option (κ × Ref (State V))

/-- The control points of `pipeline_loop`: those outside of the critical
sections, and those inside. -/
inductive LockedFrame (V : Type) where
  | out (frame : Frame V)
  -- if (pipe->terminated)
  | testTerminated (state : Ref (State V))
  -- if (pipe->max_threads < pipe->active_lines)
  | testLines (state : Ref (State V))
  -- pipe->active_lines++
  | countLine (state : Ref (State V))
  -- if (0 == --pipe->active_lines)
  | endLine
  -- thread_pool_terminate (pipe->pool)
  | terminate
  | unlock (frame : Frame V)
  deriving DecidableEq, Repr

inductive LockedClient (κ : Type) where
  | execute (t : κ) (addr : Nat)
  | terminate (t : κ)
  -- the next step of the function that `t` has called
  | goOn (t : κ)
  deriving DecidableEq, Repr

def LockedClient.thread {κ : Type} : LockedClient κ → κ
  | .execute t _ | .terminate t | .goOn t => t

variable {V κ : Type} [DecidableEq κ]

namespace LockedMem

/-- `pthread_mutex_lock (&pipe->lock)` -/
def acquire (m : LockedMem V κ) (h : Holder κ) : Option (LockedMem V κ) :=
  match m.lock with
  | none => some { m with lock := some h }
  | some _ => none

def setCaller (m : LockedMem V κ) (t : κ) (c : Caller V) : LockedMem V κ :=
  { m with callers := Function.update m.callers t c }

end LockedMem

/-- One step of `pipeline_loop`. -/
def lockedLoop (k maxThreads : Nat) (m : LockedMem V κ) (f : LockedFrame V) (c : Choice V) :
    Option (LockedMem V κ × Outcome (Ref (State V)) (LockedFrame V)) :=
  match f with
  | .out (.gate state) => (m.acquire .unit).map fun m => (m, .go (.testTerminated state))
  | .out .retire => (m.acquire .unit).map fun m => (m, .go .endLine)
  | .out f =>
    (pipelineLoop k maxThreads m.mem f c).map fun r =>
      ({ m with mem := r.1 }, r.2.map id .out)
  | .testTerminated state =>
    some (m, .go (if m.mem.terminated then .unlock (.dropState state) else .testLines state))
  | .testLines state =>
    some (m, .go (
      if maxThreads < m.mem.activeLines then .unlock (.defer state) else .countLine state))
  | .countLine state =>
    some ({ m with mem := { m.mem with activeLines := m.mem.activeLines + 1 } },
      .go (.unlock (.callInlet state)))
  | .endLine =>
    match m.mem.activeLines with
    | 0 => some ({ m with mem := { m.mem with fault := true } }, .go .endLine)
    | a + 1 =>
      some ({ m with mem := { m.mem with activeLines := a }, ending := a = 0 },
        .go (if a = 0 then .terminate else .unlock .done))
  | .terminate => some ({ m with ending := false }, .request .terminate (.unlock .done))
  | .unlock f => some ({ m with lock := none }, .go (.out f))

/-- One step of a thread that uses the pipeline. -/
def lockedClient (m : LockedMem V κ) :
    LockedClient κ → Option (LockedMem V κ × Option (Request (Ref (State V))))
  | .execute t a =>
    match m.callers t with
    | .idle =>
      if m.mem.executed || m.block.isSome || (m.mem.heap a).isSome then none
      else
        let b := ⟨none, -1, 0⟩
        some ({ m with mem := m.mem.store a (some b), block := some (t, ⟨a, b⟩) }.setCaller t
          (.execute ⟨a, b⟩), none)
    | _ => none
  | .terminate t =>
    match m.callers t with
    | .idle => (m.acquire (.caller t)).map fun m => (m.setCaller t .terminate, none)
    | _ => none
  | .goOn t =>
    match m.callers t with
    | .idle => none
    | .execute state =>
      some ({ m with mem := { m.mem with executed := true }, block := none }.setCaller t .idle,
        some (.push state))
    | .terminate =>
      some ({ m with mem := { m.mem with terminated := true } }.setCaller t .unlock, none)
    | .unlock => some ({ m with lock := none }.setCaller t .idle, none)

/-- The work units of a pipeline of `k` pumps, with its lock. -/
abbrev lockedProgram (V κ : Type) [DecidableEq κ] (k maxThreads : Nat) : Program where
  Data := Ref (State V)
  Frame := LockedFrame V
  Mem := LockedMem V κ
  Choice := Choice V
  Client := LockedClient κ
  call := fun d => .out (.enter d)
  step := lockedLoop k maxThreads
  client := lockedClient

/-- `pipeline_new`, with inlet, outlet and pumps added. -/
def lockedNew : LockedMem V κ where
  mem := pipelineNew
  lock := none
  callers := fun _ => .idle
  ending := false
  block := none

/-- Each thread makes its own calls, and keeps track of them. -/
def lockedCallers (V κ : Type) [DecidableEq κ] (k maxThreads : Nat) :
    Callers (lockedProgram V κ k maxThreads) κ where
  Cell := Caller V
  cell := fun t m => m.callers t
  may := fun t x => x.thread = t

/-! ## What a step can do -/

/-- The frames outside of the critical sections. -/
def Frame.free : Frame V → Bool
  | .gate _ | .retire => false
  | _ => true

inductive LockedMove (k n : Nat) (m : LockedMem V κ) :
    LockedFrame V → LockedMem V κ → Outcome (Ref (State V)) (LockedFrame V) → Prop where
  | beside {f m' o} (hf : f.free = true) (h : Move k n m.mem f m' o) :
      LockedMove k n m (.out f) { m with mem := m' } (o.map id .out)
  | lockGate {d} (hl : m.lock = none) :
      LockedMove k n m (.out (.gate d)) { m with lock := some .unit } (.go (.testTerminated d))
  | lockRetire (hl : m.lock = none) :
      LockedMove k n m (.out .retire) { m with lock := some .unit } (.go .endLine)
  | terminated {d} (ht : m.mem.terminated = true) :
      LockedMove k n m (.testTerminated d) m (.go (.unlock (.dropState d)))
  | notTerminated {d} (ht : m.mem.terminated = false) :
      LockedMove k n m (.testTerminated d) m (.go (.testLines d))
  | full {d} (hfull : n < m.mem.activeLines) :
      LockedMove k n m (.testLines d) m (.go (.unlock (.defer d)))
  | room {d} (hroom : m.mem.activeLines ≤ n) :
      LockedMove k n m (.testLines d) m (.go (.countLine d))
  | countLine {d} :
      LockedMove k n m (.countLine d)
        { m with mem := { m.mem with activeLines := m.mem.activeLines + 1 } }
        (.go (.unlock (.callInlet d)))
  | wrap (ha : m.mem.activeLines = 0) :
      LockedMove k n m .endLine { m with mem := { m.mem with fault := true } } (.go .endLine)
  | endLine {a} (ha : m.mem.activeLines = a + 2) :
      LockedMove k n m .endLine
        { m with mem := { m.mem with activeLines := a + 1 }, ending := false }
        (.go (.unlock .done))
  | endLast (ha : m.mem.activeLines = 1) :
      LockedMove k n m .endLine
        { m with mem := { m.mem with activeLines := 0 }, ending := true } (.go .terminate)
  | terminate :
      LockedMove k n m .terminate { m with ending := false } (.request .terminate (.unlock .done))
  | unlock {f} : LockedMove k n m (.unlock f) { m with lock := none } (.go (.out f))

omit [DecidableEq κ] in
theorem acquire_cases {m m' : LockedMem V κ} {h : Holder κ} (ha : m.acquire h = some m') :
    m.lock = none ∧ m' = { m with lock := some h } := by
  unfold LockedMem.acquire at ha
  split at ha
  · rename_i hl
    cases ha
    exact ⟨hl, rfl⟩
  · cases ha

omit [DecidableEq κ] in
theorem lockedMove_cases {k n : Nat} {m m' : LockedMem V κ} {f : LockedFrame V} {c : Choice V}
    {o : Outcome (Ref (State V)) (LockedFrame V)} (h : lockedLoop k n m f c = some (m', o)) :
    LockedMove k n m f m' o := by
  unfold lockedLoop at h
  split at h
  case h_1 | h_2 =>
    obtain ⟨m₁, hacq, heq⟩ := Option.map_eq_some_iff.mp h
    obtain ⟨hl, rfl⟩ := acquire_cases hacq
    cases heq
    constructor
    exact hl
  case h_3 f hgate hretire =>
    obtain ⟨⟨m₁, o₁⟩, hstep, heq⟩ := Option.map_eq_some_iff.mp h
    cases heq
    refine .beside ?_ (move_cases hstep)
    cases f with
    | gate d => exact absurd rfl (hgate d)
    | retire => exact absurd rfl hretire
    | _ => rfl
  case h_4 =>
    cases h
    split
    · rename_i ht
      exact .terminated ht
    · rename_i ht
      exact .notTerminated (by simpa using ht)
  case h_5 =>
    cases h
    split
    · rename_i hfull
      exact .full hfull
    · rename_i hroom
      exact .room (by omega)
  case h_7 =>
    split at h
    · rename_i ha
      cases h
      exact .wrap ha
    · rename_i a ha
      cases h
      cases a with
      | zero => exact .endLast ha
      | succ a => exact .endLine ha
  case h_6 | h_8 | h_9 =>
    cases h
    constructor

inductive LockedClientMove (m : LockedMem V κ) :
    LockedClient κ → LockedMem V κ → Option (Request (Ref (State V))) → Prop where
  | execute {t a} (hidle : m.callers t = .idle) (hnew : m.mem.executed = false)
      (hb : m.block = none) (ha : m.mem.heap a = none) :
      LockedClientMove m (.execute t a)
        ({ m with
          mem := m.mem.store a (some ⟨none, -1, 0⟩)
          block := some (t, ⟨a, none, -1, 0⟩) }.setCaller t (.execute ⟨a, none, -1, 0⟩)) none
  | push {t d} (hc : m.callers t = .execute d) :
      LockedClientMove m (.goOn t)
        ({ m with mem := { m.mem with executed := true }, block := none }.setCaller t .idle)
        (some (.push d))
  | lock {t} (hidle : m.callers t = .idle) (hl : m.lock = none) :
      LockedClientMove m (.terminate t)
        ({ m with lock := some (.caller t) }.setCaller t .terminate) none
  | write {t} (hc : m.callers t = .terminate) :
      LockedClientMove m (.goOn t)
        ({ m with mem := { m.mem with terminated := true } }.setCaller t .unlock) none
  | unlock {t} (hc : m.callers t = .unlock) :
      LockedClientMove m (.goOn t) ({ m with lock := none }.setCaller t .idle) none

theorem lockedClient_cases {m m' : LockedMem V κ} {x : LockedClient κ}
    {r : Option (Request (Ref (State V)))} (h : lockedClient m x = some (m', r)) :
    LockedClientMove m x m' r := by
  unfold lockedClient at h
  split at h
  case h_1 =>
    split at h
    · rename_i hidle
      split at h
      · cases h
      · rename_i hnot
        cases h
        simp only [Bool.or_eq_true, not_or, Bool.not_eq_true, Option.isSome_eq_false_iff,
          Option.isNone_iff_eq_none] at hnot
        exact .execute hidle hnot.1.1 hnot.1.2 hnot.2
    · cases h
  case h_2 =>
    split at h
    · rename_i hidle
      obtain ⟨m₁, hacq, heq⟩ := Option.map_eq_some_iff.mp h
      obtain ⟨hl, rfl⟩ := acquire_cases hacq
      cases heq
      exact .lock hidle hl
    · cases h
  case h_3 =>
    split at h
    · cases h
    · rename_i hc
      cases h
      exact .push hc
    · rename_i hc
      cases h
      exact .write hc
    · rename_i hc
      cases h
      exact .unlock hc

/-! ## The calls on the pool -/

omit [DecidableEq κ] in
/-- What is asked of the pool is asked whatever the memory is, since the
one test that decides it is made under the lock. -/
theorem LockedMove.request {k n : Nat} {m m' : LockedMem V κ} {f f' : LockedFrame V}
    {r : Request (Ref (State V))} (h : LockedMove k n m f m' (.request r f')) (c : Choice V)
    (m₂ : LockedMem V κ) : ∃ m₂', lockedLoop k n m₂ f c = some (m₂', .request r f') := by
  generalize ho : Outcome.request r f' = o at h
  cases h with
  | terminate =>
    cases ho
    exact ⟨_, rfl⟩
  | beside hf h =>
    cases h with
    | «defer» | pushInlet | push =>
      cases ho
      exact ⟨_, rfl⟩
    | retireLast => cases hf
    | _ => cases ho
  | _ => cases ho

theorem lockedClient_push {m : LockedMem V κ} {t : κ} {d : Ref (State V)}
    (hc : m.callers t = .execute d) : lockedClient m (.goOn t)
      = some ({ m with mem := { m.mem with executed := true }, block := none }.setCaller t .idle,
          some (.push d)) := by
  simp only [lockedClient, hc]

theorem lockedCallers_separate (k n : Nat) : (lockedCallers V κ k n).Separate where
  unit h m₂ := (lockedMove_cases h).request _ m₂
  client := by
    intro t x m m' r m₂ hmay h hcell
    have ht : x.thread = t := of_decide_eq_true hmay
    have hm := lockedClient_cases h
    generalize hr : some r = q at hm
    cases hm with
    | @push u d hc =>
      cases hr
      obtain rfl : u = t := ht
      have hc₂ : m₂.callers u = .execute d := hcell.trans hc
      exact ⟨_, lockedClient_push hc₂⟩
    | _ => cases hr
  unitCell := by
    intro t m f c m' o h
    cases lockedMove_cases h <;> rfl
  clientCell := by
    intro t u x m m' r hmay hne h
    have hu : x.thread = u := of_decide_eq_true hmay
    have hcallers : ∀ (m : LockedMem V κ) (c : Caller V),
        (m.setCaller u c).callers t = m.callers t :=
      fun m c => Function.update_of_ne (Ne.symm hne) _ _
    cases lockedClient_cases h <;> (cases hu; exact hcallers _ _)

end Loomlib.Pipeline
