import Loomlib.Core.Owned
import Loomlib.ThreadPool.Model

/-!
# Pipeline — Model

`src/pipeline.c` as a program for the thread pool: `pipeline_loop` is the
function of every work unit, a `struct pipeline_state` its data. `k` pumps
are added before the one call of `pipeline_execute`; what the routines
return, and the addresses `malloc` returns, come from outside.

Granularity. One step for each critical section under `pipe->lock` (what
is read and written inside is touched under this lock only), for each
call of a routine and each return from one, for each `malloc`, `free`,
write of a `pipeline_state` and push. A `malloc` is one step with the
writes that fill its block in.

`active_lines` is a number. A decrement at 0 would wrap and sets `fault`,
as does a step through an address that is not live. `current_stage` is an
`int` that goes from -1 to `k` and not beyond, so it is right as a number
for every `k` up to `INT_MAX`, which is assumed throughout.
-/

namespace Loomlib.Pipeline

open ThreadPool (Program Request Outcome Pool Event)

/-- `struct pipeline_state` without its `pipe`. `line` is history: the
number of the inlet's product whose way the block carries on. -/
structure State (V : Type) where
  product : Option V
  currentStage : Int
  line : Nat
  deriving DecidableEq, Repr

/-- Calls of the routines and their returns, with the line they are for. -/
inductive Routine (V : Type) where
  | inlet
  | inletRet (product : Option V)
  | pump (i line : Nat) (product : Option V)
  | pumpRet (i line : Nat) (product : Option V)
  | outlet (line : Nat) (product : Option V)
  | outletRet (line : Nat)
  deriving DecidableEq, Repr

/-- The heap, the fields of `struct pipeline` that change after
`pipeline_execute`, and the history of the routines. -/
structure Mem (V : Type) where
  heap : Nat → Option (State V)
  activeLines : Nat
  terminated : Bool
  executed : Bool
  fault : Bool
  log : List (Routine V)

/-- The control points of `pipeline_loop`, with its locals: the pointer
to the state and what was read through it, the new product. -/
inductive Frame (V : Type) where
  | enter (state : Ref (State V))
  | gate (state : Ref (State V))
  | dropState (state : Ref (State V))
  | defer (state : Ref (State V))
  | callInlet (state : Ref (State V))
  | inlet (state : Ref (State V))
  | restart (state : Ref (State V)) (newProduct : V) (line : Nat)
  | pushInlet (state newState : Ref (State V)) (newProduct : V) (line : Nat)
  | callPump (state : Ref (State V))
  | pump (state : Ref (State V))
  | callOutlet (state : Ref (State V))
  | outlet (state : Ref (State V))
  -- free (state) where the line or the inlet ends
  | freeState (state : Ref (State V))
  -- if (0 == --pipe->active_lines) thread_pool_terminate (pipe->pool)
  | retire
  | advance (state : Ref (State V)) (newProduct : Option V) (line : Nat)
  | push (state : Ref (State V))
  | done
  deriving DecidableEq, Repr

/-- What `malloc` or a routine returns. -/
inductive Choice (V : Type) where
  | run
  | malloc (addr : Nat)
  | returns (product : Option V)
  deriving DecidableEq, Repr

inductive Client where
  | execute (addr : Nat)
  | terminate
  deriving DecidableEq, Repr

variable {V : Type}

namespace Mem

def store (m : Mem V) (a : Nat) (b : Option (State V)) : Mem V :=
  { m with heap := Function.update m.heap a b }

def record (m : Mem V) (r : Routine V) : Mem V :=
  { m with log := m.log ++ [r] }

@[simp] theorem store_heap (m : Mem V) (a : Nat) (b : Option (State V)) :
    (m.store a b).heap = Function.update m.heap a b := rfl

@[simp] theorem record_heap (m : Mem V) (r : Routine V) : (m.record r).heap = m.heap := rfl

@[simp] theorem record_activeLines (m : Mem V) (r : Routine V) :
    (m.record r).activeLines = m.activeLines := rfl

/-- The number of products the inlet has returned. -/
def injected (m : Mem V) : Nat :=
  m.log.countP fun r => match r with
    | .inletRet (some _) => true
    | _ => false

/-- How often the product of this line has left the inlet. -/
def returned (m : Mem V) (line : Nat) : Nat :=
  if line < m.injected then 1 else 0

/-- The inlet has returned NULL. -/
def dry (m : Mem V) : Bool :=
  m.log.any fun r => match r with
    | .inletRet none => true
    | _ => false

/-- How often the outlet was called with a product of this line. -/
def given (m : Mem V) (line : Nat) : Nat :=
  m.log.countP fun r => match r with
    | .outlet l _ => l == line
    | _ => false

/-- How often the outlet has returned from such a call. -/
def delivered (m : Mem V) (line : Nat) : Nat :=
  m.log.countP fun r => match r with
    | .outletRet l => l == line
    | _ => false

section History

-- the history sees the log only
variable (m : Mem V) (h : Nat → Option (State V)) (a l : Nat) (t e f : Bool)

@[simp] theorem store_dry (b : Option (State V)) : (m.store a b).dry = m.dry := rfl

@[simp] theorem injected_mk : (⟨h, a, t, e, f, m.log⟩ : Mem V).injected = m.injected := rfl
@[simp] theorem returned_mk :
    (⟨h, a, t, e, f, m.log⟩ : Mem V).returned l = m.returned l := rfl
@[simp] theorem dry_mk : (⟨h, a, t, e, f, m.log⟩ : Mem V).dry = m.dry := rfl
@[simp] theorem given_mk : (⟨h, a, t, e, f, m.log⟩ : Mem V).given l = m.given l := rfl
@[simp] theorem delivered_mk :
    (⟨h, a, t, e, f, m.log⟩ : Mem V).delivered l = m.delivered l := rfl

/-- What a call or return adds to the history. -/
theorem injected_record (r : Routine V) : (m.record r).injected
    = m.injected + (match r with | .inletRet (some _) => 1 | _ => 0) := by
  unfold injected record
  rw [List.countP_append]
  rcases r with _ | (_ | _) | _ | _ | _ | _ <;> rfl

theorem returned_record (r : Routine V) : (m.record r).returned l
    = m.returned l + (match r with
      | .inletRet (some _) => if m.injected = l then 1 else 0
      | _ => 0) := by
  unfold returned
  rw [injected_record]
  rcases r with _ | (_ | _) | _ | _ | _ | _
  case inletRet.some => simp only; split <;> split <;> split <;> omega
  all_goals rfl

theorem dry_record (r : Routine V) : (m.record r).dry
    = (m.dry || (match r with | .inletRet none => true | _ => false)) := by
  unfold dry record
  rw [List.any_append]
  rcases r with _ | (_ | _) | _ | _ | _ | _ <;> rfl

theorem given_record (r : Routine V) : (m.record r).given l
    = m.given l + (match r with | .outlet l' _ => if l' = l then 1 else 0 | _ => 0) := by
  unfold given record
  rw [List.countP_append]
  rcases r with _ | (_ | _) | _ | _ | ⟨l', _⟩ | _
  case outlet => by_cases hl : l' = l <;> simp [hl]
  all_goals rfl

theorem delivered_record (r : Routine V) : (m.record r).delivered l
    = m.delivered l + (match r with | .outletRet l' => if l' = l then 1 else 0 | _ => 0) := by
  unfold delivered record
  rw [List.countP_append]
  rcases r with _ | (_ | _) | _ | _ | _ | l'
  case outletRet => by_cases hl : l' = l <;> simp [hl]
  all_goals rfl

end History

end Mem

/-- One step of `pipeline_loop`. -/
def pipelineLoop (k maxThreads : Nat) (m : Mem V) (f : Frame V) (c : Choice V) :
    Option (Mem V × Outcome (Ref (State V)) (Frame V)) :=
  let fault := some ({ m with fault := true }, .go f)
  match f with
  | .enter ⟨a, _⟩ =>
    match m.heap a with
    | none => fault
    | some b =>
      some (m, .go (
        if b.currentStage < 0 then .gate ⟨a, b⟩
        else if b.currentStage < k then .callPump ⟨a, b⟩
        else .callOutlet ⟨a, b⟩))
  | .gate state =>
    if m.terminated then some (m, .go (.dropState state))
    else if maxThreads < m.activeLines then some (m, .go (.defer state))
    else some ({ m with activeLines := m.activeLines + 1 }, .go (.callInlet state))
  | .dropState state =>
    match m.heap state.addr with
    | none => fault
    | some _ => some (m.store state.addr none, .ret)
  | .defer state => some (m, .request (.push state) .done)
  | .callInlet state => some (m.record .inlet, .go (.inlet state))
  | .inlet state =>
    match c with
    | .returns (some v) =>
      some (m.record (.inletRet (some v)), .go (.restart state v m.injected))
    | .returns none => some (m.record (.inletRet none), .go (.freeState state))
    | _ => none
  | .restart state v line =>
    match c with
    | .malloc a =>
      if (m.heap a).isNone then
        let b := ⟨none, state.block.currentStage, 0⟩
        some (m.store a (some b), .go (.pushInlet state ⟨a, b⟩ v line))
      else none
    | _ => none
  | .pushInlet state newState v line =>
    some (m, .request (.push newState) (.advance state (some v) line))
  | .callPump state =>
    some (m.record (.pump state.block.currentStage.toNat state.block.line state.block.product),
      .go (.pump state))
  | .pump state =>
    match c with
    | .returns p =>
      some (m.record (.pumpRet state.block.currentStage.toNat state.block.line p),
        .go (.advance state p state.block.line))
    | _ => none
  | .callOutlet state =>
    some (m.record (.outlet state.block.line state.block.product), .go (.outlet state))
  | .outlet state =>
    match c with
    | .returns _ => some (m.record (.outletRet state.block.line), .go (.freeState state))
    | _ => none
  | .freeState state =>
    match m.heap state.addr with
    | none => fault
    | some _ => some (m.store state.addr none, .go .retire)
  | .retire =>
    match m.activeLines with
    | 0 => fault
    | a + 1 =>
      some ({ m with activeLines := a }, if a = 0 then .request .terminate .done else .go .done)
  | .advance state v line =>
    match m.heap state.addr with
    | none => fault
    | some b =>
      let b' := ⟨v, b.currentStage + 1, line⟩
      some (m.store state.addr (some b'), .go (.push ⟨state.addr, b'⟩))
  | .push state => some (m, .request (.push state) .done)
  | .done => some (m, .ret)

/-- One step of the thread that uses the pipeline: `pipeline_execute`,
once, and `pipeline_terminate`. -/
def client (m : Mem V) : Client → Option (Mem V × Option (Request (Ref (State V))))
  | .execute a =>
    if m.executed || (m.heap a).isSome then none
    else
      let b := ⟨none, -1, 0⟩
      some ({ m.store a (some b) with executed := true }, some (.push ⟨a, b⟩))
  | .terminate => some ({ m with terminated := true }, none)

/-- The work units of a pipeline of `k` pumps. -/
abbrev program (V : Type) (k maxThreads : Nat) : Program where
  Data := Ref (State V)
  Frame := Frame V
  Mem := Mem V
  Choice := Choice V
  Client := Client
  call := .enter
  step := pipelineLoop k maxThreads
  client := client

/-- `pipeline_new`, with inlet, outlet and pumps added. -/
def pipelineNew : Mem V where
  heap := fun _ => none
  activeLines := 0
  terminated := false
  executed := false
  fault := false
  log := []

/-- A pipeline of `k` pumps on a pool of `n` workers. -/
def machine (V : Type) (k n : Nat) :=
  ThreadPool.machine (program V k n) n pipelineNew

/-! ## Runs -/

section Runs

variable {k n : Nat} (i : Fin n)

/-- Worker `i` takes the first unit of the queue and calls its function. -/
def take : List (Event (program Nat k n) n) := [.loop i, .loop i]

/-- `c` steps of the function worker `i` is in, to which nothing answers. -/
def go (c : Nat) : List (Event (program Nat k n) n) := List.replicate c (.unit i .run)

/-- Worker `i` is in the inlet, which returns NULL. -/
def dryUp : List (Event (program Nat k n) n) :=
  .unit i (.returns none) :: go i 3 ++ [.loop i]

/-- Worker `i` has a line without pumps in hand, and takes it to its end. -/
def deposit : List (Event (program Nat k n) n) :=
  go i 2 ++ .unit i (.returns none) :: go i 2

end Runs

end Loomlib.Pipeline
