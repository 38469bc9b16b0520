import Loomlib.ThreadPool.Model

/-!
# Tree — Model

`src/tree.c` as a program for the thread pool: `tree_loop` is the function
of every work unit, a `struct tree_state` its data. The vertices are fixed
while the pool runs; `children` lists what `async_list_get` returns for
0, 1, ..., and is empty where `vertice->children` is NULL, since
`tree_add_child` creates the list together with its first entry.

Granularity. One step for each critical section under `tree->lock`, each
call of a routine and each return from one, and each push. A `tree_state`
is only ever held by one unit or one call, which frees it or pushes it on,
so it is passed by value.

`active_lines` is a `size_t`. The gate keeps it at `max_threads + 1` at
most, so an increment does not wrap; a decrement at 0 does.
-/

namespace Loomlib.Tree

open ThreadPool (Program Request Outcome)

/-- The vertices of a tree: its root, and the children of each vertice in
the order they were added. -/
structure Shape (ι : Type) where
  root : ι
  children : ι → List ι

/-- `struct tree_state` without its `tree`. `pass` is history: the number
of the root pass the state belongs to. -/
structure State (ι V : Type) where
  vertice : ι
  product : Option V
  pass : Nat
  deriving DecidableEq, Repr

/-- Calls of the vertices' routines and their returns. -/
inductive Routine (ι V : Type) where
  | call (vertice : ι) (pass : Nat) (product : Option V)
  | ret (vertice : ι) (pass : Nat) (product : Option V)
  deriving DecidableEq, Repr

/-- The fields of `struct tree` that change, and the history: the number
of passes started, and the calls of the routines. -/
structure Mem (ι V : Type) where
  activeLines : Nat
  terminated : Bool
  executed : Bool
  passes : Nat
  log : List (Routine ι V)

/-- The control points of `tree_loop`. -/
inductive Frame (ι V : Type) where
  | enter (state : State ι V)
  | gate (state : State ι V)
  | defer (state : State ι V)
  | callRoutine (state : State ι V)
  | routine (state : State ι V)
  -- for (i = 0; i < async_list_count (vertice->children); i++)
  | children (state : State ι V) (newProduct : Option V) (i : Nat)
  | restart (state : State ι V)
  -- if (0 == --tree->active_lines) thread_pool_terminate (tree->pool)
  | retire (state : State ι V)
  | done
  deriving DecidableEq, Repr

/-- What a routine returns. -/
inductive Choice (V : Type) where
  | run
  | returns (product : Option V)
  deriving DecidableEq, Repr

inductive Client where
  | execute
  | terminate
  deriving DecidableEq, Repr

/-- `SIZE_MAX` -/
def sizeMax : Nat := 2 ^ 64 - 1

/-- `--` on a `size_t` -/
def decr : Nat → Nat
  | 0 => sizeMax
  | a + 1 => a

variable {ι V : Type} [DecidableEq ι]

/-- One step of `tree_loop`. -/
def treeLoop (T : Shape ι) (maxThreads : Nat) (m : Mem ι V) (f : Frame ι V) (c : Choice V) :
    Option (Mem ι V × Outcome (State ι V) (Frame ι V)) :=
  match f with
  | .enter state =>
    some (m, .go (if state.vertice = T.root then .gate state else .callRoutine state))
  | .gate state =>
    if m.terminated then some (m, .ret)
    else if maxThreads < m.activeLines then some (m, .go (.defer state))
    else
      some ({ m with activeLines := m.activeLines + 1, passes := m.passes + 1 },
        .go (.callRoutine { state with pass := m.passes }))
  | .defer state => some (m, .request (.push state) .done)
  | .callRoutine state =>
    some ({ m with log := m.log ++ [.call state.vertice state.pass state.product] },
      .go (.routine state))
  | .routine state =>
    match c with
    | .returns p =>
      some ({ m with log := m.log ++ [.ret state.vertice state.pass p] },
        .go (if T.children state.vertice = [] then .retire state else .children state p 0))
    | .run => none
  | .children state p i =>
    match (T.children state.vertice)[i]? with
    | some v => some (m, .request (.push ⟨v, p, state.pass⟩) (.children state p (i + 1)))
    | none => some (m, .go (.restart state))
  | .restart state =>
    if state.vertice = T.root then some (m, .request (.push state) .done) else some (m, .ret)
  | .retire _ =>
    let a := decr m.activeLines
    some ({ m with activeLines := a }, if a = 0 then .request .terminate .done else .go .done)
  | .done => some (m, .ret)

/-- One step of the thread that uses the tree: `tree_execute`, once, and
`tree_terminate`. -/
def client (T : Shape ι) (m : Mem ι V) : Client → Option (Mem ι V × Option (Request (State ι V)))
  | .execute =>
    if m.executed then none
    else some ({ m with executed := true }, some (.push ⟨T.root, none, 0⟩))
  | .terminate => some ({ m with terminated := true }, none)

/-- The work units of a tree. -/
abbrev program (V : Type) (T : Shape ι) (maxThreads : Nat) : Program where
  Data := State ι V
  Frame := Frame ι V
  Mem := Mem ι V
  Choice := Choice V
  Client := Client
  call := .enter
  step := treeLoop T maxThreads
  client := client T

/-- `tree_new`, with the vertices added. -/
def treeNew : Mem ι V where
  activeLines := 0
  terminated := false
  executed := false
  passes := 0
  log := []

/-- A tree on a pool of `n` workers. -/
def machine (V : Type) (T : Shape ι) (n : Nat) :=
  ThreadPool.machine (program V T n) n treeNew

end Loomlib.Tree
