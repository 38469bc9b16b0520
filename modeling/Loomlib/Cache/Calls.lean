import Loomlib.Cache.Model
import Mathlib.Data.List.Basic
import Mathlib.Data.Prod.Basic

/-!
# Cache — Calls

A cache whose calls do not overlap. A `Session` is the cache between two
calls, with what its clients hold; `cached` is the history of the calls,
the objects that were stored and not handed out again, oldest first. One
call is a run of the shared cache in which no other thread moves.
-/

namespace Loomlib.Cache

structure Session (α : Type) extends Store α where
  cached : List α
  held : List α
  allocated : List α
  freed : List α

/-- `cache_alloc`, where `ALLOC` would answer `obj`, or `cache_free`. -/
inductive Call (α : Type) where
  | alloc (obj : Option α)
  | free (ptr : Option α)
  deriving DecidableEq, Repr

variable {ι α : Type} [DecidableEq ι] [DecidableEq α] {nmemb w : Nat}

def Session.call (nmemb w : Nat) (s : Session α) : Call α → Option (Session α)
  | .alloc obj =>
    match cacheAlloc nmemb w s.toStore with
    | (c, some ptr) =>
      some { s with toStore := c, cached := s.cached.erase ptr, held := ptr :: s.held }
    | (c, none) =>
      match obj with
      | none => some { s with toStore := c }
      | some x =>
        if x ∈ s.allocated then none
        else some { s with toStore := c, held := x :: s.held, allocated := x :: s.allocated }
  | .free none => some { s with toStore := (cacheFree nmemb w s.toStore none).1 }
  | .free (some x) =>
    if x ∈ s.held then
      match cacheFree nmemb w s.toStore (some x) with
      | (c, none) =>
        some { s with toStore := c, cached := s.cached ++ [x], held := s.held.erase x }
      | (c, some y) => some { s with toStore := c, held := s.held.erase x, freed := y :: s.freed }
    else none

/-- The sequences of calls that its clients may make. -/
def calls (α : Type) [DecidableEq α] (nmemb w : Nat) : Machine (Session α) (Call α) where
  init := ⟨cacheInit, [], [], [], []⟩
  step := Session.call nmemb w

theorem reachable_call {s s' : Session α} {c : Call α} (h : (calls α nmemb w).Reachable s)
    (hc : s.call nmemb w c = some s') : (calls α nmemb w).Reachable s' :=
  .step h trivial hc

/-- The shared cache in which only the thread `t` makes calls. -/
def Session.alone (t : ι) (s : Session α) : State ι α where
  toStore := s.toStore
  headLock := none
  tailLock := none
  pc := fun _ => .idle
  held := s.held.map (t, ·)
  allocated := s.allocated
  freed := s.freed

/-- The thread `t` takes `k` steps, writing a counter before its slot. -/
def paces (t : ι) (k : Nat) (obj : Option α) : List (Event ι α) :=
  List.replicate k (.step t obj true)

theorem alloc_alone (t : ι) {s s' : Session α} {obj : Option α}
    (h : s.call nmemb w (.alloc obj) = some s') :
    ∃ k, (machine ι α nmemb w).run (s.alone t) (.alloc t :: paces t k obj) = some (s'.alone t) := by
  cases hslot : s.table (s.head % nmemb) with
  | none =>
    refine ⟨5, ?_⟩
    simp only [Session.call, cacheAlloc, hslot] at h
    cases obj with
    | none =>
      cases h
      simp [Machine.run, machine, paces, step, State.allocStep, State.goto, Session.alone, hslot]
    | some x =>
      obtain ⟨hnew, h⟩ := Option.ite_none_left_eq_some.mp h
      cases h
      simp [Machine.run, machine, paces, step, State.allocStep, State.goto, State.give,
        Session.alone, hslot, hnew]
  | some ptr =>
    refine ⟨9, ?_⟩
    simp only [Session.call, cacheAlloc, hslot] at h
    cases h
    simp [Machine.run, machine, paces, step, State.allocStep, State.goto, State.give,
      Session.alone, hslot]

theorem free_alone (t : ι) {s s' : Session α} {ptr : Option α}
    (h : s.call nmemb w (.free ptr) = some s') :
    ∃ k, (machine ι α nmemb w).run (s.alone t) (.free t ptr :: paces t k none)
      = some (s'.alone t) := by
  cases ptr with
  | none =>
    cases h
    exact ⟨0, rfl⟩
  | some x =>
    have hhands : (s.held.map (t, ·)).erase (t, x) = (s.held.erase x).map (t, ·) :=
      (List.map_erase (Prod.mk_right_injective t) s.held).symm
    obtain ⟨hheld, h⟩ := Option.ite_none_right_eq_some.mp h
    cases hslot : s.table (s.tail % nmemb) with
    | none =>
      refine ⟨7, ?_⟩
      simp only [cacheFree, hslot] at h
      cases h
      simp [Machine.run, machine, paces, step, State.freeStep, State.goto, Session.alone, hslot,
        hheld, hhands]
    | some y =>
      refine ⟨5, ?_⟩
      simp only [cacheFree, hslot] at h
      cases h
      simp [Machine.run, machine, paces, step, State.freeStep, State.goto, Session.alone, hslot,
        hheld, hhands]

/-- **Calls that do not overlap are runs of the shared cache**, so what
holds of every state of it holds between them. -/
theorem reachable_alone (t : ι) {s : Session α} (h : (calls α nmemb w).Reachable s) :
    (machine ι α nmemb w).Reachable (s.alone t) := by
  induction h with
  | init => exact .init
  | @step s s' c _ _ hs ih =>
    cases c with
    | alloc obj =>
      obtain ⟨k, hrun⟩ := alloc_alone t hs
      exact ih.run hrun
    | free ptr =>
      obtain ⟨k, hrun⟩ := free_alone t hs
      exact ih.run hrun

end Loomlib.Cache
