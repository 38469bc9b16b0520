import Loomlib.Pipeline.Bounded
import Loomlib.Pipeline.Whole
import Loomlib.ThreadPool.Effort

/-!
# Pipeline — Finish

The code of the pipeline, the pool and the queue comes to an end. What
pays for the pipeline whose sections are atomic pays for each step of the
three files: a section is left after four steps, and a call on the queue
costs what its lock, its ring and its broadcast do. So every run has a
bounded number of steps for what the inlet has returned and for what the
clients have called, under every schedule.
-/

namespace Loomlib.Pipeline

open ThreadPool
open AsyncQueue (callCost wakeCost)

variable {V κ : Type} {k n : Nat}

/-! ## What the inlet returned -/

section Supply

variable {s t : Pool (program V k n) n} {e : Event (program V k n) n}

theorem injected_move {m m' : Mem V} {f : Frame V} {o : Outcome (Ref (State V)) (Frame V)}
    (h : Move k n m f m' o) : m.injected ≤ m'.injected := by
  cases h <;> simp [Mem.injected_record, Mem.store]

/-- The inlet takes nothing back. -/
theorem injected_mono (hs : ThreadPool.step s e = some t) : s.mem.injected ≤ t.mem.injected := by
  cases e with
  | loop i =>
    rcases bag_step hs with ⟨-, hbag⟩ | ⟨a, ha, -⟩
    · exact (congrArg (fun b : Bag (program V k n) => b.mem.injected) hbag).ge
    · cases ha
  | unit i c =>
    obtain ⟨u, f, o, r, hU⟩ := unit_step hs
    exact injected_move (move_cases hU.step)
  | client x =>
    rcases client_step hs with rfl | ⟨a, hE⟩
    · exact Nat.le_refl _
    · exact hE.injected.ge

/-- What it has returned after the step is what it may. -/
theorem supply_of_le {m : Nat} (hs : ThreadPool.step s e = some t) (hle : t.mem.injected ≤ m) :
    OnBag (Supply m) s e := by
  intro a ha
  unfold Supply
  split
  · rename_i d v
    cases e with
    | loop i => cases ha
    | client x => cases ha
    | unit i c =>
      obtain ⟨u, f, o, r, hU⟩ := unit_step hs
      obtain ⟨rfl, rfl⟩ : f = .inlet d ∧ c = .returns (some v) := by
        simpa [Pool.act, hU.running] using ha
      have hmem := hU.step
      simp only [pipelineLoop, Option.some.injEq, Prod.mk.injEq] at hmem
      have hinj := Mem.injected_record s.mem (.inletRet (some v))
      rw [hmem.1] at hinj
      show s.mem.injected < m
      simp only at hinj
      omega
  · trivial

end Supply

variable [DecidableEq κ]

/-! ## The sections -/

section Sections

variable {s t : Pool (lockedProgram V κ k n) n} {e : Event (lockedProgram V κ k n) n}

/-- What pays for a pipeline whose sections are atomic. -/
def lockedWork (m : Nat) (s : Pool (lockedProgram V κ k n) n) : Nat :=
  (detail V κ k n).budget 5 (workLeft m) s

/-- **The sections are paid for.** -/
theorem lockedWork_pays {m : Nat}
    (h : (ThreadPool.machine (lockedProgram V κ k n) n lockedNew).Reachable s)
    (hle : t.mem.mem.injected ≤ m) (hs : ThreadPool.step s e = some t) :
    Pays (lockedWork m) s e t := by
  have hI := guarded h
  refine (detail V κ k n).pays LockedFrame.rest_le hs (hI.covered hs) ?_
  intro d hd
  have hle : ((detail V κ k n).pool t).mem.injected ≤ m := hle
  exact (workLeft_pays hI.above ((injected_mono hd).trans hle) (supply_of_le hd hle) hd).2

theorem lockedWork_start (m : Nat) :
    lockedWork m (ThreadPool.threadPoolNew (P := lockedProgram V κ k n) n lockedNew)
      ≤ 6 * (lineWork k * m + 12) := by
  have hstart := workLeft_start (V := V) (k := k) (n := n) m
  have hnone : tally (detail V κ k n).left
      (ThreadPool.threadPoolNew (P := lockedProgram V κ k n) n lockedNew).workers = 0 :=
    tally_eq_zero.mpr fun _ => rfl
  unfold lockedWork Detail.budget
  rw [hnone]
  exact Nat.mul_le_mul_left 6 hstart

/-- The inlet takes nothing back, seen from below. -/
theorem locked_injected_mono
    (h : (ThreadPool.machine (lockedProgram V κ k n) n lockedNew).Reachable s)
    (hs : ThreadPool.step s e = some t) : s.mem.mem.injected ≤ t.mem.mem.injected := by
  rcases (guarded h).covered hs with ⟨hsame, -⟩ | ⟨d, -, hd⟩
  · exact (congrArg (fun p : Pool (program V k n) n => p.mem.injected) hsame).ge
  · exact injected_mono hd

end Sections

/-! ## The clients -/

section Clients

variable [Fintype κ] {m m' : LockedMem V κ}

/-- What is left of a call, beside its call on the pool. -/
def Caller.rest : Caller V → Nat
  | .terminate => 2
  | .unlock => 1
  | .idle | .execute _ => 0

/-- A thread calls the pipeline. -/
def LockedClient.calls : LockedClient κ → Nat
  | .execute _ _ | .terminate _ => 1
  | .goOn _ => 0

/-- **A call is two steps of its own**, beside the one that makes it. -/
theorem callers_rest {x : LockedClient κ} {r : Option (Request (Ref (State V)))}
    (h : lockedClient m x = some (m', r)) :
    tally Caller.rest m'.callers + (if r.isNone then 1 else 0)
      ≤ tally Caller.rest m.callers + if r.isNone then 3 * x.calls else 0 := by
  have hmove : ∀ {t : κ} {c : Caller V} (c' : Caller V), m.callers t = c →
      tally Caller.rest (Function.update m.callers t c') + c.rest
        = tally Caller.rest m.callers + c'.rest := fun c' hc => tally_move Caller.rest hc c'
  cases lockedClient_cases h with
  | @execute t a hidle _ _ _ =>
    have hrest := hmove (.execute ⟨a, none, -1, 0⟩) hidle
    show tally Caller.rest (Function.update m.callers t _) + 1 ≤ _ + 3 * 1
    simp only [Caller.rest] at hrest
    omega
  | @push t d hc =>
    have hrest := hmove .idle hc
    exact hrest.le
  | @lock t hidle _ =>
    have hrest := hmove .terminate hidle
    show tally Caller.rest (Function.update m.callers t _) + 1 ≤ _ + 3 * 1
    simp only [Caller.rest] at hrest
    omega
  | @write t hc =>
    have hrest := hmove .unlock hc
    show tally Caller.rest (Function.update m.callers t _) + 1 ≤ _ + 3 * 0
    simp only [Caller.rest] at hrest
    omega
  | @unlock t hc =>
    have hrest := hmove .idle hc
    show tally Caller.rest (Function.update m.callers t _) + 1 ≤ _ + 3 * 0
    simp only [Caller.rest] at hrest
    omega

end Clients

/-! ## Every run -/

section Runs

variable [Fintype κ]

/-- The steps of all threads, for `N` of them and `m` products. -/
def wholeSteps (k n N m : Nat) : Nat :=
  callCost N * (N + ((n + 4) * (6 * (lineWork k * m + 12)) + n * (n + 8)))

/-- The calls of `pipeline_execute` and `pipeline_terminate` in a run. -/
def pipelineCalls (es : List (QueuedEvent (lockedProgram V κ k n) n κ)) : Nat :=
  (es.map (QueuedEvent.weigh LockedClient.calls)).sum

omit [Fintype κ] in
theorem weigh_calls (es : List (QueuedEvent (lockedProgram V κ k n) n κ)) :
    (es.map (QueuedEvent.weigh fun x : LockedClient κ => 3 * x.calls)).sum
      = 3 * pipelineCalls es := by
  unfold pipelineCalls
  induction es with
  | nil => rfl
  | cons e es ih =>
    have he : QueuedEvent.weigh (fun x : LockedClient κ => 3 * x.calls) e
        = 3 * QueuedEvent.weigh LockedClient.calls e := by
      cases e <;> rfl
    simp only [List.map_cons, List.sum_cons, Nat.mul_add, ih, he]

theorem effort_whole (m : Nat) : (wholeMachine V κ k n).init.effort (lockedWork m)
    ≤ wholeSteps k n (n + Fintype.card κ) m := by
  have hcard : Fintype.card (Fin n ⊕ κ) = n + Fintype.card κ := by simp
  have hqueue : (wholeMachine V κ k n).init.workQueue.effort = 0 := tally_eq_zero.mpr fun _ => rfl
  have hready : (wholeMachine V κ k n).init.ready = n + Fintype.card κ := by
    change tally AsyncQueue.PC.ready (fun _ : Fin n ⊕ κ => .idle) = _
    rw [← hcard]
    simp [tally, AsyncQueue.PC.ready]
  have hview : (wholeMachine V κ k n).init.view.effort (lockedWork m)
      ≤ (n + 4) * (6 * (lineWork k * m + 12)) + n * (n + 8) := by
    have hnew : (wholeMachine V κ k n).init.view
        = ThreadPool.threadPoolNew (P := lockedProgram V κ k n) n lockedNew := rfl
    have hrest : tally (Worker.rest n) (ThreadPool.threadPoolNew (P := lockedProgram V κ k n) n
        lockedNew).workers = n * (n + 8) := by
      change tally (fun w => Worker.rest n w) (fun _ : Fin n => .popping) = n * (n + 8)
      simp [tally, Worker.rest]
    have hmul := Nat.mul_le_mul_left (n + 4)
      (lockedWork_start (V := V) (κ := κ) (k := k) (n := n) m)
    rw [hnew]
    unfold Pool.effort
    rw [hrest]
    change _ + 3 * 0 + _ ≤ _
    omega
  unfold QueuedPool.effort wholeSteps
  rw [hqueue, hready, hcard, Nat.zero_add]
  exact Nat.mul_le_mul_left _ (Nat.add_le_add_left hview _)

/-- **The whole code comes to an end.** In every run of the three files,
with all steps of all threads counted and under every schedule, there are
no more steps than `wholeSteps` for the products that the inlet has
returned, three for each call of the pipeline, and a bounded number for
each spurious wake-up. -/
theorem whole_comes_to_rest {es : List (QueuedEvent (lockedProgram V κ k n) n κ)}
    {t : QueuedPool (lockedProgram V κ k n) n κ}
    (hrun : (wholeMachine V κ k n).run (wholeMachine V κ k n).init es = some t) :
    es.length ≤ wholeSteps k n (n + Fintype.card κ) t.mem.mem.injected + 3 * pipelineCalls es
      + (wakeCost (n + Fintype.card κ) + 2 * callCost (n + Fintype.card κ))
        * (wholeMachine V κ k n).total QueuedPool.spurious (wholeMachine V κ k n).init es := by
  have hC := lockedCallers_separate (V := V) (κ := κ) k n
  have hcard : Fintype.card (Fin n ⊕ κ) = n + Fintype.card κ := by simp
  -- the products only grow
  have hmono : ∀ {s : QueuedPool (lockedProgram V κ k n) n κ} {e u},
      (wholeMachine V κ k n).Reachable s → (wholeMachine V κ k n).step s e = some u →
      (wholeMachine V κ k n).Reachable u ∧ s.mem.mem.injected ≤ u.mem.mem.injected := by
    intro s e u h hs
    refine ⟨h.step trivial hs, ?_⟩
    rcases ((agrees hC h).step hC hs).2 with ⟨hview, -⟩ | ⟨d, -, hd⟩
    · exact (congrArg (fun p : Pool (lockedProgram V κ k n) n => p.mem.mem.injected) hview).ge
    · exact locked_injected_mono (view_reachable hC h) hd
  have hbelow := (Machine.meets_below hmono .init hrun).2
  have hsteps := queued_steps_le (Ψ := lockedWork t.mem.mem.injected) hC
    (fun h hle hs => lockedWork_pays h hle hs) hbelow hrun
  have hclients := client_steps_le (Λ := fun m : LockedMem V κ => tally Caller.rest m.callers)
    (w := fun x : LockedClient κ => 3 * x.calls) hC
    (fun h => by cases lockedMove_cases h <;> exact Nat.le_refl _)
    (fun h => callers_rest h) (fun h => callers_rest h) hrun
  have hnone : tally Caller.rest (lockedNew (V := V) (κ := κ)).callers = 0 :=
    tally_eq_zero.mpr fun _ => rfl
  have hstart := effort_whole (V := V) (κ := κ) (k := k) (n := n) t.mem.mem.injected
  rw [weigh_calls, hnone] at hclients
  rw [hcard] at hsteps
  unfold wholeMachine at hstart ⊢
  omega

/-- Up to where the last line ends. -/
theorem whole_comes_to_rest_ending :
    let M := wholeMachine Nat Unit 0 1
    endingRun.length = 25 ∧ pipelineCalls endingRun = 1 ∧ wholeSteps 0 1 2 0 = 13727 ∧
      endingRun.length ≤ wholeSteps 0 1 2 (M.final endingRun (by decide)).mem.mem.injected
        + 3 * pipelineCalls endingRun
        + (wakeCost 2 + 2 * callCost 2) * M.total QueuedPool.spurious M.init endingRun :=
  ⟨rfl, rfl, rfl, whole_comes_to_rest (Option.some_get (by decide)).symm⟩

end Runs

end Loomlib.Pipeline
