import Loomlib.AsyncQueue.Progress
import Loomlib.ThreadPool.Budget
import Loomlib.ThreadPool.Refine

/-!
# ThreadPool — Effort

How many steps the pool on its work queue takes. A thread that calls the
queue has a bounded number of steps in the call, and each call passes one
unit, which the pool above pays for. So what bounds the pool bounds the
code of both files, each call at what it costs at most.
-/

namespace Loomlib.AsyncQueue

variable {α : Type}

/-- The most that a call costs among `N` threads, and a wake-up without a
broadcast. -/
def callCost (N : Nat) : Nat := 4 * (N + 1) * (N + 1) + 1

def wakeCost (N : Nat) : Nat := 4 * (N + 1) + 1

/-- It is in no call, or the call has passed its item. -/
def PC.ready : PC α → Nat
  | .push (.acquire _) | .push (.body _) => 0
  | .pop _ .acquire | .pop _ .test | .pop _ .sleep | .pop _ .asleep | .pop _ .woken => 0
  | _ => 1

section Ready

variable {x y : PC α}

theorem PC.ready_wakeNonempty (x : PC α) : x.wakeNonempty.ready = x.ready := by
  unfold wakeNonempty
  split <;> rfl

theorem PC.ready_wakeEmpty (x : PC α) : x.wakeEmpty.ready = x.ready := by
  unfold wakeEmpty
  split <;> rfl

theorem PC.ready_acquires (hx : x.acquires = some y) : y.ready = x.ready := by
  unfold acquires at hx
  split at hx <;> cases hx <;> rfl

theorem PC.ready_releases (hx : x.releases = some y) : y.ready = x.ready := by
  unfold releases at hx
  split at hx <;> cases hx <;> rfl

theorem PC.ready_sleeps (hx : x.sleeps = some y) : y.ready = x.ready := by
  unfold sleeps at hx
  split at hx <;> cases hx <;> rfl

end Ready

/-- Who has pushed an item was about to. -/
theorem body_of_broadcast {ι : Type} [DecidableEq ι] {q q' : Queue ι α} {t : ι}
    {ans : Option Nat} {item : α} (h : step q (.step t ans) = some q')
    (hy : q'.pc t = .push (.broadcast item true)) : q.pc t = .push (.body item) := by
  have hm := move_cases h
  simp only [Event.thread] at hm
  generalize hpc : q.pc t = x at hm
  have hself : ∀ {f : ι → PC α} {y : PC α}, Function.update f t y t = .push (.broadcast item true) →
      y = .push (.broadcast item true) := fun hy => by rwa [Function.update_self] at hy
  cases hm with
  | @call c =>
    have hc := hself hy
    cases c <;> cases hc
  | acquire hx | release hx | wakeUp hx =>
    cases hself hy
    first | unfold PC.acquires at hx | unfold PC.releases at hx | unfold PC.sleeps at hx
    split at hx <;> cases hx
  | push =>
    cases hself hy
    rfl
  | freeTest =>
    have hc := hself hy
    split at hc <;> cases hc
  | pushDead | popDead => cases hpc.symm.trans hy
  | _ => cases hself hy

end Loomlib.AsyncQueue

namespace Loomlib.ThreadPool

open AsyncQueue (callCost wakeCost)

variable {P : Program} {n : Nat} {κ : Type} [DecidableEq κ] {C : Callers P κ}
  {s s' : QueuedPool P n κ}

/-- A thread wakes up on the work queue without a broadcast. -/
def QueuedPool.spurious (s : QueuedPool P n κ) : QueuedEvent P n κ → Nat
  | .queue t addr => s.workQueue.spurious (.step t (some addr))
  | _ => 0

/-- A client takes a step of its own, with no call on the pool. -/
def QueuedPool.clientSteps (s : QueuedPool P n κ) : QueuedEvent P n κ → Nat
  | .client _ x =>
    match P.client s.mem x with
    | some (_, none) => 1
    | _ => 0
  | _ => 0

/-! ## In the work queue -/

section Queue

variable [Fintype κ] {t : Fin n ⊕ κ}

/-- The threads whose next call is paid for. -/
def QueuedPool.ready (s : QueuedPool P n κ) : Nat :=
  tally AsyncQueue.PC.ready s.workQueue.pc

omit [Fintype κ] [DecidableEq κ] in
private theorem workQueue_after (s : QueuedPool P n κ) (t : Fin n ⊕ κ)
    (y : AsyncQueue.PC (Func P.Data)) : (s.after t y).workQueue = s.workQueue := by
  unfold QueuedPool.after
  split
  · rfl
  · cases t with
    | inl i => split <;> rfl
    | inr c => rfl
  · cases t <;> rfl
  · rfl

omit [Fintype κ] [DecidableEq κ] in
private theorem passed_after (s : QueuedPool P n κ) (t : Fin n ⊕ κ)
    (y : AsyncQueue.PC (Func P.Data)) : s.view.passed ≤ (s.after t y).view.passed := by
  show s.pushed.length + s.popped.length
    ≤ (s.after t y).pushed.length + (s.after t y).popped.length
  unfold QueuedPool.after
  split
  · simp only [List.length_append]
    omega
  · cases t with
    | inl i => split <;> simp [QueuedPool.setNext]
    | inr c => exact Nat.le_refl _
  · cases t <;> exact Nat.le_refl _
  · exact Nat.le_refl _

/-- **A call passes its unit before the next one.** -/
theorem ready_queueStep {addr : Nat} (hA : Agrees C s) (hs : s.queueStep t addr = some s') :
    s'.ready + s.view.passed ≤ s.ready + s'.view.passed := by
  obtain ⟨q', hstep, rfl⟩ := Option.map_eq_some_iff.mp hs
  have hm := AsyncQueue.move_cases hstep
  have hfit := hA.threads t
  have hcalls : s.workQueue.pc t ≠ .idle := by
    intro hidle
    simp [AsyncQueue.step, hidle] at hstep
  simp only [AsyncQueue.Event.thread] at hm
  rw [QueuedPool.ready, workQueue_after]
  generalize hpc : s.workQueue.pc t = x at hm hfit hcalls
  generalize hy : q'.pc t = y
  -- a step that passes nothing
  have hkeep : ∀ {f : AsyncQueue.PC (Func P.Data) → AsyncQueue.PC (Func P.Data)},
      (∀ z, (f z).ready = z.ready) → y.ready = x.ready →
      q'.pc = Function.update (fun u => f (s.workQueue.pc u)) t y →
      ({ s with workQueue := q' } : QueuedPool P n κ).ready + s.view.passed
        ≤ s.ready + (({ s with workQueue := q' } : QueuedPool P n κ).after t y).view.passed := by
    intro f hf hready hq'
    have hpassed : s.view.passed ≤ _ := passed_after { s with workQueue := q' } t y
    have hmove := tally_update AsyncQueue.PC.ready (fun u => f (s.workQueue.pc u)) t y
    rw [tally_comp hf, hf, hpc, hready] at hmove
    unfold QueuedPool.ready
    rw [hq']
    omega
  cases hm with
  | call => exact absurd rfl hcalls
  | acquire hx _ =>
    obtain rfl := (Function.update_self ..).symm.trans hy
    exact hkeep (f := id) (fun _ => rfl) (AsyncQueue.PC.ready_acquires hx) rfl
  | release hx =>
    obtain rfl := (Function.update_self ..).symm.trans hy
    exact hkeep (f := id) (fun _ => rfl) (AsyncQueue.PC.ready_releases hx) rfl
  | wakeUp hx =>
    obtain rfl := (Function.update_self ..).symm.trans hy
    exact hkeep (f := id) (fun _ => rfl) (AsyncQueue.PC.ready_sleeps hx) rfl
  | failed => exact absurd (Function.update_self ..) (AsyncQueue.pushed_of_some hstep hpc)
  | @push func new h q _ _ =>
    obtain rfl := (Function.update_self ..).symm.trans hy
    have hmove := tally_move AsyncQueue.PC.ready hpc (.push (.broadcast func true))
    show tally AsyncQueue.PC.ready (Function.update s.workQueue.pc t _)
      + (s.pushed.length + s.popped.length) ≤ tally AsyncQueue.PC.ready s.workQueue.pc
      + ((s.pushed ++ [_]).length + s.popped.length)
    rw [List.length_append, List.length_singleton]
    simp only [AsyncQueue.PC.ready] at hmove
    omega
  | broadcast =>
    obtain rfl := (Function.update_self ..).symm.trans hy
    exact hkeep AsyncQueue.PC.ready_wakeNonempty rfl rfl
  | wait _ | notEmpty _ =>
    obtain rfl := (Function.update_self ..).symm.trans hy
    exact hkeep (f := id) (fun _ => rfl) rfl rfl
  | @popItem w h q func _ _ =>
    obtain rfl := (Function.update_self ..).symm.trans hy
    cases t with
    | inr c => exact hfit.elim
    | inl i =>
      have hmove := tally_move AsyncQueue.PC.ready hpc (.pop w (.empty (some func)))
      show tally AsyncQueue.PC.ready (Function.update s.workQueue.pc (.inl i) _)
        + (s.pushed.length + s.popped.length) ≤ tally AsyncQueue.PC.ready s.workQueue.pc
        + (s.pushed.length + (s.popped ++ [_]).length)
      rw [List.length_append, List.length_singleton]
      simp only [AsyncQueue.PC.ready] at hmove
      omega
  | isEmpty _ =>
    obtain rfl := (Function.update_self ..).symm.trans hy
    exact hkeep AsyncQueue.PC.ready_wakeEmpty rfl rfl
  -- all pops wait, and nobody counts or frees the work queue
  | popNone => cases t <;> [exact absurd hfit.1 Bool.false_ne_true; exact hfit.elim]
  | count | freeTest | destroy => cases t <;> exact hfit.elim
  | pushDead | popDead => cases AsyncQueue.fault_free (hA.queue_step hstep)

end Queue

/-! ## Beside it -/

section Beside

variable {i : Fin n}

/-- Thread `t` calls the work queue, to pass a unit. -/
def Enters (s s' : QueuedPool P n κ) (t : Fin n ⊕ κ) : Prop :=
  s'.mem = s.mem ∧
    ∃ c, c.start.ready = 0 ∧ AsyncQueue.step s.workQueue (.call t c) = some s'.workQueue

theorem enters_of_call {t : Fin n ⊕ κ} {c : AsyncQueue.Call (Func P.Data)}
    (hc : c.start.ready = 0) (hs : s.call t c = some s') : Enters s s' t := by
  obtain ⟨q', hstep, rfl⟩ := Option.map_eq_some_iff.mp hs
  exact ⟨rfl, c, hc, hstep⟩

theorem threadLoop_enters (hs : s.threadLoop i = some s') :
    Enters s s' (.inl i) ∨ (s'.workQueue = s.workQueue ∧ s'.mem = s.mem) := by
  unfold QueuedPool.threadLoop at hs
  split at hs
  case isFalse => cases hs
  case isTrue =>
    split at hs
    case h_1 => exact .inl (enters_of_call rfl hs)
    case h_3 => split at hs <;> (cases hs; exact .inr ⟨rfl, rfl⟩)
    case h_6 =>
      split at hs
      · cases hs
      · cases hs
        exact .inr ⟨rfl, rfl⟩
    case h_8 u _ =>
      exact .inl
        (enters_of_call (s := (s.setNext i (.signal u .decr)).setEffect (.inl i) id) rfl hs)
    case h_2 | h_4 | h_12 => cases hs
    case h_5 | h_7 | h_9 | h_10 | h_11 =>
      cases hs
      exact .inr ⟨rfl, rfl⟩

theorem runUnit_enters {c : P.Choice} (hs : s.runUnit i c = some s') :
    Enters s s' (.inl i) ∨
      (s'.workQueue = s.workQueue ∧ ∃ f o, P.step s.mem f c = some (s'.mem, o)) := by
  unfold QueuedPool.runUnit at hs
  split at hs
  case isFalse => cases hs
  case isTrue =>
    split at hs
    case h_2 => cases hs
    case h_1 u f _ =>
      split at hs
      case h_1 => cases hs
      case h_2 hp | h_4 hp =>
        cases hs
        exact .inr ⟨rfl, f, _, hp⟩
      case h_3 r f' _ =>
        exact .inl (enters_of_call (s := (s.setNext i (.running u f')).setEffect (.inl i) _) rfl hs)

theorem runClient_enters {t : κ} {x : P.Client} (hs : s.runClient C t x = some s') :
    (Enters s s' (.inr t) ∧ ∃ m r, P.client s.mem x = some (m, some r)) ∨
      (s'.workQueue = s.workQueue ∧ P.client s.mem x = some (s'.mem, none)) := by
  unfold QueuedPool.runClient at hs
  split at hs
  case isFalse => cases hs
  case isTrue =>
    split at hs
    case h_1 => cases hs
    case h_2 hp =>
      cases hs
      exact .inr ⟨rfl, hp⟩
    case h_3 m r hp => exact .inl ⟨enters_of_call (s := s.setEffect (.inr t) _) rfl hs, m, r, hp⟩

omit [DecidableEq κ] in
private theorem mem_after (s : QueuedPool P n κ) (t : Fin n ⊕ κ) {y : AsyncQueue.PC (Func P.Data)}
    (hy : ∀ func, y ≠ .push (.broadcast func true)) : (s.after t y).mem = s.mem := by
  unfold QueuedPool.after
  split
  · exact absurd rfl (hy _)
  · cases t with
    | inl i => split <;> rfl
    | inr c => rfl
  · cases t <;> rfl
  · rfl

omit [DecidableEq κ] in
theorem Asks.mem {now next : Worker P} {eff : P.Mem → P.Mem} {func : Func P.Data}
    (h : Asks now eff func next) (m : P.Mem) :
    eff m = m ∨ ∃ f c o, P.step m f c = some (eff m, o) := by
  cases h with
  | @request u f c r f' eff h => exact .inr ⟨f, c, _, h m⟩
  | signal => exact .inl rfl

/-- Who writes the memory: a unit function, a client's call on the pool, or
a client's own step. -/
theorem mem_step {e : QueuedEvent P n κ} (hA : Agrees C s) (hs : queuedStep C s e = some s') :
    s'.mem = s.mem ∨ (∃ f c o, P.step s.mem f c = some (s'.mem, o)) ∨
      (∃ x r, P.client s.mem x = some (s'.mem, some r)) ∨
      ∃ t x, e = .client t x ∧ P.client s.mem x = some (s'.mem, none) := by
  cases e with
  | loop i =>
    rcases threadLoop_enters hs with ⟨hmem, -⟩ | ⟨-, hmem⟩ <;> exact .inl hmem
  | unit i c =>
    rcases runUnit_enters hs with ⟨hmem, -⟩ | ⟨-, f, o, hp⟩
    · exact .inl hmem
    · exact .inr (.inl ⟨f, c, o, hp⟩)
  | client t x =>
    rcases runClient_enters hs with ⟨⟨hmem, -⟩, -⟩ | ⟨-, hp⟩
    · exact .inl hmem
    · exact .inr (.inr (.inr ⟨t, x, rfl, hp⟩))
  | queue t addr =>
    obtain ⟨q', hstep, rfl⟩ := Option.map_eq_some_iff.mp hs
    by_cases hpush : ∃ func, q'.pc t = .push (.broadcast func true)
    · obtain ⟨func, hy⟩ := hpush
      have hfit := hA.threads t
      rw [AsyncQueue.body_of_broadcast hstep hy] at hfit
      rw [hy]
      cases t with
      | inl i =>
        exact (Asks.mem hfit s.mem).imp_right .inl
      | inr c =>
        obtain ⟨x, r, -, -, hx⟩ := hfit
        exact .inr (.inr (.inl ⟨x, r, hx s.mem rfl⟩))
    · exact .inl (mem_after { s with workQueue := q' } t fun func hy => hpush ⟨func, hy⟩)

end Beside

/-! ## Every step -/

section Effort

variable [Fintype κ] {Ψ : Pool P n → Nat}

/-- The steps left to all threads. -/
def QueuedPool.effort (Ψ : Pool P n → Nat) (s : QueuedPool P n κ) : Nat :=
  s.workQueue.effort + callCost (Fintype.card (Fin n ⊕ κ)) * (s.ready + s.view.effort Ψ)

theorem spurious_awake {p : Pool P n} {d : Event P n} (h : Awake p d) : p.spurious d = 0 := by
  cases d with
  | loop i => exact if_neg h
  | _ => rfl

theorem spurious_le (p : Pool P n) (d : Event P n) : p.spurious d ≤ 1 := by
  cases d with
  | loop i =>
    simp only [Pool.spurious]
    split <;> omega
  | _ => exact Nat.zero_le _

section Seen

variable {E : Event P n → Prop}

omit [Fintype κ] in
/-- What is seen of a step is paid for above. -/
theorem view_effort (hseen : Seen C E s s')
    (hpays : ∀ d, step s.view d = some s'.view → Pays Ψ s.view d s'.view) {b : Nat}
    (hE : ∀ d, E d → s.view.spurious d ≤ b) :
    s'.view.effort Ψ + s'.view.passed ≤ s.view.effort Ψ + s.view.passed + 2 * b := by
  rcases hseen.2 with ⟨hview, -⟩ | ⟨d, hd, hs⟩
  · rw [hview]
    exact Nat.le_add_right _ _
  · have hle := effort_passed hs (hpays d hs)
    have := hE d hd
    omega

omit [Fintype κ] in
theorem view_effort_le (hseen : Seen C E s s')
    (hpays : ∀ d, step s.view d = some s'.view → Pays Ψ s.view d s'.view)
    (hE : ∀ d, E d → s.view.spurious d = 0) : s'.view.effort Ψ ≤ s.view.effort Ψ := by
  rcases hseen.2 with ⟨hview, -⟩ | ⟨d, hd, hstep⟩
  · rw [hview]
  · have hle := effort_charged hstep (hpays d hstep)
    rw [hE d hd] at hle
    omega

omit [Fintype κ] in
theorem view_effort_lt (hseen : Seen C E s s')
    (hpays : ∀ d, step s.view d = some s'.view → Pays Ψ s.view d s'.view)
    (hE : ∀ d, E d → s.view.spurious d = 0 ∧ charge s.view d s'.view = 1)
    (hqueue : s'.workQueue = s.workQueue) : s'.view.effort Ψ + 1 ≤ s.view.effort Ψ := by
  rcases hseen.2 with ⟨-, hne⟩ | ⟨d, hd, hstep⟩
  · exact absurd hqueue hne
  · have hle := effort_charged hstep (hpays d hstep)
    obtain ⟨hzero, hone⟩ := hE d hd
    omega

end Seen

/-- A thread pays for its call on the queue with its turn to call. -/
theorem effort_enters {t : Fin n ⊕ κ} (hA : Agrees C s) (hcall : Enters s s' t)
    (hview : s'.view.effort Ψ ≤ s.view.effort Ψ) : s'.effort Ψ + 1 ≤ s.effort Ψ := by
  obtain ⟨-, c, hc, hcall⟩ := hcall
  have hqueue := AsyncQueue.effort_step hA.queue hcall
  obtain ⟨hidle, hq'⟩ := AsyncQueue.call_cases hcall
  have hmove := tally_move AsyncQueue.PC.ready hidle c.start
  have hready : s'.ready + 1 = s.ready := by
    rw [hc] at hmove
    unfold QueuedPool.ready
    rw [hq']
    exact hmove
  simp only [AsyncQueue.Event.calls, AsyncQueue.Queue.spurious] at hqueue
  unfold QueuedPool.effort
  generalize Fintype.card (Fin n ⊕ κ) = N at hqueue ⊢
  have hcost : callCost N = 4 * (N + 1) * (N + 1) + 1 := rfl
  have hmul := Nat.mul_le_mul_left (callCost N) (show s'.ready + s'.view.effort Ψ + 1
    ≤ s.ready + s.view.effort Ψ by omega)
  rw [Nat.mul_add (callCost N) _ 1] at hmul
  omega

omit [DecidableEq κ] in
/-- A step beside the queue is paid for above. -/
theorem effort_beside (hqueue : s'.workQueue = s.workQueue)
    (hview : s'.view.effort Ψ + 1 ≤ s.view.effort Ψ) : s'.effort Ψ + 1 ≤ s.effort Ψ := by
  unfold QueuedPool.effort QueuedPool.ready
  rw [hqueue]
  generalize Fintype.card (Fin n ⊕ κ) = N
  have hpos : 1 ≤ callCost N := Nat.le_add_left _ _
  have hmul := Nat.mul_le_mul_left (callCost N)
    (Nat.add_le_add_left hview (tally AsyncQueue.PC.ready s.workQueue.pc))
  rw [← Nat.add_assoc, Nat.mul_add (callCost N) _ 1] at hmul
  omega

/-- A step in the queue is paid for there, and what it passes above. -/
theorem effort_queueStep {t : Fin n ⊕ κ} {addr : Nat} (hA : Agrees C s)
    (hs : s.queueStep t addr = some s')
    (hview : s'.view.effort Ψ + s'.view.passed
      ≤ s.view.effort Ψ + s.view.passed + 2 * s.spurious (.queue t addr)) :
    s'.effort Ψ + 1 ≤ s.effort Ψ
      + (wakeCost (Fintype.card (Fin n ⊕ κ)) + 2 * callCost (Fintype.card (Fin n ⊕ κ)))
        * s.spurious (.queue t addr) := by
  have hready := ready_queueStep hA hs
  obtain ⟨q', hstep, hs'⟩ := Option.map_eq_some_iff.mp hs
  have hqueue : s'.workQueue.effort + 1 ≤ s.workQueue.effort
      + wakeCost (Fintype.card (Fin n ⊕ κ)) * s.spurious (.queue t addr) := by
    rw [← hs', workQueue_after]
    exact AsyncQueue.effort_step hA.queue hstep
  unfold QueuedPool.effort
  generalize Fintype.card (Fin n ⊕ κ) = N at hqueue ⊢
  have hmul := Nat.mul_le_mul_left (callCost N) (show s'.ready + s'.view.effort Ψ
    ≤ s.ready + s.view.effort Ψ + 2 * s.spurious (.queue t addr) by omega)
  rw [Nat.mul_add (callCost N) _ (2 * _), Nat.mul_left_comm] at hmul
  rw [Nat.add_mul, Nat.mul_assoc 2]
  omega

/-- **Every step pays for itself**, but for a client's own and spurious
wake-ups. -/
theorem queued_effort_step {e : QueuedEvent P n κ} (hC : C.Separate) (hA : Agrees C s)
    (hs : queuedStep C s e = some s')
    (hpays : ∀ d, step s.view d = some s'.view → Pays Ψ s.view d s'.view) :
    s'.effort Ψ + 1 ≤ s.effort Ψ + s.clientSteps e
      + (wakeCost (Fintype.card (Fin n ⊕ κ)) + 2 * callCost (Fintype.card (Fin n ⊕ κ)))
        * s.spurious e := by
  have hseen := hA.step hC hs
  cases e with
  | loop i =>
    refine Nat.le_add_right_of_le (Nat.le_add_right_of_le ?_)
    rcases threadLoop_enters hs with hcall | ⟨hqueue, -⟩
    · exact effort_enters hA hcall
        (view_effort_le hseen hpays fun d hd => spurious_awake hd.2)
    · refine effort_beside hqueue (view_effort_lt hseen hpays ?_ hqueue)
      rintro d ⟨rfl, hd⟩
      exact ⟨spurious_awake hd, rfl⟩
  | unit i c =>
    refine Nat.le_add_right_of_le (Nat.le_add_right_of_le ?_)
    rcases runUnit_enters hs with hcall | ⟨hqueue, -⟩
    · refine effort_enters hA hcall (view_effort_le hseen hpays ?_)
      rintro d rfl
      rfl
    · refine effort_beside hqueue (view_effort_lt hseen hpays ?_ hqueue)
      rintro d rfl
      exact ⟨rfl, rfl⟩
  | client t x =>
    have hview : s'.view.effort Ψ ≤ s.view.effort Ψ := by
      refine view_effort_le hseen hpays ?_
      rintro d rfl
      rfl
    refine Nat.le_add_right_of_le ?_
    rcases runClient_enters hs with ⟨hcall, -⟩ | ⟨hqueue, hclient⟩
    · exact Nat.le_add_right_of_le (effort_enters hA hcall hview)
    · -- a step of the client's own costs what it counts for
      have hone : s.clientSteps (.client t x) = 1 := by
        simp only [QueuedPool.clientSteps, hclient]
      have hmul := Nat.mul_le_mul_left (callCost (Fintype.card (Fin n ⊕ κ)))
        (Nat.add_le_add_left hview s.ready)
      unfold QueuedPool.effort QueuedPool.ready at *
      rw [hqueue]
      omega
  | queue t addr =>
    refine effort_queueStep hA hs (view_effort hseen hpays ?_)
    intro d hd
    cases hsleep : (s.workQueue.pc t).sleeps with
    | none => exact (spurious_awake (hd hsleep)).trans_le (Nat.zero_le _)
    | some y =>
      have hone : s.spurious (.queue t addr) = 1 := by
        simp [QueuedPool.spurious, AsyncQueue.Queue.spurious, hsleep]
      exact (spurious_le _ d).trans_eq hone.symm

/-- **What pays for the pool bounds the code**: a run has no more steps than
the effort there is at its start, those that the clients take of their own,
and a bounded number for each spurious wake-up. -/
theorem queued_steps_le {m : P.Mem} {J : Pool P n → Prop} (hC : C.Separate)
    (hpays : ∀ {p p' : Pool P n} {d}, (machine P n m).Reachable p → J p' → step p d = some p' →
      Pays Ψ p d p') {es : List (QueuedEvent P n κ)}
    (hes : (queuedMachine n C m).Meets (fun s e => ∀ t, queuedStep C s e = some t → J t.view)
      (queuedMachine n C m).init es)
    (hrun : (queuedMachine n C m).run (queuedMachine n C m).init es = some s) :
    es.length ≤ (queuedMachine n C m).init.effort Ψ
      + (queuedMachine n C m).total QueuedPool.clientSteps (queuedMachine n C m).init es
      + (wakeCost (Fintype.card (Fin n ⊕ κ)) + 2 * callCost (Fintype.card (Fin n ⊕ κ)))
        * (queuedMachine n C m).total QueuedPool.spurious (queuedMachine n C m).init es := by
  have hstep : ∀ {s e t}, (queuedMachine n C m).Reachable s →
      (∀ t, queuedStep C s e = some t → J t.view) → (queuedMachine n C m).step s e = some t →
      (queuedMachine n C m).Reachable t ∧ t.effort Ψ + 1 ≤ s.effort Ψ + (s.clientSteps e
        + (wakeCost (Fintype.card (Fin n ⊕ κ)) + 2 * callCost (Fintype.card (Fin n ⊕ κ)))
          * s.spurious e) := by
    intro s e t h hJ hs
    have hpaid := queued_effort_step hC (agrees hC h) hs fun d hd =>
      hpays (view_reachable hC h) (hJ t hs) hd
    exact ⟨h.step trivial hs, hpaid.trans_eq (Nat.add_assoc ..)⟩
  have htotal := Machine.total_le hstep .init hes hrun
  have hlength : (queuedMachine n C m).total (fun _ _ => 1) (queuedMachine n C m).init es
      = es.length := by
    rw [Machine.total_events hrun]
    simp
  rw [hlength, Machine.total_add, Machine.total_mul] at htotal
  omega

end Effort

/-! ## What the clients do -/

/-- The calls of the clients, each with what it weighs. -/
def QueuedEvent.weigh (w : P.Client → Nat) : QueuedEvent P n κ → Nat
  | .client _ x => w x
  | _ => 0

/-- A client's own steps are paid for by its calls, where `Λ` is what is
left of the calls that are under way. -/
theorem client_steps_le {m : P.Mem} (hC : C.Separate) {Λ : P.Mem → Nat} {w : P.Client → Nat}
    (hunit : ∀ {m f c m' o}, P.step m f c = some (m', o) → Λ m' ≤ Λ m)
    (hrequest : ∀ {m x m' r}, P.client m x = some (m', some r) → Λ m' ≤ Λ m)
    (hown : ∀ {m x m'}, P.client m x = some (m', none) → Λ m' + 1 ≤ Λ m + w x)
    {es : List (QueuedEvent P n κ)}
    (hrun : (queuedMachine n C m).run (queuedMachine n C m).init es = some s) :
    (queuedMachine n C m).total QueuedPool.clientSteps (queuedMachine n C m).init es
      ≤ Λ m + (es.map (QueuedEvent.weigh w)).sum := by
  have hstep : ∀ {s e t}, (queuedMachine n C m).Reachable s → True →
      (queuedMachine n C m).step s e = some t → (queuedMachine n C m).Reachable t ∧
        Λ t.mem + s.clientSteps e ≤ Λ s.mem + QueuedEvent.weigh w e := by
    intro s e t h _ hs
    refine ⟨h.step trivial hs, ?_⟩
    have hothers : (∀ t x, e ≠ .client t x) → Λ t.mem ≤ Λ s.mem := by
      intro hne
      rcases mem_step (agrees hC h) hs with hmem | ⟨f, c, o, hp⟩ | ⟨x, r, hp⟩ | ⟨u, x, he, -⟩
      · rw [hmem]
      · exact hunit hp
      · exact hrequest hp
      · exact absurd he (hne u x)
    cases e with
    | loop i => exact hothers (by simp)
    | unit i c => exact hothers (by simp)
    | queue u addr => exact hothers (by simp)
    | client u x =>
      rcases runClient_enters hs with ⟨⟨hmem, -⟩, m', r, hp⟩ | ⟨-, hp⟩
      · simp only [QueuedPool.clientSteps, hp, hmem]
        exact Nat.le_add_right _ _
      · simp only [QueuedPool.clientSteps, hp]
        exact hown hp
  have htotal := Machine.total_le hstep .init (Machine.meets_true _ es) hrun
  rw [Machine.total_events hrun] at htotal
  exact (Nat.le_add_right _ _).trans htotal

end Loomlib.ThreadPool
