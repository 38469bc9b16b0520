import Loomlib.LinkedQueue.Calls
import Loomlib.LinkedQueue.Shape

/-!
# LinkedQueue — Fifo

With a lock for each end no two threads are inside the same end, so the
shape of the list holds in every state that beta and gamma reach, for any
number of threads. What the pops take is then a prefix of what the pushes
linked, and each pop returns what it took.
-/

namespace Loomlib.LinkedQueue

variable {ι α : Type} [DecidableEq ι] {fl : Flavour} {s s' : Queue ι α} {t : ι}

/-! ## The locks -/

/-- Each lock is held by the thread inside its end. -/
structure Locked (s : Queue ι α) : Prop where
  head : Mutex s.headLock PC.inHead s.pc
  tail : Mutex s.tailLock PC.inTail s.pc

omit [DecidableEq ι] in
theorem Locked.exclusive (h : Locked s) : Exclusive s :=
  ⟨fun _ _ ht hu => h.tail.unique ht hu, fun _ _ ht hu => h.head.unique ht hu⟩

/-- A step that crosses no end. -/
theorem Locked.stay (h : Locked s) {x y : PC α} (hs' : s'.pc = Function.update s.pc t y)
    (hhl : s'.headLock = s.headLock) (htl : s'.tailLock = s.tailLock) (hpc : s.pc t = x)
    (hh : y.inHead = x.inHead) (ht : y.inTail = x.inTail) : Locked s' :=
  ⟨hs' ▸ hhl ▸ h.head.stay hpc hh, hs' ▸ htl ▸ h.tail.stay hpc ht⟩

theorem Locked.move (h : Locked s) (hl : fl.locks = true) {x : PC α} (hpc : s.pc t = x)
    (hm : Move fl s t x s') : Locked s' := by
  cases hm with
  | dead | noNext => exact ⟨h.head, h.tail⟩
  | setItem | setNext =>
    exact h.stay (congrArg (Function.update · t _) (s.store_pc ..)) (s.store_headLock ..)
      (s.store_tailLock ..) hpc rfl rfl
  | lockTail hfree => exact ⟨h.head.stay hpc rfl, (hfree ▸ h.tail).acquire rfl⟩
  | unlockTail | unlockTailBeta => exact ⟨h.head.stay hpc rfl, h.tail.release hpc rfl rfl⟩
  | lockTest hfree | lockLoop hfree | relock hfree =>
    exact ⟨(hfree ▸ h.head).acquire rfl, h.tail.stay hpc rfl⟩
  | giveUp | sleep | unlockHead => exact ⟨h.head.release hpc rfl rfl, h.tail.stay hpc rfl⟩
  | broadcast =>
    have hwake : ∀ y : PC α, y.wake.inHead = y.inHead ∧ y.wake.inTail = y.inTail := by
      intro y
      unfold PC.wake
      split <;> exact ⟨rfl, rfl⟩
    have hpc' : (s.pc t).wake = .push .broadcast := by rw [hpc]; rfl
    exact ⟨(h.head.map fun u => (hwake (s.pc u)).1).stay hpc' rfl,
      (h.tail.map fun u => (hwake (s.pc u)).2).stay hpc' rfl⟩
  | setItemAlpha hn | setTailAlpha hn | callPopAlpha hn | giveUpAlpha hn | setHeadAlpha hn =>
    cases hl.symm.trans hn
  | _ => exact h.stay rfl rfl rfl hpc rfl rfl

theorem locked (hl : fl.locks = true) (h : (machine ι α fl).Reachable s) : Locked s := by
  refine h.invariant (I := Locked) ⟨?_, ?_⟩ ?_
  · simp [Mutex, machine, queueNew, PC.inHead]
  · simp [Mutex, machine, queueNew, PC.inTail]
  · intro s e s' _ hI hs
    exact hI.move hl rfl (move_cases hs)

/-- **The list is well formed** in every state a queue with locks reaches. -/
theorem shape (hl : fl.locks = true) (h : (machine ι α fl).Reachable s) :
    ∃ x rest, Shape s x rest := by
  refine h.invariant (I := fun s => ∃ x rest, Shape s x rest) ⟨none, [], Shape.new⟩ ?_
  rintro s e s' hr ⟨x, rest, hI⟩ hs
  exact hI.step (locked hl hr).exclusive hs

/-! ## What the pops report -/

/-- A pop that was told to wait and is about to give up. -/
def PC.givesUp : PC α → Bool
  | .pop w .testHead | .pop w (.testNext _) | .pop w .releaseEmpty => w
  | _ => false

/-- A pop told to wait comes back with an item. -/
structure Waiting (s : Queue ι α) : Prop where
  stays : ∀ t, (s.pc t).givesUp = false
  returned : ∀ r ∈ s.returned, r.wait = true → r.item.isSome = true

theorem Waiting.stay (h : Waiting s) {y : PC α} (hpc : s'.pc = Function.update s.pc t y)
    (hy : y.givesUp = false) (hr : s'.returned = s.returned) : Waiting s' where
  stays u := by
    rw [hpc]
    by_cases hu : u = t
    · subst hu; rw [Function.update_self]; exact hy
    · rw [Function.update_of_ne hu]; exact h.stays u
  returned := hr ▸ h.returned

theorem Waiting.ret (h : Waiting s) {w : Bool} {item : Option (Option α)}
    (hpc : s'.pc = Function.update s.pc t .idle) (hr : s'.returned = s.returned ++ [⟨w, item⟩])
    (hw : w = true → item.isSome = true) : Waiting s' where
  stays :=
    have hpc' : Waiting { s with pc := s'.pc } := h.stay hpc rfl rfl
    hpc'.stays
  returned r hmem hrw := by
    rw [hr] at hmem
    rcases List.mem_append.mp hmem with hmem | hmem
    · exact h.returned r hmem hrw
    · obtain rfl := List.mem_singleton.mp hmem
      exact hw hrw

theorem Waiting.move (h : Waiting s) (hl : fl.locks = true) {x : PC α} (hpc : s.pc t = x)
    (hm : Move fl s t x s') : Waiting s' := by
  have hup := hpc ▸ h.stays t
  cases hm with
  | dead | noNext => exact ⟨h.stays, h.returned⟩
  | setItem | setNext =>
    exact h.stay (congrArg (Function.update · t _) (s.store_pc ..)) rfl (s.store_returned ..)
  | broadcast =>
    have hwake : ∀ y : PC α, y.wake.givesUp = y.givesUp := by
      intro y
      unfold PC.wake
      split <;> rfl
    have hI : Waiting { s with pc := fun u => (s.pc u).wake } :=
      ⟨fun u => (hwake _).trans (h.stays u), h.returned⟩
    exact hI.stay rfl rfl rfl
  | testHead | testEmpty => exact h.stay rfl hup rfl
  | giveUp =>
    obtain rfl : _ = false := hup
    exact h.ret rfl rfl (absurd · Bool.false_ne_true)
  | free => exact h.ret rfl rfl fun _ => rfl
  | setItemAlpha hn | callPopAlpha hn | giveUpAlpha hn => cases hl.symm.trans hn
  | _ => exact h.stay rfl rfl rfl

theorem waiting (hl : fl.locks = true) (h : (machine ι α fl).Reachable s) : Waiting s := by
  refine h.invariant (I := Waiting) ⟨fun _ => rfl, by simp [machine, queueNew]⟩ ?_
  intro s e s' _ hI hs
  exact hI.move hl rfl (move_cases hs)

/-- The one way to `releaseEmpty` is a test that reads `head->next` as
NULL, and then nothing is left to take. -/
theorem empty_at_test {x : Option α} {rest : List (Nat × Option α)} (h : Shape s x rest)
    {w : Bool} {p : PopPC α} (hpc : s.pc t = .pop w p) (hm : Move fl s t (.pop w p) s')
    (hout : s'.pc t = .pop w .releaseEmpty) : (∃ hd, p = .testNext hd) ∧ s.taken = s.linked := by
  have hlocal := hpc ▸ h.locals t
  cases hm with
  | testEmpty hnd hn =>
    obtain rfl : _ = s.head := hlocal
    refine ⟨⟨_, rfl⟩, ?_⟩
    cases h.chain.head.symm.trans hnd
    cases rest with
    | nil => simp [h.linked]
    | cons q rest => cases hn
  | dead hx | noNext hx =>
    cases hpc.symm.trans hout
    cases hx
  | _ => simp [Queue.goto] at hout

/-- A pop reports the queue empty from `releaseEmpty` only. -/
theorem empty_report {x : PC α} (hm : Move fl s t x s') {w : Bool}
    (hr : s'.returned = s.returned ++ [⟨w, none⟩]) : x = .pop w .releaseEmpty := by
  cases hm with
  | giveUp | giveUpAlpha | free =>
    simpa [Queue.goto] using List.append_cancel_left hr
  | _ => simp [Queue.goto] at hr

/-- A FIFO queue, with what its threads have done. -/
structure IsFifo (fl : Flavour) (s : Queue ι α) (log : List (ι × Deed α)) : Prop where
  /-- each push links its item once, and each pop returns what it took -/
  told : Told s log
  /-- what the pops took is a prefix of what the pushes linked -/
  order : s.taken <+: s.linked
  /-- a pop gives up only if its test of `head->next` finds everything
  taken, -/
  empty : ∀ t w p ans s', s.pc t = .pop w p → step fl s (.step t ans) = some s' →
    s'.pc t = .pop w .releaseEmpty → (∃ hd, p = .testNext hd) ∧ s.taken = s.linked
  reports : ∀ e s' w, step fl s e = some s' → s'.returned = s.returned ++ [⟨w, none⟩] →
    ∃ t, s.pc t = .pop w .releaseEmpty
  /-- and never when told to wait -/
  waits : ∀ r ∈ s.returned, r.wait = true → r.item.isSome = true
  /-- no step goes through a freed node -/
  sound : s.fault = false

/-- **beta and gamma are FIFO queues** in every interleaving of any number
of pushes and pops. -/
theorem fifo_queue {log : List (ι × Deed α)} (hfl : fl = betaQueue ∨ fl = gammaQueue)
    (h : ((machine ι α fl).traced (deeds fl)).Reachable (s, log)) : IsFifo fl s log := by
  have hl : fl.locks = true := by rcases hfl with rfl | rfl <;> rfl
  have hr : (machine ι α fl).Reachable s := h.untraced
  obtain ⟨x, rest, hshape⟩ := shape hl hr
  constructor
  case told => exact LinkedQueue.told h
  case order => exact ⟨_, hshape.linked.symm⟩
  case empty =>
    intro t w p ans s' hpc hs hout
    have hm := move_cases hs
    rw [Event.thread, hpc] at hm
    exact empty_at_test hshape hpc hm hout
  case reports => exact fun e s' w hs hr => ⟨_, empty_report (move_cases hs) hr⟩
  case waits => exact (waiting hl hr).returned
  case sound => exact hshape.sound

/-- Thread 0 pushes 7 and NULL, and then gets no memory; thread 1 takes
both, the second one with a pop that overlaps that push, and then finds the
queue empty. -/
def betaRun : List (Event Bool Nat) :=
  .push false (some 7) :: .step false (some 1) :: List.replicate 6 (.step false none) ++
    .pop true false :: List.replicate 9 (.step true none) ++
    .push false none :: .step false (some 2) :: .step true none ::
    List.replicate 6 (.step false none) ++ List.replicate 2 (.step true none) ++
    .push false (some 8) :: .pop true false :: List.replicate 9 (.step true none) ++
    .step false none :: List.replicate 3 (.step true none) ++
    .pop true false :: List.replicate 4 (.step true none)

/-- Thread 0 pushes 7, thread 1 takes it with a waiting pop, and then
finds the queue empty with a pop that does not wait. -/
def gammaRun : List (Event Bool Nat) :=
  .push false (some 7) :: .pop true true :: .step false (some 1) ::
    List.replicate 7 (.step false none) ++ List.replicate 12 (.step true none) ++
    .pop true false :: List.replicate 4 (.step true none)

theorem fifo_queue_runs :
    let beta := ((machine Bool Nat betaQueue).traced (deeds betaQueue)).final betaRun
      (by decide)
    let gamma := ((machine Bool Nat gammaQueue).traced (deeds gammaQueue)).final gammaRun
      (by decide)
    (beta.1.linked = [some 7, none] ∧
      beta.1.returned = [⟨false, some (some 7)⟩, ⟨false, some none⟩, ⟨false, none⟩] ∧
      IsFifo betaQueue beta.1 beta.2) ∧
    gamma.1.linked = [some 7] ∧ gamma.1.returned = [⟨true, some (some 7)⟩, ⟨false, none⟩] ∧
      IsFifo gammaQueue gamma.1 gamma.2 :=
  ⟨⟨by decide, by decide, fifo_queue (.inl rfl)
      (((machine Bool Nat betaQueue).traced (deeds betaQueue)).reachable_final betaRun
        (by decide))⟩,
    by decide, by decide, fifo_queue (.inr rfl)
      (((machine Bool Nat gammaQueue).traced (deeds gammaQueue)).reachable_final gammaRun
        (by decide))⟩

end Loomlib.LinkedQueue
