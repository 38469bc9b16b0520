import Loomlib.LinkedQueue.Fifo
import Mathlib.Data.Fintype.Basic

/-!
# LinkedQueue — Wakeup

A waiting pop of `gamma_queue` tests `head->next` and goes to sleep under
`head_lock`; a push links its node under `tail_lock` and broadcasts with no
lock held. The link and the broadcast can both fall between the test and
the sleep, and then nobody wakes the pop. This is the only way to lose a
wake-up.
-/

namespace Loomlib.LinkedQueue

variable {ι α : Type} [DecidableEq ι] {s s' : Queue ι α} {t : ι}

/-- `NULL != queue->head->next` -/
def Queue.holdsItem (s : Queue ι α) : Bool :=
  match s.heap s.head with
  | some nd => nd.next.isSome
  | none => false

/-- Linked its node, and has its broadcast still to do. -/
def PC.owing : PC α → Bool
  | .push (.setTail _) | .push .release | .push .broadcast => true
  | _ => false

/-- Has tested `head->next`, and is going to sleep. -/
def PC.dozing : PC α → Bool
  | .pop _ .sleep => true
  | _ => false

/-- Asleep on `nonempty`, and not notified. -/
def PC.sleeping : PC α → Bool
  | .pop _ .asleep => true
  | _ => false

/-- Asleep, or going to be. -/
def PC.drowsy (x : PC α) : Bool :=
  x.dozing || x.sleeping

theorem PC.wake_drowsy (x : PC α) : x.wake.drowsy = x.dozing := by
  cases x with
  | pop w p => cases p <;> rfl
  | idle | push => rfl

theorem PC.wake_owing (x : PC α) : x.wake.owing = x.owing := by
  cases x with
  | pop w p => cases p <;> rfl
  | idle | push => rfl

/-- In a pop that is not asleep. -/
def PC.popping : PC α → Bool
  | .pop _ .asleep => false
  | .pop _ _ => true
  | _ => false

/-- A pop sleeps beside an item, and nobody is on the way to wake it or to
take the item. -/
def Stranded (s : Queue ι α) : Prop :=
  s.holdsItem = true ∧ (∃ t, (s.pc t).sleeping = true) ∧
    ∀ t, (s.pc t).owing = false ∧ (s.pc t).popping = false

/-- A broadcast that a pop misses, on its way to sleep beside an item, is
followed by another one. -/
def BroadcastSeen (s : Queue ι α) : Event ι α → Prop
  | .step t _ => s.pc t = .push .broadcast → s.holdsItem = true →
      (∃ u, (s.pc u).dozing = true) → ∃ v, v ≠ t ∧ (s.pc v).owing = true
  | _ => True

instance [Fintype ι] [DecidableEq α] (s : Queue ι α) : ∀ e, Decidable (BroadcastSeen s e)
  | .step t _ => inferInstanceAs (Decidable (s.pc t = .push .broadcast → s.holdsItem = true →
      (∃ u, (s.pc u).dozing = true) → ∃ v, v ≠ t ∧ (s.pc v).owing = true))
  | .push _ _ | .pop _ _ => isTrue trivial

omit [DecidableEq ι] in
theorem Shape.holdsItem_iff {x : Option α} {rest : List (Nat × Option α)} (h : Shape s x rest) :
    s.holdsItem = true ↔ s.taken.length < s.linked.length := by
  have hread := h.chain.head
  simp only [Queue.holdsItem, hread, h.linked]
  cases rest <;> simp

/-- Beside an item, a pop that sleeps or is going to has a broadcast
coming. -/
def Owed (s : Queue ι α) : Prop :=
  s.taken.length < s.linked.length → (∃ t, (s.pc t).drowsy = true) → ∃ t, (s.pc t).owing = true

/-- A thread that does not fall asleep, and keeps what it owes. -/
theorem Owed.stay (h : Owed s) {x y : PC α} (hs' : s'.pc = Function.update s.pc t y)
    (hlinked : s'.linked = s.linked) (htaken : s.taken.length ≤ s'.taken.length)
    (hpc : s.pc t = x) (hy : (y.drowsy && !x.drowsy) = false)
    (howing : (x.owing && !y.owing) = false) : Owed s' := by
  intro hitem hu
  rw [hlinked] at hitem
  rw [hs'] at hu ⊢
  exact exists_update hpc howing (h (by omega) (exists_of_update hpc hy hu))

/-- After a broadcast nobody is asleep, so who is drowsy was dozing. -/
theorem Owed.broadcast (hpc : s.pc t = .push .broadcast)
    (hc : s.taken.length < s.linked.length → (∃ u, (s.pc u).dozing = true) →
      ∃ v, v ≠ t ∧ (s.pc v).owing = true) :
    Owed ({ s with pc := fun u => (s.pc u).wake }.goto t .idle) := by
  intro hitem hu
  have hwake : ∃ u, (s.pc u).wake.drowsy = true :=
    exists_of_update (x := .push .broadcast) (by simp [hpc, PC.wake]) rfl hu
  obtain ⟨u, hu⟩ := hwake
  obtain ⟨v, hvt, hv⟩ := hc hitem ⟨u, (s.pc u).wake_drowsy ▸ hu⟩
  refine ⟨v, ?_⟩
  simp only [Queue.goto, Function.update_of_ne hvt, PC.wake_owing]
  exact hv

theorem Owed.move (h : Owed s) {x : Option α} {rest : List (Nat × Option α)} (hsh : Shape s x rest)
    {p : PC α} (hpc : s.pc t = p) (hm : Move gammaQueue s t p s')
    (hc : p = .push .broadcast → s.holdsItem = true → (∃ u, (s.pc u).dozing = true) →
      ∃ v, v ≠ t ∧ (s.pc v).owing = true) : Owed s' := by
  -- a thread that owes a broadcast after its step
  have howes : ∀ {r : Queue ι α} {y : PC α}, y.owing = true →
      r.pc = Function.update s.pc t y → Owed r :=
    fun {r y} hy hr _ _ => ⟨t, by rw [hr, Function.update_self]; exact hy⟩
  cases hm with
  | dead | noNext => exact h
  | setItem =>
    exact h.stay (congrArg (Function.update · t _) (s.store_pc ..)) (s.store_linked ..)
      (congrArg List.length (s.store_taken ..)).ge hpc rfl rfl
  | setNext =>
    exact howes (y := .push (.setTail _)) rfl (congrArg (Function.update · t _) (s.store_pc ..))
  | setTail => exact howes (y := .push .release) rfl rfl
  | unlockTail => exact howes (y := .push .broadcast) rfl rfl
  | broadcast => exact .broadcast hpc fun hitem => hc rfl (hsh.holdsItem_iff.mpr hitem)
  | loopEmpty hnd hn =>
    -- going to sleep: there is no item
    obtain rfl : _ = s.head := hpc ▸ hsh.locals t
    intro hitem
    have hholds := hsh.holdsItem_iff.mpr hitem
    simp [Queue.holdsItem, hnd, hn] at hholds
  | setItemAlpha hn | setTailAlpha hn | unlockTailBeta hn | setHeadAlpha hn => cases hn
  | setHead => exact h.stay rfl rfl (List.sublist_append_left ..).length_le hpc rfl rfl
  | _ => exact h.stay rfl rfl (Nat.le_refl _) hpc rfl rfl

theorem owed (h : (machine ι α gammaQueue).ReachableBy BroadcastSeen s) : Owed s := by
  apply h.invariant (I := Owed) (by simp [Owed, machine, queueNew])
  intro s e s' hr hI hc hs
  obtain ⟨x, rest, hsh⟩ := shape rfl hr.reachable
  apply hI.move hsh rfl (move_cases hs)
  intro hpc
  cases e with
  | step t ans => exact hc hpc
  | push t item | pop t w =>
    rw [Event.thread] at hpc
    simp [machine, step, hpc] at hs

/-- **No wake-up is lost** as long as every broadcast that a pop misses
between its test and its sleep, beside an item, has another one coming. -/
theorem never_stranded (h : (machine ι α gammaQueue).ReachableBy BroadcastSeen s) :
    ¬ Stranded s := by
  intro hstranded
  obtain ⟨hitem, ⟨t, ht⟩, hnone⟩ := hstranded
  obtain ⟨x, rest, hsh⟩ := shape rfl h.reachable
  obtain ⟨u, hu⟩ := owed h (hsh.holdsItem_iff.mp hitem) ⟨t, by simp [PC.drowsy, ht]⟩
  rw [(hnone u).1] at hu
  cases hu

/-- Thread 0 goes to sleep on the empty queue first: the broadcast of
thread 1 wakes it. -/
theorem never_stranded_woken :
    let es : List (Event (Fin 2) Nat) :=
      .pop 0 true :: List.replicate 4 (.step 0 none) ++
        .push 1 (some 7) :: .step 1 (some 1) :: List.replicate 7 (.step 1 none)
    ∃ h, ((machine (Fin 2) Nat gammaQueue).final es h).pc 0 = .pop true .woken ∧
      ¬ Stranded ((machine (Fin 2) Nat gammaQueue).final es h) :=
  ⟨by decide, by decide,
    never_stranded (Machine.reachableBy_final _ _ (by decide))⟩

/-- Thread 0 tests the empty queue; thread 1 pushes 7 and broadcasts;
then thread 0 goes to sleep, beside the item. -/
theorem stranded_pop :
    let es : List (Event (Fin 2) Nat) :=
      .pop 0 true :: List.replicate 3 (.step 0 none) ++
        .push 1 (some 7) :: .step 1 (some 1) :: List.replicate 7 (.step 1 none) ++ [.step 0 none]
    ∃ h, Stranded ((machine (Fin 2) Nat gammaQueue).final es h) := by
  refine ⟨by decide, ?_⟩
  unfold Stranded
  decide

end Loomlib.LinkedQueue
