import Loomlib.LinkedQueue.Model

/-!
# LinkedQueue — Steps

What one step of one thread can do, said once for the three flavours:
`move_cases` inverts the step function into the relation `Move`, and every
invariant is a case analysis on it.
-/

namespace Loomlib.LinkedQueue

variable {ι α : Type} [DecidableEq ι]

/-- The node that the next step of a pop goes through. -/
def PC.reads : PC α → Option Nat
  | .pop _ (.testNext a) | .pop _ (.loopNext a) | .pop _ (.itemNext a) | .pop _ (.itemRead a)
  | .pop _ (.advanceNext _ _ a) | .pop _ (.free _ a) => some a
  | _ => none

/-- The node whose `next` it takes to be there. -/
def PC.follows : PC α → Option Nat
  | .pop _ (.itemNext a) | .pop _ (.advanceNext _ _ a) => some a
  | _ => none

def Event.thread : Event ι α → ι
  | .push t _ | .pop t _ | .step t _ => t

/-- The steps of the thread `t` from a control point, the two kinds of
fault first. The steps of the flavour without locks end in `Alpha`. -/
inductive Move (fl : Flavour) (s : Queue ι α) (t : ι) : PC α → Queue ι α → Prop where
  | dead {x a} (hx : x.reads = some a) (hd : s.heap a = none) :
      Move fl s t x { s with fault := true }
  | noNext {x a nd} (hx : x.follows = some a) (hnd : s.heap a = some nd) (hn : nd.next = none) :
      Move fl s t x { s with fault := true }
  | callPush {item} : Move fl s t .idle (s.goto t (.push (.alloc item)))
  | failed {item} : Move fl s t (.push (.alloc item)) (s.goto t .idle)
  | alloc {item a} (ha : s.heap a = none) :
      Move fl s t (.push (.alloc item))
        ({ s with heap := Function.update s.heap a (some ⟨none, none⟩) }.goto t
          (.push (.setItem item a)))
  | setItem {item new} (hl : fl.locks = true) :
      Move fl s t (.push (.setItem item new))
        ((s.store new fun nd => { nd with item := item }).goto t (.push (.acquire item new)))
  | setItemAlpha {item new} (hl : fl.locks = false) :
      Move fl s t (.push (.setItem item new))
        ((s.store new fun nd => { nd with item := item }).goto t (.push (.readTail item new)))
  | lockTail {item new} (hfree : s.tailLock = none) :
      Move fl s t (.push (.acquire item new))
        ({ s with tailLock := some t }.goto t (.push (.readTail item new)))
  | readTail {item new} :
      Move fl s t (.push (.readTail item new)) (s.goto t (.push (.setNext item new s.tail)))
  | setNext {item new tail} :
      Move fl s t (.push (.setNext item new tail))
        ({ s.store tail (fun nd => { nd with next := some new }) with
          linked := s.linked ++ [item] }.goto t (.push (.setTail new)))
  | setTail {new} (hl : fl.locks = true) :
      Move fl s t (.push (.setTail new)) ({ s with tail := new }.goto t (.push .release))
  | setTailAlpha {new} (hl : fl.locks = false) :
      Move fl s t (.push (.setTail new)) ({ s with tail := new }.goto t .idle)
  | unlockTail (hw : fl.waits = true) :
      Move fl s t (.push .release) ({ s with tailLock := none }.goto t (.push .broadcast))
  | unlockTailBeta (hw : fl.waits = false) :
      Move fl s t (.push .release) ({ s with tailLock := none }.goto t .idle)
  | broadcast :
      Move fl s t (.push .broadcast) ({ s with pc := fun u => (s.pc u).wake }.goto t .idle)
  | callPop {w} (hl : fl.locks = true) : Move fl s t .idle (s.goto t (.pop w .acquire))
  | callPopAlpha {w} (hl : fl.locks = false) : Move fl s t .idle (s.goto t (.pop w .testHead))
  | lockTest (hfree : s.headLock = none) :
      Move fl s t (.pop false .acquire)
        ({ s with headLock := some t }.goto t (.pop false .testHead))
  | lockLoop (hfree : s.headLock = none) :
      Move fl s t (.pop true .acquire)
        ({ s with headLock := some t }.goto t (.pop true .loopHead))
  | testHead {w} : Move fl s t (.pop w .testHead) (s.goto t (.pop w (.testNext s.head)))
  | testEmpty {w a nd} (hnd : s.heap a = some nd) (hn : nd.next = none) :
      Move fl s t (.pop w (.testNext a)) (s.goto t (.pop w .releaseEmpty))
  | testLoop {w a nd next} (hnd : s.heap a = some nd) (hn : nd.next = some next)
      (hw : fl.waits = true) : Move fl s t (.pop w (.testNext a)) (s.goto t (.pop w .loopHead))
  | testItem {w a nd next} (hnd : s.heap a = some nd) (hn : nd.next = some next)
      (hw : fl.waits = false) : Move fl s t (.pop w (.testNext a)) (s.goto t (.pop w .itemHead))
  | giveUp {w} (hl : fl.locks = true) :
      Move fl s t (.pop w .releaseEmpty)
        ({ s with headLock := none, returned := s.returned ++ [Return.mk w none] }.goto t .idle)
  | giveUpAlpha {w} (hl : fl.locks = false) :
      Move fl s t (.pop w .releaseEmpty)
        ({ s with returned := s.returned ++ [Return.mk w none] }.goto t .idle)
  | loopHead {w} : Move fl s t (.pop w .loopHead) (s.goto t (.pop w (.loopNext s.head)))
  | loopEmpty {w a nd} (hnd : s.heap a = some nd) (hn : nd.next = none) :
      Move fl s t (.pop w (.loopNext a)) (s.goto t (.pop w .sleep))
  | loopItem {w a nd next} (hnd : s.heap a = some nd) (hn : nd.next = some next) :
      Move fl s t (.pop w (.loopNext a)) (s.goto t (.pop w .itemHead))
  | sleep {w} :
      Move fl s t (.pop w .sleep) ({ s with headLock := none }.goto t (.pop w .asleep))
  | asleep {w} : Move fl s t (.pop w .asleep) (s.goto t (.pop w .woken))
  | relock {w} (hfree : s.headLock = none) :
      Move fl s t (.pop w .woken) ({ s with headLock := some t }.goto t (.pop w .loopHead))
  | itemHead {w} : Move fl s t (.pop w .itemHead) (s.goto t (.pop w (.itemNext s.head)))
  | itemNext {w a nd next} (hnd : s.heap a = some nd) (hn : nd.next = some next) :
      Move fl s t (.pop w (.itemNext a)) (s.goto t (.pop w (.itemRead next)))
  | itemRead {w a nd} (hnd : s.heap a = some nd) :
      Move fl s t (.pop w (.itemRead a)) (s.goto t (.pop w (.setTemp nd.item)))
  | setTemp {w item} :
      Move fl s t (.pop w (.setTemp item)) (s.goto t (.pop w (.advanceHead item s.head)))
  | advanceHead {w item temp} :
      Move fl s t (.pop w (.advanceHead item temp))
        (s.goto t (.pop w (.advanceNext item temp s.head)))
  | advanceNext {w item temp a nd next} (hnd : s.heap a = some nd) (hn : nd.next = some next) :
      Move fl s t (.pop w (.advanceNext item temp a))
        (s.goto t (.pop w (.setHead item temp next)))
  | setHead {w item temp next} (hl : fl.locks = true) :
      Move fl s t (.pop w (.setHead item temp next))
        ({ s with head := next, taken := s.taken ++ [item] }.goto t
          (.pop w (.release item temp)))
  | setHeadAlpha {w item temp next} (hl : fl.locks = false) :
      Move fl s t (.pop w (.setHead item temp next))
        ({ s with head := next, taken := s.taken ++ [item] }.goto t (.pop w (.free item temp)))
  | unlockHead {w item temp} :
      Move fl s t (.pop w (.release item temp))
        ({ s with headLock := none }.goto t (.pop w (.free item temp)))
  | free {w item temp nd} (hnd : s.heap temp = some nd) :
      Move fl s t (.pop w (.free item temp))
        ({ s with
          heap := Function.update s.heap temp none
          returned := s.returned ++ [Return.mk w (some item)] }.goto t .idle)

variable {fl : Flavour} {s s' : Queue ι α} {t : ι}

theorem move_push {ans : Option Nat} {p : PushPC α} (h : s.queuePush fl t ans p = some s') :
    Move fl s t (.push p) s' := by
  cases p with
  | alloc item =>
    simp only [Queue.queuePush] at h
    split at h
    · cases h; exact .failed
    · split at h
      · rename_i hfree
        cases h
        exact .alloc (Option.isNone_iff_eq_none.mp hfree)
      · cases h
  | setItem item new =>
    cases h
    cases hl : fl.locks
    · exact .setItemAlpha hl
    · exact .setItem hl
  | acquire item new =>
    simp only [Queue.queuePush] at h
    split at h
    · rename_i hfree; cases h; exact .lockTail hfree
    · cases h
  | setTail new =>
    cases h
    cases hl : fl.locks
    · exact .setTailAlpha hl
    · exact .setTail hl
  | release =>
    cases h
    cases hw : fl.waits
    · exact .unlockTailBeta hw
    · exact .unlockTail hw
  | readTail | setNext | broadcast => cases h; constructor

theorem move_pop {w : Bool} {p : PopPC α} (h : s.queuePop fl t w p = some s') :
    Move fl s t (.pop w p) s' := by
  cases p with
  | acquire =>
    simp only [Queue.queuePop] at h
    split at h
    · rename_i hfree
      cases h
      cases w
      · exact .lockTest hfree
      · exact .lockLoop hfree
    · cases h
  | testNext a =>
    simp only [Queue.queuePop, Queue.load] at h
    split at h
    · rename_i hd; cases h; exact .dead rfl hd
    · rename_i nd hnd
      cases h
      cases hn : nd.next with
      | none => exact .testEmpty hnd hn
      | some next =>
        cases hw : fl.waits
        · exact .testItem hnd hn hw
        · exact .testLoop hnd hn hw
  | releaseEmpty =>
    cases h
    cases hl : fl.locks
    · exact .giveUpAlpha hl
    · exact .giveUp hl
  | loopNext a =>
    simp only [Queue.queuePop, Queue.load] at h
    split at h
    · rename_i hd; cases h; exact .dead rfl hd
    · rename_i nd hnd
      cases h
      cases hn : nd.next with
      | none => exact .loopEmpty hnd hn
      | some next => exact .loopItem hnd hn
  | woken =>
    simp only [Queue.queuePop] at h
    split at h
    · rename_i hfree; cases h; exact .relock hfree
    · cases h
  | itemNext a | advanceNext item temp a =>
    simp only [Queue.queuePop] at h
    split at h
    · rename_i hd; cases h; exact .dead rfl hd
    · rename_i hnd
      split at h
      · rename_i hn; cases h; exact .noNext rfl hnd hn
      · rename_i hn; cases h; constructor <;> assumption
  | itemRead a =>
    simp only [Queue.queuePop, Queue.load] at h
    split at h
    · rename_i hd; cases h; exact .dead rfl hd
    · rename_i hnd; cases h; exact .itemRead hnd
  | setHead item temp next =>
    cases h
    cases hl : fl.locks
    · exact .setHeadAlpha hl
    · exact .setHead hl
  | free item temp =>
    simp only [Queue.queuePop] at h
    split at h
    · rename_i hd; cases h; exact .dead rfl hd
    · rename_i hnd; cases h; exact .free hnd
  | testHead | loopHead | sleep | asleep | itemHead | setTemp | advanceHead | release =>
    cases h; constructor

theorem move_cases {e : Event ι α} (h : step fl s e = some s') :
    Move fl s e.thread (s.pc e.thread) s' := by
  cases e with
  | push t item =>
    simp only [step] at h
    split at h
    · rename_i hpc; cases h; rw [Event.thread, hpc]; exact .callPush
    · cases h
  | pop t w =>
    simp only [step] at h
    split at h
    · rename_i hpc
      split at h
      · cases h
      · cases h
        rw [Event.thread, hpc]
        cases hl : fl.locks
        · exact .callPopAlpha hl
        · exact .callPop hl
    · cases h
  | step t ans =>
    simp only [step] at h
    split at h
    · cases h
    · rename_i hpc; rw [Event.thread, hpc]; exact move_push h
    · rename_i hpc; rw [Event.thread, hpc]; exact move_pop h

end Loomlib.LinkedQueue
