import Loomlib.Core.History
import Loomlib.LinkedQueue.Steps

/-!
# LinkedQueue — Calls

What the calls do, seen from outside, for the three flavours. A push that
returns true has linked the item it was called with, once; a pop that
returns an item has taken that item, once; and a call that returns has
returned once. The history of the queue is what the calls of all threads
have done, in the order of the steps.
-/

namespace Loomlib.LinkedQueue

variable {ι α : Type} [DecidableEq ι] {fl : Flavour} {s s' : Queue ι α} {t : ι}

/-- What a thread does that counts: it calls, links an item, moves `head`
past one, returns. -/
inductive Deed (α : Type) where
  | push (item : Option α)
  | link (item : Option α)
  | pushed (rv : Bool)
  | pop (wait : Bool)
  | take (item : Option α)
  | popped (r : Return α)
  deriving DecidableEq, Repr

/-- A call with what it returned. -/
inductive Call (α : Type) where
  | push (item : Option α) (rv : Bool)
  | pop (wait : Bool) (item : Option (Option α))
  deriving DecidableEq, Repr

/-- What a call has to do. -/
def Call.deeds : Call α → List (Deed α)
  | .push item true => [.push item, .link item, .pushed true]
  -- no memory
  | .push item false => [.push item, .pushed false]
  | .pop w (some item) => [.pop w, .take item, .popped ⟨w, some item⟩]
  | .pop w none => [.pop w, .popped ⟨w, none⟩]

/-- What the next step from a control point does; `ans` answers `calloc`. -/
def PC.deeds (fl : Flavour) (heap : Heap (Option α)) (ans : Option Nat) : PC α → List (Deed α)
  | .push (.alloc _) => if ans = none then [.pushed false] else []
  | .push (.setNext item _ _) => [.link item]
  | .push (.setTail _) => if fl.locks then [] else [.pushed true]
  | .push .release => if fl.waits then [] else [.pushed true]
  | .push .broadcast => [.pushed true]
  | .pop _ (.setHead item _ _) => [.take item]
  | .pop w .releaseEmpty => [.popped ⟨w, none⟩]
  | .pop w (.free item temp) => if heap temp = none then [] else [.popped ⟨w, some item⟩]
  | _ => []

/-- What a thread does at an event. -/
def deeds (fl : Flavour) (s : Queue ι α) : Event ι α → List (ι × Deed α)
  | .push t item => [(t, .push item)]
  | .pop t w => [(t, .pop w)]
  | .step t ans => ((s.pc t).deeds fl s.heap ans).map (Prod.mk t)

/-- What the call at a control point has done so far. -/
def PC.Begun : PC α → List (Deed α) → Prop
  | .idle, ds => ds = []
  | .push (.alloc item), ds | .push (.setItem item _), ds | .push (.acquire item _), ds
  | .push (.readTail item _), ds | .push (.setNext item _ _), ds => ds = [.push item]
  | .push (.setTail _), ds | .push .release, ds | .push .broadcast, ds =>
    ∃ item, ds = [.push item, .link item]
  | .pop w (.release item _), ds | .pop w (.free item _), ds => ds = [.pop w, .take item]
  | .pop w _, ds => ds = [.pop w]

def Deed.linked : Deed α → Option (Option α)
  | .link item => some item
  | _ => none

def Deed.taken : Deed α → Option (Option α)
  | .take item => some item
  | _ => none

def Deed.returned : Deed α → Option (Return α)
  | .popped r => some r
  | _ => none

/-- Each thread has made whole calls, up to the one it is in, and the
history of the queue is what they did. -/
structure Told (s : Queue ι α) (log : List (ι × Deed α)) : Prop where
  calls : ∀ t, ∃ now, (s.pc t).Begun now ∧ Calls Call.deeds (entriesOf t log) now
  linked : s.linked = log.filterMap (Deed.linked ·.2)
  taken : s.taken = log.filterMap (Deed.taken ·.2)
  returned : s.returned = log.filterMap (Deed.returned ·.2)

/-! ## One step -/

theorem PC.begun_wake (x : PC α) (ds : List (Deed α)) : x.wake.Begun ds ↔ x.Begun ds := by
  unfold PC.wake
  split <;> exact Iff.rfl

/-- A thread that does not move is woken at most. -/
theorem begun_other {x : PC α} (hm : Move fl s t x s') {u : ι} (hu : u ≠ t)
    (ds : List (Deed α)) : (s'.pc u).Begun ds ↔ (s.pc u).Begun ds := by
  cases hm with
  | dead | noNext => exact Iff.rfl
  | broadcast =>
    simp only [Queue.goto, Function.update_of_ne hu]
    exact PC.begun_wake ..
  | _ => simp [Queue.goto, hu]

/-- The call under way does what the step does. -/
theorem calls_move {x : PC α} (hpc : s.pc t = x) (hm : Move fl s t x s') (hx : x ≠ .idle)
    {ans : Option Nat} (hans : ∀ item, x = .push (.alloc item) → (s'.pc t = .idle ↔ ans = none))
    {ds now : List (Deed α)} (hb : x.Begun now) (hc : Calls Call.deeds ds now) :
    ∃ now', (s'.pc t).Begun now' ∧ Calls Call.deeds (ds ++ x.deeds fl s.heap ans) now' := by
  have hmore := hc.more (x.deeds fl s.heap ans)
  cases hm with
  | callPush | callPop | callPopAlpha => exact absurd rfl hx
  | @dead x a hr hd =>
    refine ⟨now, hpc ▸ hb, ?_⟩
    have hnone : x.deeds fl s.heap ans = [] := by
      unfold PC.reads at hr
      split at hr <;> cases hr <;> simp [PC.deeds, hd]
    simpa [hnone] using hc
  | @noNext x a nd hf hnd =>
    refine ⟨now, hpc ▸ hb, ?_⟩
    have hnone : x.deeds fl s.heap ans = [] := by
      unfold PC.follows at hf
      split at hf <;> cases hf <;> rfl
    simpa [hnone] using hc
  | @failed item =>
    have hfail : ans = none := (hans item rfl).mp (Function.update_self ..)
    obtain rfl : now = [.push item] := hb
    refine ⟨[], by simp [Queue.goto, PC.Begun], hmore.done (c := .push item false) ?_⟩
    simp [PC.deeds, hfail, Call.deeds]
  | @alloc item a ha =>
    have hmem : ans ≠ none := fun h => by simpa [Queue.goto] using (hans item rfl).mpr h
    obtain rfl : now = [.push item] := hb
    exact ⟨[.push item], by simp [Queue.goto, PC.Begun], by simpa [PC.deeds, hmem] using hmore⟩
  | @setNext item new tail =>
    obtain rfl : now = [.push item] := hb
    exact ⟨[.push item, .link item], by simp [Queue.goto, PC.Begun], hmore⟩
  | @setTail new hl =>
    obtain ⟨item, rfl⟩ := hb
    exact ⟨[.push item, .link item], by simp [Queue.goto, PC.Begun],
      by simpa [PC.deeds, hl] using hmore⟩
  | @setTailAlpha new hl =>
    obtain ⟨item, rfl⟩ := hb
    refine ⟨[], by simp [Queue.goto, PC.Begun], hmore.done (c := .push item true) ?_⟩
    simp [PC.deeds, hl, Call.deeds]
  | unlockTail hw =>
    obtain ⟨item, rfl⟩ := hb
    exact ⟨[.push item, .link item], by simp [Queue.goto, PC.Begun],
      by simpa [PC.deeds, hw] using hmore⟩
  | unlockTailBeta hw =>
    obtain ⟨item, rfl⟩ := hb
    refine ⟨[], by simp [Queue.goto, PC.Begun], hmore.done (c := .push item true) ?_⟩
    simp [PC.deeds, hw, Call.deeds]
  | broadcast =>
    obtain ⟨item, rfl⟩ := hb
    refine ⟨[], by simp [Queue.goto, PC.Begun], hmore.done (c := .push item true) ?_⟩
    simp [PC.deeds, Call.deeds]
  | @giveUp w | @giveUpAlpha w =>
    obtain rfl : now = [.pop w] := hb
    exact ⟨[], by simp [Queue.goto, PC.Begun], hmore.done (c := .pop w none) rfl⟩
  | @setHead w item temp next | @setHeadAlpha w item temp next =>
    obtain rfl : now = [.pop w] := hb
    exact ⟨[.pop w, .take item], by simp [Queue.goto, PC.Begun], hmore⟩
  | @free w item temp nd hnd =>
    obtain rfl : now = [.pop w, .take item] := hb
    refine ⟨[], by simp [Queue.goto, PC.Begun], hmore.done (c := .pop w (some item)) ?_⟩
    simp [PC.deeds, hnd, Call.deeds]
  | _ => exact ⟨now, by simpa [Queue.goto, PC.Begun] using hb, by simpa [PC.deeds] using hc⟩

/-- The history grows by what the step does. -/
theorem history_move {x : PC α} (hm : Move fl s t x s') (hx : x ≠ .idle) (ans : Option Nat) :
    s'.linked = s.linked ++ (x.deeds fl s.heap ans).filterMap Deed.linked ∧
      s'.taken = s.taken ++ (x.deeds fl s.heap ans).filterMap Deed.taken ∧
      s'.returned = s.returned ++ (x.deeds fl s.heap ans).filterMap Deed.returned := by
  cases hm with
  | callPush | callPop | callPopAlpha => exact absurd rfl hx
  | @dead x a hr hd =>
    unfold PC.reads at hr
    split at hr <;> cases hr <;> simp [PC.deeds, hd]
  | @noNext x a nd hf =>
    unfold PC.follows at hf
    split at hf <;> cases hf <;> simp [PC.deeds]
  | failed | alloc =>
    by_cases h : ans = none <;> simp [PC.deeds, h, Queue.goto, Deed.linked, Deed.taken,
      Deed.returned]
  | free hnd => simp [PC.deeds, hnd, Queue.goto, Deed.linked, Deed.taken, Deed.returned]
  | setTail h | setTailAlpha h | unlockTail h | unlockTailBeta h =>
    simp [PC.deeds, h, Queue.goto, Deed.linked, Deed.taken, Deed.returned]
  | _ => simp [PC.deeds, Queue.goto, Deed.linked, Deed.taken, Deed.returned]

/-! ## Runs -/

section Log

variable {log : List (ι × Deed α)}

/-- The deeds of one thread, and what they leave of the history. -/
theorem Told.grow (h : Told s log) {ds : List (Deed α)}
    (hown : ∀ now, (s.pc t).Begun now → Calls Call.deeds (entriesOf t log) now →
      ∃ now', (s'.pc t).Begun now' ∧ Calls Call.deeds (entriesOf t log ++ ds) now')
    (hother : ∀ u, u ≠ t → ∀ now, (s'.pc u).Begun now ↔ (s.pc u).Begun now)
    (hhist : s'.linked = s.linked ++ ds.filterMap Deed.linked ∧
      s'.taken = s.taken ++ ds.filterMap Deed.taken ∧
      s'.returned = s.returned ++ ds.filterMap Deed.returned) :
    Told s' (log ++ ds.map (Prod.mk t)) := by
  obtain ⟨hl, ht, hr⟩ := hhist
  refine ⟨fun u => ?_, ?_, ?_, ?_⟩
  · obtain ⟨now, hb, hc⟩ := h.calls u
    by_cases hu : u = t
    · subst hu
      rw [entriesOf_append, entriesOf_own]
      exact hown now hb hc
    · rw [entriesOf_append, entriesOf_other hu, List.append_nil]
      exact ⟨now, (hother u hu now).mpr hb, hc⟩
  · simp [hl, h.linked, List.filterMap_map]
  · simp [ht, h.taken, List.filterMap_map]
  · simp [hr, h.returned, List.filterMap_map]

/-- **Every step does what its call has to do.** -/
theorem Told.step (h : Told s log) {e : Event ι α} (hs : LinkedQueue.step fl s e = some s') :
    Told s' (log ++ deeds fl s e) := by
  have hcall : ∀ {u : ι} {d : Deed α} {y : PC α}, s.pc u = .idle →
      d.linked = none ∧ d.taken = none ∧ d.returned = none → y.Begun [d] →
      Told (s.goto u y) (log ++ [d].map (Prod.mk u)) := by
    intro u d y hidle hd hy
    refine h.grow ?_ ?_ (by simp [Queue.goto, hd])
    · intro now hb hc
      rw [hidle] at hb
      obtain rfl : now = [] := hb
      exact ⟨[d], by simpa [Queue.goto] using hy, hc.more [d]⟩
    · intro v hv now
      simp [Queue.goto, hv]
  cases e with
  | push u item =>
    simp only [LinkedQueue.step] at hs
    split at hs
    · rename_i hidle
      cases hs
      exact hcall hidle ⟨rfl, rfl, rfl⟩ rfl
    · cases hs
  | pop u w =>
    simp only [LinkedQueue.step] at hs
    split at hs
    · rename_i hidle
      split at hs
      · cases hs
      · cases hs
        refine hcall hidle ⟨rfl, rfl, rfl⟩ ?_
        split <;> rfl
    · cases hs
  | step u ans =>
    have hm : Move fl s u (s.pc u) s' := move_cases hs
    have hbusy : s.pc u ≠ .idle := by
      intro hidle
      simp [LinkedQueue.step, hidle] at hs
    have hans : ∀ item, s.pc u = .push (.alloc item) → (s'.pc u = .idle ↔ ans = none) := by
      intro item hpc
      simp only [LinkedQueue.step, hpc, Queue.queuePush] at hs
      cases ans with
      | none =>
        cases hs
        simp [Queue.goto]
      | some a =>
        simp only at hs
        split at hs
        · cases hs
          simp [Queue.goto]
        · cases hs
    exact h.grow (fun now hb hc => calls_move rfl hm hbusy hans hb hc)
      (fun v hv now => begun_other hm hv now) (history_move hm hbusy ans)

theorem told (h : ((machine ι α fl).traced (deeds fl)).Reachable (s, log)) : Told s log := by
  refine h.invariant (I := fun sl => Told sl.1 sl.2) ⟨fun t => ?_, rfl, rfl, rfl⟩ ?_
  · exact ⟨[], show (PC.idle : PC α).Begun [] from rfl, .nil⟩
  rintro s e s' - hI hs
  obtain ⟨hs, hlog⟩ := Machine.traced_step hs
  exact hlog ▸ hI.step hs

end Log

/-! ## Whole calls -/

def Call.linked : Call α → Option (Option α)
  | .push item true => some item
  | .push _ false | .pop _ _ => none

def Call.answer : Call α → Option (Return α)
  | .push _ _ => none
  | .pop w item => some ⟨w, item⟩

/-- What whole calls leave of the history. -/
theorem history_of_calls (calls : List (Call α)) :
    (calls.flatMap Call.deeds).filterMap Deed.linked = calls.filterMap Call.linked ∧
      (calls.flatMap Call.deeds).filterMap Deed.taken
        = (calls.filterMap Call.answer).filterMap Return.item ∧
      (calls.flatMap Call.deeds).filterMap Deed.returned = calls.filterMap Call.answer := by
  induction calls with
  | nil => exact ⟨rfl, rfl, rfl⟩
  | cons c calls ih =>
    obtain ⟨hl, ht, hr⟩ := ih
    rw [List.flatMap_cons, List.filterMap_append, List.filterMap_append, List.filterMap_append,
      hl, ht, hr]
    rcases c with ⟨item, _ | _⟩ | ⟨w, _ | item⟩ <;> exact ⟨rfl, rfl, rfl⟩

/-- **A thread that is between calls** and alone on the queue has made
whole calls, and the history is theirs. -/
theorem Told.whole {s : Queue Unit α} {log : List (Unit × Deed α)} (h : Told s log)
    (hidle : s.pc () = .idle) : ∃ calls : List (Call α),
      log.map Prod.snd = calls.flatMap Call.deeds ∧ s.linked = calls.filterMap Call.linked ∧
        s.returned = calls.filterMap Call.answer ∧
        s.taken = s.returned.filterMap Return.item := by
  obtain ⟨now, hb, calls, hcalls⟩ := h.calls ()
  rw [hidle] at hb
  obtain rfl : now = [] := hb
  have hown : entriesOf () log = log.map Prod.snd := by simp [entriesOf]
  rw [hown, List.append_nil] at hcalls
  have hread : ∀ {β : Type} (g : Deed α → Option β),
      log.filterMap (g ·.2) = (calls.flatMap Call.deeds).filterMap g := by
    intro β g
    rw [← hcalls, List.filterMap_map]
    rfl
  obtain ⟨hl, ht, hr⟩ := history_of_calls calls
  have hret : s.returned = calls.filterMap Call.answer := by rw [h.returned, hread, hr]
  exact ⟨calls, hcalls, by rw [h.linked, hread, hl], hret, by rw [h.taken, hread, ht, hret]⟩

end Loomlib.LinkedQueue
