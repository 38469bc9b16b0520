import Loomlib.AsyncQueue.Steps
import Loomlib.Core.History

/-!
# AsyncQueue — Fifo

The calls return what a FIFO queue answers to them, in the order in which
they release the lock, and each call returns once; the ring holds what that
queue holds, from the oldest item to the newest, and `size` is its length.
-/

namespace Loomlib.AsyncQueue

variable {ι α : Type} [DecidableEq ι]

/-! ## The abstract queue -/

/-- A call with what it returned. -/
inductive Op (α : Type) where
  | push (item : α) (rv : Bool)
  | pop (wait : Bool) (rv : Option α)
  | count (rv : Nat)
  deriving DecidableEq, Repr

/-- A FIFO queue answers the calls `ops`, and then holds `q`. -/
inductive Fifo : List (Op α) → List α → Prop where
  | nil : Fifo [] []
  | push {ops q} (item) (h : Fifo ops q) : Fifo (ops ++ [.push item true]) (q ++ [item])
  -- no memory
  | failed {ops q} (item) (h : Fifo ops q) : Fifo (ops ++ [.push item false]) q
  | pop {ops q} (wait) {item} (h : Fifo ops (item :: q)) :
      Fifo (ops ++ [.pop wait (some item)]) q
  | popEmpty {ops} (h : Fifo ops []) : Fifo (ops ++ [.pop false none]) []
  | count {ops q} (h : Fifo ops q) : Fifo (ops ++ [.count q.length]) q

def Op.pushed : Op α → Option α
  | .push item true => some item
  | _ => none

def Op.popped : Op α → Option α
  | .pop _ rv => rv
  | _ => none

/-- **First in, first out**: what was pushed is what was popped and, after
it, what is held. -/
theorem Fifo.order {ops : List (Op α)} {q : List α} (h : Fifo ops q) :
    ops.filterMap Op.pushed = ops.filterMap Op.popped ++ q := by
  induction h with
  | nil => rfl
  | push item _ ih | failed item _ ih => simp [List.filterMap_cons, Op.pushed, Op.popped, ih]
  | pop wait _ ih => simp [List.filterMap_cons, Op.pushed, Op.popped, ih]
  | popEmpty _ ih | count _ ih => simp [List.filterMap_cons, Op.pushed, Op.popped, ih]

/-! ## The ring -/

theorem queuePush_ring {h : Links α} {queue : Option Nat} {l : List (Nat × α)} (hr : Ring h queue l)
    (item : α) {new : Nat} (hnew : h new = none) :
    ∃ h' q', queuePush h queue item new = some (h', q') ∧ Ring h' q' (l ++ [(new, item)]) := by
  cases queue with
  | none =>
    obtain rfl := hr.eq_nil
    exact ⟨_, _, rfl, .singleton item new⟩
  | some q =>
    obtain ⟨l', x, -, hq⟩ := hr.hold
    refine ⟨_, _, ?_, hr.snoc hq hnew item⟩
    simp only [queuePush, hq]

theorem queuePop_ring {h : Links α} {queue : Option Nat} {l : List (Nat × α)}
    (hr : Ring h queue l) :
    ∃ h' q', queuePop h queue = some (h', q', l.head?.map Prod.snd) ∧ Ring h' q' l.tail := by
  cases queue with
  | none =>
    obtain rfl := hr.eq_nil
    exact ⟨_, _, rfl, hr⟩
  | some q =>
    obtain ⟨nd, hq⟩ : ∃ nd, h q = some nd := by
      obtain ⟨l', x, -, hq⟩ := hr.hold
      exact ⟨_, hq⟩
    by_cases hself : nd.prev = q
    · obtain rfl := hr.single hq hself
      refine ⟨Function.update h q none, none, ?_, .nil⟩
      simp only [queuePop, hq, hself, if_true, List.head?_cons, Option.map_some]
    · obtain ⟨head, rest, rfl, hhead, hr'⟩ := hr.tail hq hself
      refine ⟨_, _, ?_, hr'⟩
      simp only [queuePop, hq, hself, if_false, hhead, List.head?_cons, Option.map_some]

/-! ## Runs -/

/-- The call that is past its critical section, with what it will return. -/
def PC.result : PC α → List (Op α)
  | .push (.broadcast item rv) | .push (.release item rv) => [.push item rv]
  | .pop w (.empty rv) | .pop w (.release rv) => [.pop w rv]
  | .count (.release rv) => [.count rv]
  | _ => []

/-- The call that returns at the next step, with what it returns. -/
def PC.returned : PC α → List (Op α)
  | .push (.release item rv) => [.push item rv]
  | .pop w (.release rv) => [.pop w rv]
  | .count (.release rv) => [.count rv]
  | _ => []

/-- The calls that return at a step. -/
def returns (s : Queue ι α) (e : Event ι α) : List (Op α) :=
  (s.pc e.thread).returned

/-- The call that holds the lock past its critical section. -/
def Queue.pending (s : Queue ι α) : List (Op α) :=
  match s.lock with
  | some t => (s.pc t).result
  | none => []

/-- The ring of the nodes `l` holds what a FIFO queue holds after the calls
that have returned and the one that is about to. -/
structure Refines (s : Queue ι α) (ops : List (Op α)) (l : List (Nat × α)) : Prop where
  ring : Ring s.heap s.queue l
  size : s.size = l.length
  fault : s.fault = false
  fifo : Fifo (ops ++ s.pending) (l.map Prod.snd)

section Move

variable {s s' : Queue ι α} {t : ι} {ops : List (Op α)} {l : List (Nat × α)}

omit [DecidableEq ι] in
theorem pending_of_inside (hL : Locked s) (ht : (s.pc t).inside = true) :
    s.pending = (s.pc t).result := by
  simp only [Queue.pending, (hL t).mp ht]

/-- What a thread outside does is not seen. -/
theorem pending_outside {x y : PC α} (hL : Locked s) (hpc : s.pc t = x) (hx : x.inside = false)
    (hlock : s'.lock = s.lock) (hs' : s'.pc = Function.update s.pc t y) :
    s'.pending = s.pending := by
  simp only [Queue.pending, hlock, hs']
  cases hl : s.lock with
  | none => rfl
  | some u =>
    have hu : u ≠ t := by
      rintro rfl
      have := (hL u).mpr hl
      rw [hpc, hx] at this
      cases this
    simp only [Function.update_of_ne hu]

omit [DecidableEq ι] in
/-- A thread inside that stays there. -/
theorem pending_inside {x y : PC α} (hL : Locked s) (hpc : s.pc t = x) (hx : x.inside = true)
    (hlock : s'.lock = s.lock) (ht : s'.pc t = y) : s'.pending = y.result := by
  simp only [Queue.pending, hlock, (hL t).mp (hpc ▸ hx), ht]

omit [DecidableEq ι] in
theorem PC.returned_of_releases {x y : PC α} (hx : x.releases = some y) :
    x.inside = true ∧ x.returned = x.result := by
  unfold PC.releases at hx
  split at hx <;> cases hx <;> exact ⟨rfl, rfl⟩

omit [DecidableEq ι] in
/-- The critical section of a call that has none behind it. -/
theorem Refines.body (hL : Locked s) {x y : PC α} (hpc : s.pc t = x) (ht : s'.pc t = y)
    (hlock : s'.lock = s.lock) (hx : x.inside = true) (hret : x.returned = [])
    (hring : Ring s'.heap s'.queue l) (hsize : s'.size = l.length) (hfault : s'.fault = false)
    (hfifo : Fifo (ops ++ y.result) (l.map Prod.snd)) : Refines s' (ops ++ x.returned) l := by
  refine ⟨hring, hsize, hfault, ?_⟩
  rwa [pending_inside hL hpc hx hlock ht, hret, List.append_nil]

omit [DecidableEq ι] in
/-- A thread inside that does nothing to the ring and no call's result. -/
theorem Refines.inside (hI : Refines s ops l) (hL : Locked s) {x y : PC α} (hpc : s.pc t = x)
    (ht : s'.pc t = y) (hlock : s'.lock = s.lock) (hx : x.inside = true) (hret : x.returned = [])
    (hres : y.result = x.result)
    (hring : s'.heap = s.heap ∧ s'.queue = s.queue ∧ s'.size = s.size ∧ s'.fault = s.fault) :
    Refines s' (ops ++ x.returned) l := by
  obtain ⟨hh, hq, hs, hf⟩ := hring
  refine .body hL hpc ht hlock hx hret (hh ▸ hq ▸ hI.ring) (hs.trans hI.size) (hf.trans hI.fault) ?_
  have hfifo := hI.fifo
  rwa [pending_of_inside hL (hpc ▸ hx), hpc, ← hres] at hfifo

/-- A thread outside. -/
theorem Refines.outside (hI : Refines s ops l) (hL : Locked s) {x y : PC α} (hpc : s.pc t = x)
    (hx : x.inside = false) (hret : x.returned = [])
    (hring : s'.heap = s.heap ∧ s'.queue = s.queue ∧ s'.size = s.size ∧ s'.fault = s.fault)
    (hlock : s'.lock = s.lock) (hs' : s'.pc = Function.update s.pc t y) :
    Refines s' (ops ++ x.returned) l := by
  obtain ⟨hh, hq, hs, hf⟩ := hring
  refine ⟨hh ▸ hq ▸ hI.ring, hs.trans hI.size, hf.trans hI.fault, ?_⟩
  rw [pending_outside hL hpc hx hlock hs', hret, List.append_nil]
  exact hI.fifo

/-- **Each step refines the FIFO queue.** -/
theorem Refines.move (hI : Refines s ops l) (hL : Locked s) {x : PC α} (hpc : s.pc t = x)
    (hm : Move s t x s') : ∃ l', Refines s' (ops ++ x.returned) l' := by
  obtain ⟨hring, hsize, hfault, hfifo⟩ := id hI
  -- the call of a thread that is inside and has done nothing yet
  have hstart : x.inside = true → x.result = [] → Fifo ops (l.map Prod.snd) := by
    intro hx hres
    rwa [pending_of_inside hL (hpc ▸ hx), hpc, hres, List.append_nil] at hfifo
  cases hm with
  | call => exact ⟨l, hI.outside hL hpc rfl rfl ⟨rfl, rfl, rfl, rfl⟩ rfl rfl⟩
  | @acquire x y hx hl =>
    refine ⟨l, hring, hsize, hfault, ?_⟩
    have hnone : x.returned = [] ∧ y.result = [] := by
      unfold PC.acquires at hx
      split at hx <;> cases hx <;> exact ⟨rfl, rfl⟩
    simp only [Queue.pending, hl] at hfifo
    simpa [Queue.pending, Queue.goto, hnone] using hfifo
  | @release x y hx =>
    obtain ⟨hin, hret⟩ := PC.returned_of_releases hx
    refine ⟨l, hring, hsize, hfault, ?_⟩
    rw [pending_of_inside hL (hpc ▸ hin), hpc] at hfifo
    simpa [Queue.pending, Queue.release, Queue.goto, hret] using hfifo
  | @wakeUp x y hx =>
    have hout : x.inside = false ∧ x.returned = [] := by
      unfold PC.sleeps at hx
      split at hx <;> cases hx <;> exact ⟨rfl, rfl⟩
    exact ⟨l, hI.outside hL hpc hout.1 hout.2 ⟨rfl, rfl, rfl, rfl⟩ rfl rfl⟩
  | @failed item =>
    exact ⟨l, .body hL hpc (Function.update_self ..) rfl rfl rfl hring hsize hfault
      (by simpa [PC.result] using (hstart rfl rfl).failed item)⟩
  | @push item new h q hnew hq =>
    obtain ⟨h', q', hq', hring'⟩ := queuePush_ring hring item hnew
    obtain ⟨rfl, rfl⟩ : h = h' ∧ q = q' := by simpa using hq.symm.trans hq'
    exact ⟨l ++ [(new, item)], .body hL hpc (Function.update_self ..) rfl rfl rfl hring'
      (by simp [Queue.goto, hsize]) hfault (by simpa [PC.result] using (hstart rfl rfl).push item)⟩
  | broadcast =>
    exact ⟨l, hI.inside hL hpc (Function.update_self ..) rfl rfl rfl rfl ⟨rfl, rfl, rfl, rfl⟩⟩
  | @wait h q hq =>
    obtain ⟨h', q', hq', hring'⟩ := queuePop_ring hring
    obtain ⟨rfl, rfl, hnone⟩ : h = h' ∧ q = q' ∧ none = l.head?.map Prod.snd := by
      simpa using hq.symm.trans hq'
    obtain rfl : l = [] := by simpa using hnone.symm
    exact ⟨[], .body hL hpc (Function.update_self ..) rfl rfl rfl hring' hsize hfault
      (by simpa [PC.result] using hstart rfl rfl)⟩
  | @popNone h q hq =>
    obtain ⟨h', q', hq', hring'⟩ := queuePop_ring hring
    obtain ⟨rfl, rfl, hnone⟩ : h = h' ∧ q = q' ∧ none = l.head?.map Prod.snd := by
      simpa using hq.symm.trans hq'
    obtain rfl : l = [] := by simpa using hnone.symm
    exact ⟨[], .body hL hpc (Function.update_self ..) rfl rfl rfl hring' hsize hfault
      (by simpa [PC.result] using (hstart rfl rfl).popEmpty)⟩
  | @popItem w h q item hq hne =>
    obtain ⟨h', q', hq', hring'⟩ := queuePop_ring hring
    obtain ⟨rfl, rfl, hhead⟩ : h = h' ∧ q = q' ∧ some item = l.head?.map Prod.snd := by
      simpa using hq.symm.trans hq'
    obtain ⟨⟨a, item⟩, hfirst, rfl⟩ := Option.map_eq_some_iff.mp hhead.symm
    obtain ⟨l', rfl⟩ := List.head?_eq_some_iff.mp hfirst
    exact ⟨l', .body hL hpc (Function.update_self ..) rfl rfl rfl hring'
      (by simp [Queue.goto, hsize]) hfault (by simpa [PC.result] using (hstart rfl rfl).pop w)⟩
  | isEmpty | notEmpty =>
    exact ⟨l, hI.inside hL hpc (Function.update_self ..) rfl rfl rfl rfl ⟨rfl, rfl, rfl, rfl⟩⟩
  | count =>
    exact ⟨l, .body hL hpc (Function.update_self ..) rfl rfl rfl hring hsize hfault
      (by simpa [PC.result, hsize] using (hstart rfl rfl).count)⟩
  | freeTest =>
    refine ⟨l, hI.inside hL hpc (Function.update_self ..) rfl rfl rfl ?_ ⟨rfl, rfl, rfl, rfl⟩⟩
    split <;> rfl
  | destroy => exact ⟨l, hI.outside hL hpc rfl rfl ⟨rfl, rfl, rfl, rfl⟩ rfl rfl⟩
  | @pushDead item new hnew hq =>
    obtain ⟨h', q', hq', -⟩ := queuePush_ring hring item hnew
    cases hq.symm.trans hq'
  | popDead hq =>
    obtain ⟨h', q', hq', -⟩ := queuePop_ring hring
    rcases hq with hq | ⟨⟨h, q, item, hq⟩, hzero⟩
    · cases hq.symm.trans hq'
    · -- an item is there, so the size is not 0
      rw [hsize] at hzero
      obtain rfl := List.length_eq_zero_iff.mp hzero
      simp [hq] at hq'

end Move

theorem refines {s : Queue ι α} {ops : List (Op α)}
    (h : ((machine ι α).traced returns).Reachable (s, ops)) : ∃ l, Refines s ops l := by
  refine h.invariant (I := fun so => ∃ l, Refines so.1 so.2 l) ⟨[], .nil, rfl, rfl, .nil⟩ ?_
  rintro s e t hr ⟨l, hI⟩ hs
  obtain ⟨hs, hops⟩ := Machine.traced_step hs
  rw [hops]
  exact hI.move (locked hr.untraced) rfl (move_cases hs)

/-- No step reads through a dead address. -/
theorem fault_free {s : Queue ι α} (h : (machine ι α).Reachable s) : s.fault = false := by
  obtain ⟨ops, hops⟩ : ∃ ops, ((machine ι α).traced returns).Reachable (s, ops) :=
    Machine.ReachableBy.traced h returns
  obtain ⟨l, hR⟩ := refines hops
  exact hR.fault

/-! ## The calls of the threads -/

/-- What a thread enters: that it calls, and what the call returned. -/
inductive Entry (α : Type) where
  | call (c : Call α)
  | answer (op : Op α)
  deriving DecidableEq, Repr

def Op.call : Op α → Call α
  | .push item _ => .push item
  | .pop w _ => .pop w
  | .count _ => .count

/-- What a whole call enters; `async_queue_free` returns nothing. -/
def wholeCall : Option (Op α) → List (Entry α)
  | some op => [.call op.call, .answer op]
  | none => [.call .free]

/-- What a thread enters at an event. -/
def entries (s : Queue ι α) : Event ι α → List (ι × Entry α)
  | .call t c => [(t, .call c)]
  | .step t _ => ((s.pc t).returned.map Entry.answer).map (Prod.mk t)

def Entry.answered : Entry α → Option (Op α)
  | .call _ => none
  | .answer op => some op

/-- What the call at a control point has entered. -/
def PC.begun : PC α → List (Entry α)
  | .idle => []
  | .push (.acquire item) | .push (.body item) | .push (.broadcast item _)
  | .push (.release item _) => [.call (.push item)]
  | .pop w _ => [.call (.pop w)]
  | .count _ => [.call .count]
  | .free _ => [.call .free]

section Calls

variable {s s' : Queue ι α} {t : ι}

/-- A thread that does not move is woken at most. -/
theorem begun_other {x : PC α} (hm : Move s t x s') {u : ι} (hu : u ≠ t) :
    (s'.pc u).begun = (s.pc u).begun := by
  cases hm with
  | broadcast =>
    simp only [Queue.goto, Function.update_of_ne hu]
    generalize s.pc u = x
    unfold PC.wakeNonempty
    split <;> rfl
  | isEmpty =>
    simp only [Queue.goto, Function.update_of_ne hu]
    generalize s.pc u = x
    unfold PC.wakeEmpty
    split <;> rfl
  | pushDead | popDead => rfl
  | _ => simp [Queue.goto, Queue.release, hu]

/-- A step that does not return leaves the call where it is, and the one
that returns enters what it returns. -/
theorem calls_move {x : PC α} (hpc : s.pc t = x) (hm : Move s t x s') (hx : x ≠ .idle)
    {ds : List (Entry α)} (hc : Calls wholeCall ds x.begun) :
    Calls wholeCall (ds ++ x.returned.map Entry.answer) (s'.pc t).begun := by
  have hstay : ∀ {y : PC α}, s'.pc t = y → x.returned = [] → y.begun = x.begun →
      Calls wholeCall (ds ++ x.returned.map Entry.answer) (s'.pc t).begun := by
    intro y hy hret hbegun
    rw [hy, hret, hbegun]
    simpa using hc
  cases hm with
  | call => exact absurd rfl hx
  | @acquire x y hx =>
    have hsame : x.returned = [] ∧ y.begun = x.begun := by
      unfold PC.acquires at hx
      split at hx <;> cases hx <;> exact ⟨rfl, rfl⟩
    exact hstay (Function.update_self ..) hsame.1 hsame.2
  | @wakeUp x y hx =>
    have hsame : x.returned = [] ∧ y.begun = x.begun := by
      unfold PC.sleeps at hx
      split at hx <;> cases hx <;> exact ⟨rfl, rfl⟩
    exact hstay (Function.update_self ..) hsame.1 hsame.2
  | @release x y hx =>
    have hy : (s.release t y).pc t = y := Function.update_self ..
    by_cases hidle : y = .idle
    · -- the call returns
      obtain ⟨op, hbegun, hret⟩ : ∃ op : Op α, x.begun = [.call op.call] ∧ x.returned = [op] := by
        unfold PC.releases at hx
        split at hx <;> cases hx <;> first | exact ⟨_, rfl, rfl⟩ | cases hidle
      rw [hy, hidle, hret]
      rw [hbegun] at hc
      exact (hc.more [.answer op]).done (c := some op) rfl
    · have hsame : x.returned = [] ∧ y.begun = x.begun := by
        unfold PC.releases at hx
        split at hx <;> cases hx <;> first | exact ⟨rfl, rfl⟩ | exact absurd rfl hidle
      exact hstay hy hsame.1 hsame.2
  | freeTest => exact hstay (Function.update_self ..) rfl (by split <;> rfl)
  | destroy =>
    simp only [Queue.goto, Function.update_self, PC.returned, List.map_nil, List.append_nil]
    exact hc.done (c := none) rfl
  | pushDead | popDead => exact hstay hpc rfl rfl
  | _ => exact hstay (Function.update_self ..) rfl rfl

/-- **Each call of each thread returns once**, with an answer to what it
was called with. -/
theorem calls {log : List (ι × Entry α)} (h : ((machine ι α).traced entries).Reachable (s, log)) :
    ∀ t, Calls wholeCall (entriesOf t log) (s.pc t).begun := by
  refine h.invariant (I := fun sl => ∀ t, Calls wholeCall (entriesOf t sl.2) (sl.1.pc t).begun)
    (fun t => .nil) ?_
  rintro s e s' - hI hs t
  obtain ⟨hs, hlog⟩ := Machine.traced_step hs
  have hm := move_cases hs
  rw [hlog, entriesOf_append]
  cases e with
  | call u c =>
    obtain ⟨hidle, hs'⟩ := call_cases hs
    have hone : entries s.1 (.call u c) = [Entry.call c].map (Prod.mk u) := rfl
    rw [hone]
    by_cases hu : t = u
    · subst hu
      have hbegin := hI t
      rw [hidle] at hbegin
      have hpc : s'.1.pc t = c.start := by rw [hs']; exact Function.update_self ..
      have hstart : c.start.begun = [.call c] := by cases c <;> rfl
      rw [entriesOf_own, hpc, hstart]
      exact hbegin.more [.call c]
    · rw [entriesOf_other hu, List.append_nil, begun_other hm hu]
      exact hI t
  | step u ans =>
    have hbusy : s.1.pc u ≠ .idle := by
      intro hidle
      have hnone : step s.1 (.step u ans) = none := by simp [step, hidle]
      cases hnone.symm.trans hs
    simp only [entries]
    by_cases hu : t = u
    · subst hu
      rw [entriesOf_own]
      exact calls_move rfl hm hbusy (hI t)
    · rw [entriesOf_other hu, List.append_nil, begun_other hm hu]
      exact hI t

/-- The answers are what the calls return. -/
theorem answers {log : List (ι × Entry α)}
    (h : ((machine ι α).traced entries).Reachable (s, log)) :
    ((machine ι α).traced returns).Reachable (s, log.filterMap (Entry.answered ·.2)) := by
  refine Machine.Reachable.observe (g := (Entry.answered ·.2)) ?_ h
  intro s e s' hs
  cases e with
  | call t c =>
    have hidle := (call_cases hs).1
    simp only [returns, Event.thread, hidle]
    rfl
  | step t ans =>
    simp only [returns, Event.thread, entries, List.filterMap_map]
    exact (List.filterMap_some ..).symm

end Calls

/-- The queue refines a FIFO queue, with what its threads have entered. -/
structure RefinesFifo (s : Queue ι α) (log : List (ι × Entry α)) : Prop where
  /-- each call has returned once, or is under way -/
  calls : ∀ t, Calls wholeCall (entriesOf t log) (s.pc t).begun
  /-- The ring is one cycle through the nodes of what was pushed and not
  popped, from the oldest to the newest, and `size` their number; each call
  returns what a FIFO queue answers. -/
  held : ∃ l, Refines s (log.filterMap (Entry.answered ·.2)) l ∧
    (log.filterMap (Entry.answered ·.2) ++ s.pending).filterMap Op.pushed
      = (log.filterMap (Entry.answered ·.2) ++ s.pending).filterMap Op.popped ++ l.map Prod.snd
  /-- a push that gets memory succeeds -/
  granted : ∀ t item a s', s.pc t = .push (.body item) → step s (.step t (some a)) = some s' →
    s'.pc t = .push (.broadcast item true) ∧ s'.size = s.size + 1
  /-- one that gets none changes neither ring nor size -/
  failed : ∀ t item s', s.pc t = .push (.body item) → step s (.step t none) = some s' →
    s'.pc t = .push (.broadcast item false) ∧ s'.queue = s.queue ∧ s'.heap = s.heap ∧
      s'.size = s.size

/-- **The queue refines a FIFO queue** in every interleaving of any number
of pushes, pops and counts. -/
theorem refines_fifo {s : Queue ι α} {log : List (ι × Entry α)}
    (h : ((machine ι α).traced entries).Reachable (s, log)) : RefinesFifo s log := by
  obtain ⟨l, hI⟩ := refines (answers h)
  refine ⟨AsyncQueue.calls h, ⟨l, hI, hI.fifo.order⟩, fun t item a s' hpc hs => ?_,
    fun t item s' hpc hs => ?_⟩
  · simp only [step, hpc, Queue.asyncQueuePush] at hs
    split at hs
    · cases hs
    · split at hs
      · rename_i hnew
        obtain ⟨h', q', hq, -⟩ := queuePush_ring hI.ring item (Option.isNone_iff_eq_none.mp hnew)
        rw [hq] at hs
        cases hs
        exact ⟨Function.update_self .., rfl⟩
      · cases hs
  · simp only [step, hpc, Queue.asyncQueuePush] at hs
    split at hs
    · cases hs
    · cases hs
      exact ⟨Function.update_self .., rfl, rfl, rfl⟩

/-- Thread 0 waits for an item and is woken by the first push of thread 1,
whose second push gets no memory. -/
def wokenRun : List (Event Bool Nat) :=
  .call false (.pop true) :: List.replicate 3 (.step false none) ++ .call true (.push 7) ::
    .step true none :: .step true (some 5) :: List.replicate 2 (.step true none) ++
    .call true (.push 8) :: List.replicate 4 (.step true none) ++
    List.replicate 4 (.step false none)

/-- Then thread 1 pushes 9 and counts, and thread 0 pops twice without
waiting. -/
def answeredRun : List (Event Bool Nat) :=
  wokenRun ++ .call true (.push 9) :: .step true none :: .step true (some 5) ::
    List.replicate 2 (.step true none) ++ .call true .count :: List.replicate 3 (.step true none) ++
    .call false (.pop false) :: List.replicate 4 (.step false none) ++
    .call false (.pop false) :: List.replicate 4 (.step false none)

theorem refines_fifo_answered :
    let s := ((machine Bool Nat).traced entries).final answeredRun (by decide)
    s.2.filterMap (Entry.answered ·.2) = [.push 7 true, .push 8 false, .pop true (some 7),
      .push 9 true, .count 1, .pop false (some 9), .pop false none] ∧ RefinesFifo s.1 s.2 :=
  ⟨by decide, refines_fifo (((machine Bool Nat).traced entries).reachable_final answeredRun
    (by decide))⟩

end Loomlib.AsyncQueue
