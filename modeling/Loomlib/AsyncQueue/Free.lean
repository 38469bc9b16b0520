import Loomlib.AsyncQueue.Fifo
import Mathlib.Data.Fintype.Basic

/-!
# AsyncQueue — Free

The heap holds the nodes of the ring and no others. So when
`async_queue_free` finds the queue empty no node is left behind, and where
nobody pushes from its call on it returns only after every item has been
popped.
-/

namespace Loomlib.AsyncQueue

variable {ι α : Type} [DecidableEq ι]

/-! ## The ring is all there is -/

/-- All live nodes are among those of `l`. -/
def Whole (h : Links α) (l : List (Nat × α)) : Prop :=
  ∀ a, h a ≠ none → a ∈ l.map Prod.fst

theorem queuePush_whole {h h' : Links α} {queue q' : Option Nat} {l : List (Nat × α)}
    (hr : Ring h queue l) (hw : Whole h l) {item : α} {new : Nat}
    (hq : queuePush h queue item new = some (h', q')) : Whole h' (l ++ [(new, item)]) := by
  intro a ha
  rw [List.map_append, List.mem_append]
  by_cases hnew : a = new
  · exact .inr (by simp [hnew])
  · refine .inl (hw a ?_)
    cases queue with
    | none =>
      cases hq
      rwa [Function.update_of_ne hnew] at ha
    | some q =>
      obtain ⟨l', x, -, hlast⟩ := hr.hold
      simp only [queuePush, hlast, Option.some.injEq, Prod.mk.injEq] at hq
      obtain ⟨rfl, rfl⟩ := hq
      by_cases hlast' : a = q
      · rw [hlast', hlast]
        exact Option.some_ne_none _
      · rwa [Function.update_of_ne hlast', Function.update_of_ne hnew] at ha

theorem queuePop_whole {h h' : Links α} {queue q' : Option Nat} {l : List (Nat × α)} {rv : Option α}
    (hr : Ring h queue l) (hw : Whole h l) (hq : queuePop h queue = some (h', q', rv)) :
    Whole h' l.tail := by
  cases queue with
  | none =>
    obtain rfl := hr.eq_nil
    cases hq
    exact hw
  | some q =>
    obtain ⟨nd, hnd⟩ : ∃ nd, h q = some nd := by
      obtain ⟨l', x, -, hlast⟩ := hr.hold
      exact ⟨_, hlast⟩
    by_cases hself : nd.prev = q
    · obtain rfl := hr.single hnd hself
      simp only [queuePop, hnd, hself, if_true, Option.some.injEq, Prod.mk.injEq] at hq
      obtain ⟨rfl, -, -⟩ := hq
      intro a ha
      by_cases haq : a = q
      · subst haq
        exact absurd (Function.update_self ..) ha
      · rw [Function.update_of_ne haq] at ha
        exact absurd (hw a ha) (by simpa using haq)
    · obtain ⟨head, rest, rfl, hhead, hr'⟩ := hr.tail hnd hself
      simp only [queuePop, hnd, hself, if_false, hhead, Option.some.injEq, Prod.mk.injEq] at hq
      obtain ⟨rfl, -, -⟩ := hq
      obtain ⟨rest', y, rfl, -⟩ := hr'.hold
      intro a ha
      by_cases haq : a = q
      · simp [haq]
      · rw [Function.update_of_ne haq] at ha
        by_cases hap : a = nd.prev
        · subst hap
          exact absurd (Function.update_self ..) ha
        · rw [Function.update_of_ne hap] at ha
          exact (List.mem_cons.mp (hw a ha)).resolve_left hap

/-- The ring is all the heap holds, and `size` its length. -/
def Kept (s : Queue ι α) : Prop :=
  ∃ l, Ring s.heap s.queue l ∧ s.size = l.length ∧ Whole s.heap l

variable {s s' : Queue ι α} {t : ι}

omit [DecidableEq ι] in
/-- A queue without items holds no node. -/
theorem Kept.empty (h : Kept s) (hsize : s.size = 0) (a : Nat) : s.heap a = none := by
  obtain ⟨l, -, hlen, hw⟩ := h
  obtain rfl := List.length_eq_zero_iff.mp (hlen.symm.trans hsize)
  by_contra ha
  cases hw a ha

theorem Kept.move {x : PC α} (h : Kept s) (hm : Move s t x s') : Kept s' := by
  obtain ⟨l, hr, hsize, hw⟩ := id h
  cases hm with
  | push hnew hq =>
    obtain ⟨h', q', hq', hr'⟩ := queuePush_ring hr _ hnew
    have hw' := queuePush_whole hr hw hq
    obtain ⟨rfl, rfl⟩ := Prod.mk.inj (Option.some.inj (hq.symm.trans hq'))
    exact ⟨_, hr', by simp [Queue.goto, hsize], hw'⟩
  | wait hq | popNone hq =>
    obtain ⟨h', q', hq', hr'⟩ := queuePop_ring hr
    have hw' := queuePop_whole hr hw hq
    simp only [hq, Option.some.injEq, Prod.mk.injEq] at hq'
    obtain ⟨rfl, rfl, hnone⟩ := hq'
    obtain rfl : l = [] := by simpa using hnone.symm
    exact ⟨_, hr', hsize, hw'⟩
  | popItem hq _ =>
    obtain ⟨h', q', hq', hr'⟩ := queuePop_ring hr
    have hw' := queuePop_whole hr hw hq
    simp only [hq, Option.some.injEq, Prod.mk.injEq] at hq'
    obtain ⟨rfl, rfl, -⟩ := hq'
    exact ⟨_, hr', by simp [Queue.goto, hsize], hw'⟩
  | _ => exact h

theorem kept (h : (machine ι α).Reachable s) : Kept s :=
  h.invariant (I := Kept) ⟨[], .nil, rfl, fun _ ha => absurd rfl ha⟩
    fun _ hI hs => hI.move (move_cases hs)

/-! ## async_queue_free -/

/-- In `async_queue_push`. -/
def PC.pushes : PC α → Bool
  | .push _ => true
  | _ => false

/-- In `async_queue_free`. -/
def PC.frees : PC α → Bool
  | .free _ => true
  | _ => false

/-- `async_queue_free` has found the queue empty. -/
def PC.foundEmpty : PC α → Bool
  | .free .release | .free .destroy => true
  | _ => false

omit [DecidableEq ι] in
theorem PC.frees_of_foundEmpty {x : PC α} (hx : x.foundEmpty = true) : x.frees = true := by
  unfold PC.foundEmpty at hx
  split at hx <;> first | rfl | cases hx

/-- `async_queue_free` is called while nobody is in a push, and nobody
pushes any more. -/
def Closes (s : Queue ι α) : Event ι α → Prop
  | .call _ .free => ∀ u, (s.pc u).pushes = false
  | .call _ (.push _) => s.freeing = false
  | _ => True

instance [Fintype ι] (s : Queue ι α) : ∀ e, Decidable (Closes s e)
  | .call _ .free => inferInstanceAs (Decidable (∀ _, _ = _))
  | .call _ (.push _) => inferInstanceAs (Decidable (_ = _))
  | .call _ (.pop _) | .call _ .count | .step _ _ => inferInstanceAs (Decidable True)

/-- From the call of `async_queue_free` on nobody pushes, and from its last
test on the queue is empty. -/
structure Closing (s : Queue ι α) : Prop where
  pushes : s.freeing = true → ¬ ∃ u, (s.pc u).pushes = true
  frees : (∃ u, (s.pc u).frees = true) ∨ s.freed = true → s.freeing = true
  found : (∃ u, (s.pc u).foundEmpty = true) ∨ s.freed = true → s.size = 0

/-- A step that enters no call and does not test the size. -/
theorem Closing.stay (hI : Closing s) {x y : PC α} (hpc : s.pc t = x)
    (hs' : s'.pc = Function.update s.pc t y)
    (hsame : s'.freeing = s.freeing ∧ s'.freed = s.freed ∧ s'.size = s.size)
    (hpushes : (y.pushes && !x.pushes) = false) (hfrees : (y.frees && !x.frees) = false)
    (hfound : (y.foundEmpty && !x.foundEmpty) = false) : Closing s' := by
  obtain ⟨hfreeing, hfreed, hsize⟩ := hsame
  constructor <;> rw [hs'] <;> simp only [hfreeing, hfreed, hsize]
  · exact fun h hp => hI.pushes h (exists_of_update hpc hpushes hp)
  · exact fun h => hI.frees (h.imp_left (exists_of_update hpc hfrees))
  · exact fun h => hI.found (h.imp_left (exists_of_update hpc hfound))

/-- A broadcast. -/
theorem Closing.wake (hI : Closing s) {x y : PC α} {f : PC α → PC α} (hpc : s.pc t = x)
    (hf : ∀ z : PC α, (f z).pushes = z.pushes ∧ (f z).frees = z.frees ∧
      (f z).foundEmpty = z.foundEmpty)
    (hx : f x = x) (hpushes : (y.pushes && !x.pushes) = false)
    (hfrees : (y.frees && !x.frees) = false) (hfound : (y.foundEmpty && !x.foundEmpty) = false) :
    Closing ({ s with pc := fun u => f (s.pc u) }.goto t y) := by
  refine .stay (s := { s with pc := fun u => f (s.pc u) }) ⟨?_, ?_, ?_⟩
    ((congrArg f hpc).trans hx) rfl ⟨rfl, rfl, rfl⟩ hpushes hfrees hfound
  · simpa only [fun z => (hf z).1] using hI.pushes
  · simpa only [fun z => (hf z).2.1] using hI.frees
  · simpa only [fun z => (hf z).2.2] using hI.found

theorem Closing.move (hI : Closing s) {x : PC α} (hpc : s.pc t = x) (hx : x ≠ .idle)
    (hm : Move s t x s') : Closing s' := by
  cases hm with
  | call => exact absurd rfl hx
  | @acquire x y hx =>
    unfold PC.acquires at hx
    split at hx <;> cases hx <;> exact hI.stay hpc rfl ⟨rfl, rfl, rfl⟩ rfl rfl rfl
  | @release x y hx =>
    unfold PC.releases at hx
    split at hx <;> cases hx <;> exact hI.stay hpc rfl ⟨rfl, rfl, rfl⟩ rfl rfl rfl
  | @wakeUp x y hx =>
    unfold PC.sleeps at hx
    split at hx <;> cases hx <;> exact hI.stay hpc rfl ⟨rfl, rfl, rfl⟩ rfl rfl rfl
  | push =>
    -- nobody pushes once the queue is freed
    have hopen : s.freeing = false := by
      by_contra hne
      exact hI.pushes (by simpa using hne) ⟨t, by rw [hpc]; rfl⟩
    refine ⟨fun h => ?_, fun h => ?_, fun h => ?_⟩
    · cases hopen.symm.trans h
    · exact hI.frees (h.imp_left (exists_of_update hpc rfl))
    · obtain ⟨u, hu⟩ | hfreed := h.imp_left (exists_of_update hpc rfl)
      · cases hopen.symm.trans (hI.frees (.inl ⟨u, PC.frees_of_foundEmpty hu⟩))
      · cases hopen.symm.trans (hI.frees (.inr hfreed))
  | popItem _ hne =>
    refine ⟨fun h hp => ?_, fun h => ?_, fun h => ?_⟩
    · exact hI.pushes h (exists_of_update hpc rfl hp)
    · exact hI.frees (h.imp_left (exists_of_update hpc rfl))
    · exact absurd (hI.found (h.imp_left (exists_of_update hpc rfl))) hne
  | broadcast =>
    refine hI.wake hpc ?_ rfl rfl rfl rfl
    intro z
    unfold PC.wakeNonempty
    split <;> exact ⟨rfl, rfl, rfl⟩
  | isEmpty =>
    refine hI.wake hpc ?_ rfl rfl rfl rfl
    intro z
    unfold PC.wakeEmpty
    split <;> exact ⟨rfl, rfl, rfl⟩
  | freeTest =>
    split
    · rename_i hzero
      refine ⟨fun h hp => ?_, fun h => ?_, fun _ => hzero⟩
      · exact hI.pushes h (exists_of_update hpc rfl hp)
      · exact hI.frees (h.imp_left (exists_of_update hpc rfl))
    · exact hI.stay hpc rfl ⟨rfl, rfl, rfl⟩ rfl rfl rfl
  | destroy =>
    have hfound : ∃ u, (s.pc u).foundEmpty = true := ⟨t, by rw [hpc]; rfl⟩
    have hfrees : ∃ u, (s.pc u).frees = true := ⟨t, by rw [hpc]; rfl⟩
    refine ⟨fun h hp => ?_, fun _ => hI.frees (.inl hfrees), fun _ => hI.found (.inl hfound)⟩
    exact hI.pushes h (exists_of_update hpc rfl hp)
  | pushDead | popDead => exact ⟨hI.pushes, hI.frees, hI.found⟩
  | _ => exact hI.stay hpc rfl ⟨rfl, rfl, rfl⟩ rfl rfl rfl

theorem Closing.call {c : Call α} (hI : Closing s) (hidle : s.pc t = .idle)
    (hc : Closes s (.call t c)) :
    Closing ({ s with freeing := s.freeing || c.frees }.goto t c.start) := by
  cases c with
  | push item =>
    have hopen : s.freeing = false := hc
    refine ⟨fun h => ?_, fun h => ?_, fun h => ?_⟩
    · simp [Queue.goto, hopen, Call.frees] at h
    · have hfreeing := hI.frees (h.imp_left (exists_of_update hidle rfl))
      cases hopen.symm.trans hfreeing
    · exact hI.found (h.imp_left (exists_of_update hidle rfl))
  | free =>
    refine ⟨fun _ hp => ?_, fun _ => ?_, fun h => ?_⟩
    · obtain ⟨u, hu⟩ : ∃ u, (s.pc u).pushes = true := exists_of_update hidle rfl hp
      cases (hc u).symm.trans hu
    · exact Bool.or_true _
    · exact hI.found (h.imp_left (exists_of_update hidle rfl))
  | pop | count =>
    exact hI.stay hidle rfl ⟨Bool.or_false _, rfl, rfl⟩ rfl rfl rfl

theorem Closing.step {e : Event ι α} (hI : Closing s) (hc : Closes s e)
    (hs : AsyncQueue.step s e = some s') : Closing s' := by
  cases e with
  | call t c =>
    obtain ⟨hidle, rfl⟩ := call_cases hs
    exact hI.call hidle hc
  | step t ans =>
    refine hI.move rfl ?_ (move_cases hs)
    intro hidle
    simp [AsyncQueue.step, show s.pc t = .idle from hidle] at hs

/-- **Nothing is left behind**: where nobody pushes any more when
`async_queue_free` is called, it returns only once every item has been
popped, and no node is live. -/
theorem free_leaves_nothing {ops : List (Op α)}
    (h : ((machine ι α).traced returns).ReachableBy (fun s e => Closes s.1 e) (s, ops))
    (hfreed : s.freed = true) :
    (∀ a, s.heap a = none) ∧
      (ops ++ s.pending).filterMap Op.popped = (ops ++ s.pending).filterMap Op.pushed := by
  have hclosing : Closing s := by
    refine h.untraced.invariant (I := Closing) ⟨?_, ?_, ?_⟩ ?_
    · intro h
      cases h
    · rintro (⟨u, hu⟩ | hu) <;> cases hu
    · rintro (⟨u, hu⟩ | hu) <;> cases hu
    · exact fun _ hI hc hs => hI.step hc hs
  have hsize := hclosing.found (.inr hfreed)
  refine ⟨(kept h.reachable.untraced).empty hsize, ?_⟩
  obtain ⟨l, hR⟩ := refines h.reachable
  obtain rfl := List.length_eq_zero_iff.mp (hR.size.symm.trans hsize)
  have horder := hR.fifo.order
  rw [List.map_nil, List.append_nil] at horder
  exact horder.symm

/-- Thread 1 frees the queue while an item is in it, and goes to sleep;
thread 0 pops the item, which wakes it. -/
def closingRun : List (Event Bool Nat) :=
  .call false (.push 7) :: .step false none :: .step false (some 5) ::
    List.replicate 2 (.step false none) ++ .call true .free :: List.replicate 3 (.step true none) ++
    .call false (.pop false) :: List.replicate 4 (.step false none) ++
    List.replicate 4 (.step true none)

theorem free_leaves_nothing_slept :
    let s := ((machine Bool Nat).traced returns).final closingRun (by decide)
    s.1.freed = true ∧ s.2 = [.push 7 true, .pop false (some 7)] ∧ ∀ a, s.1.heap a = none :=
  ⟨by decide, by decide, (free_leaves_nothing
    (Machine.reachableBy_final closingRun (by decide) (by decide)) (by decide)).1⟩

end Loomlib.AsyncQueue
