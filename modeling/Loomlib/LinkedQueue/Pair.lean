import Loomlib.Core.History
import Loomlib.LinkedQueue.Fifo

/-!
# LinkedQueue — Pair

`alpha_queue` takes no lock. With one thread that pushes and one that pops
each end has only one thread inside, which is all the shape of the list
asks for: the one writes `tail` and the nodes, the other writes `head` and
frees what is behind it.
-/

namespace Loomlib.LinkedQueue

variable {ι α : Type} [DecidableEq ι] {fl : Flavour} {s s' : Queue ι α} {t p c : ι}

/-- Its next step calls `calloc`. -/
def PC.allocates : PC α → Bool
  | .push (.alloc _) => true
  | _ => false

theorem PC.alloc_of_allocates {x : PC α} (hx : x.allocates = true) :
    ∃ item, x = .push (.alloc item) := by
  unfold allocates at hx
  split at hx
  · exact ⟨_, rfl⟩
  · cases hx

/-- Thread `p` pushes, thread `c` pops, and `calloc` answers. -/
def Pair (p c : ι) (s : Queue ι α) : Event ι α → Prop
  | .push t _ => t = p
  | .pop t _ => t = c
  | .step t ans => (s.pc t).allocates = true → ans ≠ none

instance (s : Queue ι α) : ∀ e, Decidable (Pair p c s e)
  | .push t _ => inferInstanceAs (Decidable (t = p))
  | .pop t _ => inferInstanceAs (Decidable (t = c))
  | .step t ans => inferInstanceAs (Decidable ((s.pc t).allocates = true → ans ≠ none))

/-- The items that are pushed. -/
def pushes (_ : Queue ι α) : Event ι α → List (Option α)
  | .push _ item => [item]
  | _ => []

def PC.isPush : PC α → Bool
  | .push _ => true
  | _ => false

def PC.isPop : PC α → Bool
  | .pop _ _ => true
  | _ => false

/-- The item of a push that is not linked. -/
def PC.unlinked : PC α → List (Option α)
  | .push (.alloc item) | .push (.setItem item _) | .push (.acquire item _)
  | .push (.readTail item _) | .push (.setNext item _ _) => [item]
  | _ => []

/-- The item of a pop that has taken it and not returned. -/
def PC.unreturned : PC α → List (Option α)
  | .pop _ (.release item _) | .pop _ (.free item _) => [item]
  | _ => []

/-- What the two threads have done. -/
structure Roles (p c : ι) (s : Queue ι α) (pushed : List (Option α)) : Prop where
  push : ∀ t, (s.pc t).isPush = true → t = p
  pop : ∀ t, (s.pc t).isPop = true → t = c
  pushed : pushed = s.linked ++ (s.pc p).unlinked
  taken : s.taken = s.returned.filterMap Return.item ++ (s.pc c).unreturned

namespace Roles

variable {pushed pushed' : List (Option α)} {x y : PC α}

/-- A step of one thread within its role. -/
theorem update (hI : Roles p c s pushed) (hpc : s.pc t = x)
    (hs' : s'.pc = Function.update s.pc t y)
    (hpush : y.isPush = true → t = p) (hpop : y.isPop = true → t = c)
    (hlinked : pushed = s.linked ++ x.unlinked → pushed' = s'.linked ++ y.unlinked)
    (hlinked' : t ≠ p → pushed' = pushed ∧ s'.linked = s.linked)
    (htaken : s.taken = s.returned.filterMap Return.item ++ x.unreturned →
      s'.taken = s'.returned.filterMap Return.item ++ y.unreturned)
    (htaken' : t ≠ c → s'.taken = s.taken ∧ s'.returned = s.returned) :
    Roles p c s' pushed' := by
  subst hpc
  have hother : ∀ u, u ≠ t → s'.pc u = s.pc u := fun u hu => hs' ▸ Function.update_of_ne hu _ _
  have hself : s'.pc t = y := hs' ▸ Function.update_self ..
  constructor
  · intro u hu
    by_cases hut : u = t
    · subst hut
      exact hpush (hself ▸ hu)
    · exact hI.push u (hother u hut ▸ hu)
  · intro u hu
    by_cases hut : u = t
    · subst hut
      exact hpop (hself ▸ hu)
    · exact hI.pop u (hother u hut ▸ hu)
  · by_cases hpt : p = t
    · subst hpt
      rw [hself]
      exact hlinked hI.pushed
    · obtain ⟨hp, hl⟩ := hlinked' (Ne.symm hpt)
      rw [hother p hpt, hp, hl, hI.pushed]
  · by_cases hct : c = t
    · subst hct
      rw [hself]
      exact htaken hI.taken
    · obtain ⟨ht, hr⟩ := htaken' (Ne.symm hct)
      rw [hother c hct, ht, hr, hI.taken]

/-- A step that moves no item. -/
theorem stay (hI : Roles p c s pushed) (hpc : s.pc t = x) (hs' : s'.pc = Function.update s.pc t y)
    (hsame : s'.linked = s.linked ∧ s'.taken = s.taken ∧ s'.returned = s.returned)
    (hpush : y.isPush = true → t = p) (hpop : y.isPop = true → t = c)
    (hitem : y.unlinked = x.unlinked ∧ y.unreturned = x.unreturned) : Roles p c s' pushed := by
  obtain ⟨hl, ht, hr⟩ := hsame
  refine hI.update hpc hs' hpush hpop ?_ (fun _ => ⟨rfl, hl⟩) ?_ (fun _ => ⟨ht, hr⟩)
  · rw [hl, hitem.1]
    exact id
  · rw [ht, hr, hitem.2]
    exact id

omit [DecidableEq ι] in
theorem wake (hI : Roles p c s pushed) :
    Roles p c { s with pc := fun u => (s.pc u).wake } pushed := by
  have hwake : ∀ z : PC α, z.wake.isPush = z.isPush ∧ z.wake.isPop = z.isPop ∧
      z.wake.unlinked = z.unlinked ∧ z.wake.unreturned = z.unreturned := by
    intro z
    unfold PC.wake
    split <;> exact ⟨rfl, rfl, rfl, rfl⟩
  exact ⟨fun u hu => hI.push u ((hwake _).1 ▸ hu), fun u hu => hI.pop u ((hwake _).2.1 ▸ hu),
    (hwake _).2.2.1.symm ▸ hI.pushed, (hwake _).2.2.2.symm ▸ hI.taken⟩

theorem move (hI : Roles p c s pushed) (hpc : s.pc t = x) (hm : Move fl s t x s')
    (hx : x ≠ .idle) (halloc : x.allocates = true → s'.pc t ≠ .idle) : Roles p c s' pushed := by
  have hpush : x.isPush = true → t = p := hpc ▸ hI.push t
  have hpop : x.isPop = true → t = c := hpc ▸ hI.pop t
  cases hm with
  | dead | noNext => exact ⟨hI.push, hI.pop, hI.pushed, hI.taken⟩
  | callPush | callPop | callPopAlpha => exact absurd rfl hx
  | failed => exact absurd (Function.update_self ..) (halloc rfl)
  | setItem | setItemAlpha =>
    exact hI.stay hpc (congrArg (Function.update · t _) (s.store_pc ..))
      ⟨s.store_linked .., s.store_taken .., s.store_returned ..⟩ hpush hpop ⟨rfl, rfl⟩
  | setNext =>
    refine hI.update hpc (congrArg (Function.update · t _) (s.store_pc ..)) hpush hpop ?_
      (fun hne => absurd (hpush rfl) hne) ?_ ?_
    · simp [Queue.goto, PC.unlinked]
    · simp [Queue.goto, PC.unreturned]
    · simp [Queue.goto]
  | broadcast =>
    have hwake : (s.pc t).wake = .push .broadcast := by rw [hpc]; rfl
    exact hI.wake.stay hwake rfl ⟨rfl, rfl, rfl⟩ unflagged unflagged ⟨rfl, rfl⟩
  | setTailAlpha | unlockTailBeta =>
    exact hI.stay hpc rfl ⟨rfl, rfl, rfl⟩ unflagged unflagged ⟨rfl, rfl⟩
  | giveUp | giveUpAlpha =>
    refine hI.update hpc rfl unflagged unflagged id (fun _ => ⟨rfl, rfl⟩) ?_
      (fun hne => absurd (hpop rfl) hne)
    simp [Queue.goto, PC.unreturned]
  | setHead | setHeadAlpha =>
    refine hI.update hpc rfl hpush hpop id (fun _ => ⟨rfl, rfl⟩) ?_
      (fun hne => absurd (hpop rfl) hne)
    simp [Queue.goto, PC.unreturned]
  | free =>
    refine hI.update hpc rfl unflagged unflagged id (fun _ => ⟨rfl, rfl⟩) ?_
      (fun hne => absurd (hpop rfl) hne)
    simp [Queue.goto, PC.unreturned]
  | _ => exact hI.stay hpc rfl ⟨rfl, rfl, rfl⟩ hpush hpop ⟨rfl, rfl⟩

/-- **Each thread keeps to its role.** -/
theorem step (hI : Roles p c s pushed) {e : Event ι α} (hc : Pair p c s e)
    (hs : LinkedQueue.step alphaQueue s e = some s') : Roles p c s' (pushed ++ pushes s e) := by
  cases e with
  | push u item =>
    obtain rfl : u = p := hc
    simp only [LinkedQueue.step] at hs
    split at hs
    · rename_i hpc
      cases hs
      refine hI.update hpc rfl (fun _ => rfl) unflagged ?_ (fun hne => absurd rfl hne) id
        (fun _ => ⟨rfl, rfl⟩)
      rintro rfl
      simp [Queue.goto, PC.unlinked, pushes]
    · cases hs
  | pop u w =>
    obtain rfl : u = c := hc
    simp only [LinkedQueue.step] at hs
    split at hs
    · rename_i hpc
      split at hs
      · cases hs
      · cases hs
        simp only [pushes, List.append_nil]
        exact hI.stay hpc rfl ⟨rfl, rfl, rfl⟩ unflagged (fun _ => rfl) ⟨rfl, rfl⟩
    · cases hs
  | step u ans =>
    simp only [pushes, List.append_nil]
    refine hI.move rfl (move_cases hs) ?_ ?_
    · intro hidle
      simp [LinkedQueue.step, show s.pc u = .idle from hidle] at hs
    · intro halloc hidle
      -- `calloc` has answered
      obtain ⟨a, rfl⟩ := Option.ne_none_iff_exists'.mp (hc halloc)
      obtain ⟨item, hpc⟩ := PC.alloc_of_allocates halloc
      have hpc : s.pc u = .push (.alloc item) := hpc
      simp only [LinkedQueue.step, hpc, Queue.queuePush] at hs
      split at hs
      · cases hs
        simp [Queue.goto, Event.thread] at hidle
      · cases hs

end Roles

omit [DecidableEq ι] in
/-- With the roles kept no two threads are inside the same end. -/
theorem Roles.exclusive {pushed : List (Option α)} (hI : Roles p c s pushed) : Exclusive s := by
  have htail : ∀ x : PC α, x.inTail = true → x.isPush = true := by
    intro x hx
    unfold PC.inTail at hx
    split at hx <;> first | rfl | cases hx
  have hhead : ∀ x : PC α, x.inHead = true → x.isPop = true := by
    intro x hx
    unfold PC.inHead at hx
    split at hx <;> first | rfl | cases hx
  exact ⟨fun t u ht hu => (hI.push t (htail _ ht)).trans (hI.push u (htail _ hu)).symm,
    fun t u ht hu => (hI.pop t (hhead _ ht)).trans (hI.pop u (hhead _ hu)).symm⟩

/-- A pair of threads on an `alpha_queue`, with the items pushed. -/
abbrev pairMachine (ι α : Type) [DecidableEq ι] :=
  (machine ι α alphaQueue).traced pushes

theorem pair_shape {pushed : List (Option α)}
    (h : (pairMachine ι α).ReachableBy (fun s e => Pair p c s.1 e) (s, pushed)) :
    Roles p c s pushed ∧ ∃ x rest, Shape s x rest := by
  have hnew : Roles p c (queueNew : Queue ι α) [] :=
    ⟨fun _ hu => (by cases hu), fun _ hu => (by cases hu), rfl, rfl⟩
  refine h.invariant (I := fun sp => Roles p c sp.1 sp.2 ∧ ∃ x rest, Shape sp.1 x rest)
    ⟨hnew, none, [], .new⟩ ?_
  rintro s e s' - ⟨hR, x, rest, hS⟩ hc hs
  obtain ⟨hs, hp⟩ := Machine.traced_step hs
  exact ⟨hp ▸ hR.step hc hs, hS.step hR.exclusive hs⟩

/-! ## What each end writes -/

/-- A push leaves `head` alone. -/
theorem head_of_push {x : PC α} (hm : Move fl s t x s') (hx : x.isPop = false) :
    s'.head = s.head := by
  cases hm with
  | setItem | setItemAlpha | setNext => exact s.store_head ..
  | setHead | setHeadAlpha => cases hx
  | _ => rfl

/-- A pop leaves `tail` and the nodes alone, and frees some. -/
theorem tail_of_pop {x : PC α} (hm : Move fl s t x s') (hx : x.isPush = false) :
    s'.tail = s.tail ∧ ∀ a, s'.heap a = none ∨ s'.heap a = s.heap a := by
  cases hm with
  | @free w item temp =>
    refine ⟨rfl, fun a => ?_⟩
    by_cases ha : a = temp
    · subst ha
      exact .inl (Function.update_self ..)
    · exact .inr (Function.update_of_ne ha _ _)
  | alloc | setItem | setItemAlpha | setNext | setTail | setTailAlpha => cases hx
  | _ => exact ⟨rfl, fun _ => .inr rfl⟩

/-- **One producer and one consumer need no lock.** The successful pops
return, in order, a prefix of what was pushed; a pop gives up only if its
test of `head->next` finds that all that was linked has been returned; only
the consumer writes `head`, only the producer writes `tail` and the nodes;
and no step goes through a freed node. -/
theorem one_producer_one_consumer {pushed : List (Option α)}
    (h : (pairMachine ι α).ReachableBy (fun s e => Pair p c s.1 e) (s, pushed)) :
    s.returned.filterMap Return.item <+: pushed ∧
    (∀ t w q ans s', s.pc t = .pop w q → step alphaQueue s (.step t ans) = some s' →
      s'.pc t = .pop w .releaseEmpty →
        (∃ hd, q = .testNext hd) ∧ s.returned.filterMap Return.item = s.linked) ∧
    (∀ e s' w, step alphaQueue s e = some s' → s'.returned = s.returned ++ [⟨w, none⟩] →
      ∃ t, s.pc t = .pop w .releaseEmpty) ∧
    (∀ e s', step alphaQueue s e = some s' →
      (e.thread ≠ c → s'.head = s.head) ∧
      (e.thread ≠ p → s'.tail = s.tail ∧ ∀ a, s'.heap a = none ∨ s'.heap a = s.heap a)) ∧
    s.fault = false := by
  obtain ⟨hR, x, rest, hS⟩ := pair_shape h
  refine ⟨?_, ?_, fun e s' w hs hr => ⟨_, empty_report (move_cases hs) hr⟩, ?_, hS.sound⟩
  · refine List.IsPrefix.trans ⟨(s.pc c).unreturned, hR.taken.symm⟩ ?_
    exact List.IsPrefix.trans ⟨_, hS.linked.symm⟩ ⟨_, hR.pushed.symm⟩
  · intro t w q ans s' hpc hs hout
    have hm := move_cases hs
    rw [Event.thread, hpc] at hm
    obtain ⟨⟨hd, rfl⟩, hall⟩ := empty_at_test hS hpc hm hout
    refine ⟨⟨hd, rfl⟩, ?_⟩
    -- the consumer is at its test, so it has returned what it has taken
    obtain rfl := hR.pop t (by rw [hpc]; rfl)
    have htaken := hR.taken
    rw [hpc, hall] at htaken
    simpa [PC.unreturned] using htaken.symm
  · intro e s' hs
    have hm := move_cases hs
    refine ⟨fun hne => head_of_push hm ?_, fun hne => tail_of_pop hm ?_⟩
    · by_contra hpop
      exact hne (hR.pop _ (by simpa using hpop))
    · by_contra hpush
      exact hne (hR.push _ (by simpa using hpush))

/-- The consumer frees the node `tail` points to, between the two writes of
the second push. -/
def overtakenRun : List (Event Bool Nat) :=
  .push true (some 7) :: .step true (some 1) :: List.replicate 4 (.step true none) ++
    .push true (some 8) :: .step true (some 2) :: List.replicate 3 (.step true none) ++
    .pop false false :: List.replicate 10 (.step false none) ++
    .pop false false :: List.replicate 10 (.step false none)

theorem one_producer_one_consumer_overtaken :
    let s := (pairMachine Bool Nat).final overtakenRun (by decide)
    s.1.heap s.1.tail = none ∧ s.2 = [some 7, some 8] ∧
      s.1.returned.filterMap Return.item <+: s.2 ∧ s.1.fault = false := by
  have hr : (pairMachine Bool Nat).ReachableBy (fun s e => Pair true false s.1 e)
      ((pairMachine Bool Nat).final overtakenRun (by decide)) :=
    Machine.reachableBy_final overtakenRun (by decide) (by decide)
  have h := one_producer_one_consumer hr
  exact ⟨by decide, by decide, h.1, h.2.2.2.2⟩

end Loomlib.LinkedQueue
