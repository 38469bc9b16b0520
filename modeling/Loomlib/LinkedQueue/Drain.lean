import Loomlib.LinkedQueue.Fifo

/-!
# LinkedQueue — Drain

One thread that pops until a pop returns NULL, as the headers tell it to
test for the empty queue. NULL is also what a pop returns of a NULL item,
so the loop drains the queue if and only if no NULL was pushed.
-/

namespace Loomlib.LinkedQueue

variable {α : Type} {fl : Flavour} {s t : Queue Unit α}

/-! ## Calls of one thread -/

/-- The steps of the call the thread is in, `fuel` of them at most. -/
def finish (fl : Flavour) : Nat → Queue Unit α → Option (Queue Unit α)
  | 0, _ => none
  | fuel + 1, s =>
    match s.pc () with
    | .idle => some s
    | _ => (step fl s (.step () none)).bind (finish fl fuel)

/-- A pop that is not told to wait, from its call to its return. -/
def popCall (fl : Flavour) (s : Queue Unit α) : Option (Queue Unit α) :=
  (step fl s (.pop () false)).bind (finish fl 16)

/-- What the caller gets. -/
def Return.value (r : Return α) : Option α := r.item.join

/-- Pops until one returns NULL, `fuel` of them at most. -/
def popUntilNull (fl : Flavour) : Nat → Queue Unit α → Option (Queue Unit α)
  | 0, _ => none
  | fuel + 1, s =>
    (popCall fl s).bind fun t =>
      match (t.returned.getLast?.bind Return.value) with
      | none => some t
      | some _ => popUntilNull fl fuel t

/-! ## One pop -/

section Pop

variable {n a : Nat} {x item : Option α} {next : Option Nat} {w : Bool}

/-- One step of a pop. -/
theorem finish_pop {p : PopPC α} (t : Queue Unit α)
    (hs : (s.goto () (.pop w p)).queuePop fl () w p = some t) :
    finish fl (n + 1) (s.goto () (.pop w p)) = finish fl n t := by
  have hstep : step fl (s.goto () (.pop w p)) (.step () none) = some t := by
    simpa [step, Queue.goto] using hs
  simp only [finish, Queue.goto, Function.update_self] at hstep ⊢
  rw [hstep]
  rfl

/-- The lock as a pop leaves it. -/
def unlocked (fl : Flavour) (s : Queue Unit α) : Option Unit :=
  if fl.locks then none else s.headLock

/-- What a pop leaves of an empty queue. -/
def Queue.gaveUp (s : Queue Unit α) (fl : Flavour) : Queue Unit α :=
  { s with
    headLock := unlocked fl s
    returned := s.returned ++ [Return.mk false none] }.goto () .idle

/-- What it leaves where the dummy leads to the node `a` of `item`. -/
def Queue.popped (s : Queue Unit α) (fl : Flavour) (a : Nat) (item : Option α) : Queue Unit α :=
  { s with
    head := a
    headLock := unlocked fl s
    heap := Function.update s.heap s.head none
    taken := s.taken ++ [item]
    returned := s.returned ++ [Return.mk false (some item)] }.goto () .idle

@[simp] theorem gaveUp_pc : (s.gaveUp fl).pc () = .idle := by
  simp [Queue.gaveUp, Queue.goto]

@[simp] theorem popped_pc : (s.popped fl a item).pc () = .idle := by
  simp [Queue.popped, Queue.goto]

theorem finish_idle : finish fl (n + 1) (s.goto () .idle) = some (s.goto () .idle) := by
  simp [finish, Queue.goto]

/-- `head->next` is NULL. -/
theorem finish_empty (hhead : s.heap s.head = some ⟨x, none⟩) :
    finish fl (n + 4) (s.goto () (.pop false .testHead)) = some (s.gaveUp fl) := by
  rw [finish_pop (s.goto () (.pop false (.testNext s.head))) (by simp [Queue.queuePop, Queue.goto]),
    finish_pop (s.goto () (.pop false .releaseEmpty))
      (by simp [Queue.queuePop, Queue.load, Queue.goto, hhead]),
    finish_pop (s.gaveUp fl) (by simp [Queue.queuePop, Queue.goto, Queue.gaveUp, unlocked])]
  exact finish_idle

/-- `item = queue->head->next->item`, and what follows. -/
theorem finish_item (hhead : s.heap s.head = some ⟨x, some a⟩)
    (hitem : s.heap a = some ⟨item, next⟩) :
    finish fl (n + 10) (s.goto () (.pop false .itemHead)) = some (s.popped fl a item) := by
  rw [finish_pop (s.goto () (.pop false (.itemNext s.head))) (by simp [Queue.queuePop, Queue.goto]),
    finish_pop (s.goto () (.pop false (.itemRead a)))
      (by simp [Queue.queuePop, Queue.goto, hhead]),
    finish_pop (s.goto () (.pop false (.setTemp item)))
      (by simp [Queue.queuePop, Queue.load, Queue.goto, hitem]),
    finish_pop (s.goto () (.pop false (.advanceHead item s.head)))
      (by simp [Queue.queuePop, Queue.goto]),
    finish_pop (s.goto () (.pop false (.advanceNext item s.head s.head)))
      (by simp [Queue.queuePop, Queue.goto]),
    finish_pop (s.goto () (.pop false (.setHead item s.head a)))
      (by simp [Queue.queuePop, Queue.goto, hhead])]
  cases hl : fl.locks
  · rw [finish_pop ({ s with head := a, taken := s.taken ++ [item] }.goto ()
        (.pop false (.free item s.head))) (by simp [Queue.queuePop, Queue.goto, hl]),
      finish_pop (s.popped fl a item)
        (by simp [Queue.queuePop, Queue.goto, Queue.popped, unlocked, hhead, hl])]
    exact finish_idle
  · rw [finish_pop ({ s with head := a, taken := s.taken ++ [item] }.goto ()
        (.pop false (.release item s.head))) (by simp [Queue.queuePop, Queue.goto, hl]),
      finish_pop ({ s with head := a, taken := s.taken ++ [item], headLock := none }.goto ()
        (.pop false (.free item s.head))) (by simp [Queue.queuePop, Queue.goto]),
      finish_pop (s.popped fl a item)
        (by simp [Queue.queuePop, Queue.goto, Queue.popped, unlocked, hhead, hl])]
    exact finish_idle

/-- `head->next` is not NULL. -/
theorem finish_full (hhead : s.heap s.head = some ⟨x, some a⟩)
    (hitem : s.heap a = some ⟨item, next⟩) :
    finish fl (n + 14) (s.goto () (.pop false .testHead)) = some (s.popped fl a item) := by
  rw [finish_pop (s.goto () (.pop false (.testNext s.head))) (by simp [Queue.queuePop, Queue.goto])]
  cases hw : fl.waits
  · rw [finish_pop (s.goto () (.pop false .itemHead))
      (by simp [Queue.queuePop, Queue.load, Queue.goto, hhead, hw])]
    exact finish_item hhead hitem
  · rw [finish_pop (s.goto () (.pop false .loopHead))
        (by simp [Queue.queuePop, Queue.load, Queue.goto, hhead, hw]),
      finish_pop (s.goto () (.pop false (.loopNext s.head)))
        (by simp [Queue.queuePop, Queue.goto]),
      finish_pop (s.goto () (.pop false .itemHead))
        (by simp [Queue.queuePop, Queue.load, Queue.goto, hhead])]
    exact finish_item hhead hitem

/-- The call, and the lock where there is one. -/
theorem popCall_eq (hidle : s.pc () = .idle) (hfree : fl.locks = true → s.headLock = none) :
    popCall fl s = if fl.locks
      then finish fl 15 ({ s with headLock := some () }.goto () (.pop false .testHead))
      else finish fl 16 (s.goto () (.pop false .testHead)) := by
  have hcall : step fl s (.pop () false)
      = some (s.goto () (.pop false (if fl.locks then .acquire else .testHead))) := by
    simp [step, hidle]
  rw [popCall, hcall, Option.bind_some]
  cases hl : fl.locks
  · rfl
  · have hlock : (s.goto () (.pop false .acquire)).queuePop fl () false .acquire
        = some ({ s with headLock := some () }.goto () (.pop false .testHead)) := by
      simp [Queue.queuePop, Queue.goto, hfree hl]
    exact finish_pop _ hlock

/-- **A pop of an empty queue** gives up. -/
theorem popCall_empty (hidle : s.pc () = .idle) (hfree : fl.locks = true → s.headLock = none)
    (hhead : s.heap s.head = some ⟨x, none⟩) : popCall fl s = some (s.gaveUp fl) := by
  rw [popCall_eq hidle hfree]
  cases hl : fl.locks
  · exact finish_empty hhead
  · rw [if_pos rfl]
    apply (finish_empty (s := { s with headLock := some () }) hhead).trans
    simp [Queue.gaveUp, Queue.goto, unlocked, hl]

/-- **A pop takes the first item**, whatever it is. -/
theorem popCall_item (hidle : s.pc () = .idle) (hfree : fl.locks = true → s.headLock = none)
    (hhead : s.heap s.head = some ⟨x, some a⟩) (hitem : s.heap a = some ⟨item, next⟩) :
    popCall fl s = some (s.popped fl a item) := by
  rw [popCall_eq hidle hfree]
  cases hl : fl.locks
  · exact finish_full hhead hitem
  · rw [if_pos rfl]
    apply (finish_full (s := { s with headLock := some () }) hhead hitem).trans
    simp [Queue.popped, Queue.goto, unlocked, hl]

end Pop

/-! ## What one thread reaches -/

theorem shape_one (h : (machine Unit α fl).Reachable s) : ∃ x rest, Shape s x rest := by
  refine h.invariant (I := fun s => ∃ x rest, Shape s x rest) ⟨none, [], Shape.new⟩ ?_
  rintro s e t - ⟨x, rest, hI⟩ hs
  exact hI.step ⟨fun _ _ _ _ => rfl, fun _ _ _ _ => rfl⟩ hs

theorem headLock_free (h : (machine Unit α fl).Reachable s) (hidle : s.pc () = .idle)
    (hl : fl.locks = true) : s.headLock = none := by
  apply (locked hl h).head.free
  intro u
  rw [hidle]
  rfl

theorem finish_reachable {n : Nat} (h : (machine Unit α fl).Reachable s)
    (hn : finish fl n s = some t) : (machine Unit α fl).Reachable t := by
  induction n generalizing s with
  | zero => cases hn
  | succ n ih =>
    simp only [finish] at hn
    split at hn
    · exact Option.some.inj hn ▸ h
    · obtain ⟨u, hu, hn⟩ := Option.bind_eq_some_iff.mp hn
      exact ih (.step (e := .step () none) h trivial hu) hn

theorem popCall_reachable (h : (machine Unit α fl).Reachable s) (hn : popCall fl s = some t) :
    (machine Unit α fl).Reachable t := by
  obtain ⟨u, hu, hn⟩ := Option.bind_eq_some_iff.mp hn
  exact finish_reachable (.step (e := .pop () false) h trivial hu) hn

/-! ## The loop -/

/-- The pops have returned all items in order, the list is empty, and each
NULL they returned is from the empty queue. -/
structure Drained (s : Queue Unit α) : Prop where
  items : s.returned.filterMap Return.item = s.linked
  empty : ∃ x, s.heap s.head = some ⟨x, none⟩
  null : ∀ r ∈ s.returned, r.value = none → r.item = none

/-- What is left to take. -/
theorem Shape.left {x : Option α} {rest : List (Nat × Option α)} (hS : Shape s x rest) :
    s.linked.length = s.taken.length + rest.length := by
  rw [hS.linked, List.length_append, List.length_map]

/-- **The loop ends**, with a NULL from the empty queue or with a NULL
that was pushed. -/
theorem popUntilNull_ends (h : (machine Unit α fl).Reachable s) (hidle : s.pc () = .idle)
    {fuel : Nat} (hfuel : s.linked.length < s.taken.length + fuel) :
    ∃ t, popUntilNull fl fuel s = some t ∧ (machine Unit α fl).Reachable t ∧ t.pc () = .idle ∧
      t.linked = s.linked ∧ ((∃ x, Shape t x []) ∨ none ∈ t.linked) := by
  induction fuel generalizing s with
  | zero =>
    obtain ⟨x, rest, hS⟩ := shape_one h
    have := hS.left
    omega
  | succ fuel ih =>
    have hfree := headLock_free h hidle
    obtain ⟨x, rest, hS⟩ := shape_one h
    cases rest with
    | nil =>
      have hpop := popCall_empty hidle hfree hS.chain.head
      have ht := popCall_reachable h hpop
      refine ⟨s.gaveUp fl, ?_, ht, gaveUp_pc, rfl, .inl ?_⟩
      · simp [popUntilNull, hpop, Queue.gaveUp, Queue.goto, Return.value]
      · obtain ⟨x', rest', hS'⟩ := shape_one ht
        have hleft := hS'.left
        have hleft' := hS.left
        change s.linked.length = s.taken.length + rest'.length at hleft
        obtain rfl : rest' = [] := by
          apply List.eq_nil_of_length_eq_zero
          rw [List.length_nil] at hleft'
          omega
        exact ⟨x', hS'⟩
    | cons q rest =>
      have hpop := popCall_item hidle hfree hS.chain.head hS.chain.2.head
      have ht := popCall_reachable h hpop
      cases hq : q.2 with
      | none =>
        refine ⟨s.popped fl q.1 q.2, ?_, ht, popped_pc, rfl, .inr ?_⟩
        · simp [popUntilNull, hpop, Queue.popped, Queue.goto, Return.value, hq]
        · show none ∈ s.linked
          rw [hS.linked]
          exact List.mem_append_right _ (by simp [hq])
      | some v =>
        have hlen : (s.popped fl q.1 q.2).taken.length = s.taken.length + 1 := List.length_append
        obtain ⟨t, hrun, hrest⟩ := ih ht popped_pc (by
          rw [hlen]
          show s.linked.length < _
          omega)
        refine ⟨t, ?_, hrest⟩
        simp only [popUntilNull, hpop, Option.bind_some]
        rw [← hrun]
        simp [Queue.popped, Queue.goto, Return.value, hq]

/-- **Popping until NULL drains the queue** if and only if no NULL was
pushed, for each flavour and after any sequence of calls. -/
theorem drained_iff {log : List (Unit × Deed α)}
    (h : ((machine Unit α fl).traced (deeds fl)).Reachable (s, log)) (hidle : s.pc () = .idle)
    (fuel : Nat) (hfuel : s.linked.length < fuel) :
    ∃ calls : List (Call α), log.map Prod.snd = calls.flatMap Call.deeds ∧
      s.linked = calls.filterMap Call.linked ∧
      ∃ t, popUntilNull fl fuel s = some t ∧ t.linked = s.linked ∧
        (Drained t ↔ none ∉ s.linked) := by
  obtain ⟨calls, hcalls, hpushed, -⟩ := (told h).whole hidle
  obtain ⟨t, hrun, ht, htidle, hlinked, hend⟩ :=
    popUntilNull_ends h.untraced hidle (Nat.lt_add_left s.taken.length hfuel)
  have hreturned : t.returned.filterMap Return.item = t.taken := by
    obtain ⟨log', hlog⟩ := ht.traced (deeds fl)
    obtain ⟨-, -, -, -, htaken⟩ := (told hlog).whole htidle
    exact htaken.symm
  refine ⟨calls, hcalls, hpushed, t, hrun, hlinked, ?_⟩
  rw [← hlinked]
  constructor
  · intro hd hnull
    -- a NULL item that was returned looks like the empty queue
    rw [← hd.items, List.mem_filterMap] at hnull
    obtain ⟨r, hr, hitem⟩ := hnull
    have hnone := hd.null r hr (by rw [Return.value, hitem]; rfl)
    cases hitem.symm.trans hnone
  · intro hnot
    obtain ⟨x, hS⟩ := hend.resolve_right hnot
    have htaken : t.taken = t.linked := by
      rw [hS.linked, List.map_nil, List.append_nil]
    refine ⟨hreturned.trans htaken, ⟨x, hS.chain.head⟩, ?_⟩
    intro r hr hvalue
    cases hitem : r.item with
    | none => rfl
    | some item =>
      rw [Return.value, hitem] at hvalue
      obtain rfl : item = none := hvalue
      rw [← htaken, ← hreturned] at hnot
      exact absurd (List.mem_filterMap.mpr ⟨r, hr, hitem⟩) hnot

/-- Two pushes, each of which takes `c` steps after its `calloc`. -/
def pushTwo (c : Nat) (first second : Option Nat) : List (Event Unit Nat) :=
  .push () first :: .step () (some 1) :: List.replicate c (.step () none) ++
    .push () second :: .step () (some 2) :: List.replicate c (.step () none)

theorem drained_two :
    let s := ((machine Unit Nat gammaQueue).traced (deeds gammaQueue)).final
      (pushTwo 7 (some 7) (some 8)) (by decide)
    s.1.linked = [some 7, some 8] ∧ ∃ t, popUntilNull gammaQueue 3 s.1 = some t ∧ Drained t := by
  obtain ⟨-, -, -, t, hrun, -, hiff⟩ := drained_iff
    (((machine Unit Nat gammaQueue).traced (deeds gammaQueue)).reachable_final
      (pushTwo 7 (some 7) (some 8)) (by decide)) (by decide) 3 (by decide)
  exact ⟨by decide, t, hrun, hiff.mpr (by decide)⟩

/-- What the loop leaves after a push of NULL and a push of 7. -/
def afterNull (fl : Flavour) (c : Nat) : Option (Queue Unit Nat) :=
  ((machine Unit Nat fl).run queueNew (pushTwo c none (some 7))).bind (popUntilNull fl 3)

/-- The loop takes the NULL for the empty queue, and 7 stays behind. -/
theorem null_ends_loop :
    (∃ t, afterNull alphaQueue 4 = some t ∧ t.taken = [none] ∧ t.linked = [none, some 7] ∧
      ¬ Drained t) ∧
    (∃ t, afterNull betaQueue 6 = some t ∧ t.taken = [none] ∧ t.linked = [none, some 7] ∧
      ¬ Drained t) ∧
    ∃ t, afterNull gammaQueue 7 = some t ∧ t.taken = [none] ∧ t.linked = [none, some 7] ∧
      ¬ Drained t :=
  have hnot : ∀ t : Queue Unit Nat,
      t.returned.filterMap Return.item ≠ t.linked → ¬ Drained t := fun _ hne h => hne h.items
  ⟨⟨_, rfl, rfl, rfl, hnot _ (by decide)⟩, ⟨_, rfl, rfl, rfl, hnot _ (by decide)⟩,
    _, rfl, rfl, rfl, hnot _ (by decide)⟩

end Loomlib.LinkedQueue
