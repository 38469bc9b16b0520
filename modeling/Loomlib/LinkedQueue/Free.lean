import Loomlib.LinkedQueue.Pair

/-!
# LinkedQueue — Free

Nothing is lost. A node that is live is in the list, or in the hands of
one thread: a push that has not linked it, or a pop that has unlinked it
and not freed it yet. So when all calls have returned the list holds every
live node, and `*_queue_free` frees each of them once.
-/

namespace Loomlib.LinkedQueue

variable {ι α : Type} [DecidableEq ι] {fl : Flavour} {s s' : Queue ι α} {t : ι}
  {x x' : Option α} {rest rest' : List (Nat × Option α)}

/-! ## The free functions -/

/-- What `*_queue_free` comes to: it goes through a node that is not live,
it destroys a lock that is held, or it leaves `heap` and has freed the
nodes `frees`, in this order. -/
inductive Freed (α : Type) where
  | fault
  | assertionFailed
  | done (heap : Heap (Option α)) (frees : List Nat)

/-- `while (queue->head)`, with `fuel` for its rounds. -/
def freeNodes : Nat → Heap (Option α) → List Nat → Option Nat → Option (Freed α)
  | 0, _, _, _ => none
  | _ + 1, heap, frees, none => some (.done heap frees)
  | fuel + 1, heap, frees, some head =>
    match heap head with
    | none => some .fault
    | some nd => freeNodes fuel (Function.update heap head none) (frees ++ [head]) nd.next

/-- `*_queue_free`. The locks are destroyed after the loop. -/
def queueFree (fl : Flavour) (fuel : Nat) (s : Queue ι α) : Option (Freed α) :=
  (freeNodes fuel s.heap [] (some s.head)).map fun r => match r with
    | .done heap frees =>
      if fl.locks && (s.headLock.isSome || s.tailLock.isSome) then .assertionFailed
      else .done heap frees
    | r => r

/-- The loop frees the nodes of the list, from the first to the last. -/
theorem freeNodes_chain {heap : Heap (Option α)} {p : Nat × Option α}
    (hc : Chain heap p rest) (hnd : (nodes p.1 rest).Nodup) {fuel : Nat}
    (hfuel : rest.length + 1 < fuel) (frees : List Nat) :
    ∃ heap', freeNodes fuel heap frees (some p.1) = some (.done heap' (frees ++ nodes p.1 rest)) ∧
      ∀ a, heap' a = if a ∈ nodes p.1 rest then none else heap a := by
  induction rest generalizing heap p fuel frees with
  | nil =>
    obtain ⟨fuel, rfl⟩ := Nat.exists_eq_add_of_le hfuel
    refine ⟨Function.update heap p.1 none, ?_, ?_⟩
    · rw [List.length_nil, Nat.add_comm]
      simp only [freeNodes, hc.head, List.head?_nil, Option.map_none, nodes, List.map_nil]
    · intro a
      by_cases ha : a = p.1 <;> simp [ha]
  | cons q rest ih =>
    obtain ⟨fuel, rfl⟩ := Nat.exists_eq_succ_of_ne_zero (Nat.ne_of_gt (Nat.zero_lt_of_lt hfuel))
    obtain ⟨hp, hnd⟩ := List.nodup_cons.mp hnd
    rw [List.length_cons] at hfuel
    obtain ⟨heap', hrun, hheap⟩ := ih (hc.2.frame hp none) hnd (Nat.lt_of_succ_lt_succ hfuel)
      (frees ++ [p.1])
    refine ⟨heap', ?_, ?_⟩
    · simp only [freeNodes, hc.1]
      rw [hrun, List.append_assoc]
      rfl
    · intro a
      rw [hheap]
      by_cases ha : a = p.1
      · subst ha
        simp
      · simp only [nodes, List.map_cons, List.mem_cons, Function.update_of_ne ha, ha, false_or]

/-! ## No node is lost -/

/-- Every live node is in the list or in the hands of a thread. -/
def Used (s : Queue ι α) (rest : List (Nat × Option α)) : Prop :=
  ∀ a, s.heap a ≠ none → a ∈ nodes s.head rest ∨ ∃ t, (s.pc t).owns = some a

/-- A step of one thread, for each live node after it: the list has it, or
the thread, or neither had it before. -/
theorem Used.update {y : PC α} (hU : Used s rest) (hpc : s'.pc = Function.update s.pc t y)
    (h : ∀ a, s'.heap a ≠ none → a ∈ nodes s'.head rest' ∨ y.owns = some a ∨
      (s.heap a ≠ none ∧ a ∉ nodes s.head rest ∧ (s.pc t).owns ≠ some a)) : Used s' rest' := by
  intro a ha
  rcases h a ha with hmem | hown | ⟨hlive, hnot, hother⟩
  · exact .inl hmem
  · exact .inr ⟨t, by rw [hpc, Function.update_self]; exact hown⟩
  · obtain ⟨u, hu⟩ := (hU a hlive).resolve_left hnot
    have hut : u ≠ t := by
      rintro rfl
      exact hother hu
    exact .inr ⟨u, by rw [hpc, Function.update_of_ne hut]; exact hu⟩

/-- A step that writes to live nodes only, and lets go of none. -/
theorem Used.keep {y : PC α} (hU : Used s rest) (hpc : s'.pc = Function.update s.pc t y)
    (hhead : s'.head = s.head) (hlive : ∀ a, s'.heap a ≠ none → s.heap a ≠ none)
    (hown : ∀ a, (s.pc t).owns = some a → y.owns = some a) : Used s' rest := by
  refine hU.update hpc ?_
  intro a ha
  rw [hhead]
  by_cases hmem : a ∈ nodes s.head rest
  · exact .inl hmem
  · by_cases ht : (s.pc t).owns = some a
    · exact .inr (.inl (hown a ht))
    · exact .inr (.inr ⟨hlive a ha, hmem, ht⟩)

omit [DecidableEq ι] in
theorem Used.wake (hU : Used s rest) : Used { s with pc := fun u => (s.pc u).wake } rest := by
  intro a ha
  refine (hU a ha).imp_right ?_
  rintro ⟨u, hu⟩
  exact ⟨u, (PC.owns_wake _).trans hu⟩

omit [DecidableEq ι] in
theorem live_of_store {f : Node (Option α) → Node (Option α)} {a b : Nat}
    (hb : (s.store a f).heap b ≠ none) : s.heap b ≠ none := by
  intro hnone
  apply hb
  unfold Queue.store
  split
  · exact hnone
  · rename_i nd hnd
    have hne : b ≠ a := by
      rintro rfl
      cases hnone.symm.trans hnd
    exact (Function.update_of_ne hne _ _).trans hnone

/-- There is one list in a heap from a node on. -/
theorem Chain.unique {heap : Heap (Option α)} {a : Nat} (h : Chain heap (a, x) rest)
    (h' : Chain heap (a, x') rest') : rest = rest' := by
  induction rest generalizing a x x' rest' with
  | nil =>
    cases rest' with
    | nil => rfl
    | cons q rest' => cases h.symm.trans h'.1
  | cons q rest ih =>
    obtain ⟨b, y⟩ := q
    cases rest' with
    | nil => cases h.1.symm.trans h'
    | cons r rest' =>
      obtain ⟨c, z⟩ := r
      obtain rfl : b = c := by
        have heq := Option.some.inj (h.1.symm.trans h'.1)
        exact Option.some.inj (congrArg Node.next heq)
      obtain rfl : y = z := by
        have heq := Option.some.inj (h.2.head.symm.trans h'.2.head)
        exact congrArg Node.item heq
      rw [ih h.2 h'.2]

/-- **Every step keeps all nodes in hand.** -/
theorem Used.move (h : Shape s x rest) (he : Exclusive s) (hU : Used s rest) {p : PC α}
    (hpc : s.pc t = p) (hm : Move fl s t p s') (h' : Shape s' x' rest') : Used s' rest' := by
  have hlocal := hpc ▸ h.locals t
  have hown : ∀ {y : PC α}, (∀ a, p.owns = some a → y.owns = some a) →
      ∀ a, (s.pc t).owns = some a → y.owns = some a := fun hy a ha => hy a (hpc ▸ ha)
  cases hm with
  | dead hx hd => exact absurd hd (h.reads_live (hpc ▸ hx))
  | noNext hx hnd hn => exact absurd hn (h.follows_next (hpc ▸ hx) hnd)
  | @alloc item a ha =>
    have hnew : a ∉ nodes s.head rest := fun hmem => h.chain.allocated hmem ha
    obtain rfl := Chain.unique (h.chain.frame hnew _) h'.chain
    refine hU.update rfl ?_
    intro b hb
    by_cases hba : b = a
    · exact .inr (.inl (congrArg some hba.symm))
    · have hlive : s.heap b ≠ none := fun hnone =>
        hb ((Function.update_of_ne hba _ _).trans hnone)
      by_cases hmem : b ∈ nodes s.head rest
      · exact .inl hmem
      · exact .inr (.inr ⟨hlive, hmem, by rw [hpc]; exact (Option.some_ne_none b).symm⟩)
  | @setItem item new | @setItemAlpha item new =>
    have hnd : s.heap new = some ⟨none, none⟩ := hlocal
    have hstore : s.store new (fun nd => { nd with item := item })
        = { s with heap := Function.update s.heap new (some ⟨item, none⟩) } := by
      simp [Queue.store, hnd]
    have hnot : new ∉ nodes s.head rest := h.owned t new (by rw [hpc]; rfl)
    have hlive : ∀ b, (s.store new fun nd => { nd with item := item }).heap b ≠ none →
        s.heap b ≠ none := fun _ => live_of_store
    rw [hstore] at h' hlive ⊢
    obtain rfl := Chain.unique (h.chain.frame hnot _) h'.chain
    exact hU.keep rfl rfl hlive (hown fun a ha => ha)
  | @setNext item new tail =>
    have hchain := (h.setNext he hpc).chain
    obtain rfl := Chain.unique hchain h'.chain
    refine hU.update (congrArg (Function.update · t _) (s.store_pc ..)) ?_
    intro b hb
    have hhead : (s.store tail fun nd => { nd with next := some new }).head = s.head :=
      s.store_head ..
    have hmem' : ∀ c, c ∈ nodes s.head rest ∨ c = new →
        c ∈ nodes s.head (rest ++ [(new, item)]) := by
      intro c hc
      have hnodes : nodes s.head (rest ++ [(new, item)]) = nodes s.head rest ++ [new] := by
        simp [nodes]
      rw [hnodes, List.mem_append, List.mem_singleton]
      exact hc
    have hlive : s.heap b ≠ none :=
      live_of_store (a := tail) (f := fun nd => { nd with next := some new }) hb
    change b ∈ nodes (s.store tail fun nd => { nd with next := some new }).head _ ∨ _
    rw [hhead]
    by_cases hmem : b ∈ nodes s.head rest
    · exact .inl (hmem' b (.inl hmem))
    · by_cases hbn : b = new
      · exact .inl (hmem' b (.inr hbn))
      · refine .inr (.inr ⟨hlive, hmem, ?_⟩)
        rw [hpc]
        intro heq
        exact hbn (Option.some.inj heq).symm
  | @setHead w item temp next | @setHeadAlpha w item temp next =>
    obtain ⟨hq, rfl⟩ : rest.head? = some (next, item) ∧ temp = s.head := hlocal
    cases rest with
    | nil => cases hq
    | cons q rest =>
      cases hq
      obtain rfl := Chain.unique h.chain.2 h'.chain
      refine hU.update rfl ?_
      intro b hb
      by_cases hbh : b = s.head
      · exact .inr (.inl (congrArg some hbh.symm))
      · by_cases hmem : b ∈ nodes next rest
        · exact .inl hmem
        · refine .inr (.inr ⟨hb, ?_, by rw [hpc]; exact (Option.some_ne_none b).symm⟩)
          exact fun hin => (List.mem_cons.mp hin).elim hbh hmem
  | @free w item temp nd hnd =>
    have hnot : temp ∉ nodes s.head rest := h.owned t temp (by rw [hpc]; rfl)
    obtain rfl := Chain.unique (h.chain.frame hnot _) h'.chain
    refine hU.update rfl ?_
    intro b hb
    have hbt : b ≠ temp := by
      rintro rfl
      exact hb (Function.update_self ..)
    have hlive : s.heap b ≠ none := by
      intro hnone
      exact hb ((Function.update_of_ne hbt _ _).trans hnone)
    by_cases hmem : b ∈ nodes s.head rest
    · exact .inl hmem
    · refine .inr (.inr ⟨hlive, hmem, ?_⟩)
      rw [hpc]
      intro heq
      exact hbt (Option.some.inj heq).symm
  | broadcast =>
    obtain rfl := Chain.unique h.chain h'.chain
    refine hU.wake.keep rfl rfl (fun _ ha => ha) ?_
    intro a ha
    rw [PC.owns_wake, hpc] at ha
    cases ha
  | _ =>
    obtain rfl := Chain.unique h.chain h'.chain
    exact hU.keep rfl rfl (fun _ ha => ha) (hown fun a ha => ha)

/-! ## Runs -/

theorem used {C : Queue ι α → Event ι α → Prop}
    (hex : ∀ {s}, (machine ι α fl).ReachableBy C s → Exclusive s)
    (h : (machine ι α fl).ReachableBy C s) : ∃ x rest, Shape s x rest ∧ Used s rest := by
  refine h.invariant (I := fun s => ∃ x rest, Shape s x rest ∧ Used s rest)
    ⟨none, [], Shape.new, ?_⟩ ?_
  · intro a ha
    by_cases h0 : a = 0
    · exact .inl (List.mem_singleton.mpr h0)
    · have hnone : (queueNew : Queue ι α).heap a = none := by simp [queueNew, h0]
      exact absurd hnone ha
  · rintro s e s' hr ⟨x, rest, hS, hU⟩ - hs
    obtain ⟨x', rest', hS'⟩ := hS.step (hex hr) hs
    exact ⟨x', rest', hS', hU.move hS (hex hr) rfl (move_cases hs) hS'⟩

/-- The runs in which no two threads are inside the same end: any run with
locks, and those of one producer and one consumer. -/
def Apart (fl : Flavour) (s : Queue ι α) : Prop :=
  (fl.locks = true ∧ (machine ι α fl).Reachable s) ∨
    (fl = alphaQueue ∧ ∃ p c, (machine ι α fl).ReachableBy (Pair p c) s)

theorem Apart.used (h : Apart fl s) : ∃ x rest, Shape s x rest ∧ Used s rest := by
  rcases h with ⟨hl, hr⟩ | ⟨rfl, p, c, hr⟩
  · exact LinkedQueue.used (fun hr => (locked hl hr).exclusive) hr
  · refine LinkedQueue.used (fun hr => ?_) hr
    obtain ⟨pushed, hp⟩ := hr.traced pushes
    exact (pair_shape hp).1.exclusive

/-- A queue without anybody inside has its locks free. -/
theorem Apart.unlocked (h : Apart fl s) (hidle : ∀ t, s.pc t = .idle) :
    (fl.locks && (s.headLock.isSome || s.tailLock.isSome)) = false := by
  rcases h with ⟨hl, hr⟩ | ⟨rfl, -⟩
  · have hL := locked hl hr
    have hhead : s.headLock = none := hL.head.free fun t => by rw [hidle t]; rfl
    have htail : s.tailLock = none := hL.tail.free fun t => by rw [hidle t]; rfl
    rw [hhead, htail]
    simp
  · rfl

/-- Where the nodes of a queue are. -/
structure NoLeak (fl : Flavour) (s : Queue ι α) : Prop where
  /-- The live nodes are those of the list, one more than the items that are
  linked and not taken, and those the threads have in hand; no node is in
  two places. -/
  nodes : ∃ ns : List Nat, ns.Nodup ∧ ns.length + s.taken.length = s.linked.length + 1 ∧
    (∀ a, s.heap a ≠ none ↔ a ∈ ns ∨ ∃ t, (s.pc t).owns = some a) ∧
    (∀ t a, (s.pc t).owns = some a → a ∉ ns) ∧
    ∀ t u a, (s.pc t).owns = some a → (s.pc u).owns = some a → t = u
  /-- With nobody inside, `*_queue_free` frees every live node, once. -/
  freed : (∀ t, s.pc t = .idle) → ∀ fuel, s.linked.length + 1 < fuel →
    ∃ heap frees, queueFree fl fuel s = some (.done heap frees) ∧ (∀ a, heap a = none) ∧
      frees.Nodup ∧ ∀ a, a ∈ frees ↔ s.heap a ≠ none

/-- **No node is lost or freed twice**, with locks in every run of any
number of threads, without locks in every run of one producer and one
consumer. -/
theorem no_leak (h : Apart fl s) : NoLeak fl s := by
  obtain ⟨x, rest, hS, hU⟩ := h.used
  have hlen : s.linked.length = s.taken.length + rest.length := by
    rw [hS.linked, List.length_append, List.length_map]
  constructor
  · refine ⟨LinkedQueue.nodes s.head rest, hS.nodup, ?_, ?_, hS.owned, hS.apart⟩
    · rw [List.length_cons, List.length_map]
      omega
    · intro a
      constructor
      · exact hU a
      · rintro (hmem | ⟨t, ht⟩)
        · exact hS.chain.allocated hmem
        · exact (hS.locals t).live ht
  · intro hidle fuel hfuel
    obtain ⟨heap, hrun, hheap⟩ := freeNodes_chain hS.chain hS.nodup
      (show rest.length + 1 < fuel by omega) []
    have hlive : ∀ a, s.heap a ≠ none ↔ a ∈ LinkedQueue.nodes s.head rest := by
      intro a
      refine ⟨fun ha => (hU a ha).resolve_right ?_, fun hmem => hS.chain.allocated hmem⟩
      rintro ⟨t, ht⟩
      rw [hidle t] at ht
      cases ht
    refine ⟨heap, LinkedQueue.nodes s.head rest, ?_, ?_, hS.nodup, fun a => (hlive a).symm⟩
    · simp only [queueFree, hrun, Option.map_some, h.unlocked hidle]
      rfl
    · intro a
      rw [hheap]
      split
      · rfl
      · rename_i hnot
        by_contra ha
        exact hnot ((hlive a).mp ha)

/-- Two pushes and one pop of two threads that share a `beta_queue`. -/
def sharedRun : List (Event Bool Nat) :=
  .push false (some 7) :: .push true (some 8) :: .step false (some 1) :: .step true (some 2) ::
    List.replicate 6 (.step true none) ++ List.replicate 6 (.step false none) ++
    .pop true false :: List.replicate 12 (.step true none)

theorem no_leak_shared :
    let s := (machine Bool Nat betaQueue).final sharedRun (by decide)
    s.linked = [some 8, some 7] ∧ s.taken = [some 8] ∧
      ∃ heap frees, queueFree betaQueue 4 s = some (.done heap frees) ∧ frees.Nodup :=
  have h := no_leak (.inl ⟨rfl, (machine Bool Nat betaQueue).reachable_final sharedRun
    (by decide)⟩)
  have hfree := h.freed (by decide) 4 (by decide)
  ⟨by decide, by decide, hfree.imp fun _ hf => hf.imp fun _ hrun => ⟨hrun.1, hrun.2.2.1⟩⟩

end Loomlib.LinkedQueue
