import Loomlib.AsyncQueue.Fifo

/-!
# AsyncQueue — Count

`queue_count` beside `async_queue_count`. The traversal of the ring stops
at the node whose link leads back to its start without counting it, so it
is one short of `size` unless the ring is empty.
-/

namespace Loomlib.AsyncQueue

variable {ι α : Type}

/-- `for (curr = queue; curr->prev != queue; curr = curr->prev) i++`, for at
most `fuel` tests of the condition; `none` also where it reads what is not
live. No item is NULL, so `assert (curr->item != NULL)` holds. -/
def countFrom (h : Links α) (queue : Nat) : Nat → Nat → Nat → Option Nat
  | 0, _, _ => none
  | fuel + 1, curr, i =>
    match h curr with
    | none => none
    | some nd => if nd.prev ≠ queue then countFrom h queue fuel nd.prev (i + 1) else some i

/-- `queue_count (queue)` -/
def queueCount (fuel : Nat) (h : Links α) (queue : Option Nat) : Option Nat :=
  match queue with
  | none => some 0
  | some q => countFrom h q fuel q 0

/-- From a node that leads to `l`, whose last node leads to the start. -/
theorem countFrom_linked {h : Links α} {l : List (Nat × α)} {q curr i fuel : Nat} {nd : Link α}
    (hcurr : h curr = some nd) (hprev : nd.prev = startOf l q) (hl : Linked h l q)
    (hq : q ∉ l.map Prod.fst) (hfuel : l.length < fuel) :
    countFrom h q fuel curr i = some (i + l.length) := by
  induction l generalizing curr i fuel nd with
  | nil =>
    obtain ⟨f, rfl⟩ : ∃ f, fuel = f + 1 := ⟨fuel - 1, by omega⟩
    simp only [countFrom, hcurr, hprev, startOf_nil, ne_eq, not_true_eq_false, if_false,
      List.length_nil, Nat.add_zero]
  | cons p l ih =>
    obtain ⟨f, rfl⟩ : ∃ f, fuel = f + 1 := ⟨fuel - 1, by omega⟩
    obtain ⟨hp, hl⟩ := hl
    rw [List.map_cons, List.mem_cons, not_or] at hq
    have hne : p.1 ≠ q := Ne.symm hq.1
    have hrest := ih (i := i + 1) hp rfl hl hq.2 (Nat.lt_of_succ_lt_succ hfuel)
    simp only [countFrom, hcurr, hprev, startOf_cons, ne_eq, hne, not_false_eq_true, if_true]
    rw [hrest, List.length_cons]
    congr 1
    omega

/-- **The traversal ends**, one short of the length of the ring. -/
theorem queueCount_ring {h : Links α} {queue : Option Nat} {l : List (Nat × α)}
    (hr : Ring h queue l) {fuel : Nat} (hfuel : l.length ≤ fuel) :
    queueCount fuel h queue = some (l.length - 1) := by
  cases queue with
  | none =>
    obtain rfl := hr.eq_nil
    rfl
  | some q =>
    obtain ⟨l', x, rfl, hq⟩ := hr.hold
    obtain ⟨hl', -⟩ := Linked.snoc.mp hr.linked
    have hnd := hr.nodup
    rw [List.map_append] at hnd
    have hnot : q ∉ l'.map Prod.fst := fun hm =>
      List.disjoint_of_nodup_append hnd hm (List.mem_singleton_self q)
    have hstart : startOf (l' ++ [(q, x)]) 0 = startOf l' q := by cases l' <;> rfl
    rw [List.length_append, List.length_singleton] at hfuel ⊢
    have hcount := countFrom_linked (i := 0) hq hstart hl' hnot (Nat.lt_of_succ_le hfuel)
    rw [Nat.zero_add] at hcount
    exact hcount

/-- More fuel changes nothing. -/
theorem countFrom_mono {h : Links α} {q curr i fuel c : Nat}
    (hc : countFrom h q fuel curr i = some c) (more : Nat) :
    countFrom h q (fuel + more) curr i = some c := by
  induction fuel generalizing curr i with
  | zero => cases hc
  | succ fuel ih =>
    rw [Nat.add_right_comm]
    simp only [countFrom] at hc ⊢
    cases hn : h curr with
    | none => simp [hn] at hc
    | some nd =>
      simp only [hn] at hc ⊢
      by_cases hprev : nd.prev ≠ q
      · rw [if_pos hprev] at hc ⊢
        exact ih hc
      · rwa [if_neg hprev] at hc ⊢

theorem queueCount_mono {h : Links α} {queue : Option Nat} {fuel c : Nat}
    (hc : queueCount fuel h queue = some c) (more : Nat) :
    queueCount (fuel + more) h queue = some c := by
  cases queue with
  | none => exact hc
  | some q => exact countFrom_mono hc more

variable [DecidableEq ι]

/-- `queue_count` and `async_queue_count` agree on the number of items
pushed and not popped. -/
def CountsAgree (s : Queue ι α) (ops : List (Op α)) : Prop :=
  (∃ fuel, queueCount fuel s.heap s.queue = some s.size) ∧
    s.size + (ops.filterMap Op.popped).length = (ops.filterMap Op.pushed).length

/-- **The two counts agree on an empty queue only**: while an item is held
the traversal of the ring misses one. It ends in any case. -/
theorem counts_agree_iff {s : Queue ι α} {ops : List (Op α)}
    (h : ((machine ι α).traced returns).Reachable (s, ops)) :
    (CountsAgree s (ops ++ s.pending) ↔
      (ops ++ s.pending).filterMap Op.popped = (ops ++ s.pending).filterMap Op.pushed) ∧
    ∃ held, (ops ++ s.pending).filterMap Op.pushed
        = (ops ++ s.pending).filterMap Op.popped ++ held ∧
      s.size = held.length ∧
      ∀ fuel, held.length ≤ fuel → queueCount fuel s.heap s.queue = some (held.length - 1) := by
  obtain ⟨l, hI⟩ := refines h
  have horder := hI.fifo.order
  have hsize : s.size = (l.map Prod.snd).length := by rw [List.length_map]; exact hI.size
  have hcount : ∀ fuel, (l.map Prod.snd).length ≤ fuel →
      queueCount fuel s.heap s.queue = some ((l.map Prod.snd).length - 1) := by
    rw [List.length_map]
    exact fun fuel hfuel => queueCount_ring hI.ring hfuel
  refine ⟨?_, l.map Prod.snd, horder, hsize, hcount⟩
  unfold CountsAgree
  rw [horder, List.self_eq_append_right, hsize]
  constructor
  · rintro ⟨⟨fuel, hfuel⟩, -⟩
    -- with enough fuel the answer is one short
    have hmore := queueCount_mono hfuel (l.map Prod.snd).length
    rw [hcount _ (Nat.le_add_left _ _), Option.some.injEq] at hmore
    apply List.eq_nil_of_length_eq_zero
    omega
  · intro hnil
    refine ⟨⟨0, ?_⟩, ?_⟩
    · rw [hcount 0 (by rw [hnil]; exact Nat.le_refl _), hnil]
      rfl
    · rw [List.length_append]
      exact Nat.add_comm _ _

/-- The pushed item of this run has been popped. -/
theorem counts_agree_drained :
    let s := ((machine Bool Nat).traced returns).final wokenRun (by decide)
    CountsAgree s.1 (s.2 ++ s.1.pending) := by
  have h := counts_agree_iff
    (((machine Bool Nat).traced returns).reachable_final wokenRun (by decide))
  exact h.1.mpr (by decide)

/-- A push, and no pop. -/
def pushRun : List (Event Bool Nat) :=
  .call false (.push 7) :: .step false none :: .step false (some 5) ::
    List.replicate 2 (.step false none)

theorem counts_disagree :
    let s := ((machine Bool Nat).traced returns).final pushRun (by decide)
    s.2 = [.push 7 true] ∧ s.1.size = 1 ∧ queueCount 1 s.1.heap s.1.queue = some 0 ∧
      ¬ CountsAgree s.1 (s.2 ++ s.1.pending) := by
  refine ⟨by decide, by decide, by decide, ?_⟩
  rintro ⟨⟨fuel, hfuel⟩, -⟩
  have hone := queueCount_mono hfuel 1
  have hzero : ∀ s : Queue Bool Nat, queueCount 1 s.heap s.queue = some 0 →
      queueCount (1 + fuel) s.heap s.queue = some 0 := fun s hs => queueCount_mono hs fuel
  have hnone := hzero (((machine Bool Nat).traced returns).final pushRun (by decide)).1 (by decide)
  rw [Nat.add_comm] at hnone
  cases hnone.symm.trans hone

end Loomlib.AsyncQueue
