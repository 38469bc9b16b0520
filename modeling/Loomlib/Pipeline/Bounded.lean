import Loomlib.Pipeline.Flight
import Loomlib.ThreadPool.Progress

/-!
# Pipeline — Bounded

A pipeline whose inlet runs dry comes to an end under every schedule. What
could go on for ever is the inlet token, which is pushed back whenever the
gate is shut. But then at least two lines are queued, since `max_threads`
workers, the token's among them, cannot hold `max_threads + 1` lines. The
queue is a FIFO, so the token comes back to the gate only after one of them
was popped: each deferral is paid for by the line that is taken out of its
way.
-/

namespace Loomlib.Pipeline

open ThreadPool

variable {V : Type} {k n : Nat}

/-- The inlet returns `m` products at most. -/
def Supply (m : Nat) (b : Bag (program V k n)) : Act (program V k n) → Prop
  | .unit (.inlet _) (.returns (some _)) => b.mem.injected < m
  | _ => True

instance (m : Nat) (b : Bag (program V k n)) : ∀ a, Decidable (Supply m b a) := by
  intro a
  unfold Supply
  split <;> infer_instance

/-! ## The work of an activation -/

/-- The pumps before the outlet, from the stage of the block on. -/
def State.left (k : Nat) (b : State V) : Nat :=
  (k - b.currentStage).toNat

/-- What an activation costs, up to the end of its line. -/
def Frame.work (k : Nat) : Frame V → Nat
  | .enter d => if d.block.currentStage < 0 then 7 else 10 * d.block.left k + 6
  | .gate _ => 6
  | .dropState _ => 1
  | .defer _ => 9
  | .callInlet _ => 5
  | .inlet _ => 4
  | .restart _ _ _ => 10 * (k + 1) + 12
  | .pushInlet _ _ _ _ => 10 * (k + 1) + 11
  | .callPump d => 10 * d.block.left k + 5
  | .pump d => 10 * d.block.left k + 4
  | .advance d _ _ => 10 * d.block.left k + 3
  | .push d => 10 * d.block.left k + 12
  | .callOutlet _ => 5
  | .outlet _ => 4
  | .freeState _ => 3
  | .retire => 2
  | .done => 1

/-- What a product costs. -/
def lineWork (k : Nat) : Nat := 10 * (k + 1) + 9

/-- The lines a step pushes. -/
def pushedLines : Outcome (Ref (State V)) (Frame V) → Nat
  | .request (.push d) _ => (Frame.enter d).counted
  | _ => 0

/-- The gate sends the token back. -/
def deferred : Outcome (Ref (State V)) (Frame V) → Nat
  | .go (.defer _) => 1
  | _ => 0

/-- **Every step costs**, a deferral apart; a line in the queue costs 4
until it is popped, and a product what its line will. -/
theorem work_move {m m' : Mem V} {f : Frame V} {o : Outcome (Ref (State V)) (Frame V)}
    {r : Multiset (Frame V)} (h : Move k n m f m' o) (hB : Blocks k m.heap (f ::ₘ r))
    (hpos : f.counted ≤ m.activeLines) :
    load (Frame.work k) (o.frames .enter) + 4 * pushedLines o + lineWork k * m.injected + 1
      ≤ f.work k + 4 * deferred o + lineWork k * m'.injected := by
  have hfit := hB.fits f (Multiset.mem_cons_self _ _)
  have ho := hB.owned
  rw [allRefs_cons] at ho
  cases h with
  | dead hf hd => exact absurd hd (hB.live hf)
  | wrap ha => simp [Frame.counted, ha] at hpos
  | enterInlet hb hst =>
    obtain rfl := Owned.block_eq ho hb
    simp only [Outcome.frames, load_singleton, Frame.work, pushedLines, deferred, if_pos hst]
    omega
  | enterPump hb hst | enterOutlet hb hst =>
    obtain rfl := Owned.block_eq ho hb
    simp only [Outcome.frames, load_singleton, Frame.work, pushedLines, deferred,
      if_neg (Int.not_lt.mpr hst)]
    omega
  | @«defer» d =>
    have hstage : d.block.currentStage = -1 := hfit
    have hneg : d.block.currentStage < 0 := by omega
    simp only [Outcome.frames, Request.frames, load_cons, load_singleton, Frame.work, pushedLines,
      deferred, Frame.counted, if_pos hneg]
    omega
  | @pushInlet d d' =>
    have hstage : d.block.currentStage = -1 ∧ d'.block.currentStage = -1 := hfit
    have hneg : d'.block.currentStage < 0 := by omega
    simp only [Outcome.frames, Request.frames, load_cons, load_singleton, Frame.work, pushedLines,
      deferred, Frame.counted, State.left, if_pos hneg]
    omega
  | @push d =>
    have hstage : 0 ≤ d.block.currentStage ∧ d.block.currentStage ≤ k := hfit
    simp only [Outcome.frames, Request.frames, load_cons, load_singleton, Frame.work, pushedLines,
      deferred, Frame.counted, if_neg (Int.not_lt.mpr hstage.1)]
    omega
  | @advance d p l b hb =>
    obtain rfl := Owned.block_eq ho hb
    have hstage : -1 ≤ d.block.currentStage ∧ d.block.currentStage < k := hfit
    simp only [Outcome.frames, load_singleton, Frame.work, pushedLines, deferred, State.left,
      Mem.store, Mem.injected_mk]
    omega
  | @inlet d v =>
    have hmul : lineWork k * (m.injected + 1) = lineWork k * m.injected + lineWork k :=
      Nat.mul_succ ..
    have hline : lineWork k = 10 * (k + 1) + 9 := rfl
    simp only [Outcome.frames, load_singleton, Frame.work, pushedLines, deferred,
      Mem.injected_record]
    omega
  | _ =>
    simp only [Outcome.frames, Request.frames, load_cons, load_singleton, load_zero, Frame.work,
      pushedLines, deferred, Mem.injected_record, Mem.store, Mem.injected_mk, Nat.add_zero]
    omega

/-! ## Behind a line -/

/-- A unit that carries on a line. -/
def carriesLine (u : WorkUnit (Ref (State V))) : Bool :=
  match u.func with
  | .call d => !decide (d.block.currentStage < 0)
  | .termSig => false

def carriesInlet (u : WorkUnit (Ref (State V))) : Bool :=
  match u.func with
  | .call d => decide (d.block.currentStage < 0)
  | .termSig => false

/-- The inlet token is queued, and a line before it. -/
def tokenBehind : List (WorkUnit (Ref (State V))) → Bool
  | [] => false
  | u :: q => if carriesLine u then q.any carriesInlet else tokenBehind q

/-- It is in the hands of a worker that is about to push it. -/
def deferring : Worker (program V k n) → Bool
  | .running _ (.defer _) => true
  | _ => false

/-- The inlet token is behind a line, or will be. -/
def Behind (s : Pool (program V k n) n) : Prop :=
  tokenBehind s.workQueue = true ∨
    (s.workQueue.any carriesLine = true ∧ ∃ i, deferring (s.workers i) = true)

instance (s : Pool (program V k n) n) : Decidable (Behind s) :=
  inferInstanceAs (Decidable (_ ∨ _))

theorem tokenBehind_append {q : List (WorkUnit (Ref (State V)))} (h : tokenBehind q = true)
    (r : List (WorkUnit (Ref (State V)))) : tokenBehind (q ++ r) = true := by
  induction q with
  | nil => cases h
  | cons u q ih =>
    simp only [List.cons_append, tokenBehind] at h ⊢
    split
    · rename_i hu
      rw [if_pos hu] at h
      rw [List.any_append, h, Bool.true_or]
    · rename_i hu
      rw [if_neg hu] at h
      exact ih h

/-- The token that is pushed behind a line. -/
theorem tokenBehind_snoc {q : List (WorkUnit (Ref (State V)))} (h : q.any carriesLine = true)
    {u : WorkUnit (Ref (State V))} (hu : carriesInlet u = true) :
    tokenBehind (q ++ [u]) = true := by
  induction q with
  | nil => cases h
  | cons v q ih =>
    simp only [List.cons_append, tokenBehind]
    split
    · simp [hu]
    · rename_i hv
      rw [List.any_cons, Bool.or_eq_true] at h
      exact ih (h.resolve_left hv)

theorem any_inlet_of_behind {q : List (WorkUnit (Ref (State V)))} (h : tokenBehind q = true) :
    q.any carriesInlet = true := by
  induction q with
  | nil => cases h
  | cons u q ih =>
    simp only [tokenBehind] at h
    rw [List.any_cons, Bool.or_eq_true]
    split at h
    · exact .inr h
    · exact .inr (ih h)

@[simp] theorem deferring_wake (w : Worker (program V k n)) : deferring w.wake = deferring w := by
  cases w <;> rfl

section Queue

variable {s t : Pool (program V k n) n}

/-- What a unit that waits weighs. -/
def unitWeight (w : Frame V → Nat) (u : WorkUnit (Ref (State V))) : Nat :=
  match u.func with
  | .call d => w (.enter d)
  | .termSig => 0

theorem queued_sum (w : Frame V → Nat) (s : Pool (program V k n) n) :
    queued w s = (s.workQueue.map (unitWeight w)).sum := by
  unfold queued
  congr 2
  funext u
  unfold unitWeight
  cases u.func <;> rfl

theorem queued_append {r : List (WorkUnit (Ref (State V)))} (w : Frame V → Nat)
    (ht : t.workQueue = s.workQueue ++ r) :
    queued w t = queued w s + (r.map (unitWeight w)).sum := by
  rw [queued_sum, queued_sum, ht, List.map_append, List.sum_append]

theorem counted_eq (u : WorkUnit (Ref (State V))) :
    unitWeight Frame.counted u = (carriesLine u).toNat := by
  unfold carriesLine unitWeight
  cases u.func with
  | termSig => rfl
  | call d => by_cases hd : d.block.currentStage < 0 <;> simp [Frame.counted, hd]

theorem token_eq (u : WorkUnit (Ref (State V))) :
    unitWeight Frame.token u = (carriesInlet u).toNat := by
  unfold carriesInlet unitWeight
  cases u.func with
  | termSig => rfl
  | call d => by_cases hd : d.block.currentStage < 0 <;> simp [Frame.token, hd]

private theorem any_of_sum {q : List (WorkUnit (Ref (State V)))}
    {p : WorkUnit (Ref (State V)) → Bool} :
    0 < (q.map fun u => (p u).toNat).sum ↔ q.any p = true := by
  induction q with
  | nil => simp
  | cons u q ih =>
    rw [List.map_cons, List.sum_cons, List.any_cons, Bool.or_eq_true, ← ih]
    cases hu : p u <;> simp

/-- Some line is queued. -/
theorem any_line_iff : s.workQueue.any carriesLine = true ↔ 0 < queued Frame.counted s := by
  rw [← any_of_sum, queued_sum, funext counted_eq]

theorem any_inlet_iff : s.workQueue.any carriesInlet = true ↔ 0 < queued Frame.token s := by
  rw [← any_of_sum, queued_sum, funext token_eq]

/-- What is behind a line stays there while units are pushed. -/
theorem Behind.append {r : List (WorkUnit (Ref (State V)))} (h : Behind s)
    (hq : t.workQueue = s.workQueue ++ r)
    (hw : ∀ j, deferring (s.workers j) = true → deferring (t.workers j) = true) : Behind t := by
  rcases h with hq' | ⟨hline, j, hj⟩
  · exact .inl (hq ▸ tokenBehind_append hq' r)
  · refine .inr ⟨?_, j, hw j hj⟩
    rw [hq, List.any_append, hline, Bool.true_or]

/-- The token that is at the gate is behind nothing. -/
theorem not_behind (h : (machine V k n).Reachable s) {i : Fin n} {u : WorkUnit (Ref (State V))}
    {d : Ref (State V)} (hw : s.workers i = .running u (.gate d)) : ¬ Behind s := by
  intro hbehind
  have hC := (sound h).counts
  have hone : load Frame.token s.bag.frames ≤ 1 := by
    have := hC.token_le
    have := Bool.toNat_le s.mem.executed
    omega
  have hheld : held Frame.token (s.workers i) = 1 := by
    rw [hw]
    rfl
  rw [load_bag] at hone
  rcases hbehind with hq | ⟨-, j, hj⟩
  · have := any_inlet_iff.mp (any_inlet_of_behind hq)
    have := le_tally (held Frame.token) s.workers i
    omega
  · have hne : i ≠ j := by
      rintro rfl
      rw [hw] at hj
      cases hj
    have hheld' : held Frame.token (s.workers j) = 1 := by
      revert hj
      unfold deferring
      split
      · rename_i hj'
        intro _
        rw [hj']
        rfl
      · nofun
    have := add_le_tally (held Frame.token) s.workers hne
    omega

/-- **The queue holds a line** where the gate is shut: the workers hold one
each at most. -/
theorem line_queued (h : (machine V k n).Reachable s) (hfull : n < s.mem.activeLines) :
    s.workQueue.any carriesLine = true := by
  have hlines := (sound h).counts.lines
  have hle : tally (held Frame.counted) s.workers ≤ n := by
    have hone : ∀ i, held Frame.counted (s.workers i) ≤ 1 := by
      intro i
      cases hw : s.workers i with
      | running u f =>
        simp only [held]
        cases f <;> simp only [Frame.counted] <;> (try split) <;> omega
      | popped u =>
        simp only [held, WorkUnit.frames]
        split <;> simp [Frame.counted]
        split <;> omega
      | _ => exact Nat.zero_le _
    have hall : tally (held Frame.counted) s.workers ≤ tally (fun _ => 1) s.workers :=
      tally_mono hone
    rwa [tally_const, Fintype.card_fin, Nat.mul_one] at hall
  rw [load_bag] at hlines
  change _ = s.mem.activeLines at hlines
  exact any_line_iff.mpr (by omega)

end Queue

/-! ## The work of a pipeline -/

section Work

variable {s t : Pool (program V k n) n} {m : Nat}

/-- What the queue costs beside its activations: 4 for each line, and 4
for an inlet token that can come back to a shut gate. -/
def queueWork (s : Pool (program V k n) n) : Nat :=
  4 * queued Frame.counted s + if Behind s then 0 else 4

/-- What is left to do of a pipeline whose inlet returns `m` products. -/
def workLeft (m : Nat) (s : Pool (program V k n) n) : Nat :=
  load (Frame.work k) s.bag.frames + queueWork s + lineWork k * (m - s.mem.injected)
    + if s.mem.executed then 0 else 8

private theorem queueWork_le (h : Behind s → Behind t) :
    queueWork t + 4 * queued Frame.counted s ≤ queueWork s + 4 * queued Frame.counted t := by
  unfold queueWork
  by_cases hs : Behind s
  · simp only [if_pos hs, if_pos (h hs)]
    omega
  · rw [if_neg hs]
    split <;> omega

private theorem deferring_move {g : Fin n → Worker (program V k n)} {i : Fin n}
    {w : Worker (program V k n)} (hw : deferring (g i) = false) (j : Fin n)
    (hj : deferring (g j) = true) : deferring (Function.update g i w j) = true := by
  have hne : j ≠ i := by
    rintro rfl
    rw [hw] at hj
    cases hj
  rwa [Function.update_of_ne hne]

/-- **The loop adds nothing**: the line that is taken out of the queue pays
for the token it may set free. -/
theorem queueWork_loop {i : Fin n} (h : ThreadPool.step s (.loop i) = some t) :
    queueWork t ≤ queueWork s := by
  have hsame : ∀ {r}, t.workQueue = s.workQueue ++ r → (r.map (unitWeight Frame.counted)).sum = 0 →
      (∀ j, deferring (s.workers j) = true → deferring (t.workers j) = true) →
      queueWork t ≤ queueWork s := by
    intro r hq hr hw
    have hle := queueWork_le (s := s) (t := t) fun hb => hb.append hq hw
    have := queued_append Frame.counted hq
    omega
  cases step_cases h with
  | @take _ u rest hw hq =>
    have hsplit : queued Frame.counted s
        = (carriesLine u).toNat + (rest.map (unitWeight Frame.counted)).sum := by
      rw [queued_sum, hq, List.map_cons, List.sum_cons, counted_eq]
    have hrest : queued Frame.counted
        (({ s with workQueue := rest, popped := s.popped ++ [(u, i)] } :
          Pool (program V k n) n).setWorker i (.popped u))
          = (rest.map (unitWeight Frame.counted)).sum := queued_sum ..
    cases hu : carriesLine u with
    | true =>
      unfold queueWork
      rw [hsplit, hrest, hu, Bool.toNat_true]
      split <;> split <;> omega
    | false =>
      have hle := queueWork_le (s := s)
        (t := ({ s with workQueue := rest, popped := s.popped ++ [(u, i)] } :
          Pool (program V k n) n).setWorker i (.popped u)) ?_
      · rw [hsplit, hrest, hu, Bool.toNat_false] at hle
        omega
      · rintro (hb | ⟨hline, j, hj⟩)
        · rw [hq] at hb
          simp only [tokenBehind, hu, Bool.false_eq_true, if_false] at hb
          exact .inl hb
        · rw [hq, List.any_cons, hu, Bool.false_or] at hline
          exact .inr ⟨hline, j, deferring_move (by rw [hw]; rfl) j hj⟩
  | sigPush hw =>
    refine hsame (r := [_]) rfl rfl ?_
    intro j hj
    refine deferring_move (g := fun j => (s.workers j).wake) ?_ j ((deferring_wake _).trans hj)
    rw [hw]
    rfl
  | sleep hw | wakeUp hw | receive hw | start hw | free hw | sigLock hw | sigTest hw | sigDecr hw
  | sigUnlock hw | sigFree hw =>
    exact hsame (List.append_nil _).symm rfl fun j hj => deferring_move (by rw [hw]; rfl) j hj

theorem supply_move {m₀ m' : Mem V} {f : Frame V} {c : Choice V}
    {o : Outcome (Ref (State V)) (Frame V)} (h : pipelineLoop k n m₀ f c = some (m', o))
    (hc : ∀ d v, f = .inlet d → c = .returns (some v) → m₀.injected < m)
    (hle : m₀.injected ≤ m) : m'.injected ≤ m := by
  cases move_cases h with
  | @inlet d v =>
    have hv : c = .returns (some v) := by
      rcases c with _ | _ | (_ | w)
      · cases h
      · cases h
      · simp [pipelineLoop] at h
      · simp only [pipelineLoop, Option.some.injEq, Prod.mk.injEq, Outcome.go.injEq,
          Frame.restart.injEq] at h
        rw [h.2.2.1]
    have := hc d v rfl hv
    rw [Mem.injected_record]
    exact this
  | _ => simpa [Mem.injected_record, Mem.store] using hle

/-- The flags are the client's. -/
theorem flags_move {m₀ m' : Mem V} {f : Frame V} {o : Outcome (Ref (State V)) (Frame V)}
    (h : Move k n m₀ f m' o) : m'.executed = m₀.executed ∧ m'.terminated = m₀.terminated := by
  cases h <;> exact ⟨rfl, rfl⟩

/-- The lines a step pushes are queued. -/
theorem queued_unit {u : WorkUnit (Ref (State V))} {f : Frame V} {i : Fin n} {c : Choice V}
    {o : Outcome (Ref (State V)) (Frame V)} {r : Multiset (Frame V)}
    (h : UnitStep s t i u f c o r) :
    queued Frame.counted t = queued Frame.counted s + pushedLines o := by
  rw [queued_append Frame.counted h.queue]
  congr 1
  rcases o with _ | ⟨_ | _, _⟩ | _ <;> rfl

/-- What the step of a unit function does to the queue: a deferral takes
the token behind a line, and nothing brings one out. -/
theorem queueWork_unit {i : Fin n} {u : WorkUnit (Ref (State V))} {f : Frame V} {c : Choice V}
    {o : Outcome (Ref (State V)) (Frame V)} {r : Multiset (Frame V)}
    (h : (machine V k n).Reachable s) (hU : UnitStep s t i u f c o r) :
    queueWork t + 4 * deferred o ≤ queueWork s + 4 * pushedLines o := by
  have hqueue := queued_unit hU
  have hw := hU.running
  have hq := hU.queue
  have hkeep : (∀ d, f ≠ .defer d) → deferred o = 0 →
      queueWork t + 4 * deferred o ≤ queueWork s + 4 * pushedLines o := by
    intro hf ho
    have hle := queueWork_le (s := s) (t := t) fun hb => hb.append hq ?_
    · omega
    · intro j hj
      have hne : j ≠ i := by
        rintro rfl
        rw [hw] at hj
        cases f <;> first | exact absurd rfl (hf _) | cases hj
      rcases hU.others j hne with heq | heq <;> rw [heq]
      · exact hj
      · exact (deferring_wake _).trans hj
  have hfit : f.Fits k := (sound h).blocks.fits f (mem_bag_of_running hw)
  have hB := hU.before ▸ (sound h).blocks
  have hmove := move_cases hU.step
  generalize t.mem = m' at hmove
  cases hmove with
  | dead hf hd => exact absurd hd (hB.live hf)
  | @full d ht hfull =>
    have hnot := not_behind h hw
    have hline : t.workQueue.any carriesLine = true := by
      rw [hq, List.any_append, line_queued h hfull, Bool.true_or]
    have hbehind : Behind t := .inr ⟨hline, i, by rw [hU.worker]; rfl⟩
    unfold queueWork
    rw [if_pos hbehind, if_neg hnot, hqueue]
    exact Nat.le_of_eq (by simp only [deferred]; omega)
  | @«defer» d =>
    have hinlet : carriesInlet (⟨.call d, s.pushed.length⟩ : WorkUnit (Ref (State V))) = true := by
      have hstage : d.block.currentStage = -1 := hfit
      simp [carriesInlet, hstage]
    have hle := queueWork_le (s := s) (t := t) ?_
    · simp only [deferred]
      omega
    · rintro (hb | ⟨hline, -⟩)
      · exact .inl (hq ▸ tokenBehind_append hb _)
      · exact .inl (hq ▸ tokenBehind_snoc hline hinlet)
  | _ => exact hkeep (fun d hd => by cases hd) rfl

/-- The work is paid for by every step of `pipeline_loop`. -/
theorem workLeft_unit {i : Fin n} {c : Choice V} (h : (machine V k n).Reachable s)
    (hc : OnBag (Supply m) s (.unit i c)) (hle : s.mem.injected ≤ m)
    (hs : ThreadPool.step s (.unit i c) = some t) :
    t.mem.injected ≤ m ∧ workLeft m t < workLeft m s := by
  obtain ⟨u, f, o, r, hU⟩ := unit_step hs
  have hmove := move_cases hU.step
  have hS := sound h
  rw [hU.before] at hS
  have hlines := hS.counts.lines
  rw [load_cons] at hlines
  have hle' : t.mem.injected ≤ m := by
    refine supply_move hU.step ?_ hle
    rintro d v rfl rfl
    exact hc (.unit (.inlet d) (.returns (some v))) (by simp [Pool.act, hU.running])
  refine ⟨hle', ?_⟩
  have hwork := work_move hmove hS.blocks (by omega)
  have hexec : t.mem.executed = s.mem.executed := (flags_move hmove).1
  have hqueue := queueWork_unit h hU
  have hmul : lineWork k * (m - t.mem.injected) + lineWork k * t.mem.injected
      = lineWork k * (m - s.mem.injected) + lineWork k * s.mem.injected := by
    rw [← Nat.mul_add, ← Nat.mul_add]
    congr 1
    omega
  have hafter : t.bag.frames = o.frames .enter + r := hU.after
  unfold workLeft
  rw [hU.before, hafter, load_cons, load_add, hexec]
  omega

/-- What `pipeline_execute` does to the pool. -/
structure Executed (s t : Pool (program V k n) n) (a : Nat) : Prop where
  new : s.mem.executed = false
  injected : t.mem.injected = s.mem.injected
  flags : t.mem.executed = true ∧ t.mem.terminated = s.mem.terminated
  frames : t.bag.frames = .enter ⟨a, none, -1, 0⟩ ::ₘ s.bag.frames
  queue : t.workQueue = s.workQueue ++ [⟨.call ⟨a, none, -1, 0⟩, s.pushed.length⟩]
  pushed : t.pushed.length = s.pushed.length + 1
  workers : ∀ j, t.workers j = (s.workers j).wake

theorem client_step {x : Client} (hs : ThreadPool.step s (.client x) = some t) :
    t = { s with mem := { s.mem with terminated := true } } ∨ ∃ a, Executed s t a := by
  cases step_cases hs with
  | client hp =>
    obtain ⟨-, rfl, -⟩ | ⟨a, -, -, -, -, ⟨⟩⟩ := client_cases hp
    exact .inl rfl
  | clientRequest hp =>
    obtain ⟨-, -, ⟨⟩⟩ | ⟨a, -, hnew, -, rfl, ⟨⟩⟩ := client_cases hp
    let p : Pool (program V k n) n :=
      { s with mem := { s.mem.store a (some ⟨none, -1, 0⟩) with executed := true } }
    have hbag : (p.serve (.push ⟨a, none, -1, 0⟩)).bag = p.bag.serve (.push ⟨a, none, -1, 0⟩) :=
      bag_serve ..
    exact .inr ⟨a, hnew, rfl, ⟨rfl, rfl⟩, congrArg Bag.frames hbag, rfl, List.length_append,
      fun _ => rfl⟩

/-- Its token is not a line yet. -/
theorem Executed.queued_counted {a : Nat} (h : Executed s t a) :
    queued Frame.counted t = queued Frame.counted s := by
  rw [queued_append Frame.counted h.queue]
  rfl

/-- `pipeline_execute` pays for its token, and `pipeline_terminate` costs
nothing. -/
theorem workLeft_client {x : Client} (hs : ThreadPool.step s (.client x) = some t) :
    t.mem.injected = s.mem.injected ∧
      workLeft m t + (t.pushed.length - s.pushed.length) ≤ workLeft m s := by
  rcases client_step hs with rfl | ⟨a, hE⟩
  · refine ⟨rfl, Nat.le_of_eq ?_⟩
    rw [Nat.sub_self]
    rfl
  · have hqueue := queueWork_le (s := s) (t := t) fun hb => hb.append hE.queue fun j hj => by
      rw [hE.workers, deferring_wake]
      exact hj
    rw [hE.queued_counted] at hqueue
    refine ⟨hE.injected, ?_⟩
    simp only [workLeft, hE.frames, load_cons, hE.injected, hE.flags.1, hE.new, hE.pushed,
      Frame.work]
    simp
    omega

/-- **Every schedule comes to an end.** -/
theorem workLeft_pays {e : Event (program V k n) n} (h : (machine V k n).Reachable s)
    (hle : s.mem.injected ≤ m) (hc : OnBag (Supply m) s e) (hs : ThreadPool.step s e = some t) :
    t.mem.injected ≤ m ∧ Pays (workLeft m) s e t := by
  cases e with
  | loop i =>
    have hbag : t.bag = s.bag := by
      rcases bag_step hs with ⟨-, heq⟩ | ⟨a, ha, -⟩
      · exact heq
      · cases ha
    have hmem : t.mem = s.mem := congrArg Bag.mem hbag
    have hqueue := queueWork_loop hs
    refine ⟨hmem ▸ hle, ?_⟩
    simp only [Pays, workLeft, hbag, hmem]
    omega
  | unit i c => exact workLeft_unit h hc hle hs
  | client x =>
    obtain ⟨hinj, hpays⟩ := workLeft_client (m := m) hs
    exact ⟨hinj ▸ hle, hpays⟩

end Work

/-- The workers' steps, for `m` products. -/
def stepsFor (k n m : Nat) : Nat :=
  (n + 4) * (lineWork k * m + 12) + n * (n + 8)

theorem workLeft_start (m : Nat) : workLeft m (machine V k n).init ≤ lineWork k * m + 12 := by
  have hframes : (machine V k n).init.bag.frames = 0 :=
    (sound (V := V) (k := k) (n := n) .init (C := fun _ _ => True)).counts.idle rfl
  have hqueue : queueWork (machine V k n).init ≤ 4 := by
    change 4 * 0 + (if Behind (machine V k n).init then 0 else 4) ≤ 4
    split <;> omega
  change load (Frame.work k) (machine V k n).init.bag.frames + queueWork (machine V k n).init
    + lineWork k * (m - 0) + 8 ≤ _
  rw [hframes, load_zero, Nat.sub_zero]
  omega

theorem effort_start (m : Nat) :
    (machine V k n).init.effort (workLeft m) ≤ stepsFor k n m := by
  have hrest : tally (Worker.rest n) (machine V k n).init.workers = n * (n + 8) := by
    change tally (fun w => Worker.rest n w) (fun _ : Fin n => .popping) = n * (n + 8)
    simp [tally, Worker.rest]
  have hmul := Nat.mul_le_mul_left (n + 4) (workLeft_start (V := V) (k := k) (n := n) m)
  unfold Pool.effort stepsFor
  rw [hrest]
  change _ + 3 * 0 + _ ≤ _
  omega

/-- **Every run of a pipeline is bounded** whose inlet returns `m` products
at most, under every schedule and whenever `pipeline_terminate` is called:
the workers take no more than `stepsFor k n m` steps, and two for each time
one of them wakes up for nothing. -/
theorem every_run_bounded {m : Nat} {t : Pool (program V k n) n}
    {es : List (Event (program V k n) n)}
    (hes : (machine V k n).Meets (OnBag (Supply m)) (machine V k n).init es)
    (hrun : (machine V k n).run (machine V k n).init es = some t) :
    workerSteps (machine V k n) (machine V k n).init es
      ≤ stepsFor k n m + 2 * wakeUps (machine V k n) (machine V k n).init es := by
  have hle := worker_steps_le (Ψ := workLeft m)
    (I := fun s : Pool (program V k n) n => (machine V k n).Reachable s ∧ s.mem.injected ≤ m)
    (fun hI hc hs => by
      obtain ⟨hinj, hpays⟩ := workLeft_pays hI.1 hI.2 hc hs
      exact ⟨⟨.step hI.1 trivial hs, hinj⟩, hpays⟩)
    ⟨.init, Nat.zero_le _⟩ hes hrun
  exact hle.trans (Nat.add_le_add_right (effort_start m) _)

/-- The run in which the inlet token comes back to a shut gate. -/
theorem every_run_bounded_deferred :
    (machine Nat 1 1).Meets (OnBag (Supply 3)) (machine Nat 1 1).init deferredRun ∧
      stepsFor 1 1 3 = 504 ∧
      workerSteps (machine Nat 1 1) (machine Nat 1 1).init deferredRun
        ≤ 504 + 2 * wakeUps (machine Nat 1 1) (machine Nat 1 1).init deferredRun :=
  ⟨by decide, by decide, every_run_bounded (m := 3) (by decide)
    (Option.some_get (by decide)).symm⟩

end Loomlib.Pipeline
