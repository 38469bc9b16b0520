import Loomlib.Pipeline.Bounded
import Loomlib.Pipeline.Inlet
import Loomlib.Pipeline.Shutdown
import Loomlib.Pipeline.Terminate

/-!
# Pipeline — Drain

Where a pipeline comes to rest. It can go on until all workers sleep or
have exited, and then each product the inlet returned was deposited, or is
in a unit that the workers left in the queue when they exited. Without
`pipeline_terminate` they have all exited. After it the pipeline comes to
rest within a number of steps that depends on the pumps and the workers
only, whatever the inlet would still return.
-/

namespace Loomlib.Pipeline

open ThreadPool

variable {V : Type} {k n : Nat} {s t : Pool (program V k n) n}

/-! ## At rest -/

/-- What a product comes to when nothing moves any more. -/
structure Settled (s : Pool (program V k n) n) : Prop where
  /-- It was deposited, or is left in the queue, once. -/
  once : ∀ l < s.mem.injected, s.mem.delivered l + queued (Frame.carries l) s = 1
  given : ∀ l, s.mem.given l = s.mem.delivered l
  /-- Nothing is left unless the workers have exited. -/
  left : s.workQueue ≠ [] → ∀ i, s.workers i = .exited

theorem held_resting (w : Frame V → Nat) {x : Worker (program V k n)} (hx : x.Resting) :
    held w x = 0 := by
  rcases hx with rfl | rfl <;> rfl

/-- What rests weighs what is queued. -/
theorem load_halted (w : Frame V → Nat) (hrest : s.Halted) :
    load w s.bag.frames = queued w s := by
  rw [load_bag, tally_eq_zero.mpr fun i => held_resting w (hrest i), Nat.add_zero]

/-- **What rests is settled.** -/
theorem settled (h : (machine V k n).Reachable s) (hrest : s.Halted) : Settled s := by
  have hC := (sound h).counts
  refine ⟨?_, ?_, ?_⟩
  · intro l hl
    have hproducts := hC.products l
    have hone : s.mem.returned l = 1 := if_pos hl
    rw [load_halted _ hrest, hone] at hproducts
    omega
  · intro l
    have hdeposits := hC.deposits l
    have hnone : queued (Frame.depositing l) s = 0 := by
      rw [queued_sum]
      refine List.sum_eq_zero ?_
      intro x hx
      obtain ⟨u, -, rfl⟩ := List.mem_map.mp hx
      unfold unitWeight
      cases u.func <;> rfl
    rw [load_halted _ hrest, hnone] at hdeposits
    omega
  · intro hleft
    exact (halted_cases h hrest).resolve_right fun hsleep => hleft hsleep.2.1

/-- The routines return, and `malloc` finds memory: an activation can go on
without another product from the inlet. -/
theorem can_go_on {m : Mem V} (hfresh : ∃ a, m.heap a = none) (f : Frame V) :
    ∃ c, (pipelineLoop k n m f c).isSome = true ∧ ∀ v, c ≠ .returns (some v) := by
  have hrun : (pipelineLoop k n m f .run).isSome = true →
      ∃ c, (pipelineLoop k n m f c).isSome = true ∧ ∀ v, c ≠ .returns (some v) :=
    fun h => ⟨.run, h, by simp⟩
  cases f with
  | restart d v l =>
    obtain ⟨a, ha⟩ := hfresh
    exact ⟨.malloc a, by simp [pipelineLoop, ha], by simp⟩
  | inlet d | pump d | outlet d => exact ⟨.returns none, rfl, by simp⟩
  | enter d | dropState d | freeState d | advance d p l =>
    apply hrun
    simp only [pipelineLoop]
    cases m.heap d.addr <;> rfl
  | gate d =>
    apply hrun
    simp only [pipelineLoop]
    split
    · rfl
    · split <;> rfl
  | retire =>
    apply hrun
    simp only [pipelineLoop]
    split <;> rfl
  | _ => exact hrun rfl

/-- Somebody goes on, the inlet returning nothing more. -/
def GoesOn (s : Pool (program V k n) n) : Prop :=
  ∃ e t, ThreadPool.step s e = some t ∧ e.byWorker = 1 ∧ s.spurious e = 0 ∧ OnBag (Supply 0) s e

theorem goes_on_or_halted (h : (machine V k n).Reachable s) : GoesOn s ∨ s.Halted := by
  rcases moves_or_halted h with hrest | ⟨i, u, f, hw⟩ | ⟨j, hj, hne⟩
  · exact .inr hrest
  · obtain ⟨c, hc, hnone⟩ := can_go_on (k := k) (n := n) (sound h).blocks.owned.fresh f
    obtain ⟨t, ht⟩ := Option.isSome_iff_exists.mp (runUnit_isSome hw hc)
    refine .inl ⟨.unit i c, t, ht, rfl, rfl, ?_⟩
    intro a ha
    obtain rfl : .unit f c = a := by simpa [Pool.act, hw] using ha
    unfold Supply
    split
    · rename_i heq
      cases heq
      exact absurd rfl (hnone _)
    · trivial
  · obtain ⟨t, ht⟩ := Option.isSome_iff_exists.mp hj
    exact .inl ⟨.loop j, t, ht, rfl, if_neg hne, by simp [OnBag, Pool.act]⟩

/-! ## Without pipeline_terminate -/

/-- `pipeline_terminate` is not called. -/
def Undisturbed (_ : Bag (program V k n)) : Act (program V k n) → Prop
  | .client .terminate => False
  | .client (.execute _) | .unit _ _ => True

instance (b : Bag (program V k n)) : ∀ a, Decidable (Undisturbed b a)
  | .client .terminate => isFalse id
  | .client (.execute _) | .unit _ _ => isTrue trivial

/-- What holds of a pipeline that is left alone: until the pool is told, an
inlet token waits or a line is counted. -/
theorem undisturbed (h : (machine V k n).ReachableBy (OnBag Undisturbed) s) :
    s.mem.terminated = false ∧ Tended s.mem s.bag.frames s.terminates := by
  refine sound_invariant (I := fun b => b.mem.terminated = false ∧ Tended b.mem b.frames b.calls)
    ⟨rfl, nofun⟩ ?_ h
  intro b a b' hS hI hc hs
  obtain ⟨hgo, hI⟩ := hI
  refine ⟨?_, hI.step hS ?_ hs⟩
  · cases bagMove_cases hs with
    | unit hmove => cases hmove <;> exact hgo
    | terminate => exact hc.elim
    | execute => exact hgo
  · unfold LineLeft
    split
    · intro ht
      cases hgo.symm.trans ht
    · trivial

/-- A pipeline that is left alone does not fall asleep. -/
theorem exited_of_halted (h : (machine V k n).ReachableBy (OnBag Undisturbed) s)
    (hexec : s.mem.executed = true) (hrest : s.Halted) : ∀ i, s.workers i = .exited := by
  refine (halted_cases h.reachable hrest).resolve_right ?_
  rintro ⟨-, hq, hcalls⟩
  have hnone : ∀ w, load w s.bag.frames = 0 := by
    intro w
    rw [load_halted w hrest, queued_sum, hq]
    rfl
  have hlines : s.mem.activeLines = 0 := (sound h).counts.lines.symm.trans (hnone _)
  have htended := (undisturbed h).2 hexec hcalls
  rw [hnone, hlines] at htended
  exact Nat.lt_irrefl 0 htended

/-- **A pipeline that is left alone completes.** Some worker can go on until
all have exited, whatever the order of their steps; and then the pool was
told to terminate, the inlet has returned NULL unless its token is left in
the queue, and every product was deposited unless its line is. -/
theorem left_alone_completes (hn : 1 ≤ n)
    (h : (machine V k n).ReachableBy (OnBag Undisturbed) s) (hexec : s.mem.executed = true) :
    (GoesOn s ∨ ∀ i, s.workers i = .exited) ∧
      ((∀ i, s.workers i = .exited) →
        0 < s.terminates ∧ s.mem.dry.toNat + queued Frame.token s = 1 ∧ Settled s) := by
  refine ⟨(goes_on_or_halted h.reachable).imp_right (exited_of_halted h hexec), ?_⟩
  intro hdone
  have hrest : s.Halted := fun i => .inr (hdone i)
  obtain ⟨g, hg, hsig⟩ := hands h.reachable ⟨0, hn⟩ (by simp [hdone])
  have hasked := asked h.reachable ⟨g, (history h.reachable).popped_mem hg, hsig⟩
  have htoken := (sound h).counts.token (undisturbed h).1
  rw [load_halted _ hrest] at htoken
  change _ = s.mem.executed.toNat at htoken
  rw [hexec] at htoken
  exact ⟨hasked, by simpa [Nat.add_comm] using htoken, settled h.reachable hrest⟩

/-- One of two products is left in the queue, behind a signal. -/
theorem left_alone_loses :
    let s := (machine Nat 0 2).final lostProduct (by decide)
    (∀ i, s.workers i = .exited) ∧ s.mem.injected = 2 ∧ s.mem.dry.toNat = 1 ∧ Settled s :=
  have h := left_alone_completes (by decide)
    ((machine Nat 0 2).reachableBy_final lostProduct (by decide) (by decide)) (by decide)
  ⟨by decide, by decide, by decide, (h.2 (by decide)).2.2⟩

/-! ## After pipeline_terminate -/

/-- It is past the gate, and before the return of the inlet. -/
def Frame.fetching (f : Frame V) : Nat :=
  f.calling + f.inside

/-- What an activation costs when the gate lets nobody through: it pays for
the product it may still fetch. -/
def Frame.drain (k : Nat) (f : Frame V) : Nat :=
  f.work k + lineWork k * f.fetching

private theorem load_drain (fs : Multiset (Frame V)) : load (Frame.drain k) fs
    = load (Frame.work k) fs + lineWork k * load Frame.fetching fs := by
  induction fs using Multiset.induction with
  | empty => rfl
  | cons f fs ih =>
    simp only [load_cons, ih, Frame.drain, Nat.mul_add]
    omega

/-- A product is fetched by a token that has passed the gate. -/
private theorem fetching_move {m m' : Mem V} {f : Frame V} {o : Outcome (Ref (State V)) (Frame V)}
    (h : Move k n m f m' o) (ht : m.terminated = true) :
    load Frame.fetching (o.frames .enter) + m'.injected ≤ f.fetching + m.injected := by
  cases h with
  | «open» hgo => cases ht.symm.trans hgo
  | inlet =>
    simp only [Outcome.frames, load_singleton, Frame.fetching, Frame.calling, Frame.inside,
      Mem.injected_record]
    omega
  | _ => simp [Frame.fetching, Frame.calling, Frame.inside, Mem.injected_record, Mem.store]

/-- **The gate is shut for good**, so no step costs more than it pays. -/
theorem drain_move {m m' : Mem V} {f : Frame V} {o : Outcome (Ref (State V)) (Frame V)}
    {r : Multiset (Frame V)} (h : Move k n m f m' o) (hB : Blocks k m.heap (f ::ₘ r))
    (hpos : f.counted ≤ m.activeLines) (ht : m.terminated = true) :
    load (Frame.drain k) (o.frames .enter) + 4 * pushedLines o < f.drain k := by
  have hwork := work_move h hB hpos
  have hfetch := Nat.mul_le_mul_left (lineWork k) (fetching_move h ht)
  have hdefer : deferred o = 0 := by
    cases h with
    | dead hf hd => exact absurd hd (hB.live hf)
    | full hgo => cases ht.symm.trans hgo
    | _ => rfl
  simp only [Nat.mul_add] at hfetch
  rw [load_drain, Frame.drain]
  omega

/-- What is left to do of a pipeline that is terminated. -/
def drainLeft (s : Pool (program V k n) n) : Nat :=
  load (Frame.drain k) s.bag.frames + 4 * queued Frame.counted s + if s.mem.executed then 0 else 8

private theorem queued_loop {i : Fin n} (w : Frame V → Nat)
    (hs : ThreadPool.step s (.loop i) = some t) : queued w t ≤ queued w s := by
  cases step_cases hs with
  | @take _ u rest hw hq =>
    rw [queued_sum w s, hq, List.map_cons, List.sum_cons]
    exact (Nat.le_of_eq (queued_sum ..)).trans (Nat.le_add_left _ _)
  | @sigPush i u hw =>
    have happ := queued_append (s := s)
      (t := (s.threadPoolPush .termSig).setWorker i (.signal u .decr))
      (r := [⟨.termSig, s.pushed.length⟩]) w rfl
    exact Nat.le_of_eq (by simpa [unitWeight] using happ)
  | _ => exact Nat.le_refl _

theorem drainLeft_pays {e : Event (program V k n) n} (h : (machine V k n).Reachable s)
    (ht : s.mem.terminated = true) (hs : ThreadPool.step s e = some t) :
    t.mem.terminated = true ∧ Pays drainLeft s e t := by
  cases e with
  | loop i =>
    have hbag : t.bag = s.bag := by
      rcases bag_step hs with ⟨-, heq⟩ | ⟨a, ha, -⟩
      · exact heq
      · cases ha
    have hmem : t.mem = s.mem := congrArg Bag.mem hbag
    have hqueue := queued_loop Frame.counted hs
    refine ⟨hmem ▸ ht, ?_⟩
    simp only [Pays, drainLeft, hbag, hmem]
    omega
  | unit i c =>
    obtain ⟨u, f, o, r, hU⟩ := unit_step hs
    have hmove := move_cases hU.step
    have hS := sound h
    rw [hU.before] at hS
    have hlines := hS.counts.lines
    rw [load_cons] at hlines
    have hdrain := drain_move hmove hS.blocks (by omega) ht
    have hflags : t.mem.executed = s.mem.executed ∧ t.mem.terminated = s.mem.terminated :=
      flags_move hmove
    have hqueue := queued_unit hU
    have hafter : t.bag.frames = o.frames .enter + r := hU.after
    refine ⟨hflags.2.trans ht, ?_⟩
    change drainLeft t < drainLeft s
    unfold drainLeft
    rw [hU.before, hafter, load_cons, load_add, hflags.1]
    omega
  | client x =>
    rcases client_step hs with rfl | ⟨a, hE⟩
    · refine ⟨rfl, Nat.le_of_eq ?_⟩
      rw [Nat.sub_self]
      rfl
    · refine ⟨hE.flags.2.trans ht, ?_⟩
      simp only [Pays, drainLeft, hE.frames, load_cons, hE.queued_counted, hE.flags.1, hE.new,
        hE.pushed, Frame.drain, Frame.work, Frame.fetching, Frame.calling, Frame.inside]
      simp
      omega

/-- It is about to return. -/
def Frame.finished : Frame V → Nat
  | .done => 1
  | _ => 0

theorem work_le {f : Frame V} (hf : f.Fits k) :
    f.work k ≤ (10 * (k + 1) + 12) * f.counted + 9 * f.token + f.finished := by
  have hleft : ∀ d : Ref (State V), 0 ≤ d.block.currentStage → d.block.left k ≤ k := by
    intro d hd
    unfold State.left
    omega
  cases f with
  | enter d =>
    simp only [Frame.work, Frame.counted, Frame.token, Frame.finished]
    split
    · omega
    · have := hleft d (by omega)
      omega
  | callPump d | pump d | push d =>
    have := hleft d hf.1
    simp only [Frame.work, Frame.counted, Frame.token, Frame.finished]
    omega
  | advance d p l =>
    have hstage : -1 ≤ d.block.currentStage ∧ d.block.currentStage < k := hf
    simp only [Frame.work, Frame.counted, Frame.token, Frame.finished, State.left]
    omega
  | _ =>
    simp only [Frame.work, Frame.counted, Frame.token, Frame.finished]
    omega

theorem load_work_le {fs : Multiset (Frame V)} (hfs : ∀ f ∈ fs, f.Fits k) :
    load (Frame.work k) fs ≤ (10 * (k + 1) + 12) * load Frame.counted fs
      + 9 * load Frame.token fs + load Frame.finished fs := by
  induction fs using Multiset.induction with
  | empty => simp
  | cons f fs ih =>
    have hf := work_le (hfs f (Multiset.mem_cons_self _ _))
    have hle := ih fun g hg => hfs g (Multiset.mem_cons_of_mem hg)
    rw [load_cons, load_cons, load_cons, load_cons, Nat.mul_add (10 * (k + 1) + 12)]
    omega

/-- A unit with a function is a line or the inlet token. -/
theorem queuedCalls_eq (s : Pool (program V k n) n) :
    queuedCalls s.workQueue = queued Frame.counted s + queued Frame.token s := by
  rw [queued_sum, queued_sum]
  induction s.workQueue with
  | nil => rfl
  | cons u q ih =>
    rw [queuedCalls_cons, ih]
    simp only [List.map_cons, List.sum_cons, counted_eq, token_eq]
    have hone : (carriesLine u).toNat + (carriesInlet u).toNat = (!u.func.isSig).toNat := by
      unfold carriesLine carriesInlet
      cases u.func with
      | termSig => rfl
      | call d => by_cases hd : d.block.currentStage < 0 <;> simp [hd, Func.isSig]
    omega

/-- The workers' steps from `pipeline_terminate` on. -/
def drainSteps (k n : Nat) : Nat :=
  (n + 4) * ((10 * k + 26) * (n + 1) + n + 17 + lineWork k) + 3 * (n + 2) + n * (n + 10)

theorem effort_drain (h : (machine V k n).Reachable s) : s.effort drainLeft ≤ drainSteps k n := by
  have hS := sound h
  have hlines : load Frame.counted s.bag.frames ≤ n + 1 := hS.counts.lines.trans_le (bounded h)
  have htoken : load Frame.token s.bag.frames ≤ 1 := by
    have := hS.counts.token_le
    have := Bool.toNat_le s.mem.executed
    omega
  have hfetch : load Frame.fetching s.bag.frames ≤ 1 := by
    refine (load_mono ?_ _).trans htoken
    intro f
    cases f <;> simp [Frame.fetching, Frame.calling, Frame.inside, Frame.token]
  have hdone : load Frame.finished s.bag.frames ≤ n := by
    have heq : load Frame.finished s.bag.frames
        = tally (fun w => weigh Frame.finished w.frames) s.workers :=
      weigh_bag (fun _ => rfl) s
    have hone : ∀ i, weigh Frame.finished (s.workers i).frames ≤ 1 := by
      intro i
      cases hw : s.workers i with
      | running u f =>
        rw [Worker.frames, weigh_singleton]
        cases f <;> simp [Frame.finished]
      | popped u =>
        simp only [Worker.frames, WorkUnit.frames]
        split <;> simp [Frame.finished]
      | _ => exact Nat.zero_le _
    have hall : tally (fun w : Worker (program V k n) => weigh Frame.finished w.frames) s.workers
        ≤ tally (fun _ => 1) s.workers := tally_mono hone
    rw [tally_const, Fintype.card_fin, Nat.mul_one] at hall
    exact heq.trans_le hall
  have hload := load_bag Frame.counted s
  have hload' := load_bag Frame.token s
  have hcalls := queuedCalls_eq s
  have hrest : tally (Worker.rest n) s.workers ≤ n * (n + 10) := by
    have hall : tally (Worker.rest n) s.workers ≤ tally (fun _ => n + 10) s.workers :=
      tally_mono fun i => (s.workers i).rest_le
    rwa [tally_const, Fintype.card_fin] at hall
  have hleft : drainLeft s ≤ (10 * k + 26) * (n + 1) + n + 17 + lineWork k := by
    have hwork := load_work_le hS.blocks.fits
    have hmul := Nat.mul_le_mul_left (10 * (k + 1) + 12) hlines
    have hmul' := Nat.mul_le_mul_left (lineWork k) hfetch
    have hsplit : (10 * k + 26) * (n + 1) = (10 * (k + 1) + 12) * (n + 1) + 4 * (n + 1) := by
      have : 10 * k + 26 = 10 * (k + 1) + 12 + 4 := by omega
      rw [this, Nat.add_mul]
    unfold drainLeft
    rw [load_drain, hsplit]
    split <;> omega
  have hmul := Nat.mul_le_mul_left (n + 4) hleft
  unfold Pool.effort drainSteps
  omega

/-- **A terminated pipeline drains.** From `pipeline_terminate` on, every
run takes a number of steps that depends on the pumps and the workers only,
but for spurious wake-ups, whatever the inlet returns; and wherever it has
led, somebody can go on, the inlet returning nothing more, or everything is
at rest and settled. -/
theorem terminate_drains (h : (machine V k n).Reachable s) (ht : s.mem.terminated = true)
    {es : List (Event (program V k n) n)} (hrun : (machine V k n).run s es = some t) :
    workerSteps (machine V k n) s es ≤ drainSteps k n + 2 * wakeUps (machine V k n) s es ∧
      (GoesOn t ∨ t.Halted ∧ Settled t) := by
  constructor
  · have hle := worker_steps_le (Ψ := drainLeft) (C := fun _ _ => True)
      (I := fun s : Pool (program V k n) n => (machine V k n).Reachable s ∧ s.mem.terminated = true)
      (fun hI _ hs => by
        obtain ⟨hterm, hpays⟩ := drainLeft_pays hI.1 hI.2 hs
        exact ⟨⟨.step hI.1 trivial hs, hterm⟩, hpays⟩)
      ⟨h, ht⟩ (Machine.meets_true s es) hrun
    exact hle.trans (Nat.add_le_add_right (effort_drain h) _)
  · have hr : (machine V k n).Reachable t := h.run hrun
    exact (goes_on_or_halted hr).imp_right fun hrest => ⟨hrest, settled hr hrest⟩

/-- The token that has passed the gate. -/
theorem terminate_drains_late :
    let s := (machine Nat 0 1).final lateRun (by decide)
    let es : List (Event (program Nat 0 1) 1) :=
      go first 1 ++ dryUp first ++ List.replicate 7 (.loop first)
    s.mem.terminated = true ∧ drainSteps 0 1 = 465 ∧
      workerSteps (machine Nat 0 1) s es ≤ 465 + 2 * wakeUps (machine Nat 0 1) s es :=
  ⟨by decide, by decide, (terminate_drains
    ((machine Nat 0 1).reachable_final lateRun (by decide)) (by decide)
    (Option.some_get (by decide)).symm).1⟩

end Loomlib.Pipeline
