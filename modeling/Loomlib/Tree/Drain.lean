import Loomlib.ThreadPool.Progress
import Loomlib.Tree.Visits
import Mathlib.Algebra.GroupWithZero.Nat

/-!
# Tree — Drain

A tree goes round for ever, pass after pass, until `tree_terminate`. From
then on it comes to rest: the gate starts no other pass, and a pass that
has started goes on to the vertices below those it has reached, of which
there are fewer with each step.
-/

namespace Loomlib.Tree

open ThreadPool

variable {ι V : Type} [DecidableEq ι] {T : Shape ι} {n : Nat} {s t : Pool (program V T n) n}

/-! ## The vertices below -/

/-- Every way down the tree comes to an end. -/
def Shape.Founded (T : Shape ι) : Prop :=
  WellFounded fun v u => v ∈ T.children u

/-- What a pass costs below a vertice. -/
noncomputable def Shape.below (hT : T.Founded) : ι → Nat :=
  hT.fix fun u rec => ((T.children u).attach.map fun v => rec v.1 v.2 + 9).sum

omit [DecidableEq ι] in
theorem Shape.below_eq (hT : T.Founded) (u : ι) :
    T.below hT u = ((T.children u).map fun v => T.below hT v + 9).sum := by
  rw [below, hT.fix_eq]
  exact congrArg List.sum (List.attach_map_val (f := fun v => T.below hT v + 9))

/-- What an activation costs when the gate lets nobody through. -/
noncomputable def Frame.drain (hT : T.Founded) : Frame ι V → Nat
  | .enter s => if s.vertice = T.root then 2 else T.below hT s.vertice + 8
  | .gate _ | .done => 1
  | .defer _ | .restart _ => 4
  | .callRoutine s => T.below hT s.vertice + 7
  | .routine s => T.below hT s.vertice + 6
  | .children s _ i => (((T.children s.vertice).drop i).map fun v => T.below hT v + 9).sum + 5
  | .retire _ => 2

/-- **The gate is shut for good**, so every step costs. -/
theorem drain_step (hT : T.IsTree) (hwf : T.Founded) {m m' : Mem ι V} {f : Frame ι V}
    {c : Choice V} {o : Outcome (State ι V) (Frame ι V)} (h : treeLoop T n m f c = some (m', o))
    (hat : f.AtRoot T) (ht : m.terminated = true) :
    weigh (Frame.drain hwf) (o.frames .enter) < f.drain hwf := by
  cases move_cases h with
  | enterRoot hs | enter hs => simp [Frame.drain, hs]
  | full => simp [treeLoop, ht] at h
  | terminated | call | leave | retire | retireLast | done => simp [Frame.drain]
  | «open» hgo => cases ht.symm.trans hgo
  | «defer» =>
    have hs : _ = T.root := hat
    simp [Frame.drain, hs]
  | leaf => simp [Frame.drain]
  | inner =>
    have hbelow := T.below_eq hwf
    simp [Frame.drain, ← hbelow]
  | @child s p i v hv =>
    obtain ⟨hi, hget⟩ := List.getElem?_eq_some_iff.mp hv
    have hne : v ≠ T.root := by
      rintro rfl
      exact hT.root s.vertice (List.mem_of_getElem? hv)
    have hdrop := List.drop_eq_getElem_cons hi
    rw [hget] at hdrop
    simp [Frame.drain, hdrop, hne]
    omega
  | lastChild => simp [Frame.drain]
  | restart hs => simp [Frame.drain, hs]

/-- What is left to do of a tree that is terminated. -/
noncomputable def drainLeft (hT : T.Founded) (s : Pool (program V T n) n) : Nat :=
  weigh (Frame.drain hT) s.bag.frames + if s.mem.executed then 0 else 3

theorem drainLeft_pays (hT : T.IsTree) (hwf : T.Founded) {e : Event (program V T n) n}
    (h : (machine V T n).Reachable s) (ht : s.mem.terminated = true)
    (hs : ThreadPool.step s e = some t) :
    t.mem.terminated = true ∧ Pays (drainLeft hwf) s e t := by
  cases e with
  | loop i =>
    have hbag : t.bag = s.bag := by
      rcases bag_step hs with ⟨-, heq⟩ | ⟨a, ha, -⟩
      · exact heq
      · cases ha
    have hmem : t.mem = s.mem := congrArg Bag.mem hbag
    refine ⟨hmem ▸ ht, ?_⟩
    simp only [Pays, drainLeft, hbag, hmem]
    exact Nat.le_refl _
  | unit i c =>
    obtain ⟨u, f, o, r, hU⟩ := unit_step hs
    have hmove := move_cases hU.step
    have hat := (visiting hT h).accounted.atRoot f (mem_bag_of_running hU.running)
    have hdrain := drain_step hT hwf hU.step hat ht
    have hflags : t.mem.executed = s.mem.executed ∧ t.mem.terminated = s.mem.terminated := by
      generalize t.mem = m' at hmove
      cases hmove <;> exact ⟨rfl, rfl⟩
    have hafter : t.bag.frames = o.frames .enter + r := hU.after
    refine ⟨hflags.2.trans ht, ?_⟩
    change drainLeft hwf t < drainLeft hwf s
    unfold drainLeft
    rw [hU.before, hafter, weigh_cons, weigh_add, hflags.1]
    omega
  | client x =>
    cases step_cases hs with
    | client hp =>
      obtain ⟨rfl, -⟩ | ⟨-, -, ⟨⟩⟩ := client_cases hp
      refine ⟨rfl, Nat.le_of_eq ?_⟩
      rw [Nat.sub_self]
      rfl
    | clientRequest hp =>
      obtain ⟨-, ⟨⟩⟩ | ⟨hnew, rfl, ⟨⟩⟩ := client_cases hp
      let p : Pool (program V T n) n := { s with mem := { s.mem with executed := true } }
      let t : Pool (program V T n) n := p.serve (.push ⟨T.root, none, 0⟩)
      have hbag : t.bag = p.bag.serve (.push ⟨T.root, none, 0⟩) := bag_serve ..
      have hframes : t.bag.frames = .enter ⟨T.root, none, 0⟩ ::ₘ s.bag.frames :=
        congrArg Bag.frames hbag
      have hpushed : t.pushed.length = s.pushed.length + 1 := List.length_append
      have hexec : t.mem.executed = true := rfl
      refine ⟨ht, ?_⟩
      change drainLeft hwf t + (t.pushed.length - s.pushed.length) ≤ drainLeft hwf s
      simp only [drainLeft, hframes, weigh_cons, hexec, hnew, hpushed, Frame.drain]
      simp
      omega

/-! ## At rest -/

/-- Somebody goes on. -/
def GoesOn (s : Pool (program V T n) n) : Prop :=
  ∃ e t, ThreadPool.step s e = some t ∧ e.byWorker = 1 ∧ s.spurious e = 0

/-- What the passes come to when nothing moves any more. -/
structure Settled (T : Shape ι) (s : Pool (program V T n) n) : Prop where
  /-- Each of them has visited the tree, but for what is left in the queue. -/
  visited : s.workQueue = [] → ∀ p < s.mem.passes, ∀ v, T.Vertice v →
    calls s.mem.log v p = 1 ∧ rets s.mem.log v p = 1
  /-- Nothing is left unless the workers have exited. -/
  left : s.workQueue ≠ [] → ∀ i, s.workers i = .exited

/-- A routine returns, so an activation can go on. -/
theorem can_go_on (m : Mem ι V) (f : Frame ι V) : ∃ c, (treeLoop T n m f c).isSome = true := by
  cases f with
  | routine s => exact ⟨.returns none, rfl⟩
  | gate s =>
    refine ⟨.run, ?_⟩
    simp only [treeLoop]
    split
    · rfl
    · split <;> rfl
  | children s p i =>
    refine ⟨.run, ?_⟩
    simp only [treeLoop]
    split <;> rfl
  | restart s =>
    refine ⟨.run, ?_⟩
    simp only [treeLoop]
    split <;> rfl
  | _ => exact ⟨.run, rfl⟩

theorem goes_on_or_settled (hT : T.IsTree) (h : (machine V T n).Reachable s) :
    GoesOn s ∨ s.Halted ∧ Settled T s := by
  rcases moves_or_halted h with hrest | ⟨i, u, f, hw⟩ | ⟨j, hj, hne⟩
  · refine .inr ⟨hrest, ?_, ?_⟩
    · intro hq p hp v hv
      have hnone : s.bag.frames = 0 := by
        have hw : ∀ i, (s.workers i).frames = 0 := by
          intro i
          rcases hrest i with hi | hi <;> rw [hi] <;> rfl
        simp only [Pool.bag, hq, List.map_nil, List.sum_nil, zero_add, tally]
        exact Finset.sum_eq_zero fun i _ => hw i
      exact (visiting hT h).visits.complete hp (by simp [hnone]) hv
    · intro hleft
      exact (halted_cases h hrest).resolve_right fun hsleep => hleft hsleep.2.1
  · obtain ⟨c, hc⟩ := can_go_on (T := T) (n := n) s.mem f
    obtain ⟨t, ht⟩ := Option.isSome_iff_exists.mp (runUnit_isSome hw hc)
    exact .inl ⟨.unit i c, t, ht, rfl, rfl⟩
  · obtain ⟨t, ht⟩ := Option.isSome_iff_exists.mp hj
    exact .inl ⟨.loop j, t, ht, rfl, if_neg hne⟩

/-- **A terminated tree drains.** From `tree_terminate` on, every run is
bounded by what is left of the passes that have started, but for spurious
wake-ups; and wherever it has led, somebody can go on, or every pass has
visited the whole tree but for what the workers left in the queue when they
exited. -/
theorem terminated_tree_drains (hT : T.IsTree) (hwf : T.Founded)
    (h : (machine V T n).Reachable s) (ht : s.mem.terminated = true)
    {es : List (Event (program V T n) n)} (hrun : (machine V T n).run s es = some t) :
    workerSteps (machine V T n) s es
        ≤ s.effort (drainLeft hwf) + 2 * wakeUps (machine V T n) s es ∧
      (GoesOn t ∨ t.Halted ∧ Settled T t) := by
  refine ⟨?_, goes_on_or_settled hT (h.run hrun)⟩
  exact worker_steps_le (Ψ := drainLeft hwf) (C := fun _ _ => True)
    (I := fun s : Pool (program V T n) n => (machine V T n).Reachable s ∧ s.mem.terminated = true)
    (fun hI _ hs => by
      obtain ⟨hterm, hpays⟩ := drainLeft_pays hT hwf hI.1 hI.2 hs
      exact ⟨⟨.step hI.1 trivial hs, hterm⟩, hpays⟩)
    ⟨h, ht⟩ (Machine.meets_true s es) hrun

theorem chain_founded : chain.Founded := by
  have htrue : Acc (fun v u => v ∈ chain.children u) true := ⟨true, nofun⟩
  refine ⟨fun u => ?_⟩
  cases u with
  | true => exact htrue
  | false =>
    refine ⟨false, fun v hv => ?_⟩
    obtain rfl : v = true := List.mem_singleton.mp hv
    exact htrue

/-- `tree_terminate` during the first pass, and the rest of the run. -/
theorem terminated_tree_drains_chain :
    let s := (machine Unit chain 1).final (chainRun ++ [.client .terminate]) (by decide)
    let es : List (Event (program Unit chain 1) 1) :=
      go first 2 ++ .loop first :: leaf first ++ take first ++ go first 2 ++
        List.replicate 8 (.loop first)
    s.mem.terminated = true ∧ workerSteps (machine Unit chain 1) s es
      ≤ s.effort (drainLeft chain_founded) + 2 * wakeUps (machine Unit chain 1) s es :=
  ⟨by decide, (terminated_tree_drains chain_isTree chain_founded
    ((machine Unit chain 1).reachable_final (chainRun ++ [.client .terminate]) (by decide))
    (by decide) (Option.some_get (by decide)).symm).1⟩

end Loomlib.Tree
