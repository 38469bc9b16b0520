import Loomlib.Pipeline.Steps

/-!
# Pipeline — Blocks

Who owns which `pipeline_state`. Every block in the heap has one owner, an
activation of `pipeline_loop` that waits or runs; it hands the block on
with each push and frees it where its line ends. What an activation has
read from its block is what the block holds.
-/

namespace Loomlib.Pipeline

open ThreadPool (Request Outcome Bag Act OnBag)

variable {V : Type} {k n : Nat}

/-- The blocks an activation owns. -/
def Frame.refs : Frame V → Multiset (Ref (State V))
  | .pushInlet d d' _ _ => {d, d'}
  | .retire | .done => 0
  | .enter d | .gate d | .dropState d | .defer d | .callInlet d | .inlet d | .restart d _ _
  | .callPump d | .pump d | .callOutlet d | .outlet d | .freeState d | .advance d _ _
  | .push d => {d}

/-- What is read at the gate is an inlet token, the initial stage of every
line; a block on its way to the pump `i` has the stage `i`. -/
def Frame.Fits (k : Nat) : Frame V → Prop
  | .enter d => -1 ≤ d.block.currentStage ∧ d.block.currentStage ≤ k
  | .gate d | .dropState d | .defer d | .callInlet d | .inlet d | .restart d _ _ =>
    d.block.currentStage = -1
  | .pushInlet d d' _ _ => d.block.currentStage = -1 ∧ d'.block.currentStage = -1
  | .callPump d | .pump d => 0 ≤ d.block.currentStage ∧ d.block.currentStage < k
  | .callOutlet d | .outlet d => d.block.currentStage = k
  | .advance d _ _ => -1 ≤ d.block.currentStage ∧ d.block.currentStage < k
  | .push d => 0 ≤ d.block.currentStage ∧ d.block.currentStage ≤ k
  | .freeState _ | .retire | .done => True


/-- The blocks owned by a bag of activations. -/
def allRefs (fs : Multiset (Frame V)) : Multiset (Ref (State V)) :=
  fs.bind Frame.refs

@[simp] theorem allRefs_zero : allRefs (0 : Multiset (Frame V)) = 0 := rfl

@[simp] theorem allRefs_cons (f : Frame V) (fs : Multiset (Frame V)) :
    allRefs (f ::ₘ fs) = f.refs + allRefs fs := Multiset.cons_bind ..

@[simp] theorem allRefs_singleton (f : Frame V) : allRefs {f} = f.refs :=
  Multiset.singleton_bind ..

@[simp] theorem allRefs_add (fs gs : Multiset (Frame V)) :
    allRefs (fs + gs) = allRefs fs + allRefs gs := Multiset.add_bind ..

/-- The bag of a pipeline, each block with one owner and each activation
at the stage its block says. -/
structure Blocks (k : Nat) (heap : Nat → Option (State V)) (fs : Multiset (Frame V)) : Prop where
  owned : Owned heap (allRefs fs)
  fits : ∀ f ∈ fs, f.Fits k

/-- An activation that becomes `g`. -/
private theorem Blocks.one {heap : Nat → Option (State V)} {g : Frame V} {r : Multiset (Frame V)}
    (ho : Owned heap (g.refs + allRefs r)) (hg : g.Fits k) (hr : ∀ f ∈ r, f.Fits k) :
    Blocks k heap (g ::ₘ r) :=
  ⟨by simpa using ho, by simpa using ⟨hg, hr⟩⟩

/-- An activation that becomes `g` and leaves `g'` behind. -/
private theorem Blocks.two {heap : Nat → Option (State V)} {g g' : Frame V}
    {r : Multiset (Frame V)} (ho : Owned heap (g.refs + (g'.refs + allRefs r)))
    (hg : g.Fits k) (hg' : g'.Fits k) (hr : ∀ f ∈ r, f.Fits k) :
    Blocks k heap (g ::ₘ {g'} + r) :=
  ⟨by simpa [add_assoc] using ho, by simpa using ⟨hg, hg', hr⟩⟩

/-- **One owner for each block**: a step of `pipeline_loop` hands its
block on or frees it. -/
theorem Blocks.move {m m' : Mem V} {f : Frame V} {o : Outcome (Ref (State V)) (Frame V)}
    {r : Multiset (Frame V)} (h : Move k n m f m' o) (hI : Blocks k m.heap (f ::ₘ r)) :
    Blocks k m'.heap (o.frames .enter + r) := by
  obtain ⟨ho, hfit⟩ := hI
  rw [allRefs_cons] at ho
  obtain ⟨hf, hr⟩ := Multiset.forall_mem_cons.mp hfit
  cases h with
  | dead | wrap => exact .one ho hf hr
  | enterInlet hb hst =>
    obtain rfl := Owned.block_eq ho hb
    obtain ⟨hlo, -⟩ := hf
    exact .one ho (show _ = _ by simp only; omega) hr
  | enterPump hb hst hk =>
    obtain rfl := Owned.block_eq ho hb
    exact .one ho ⟨hst, hk⟩ hr
  | enterOutlet hb hst hk =>
    obtain rfl := Owned.block_eq ho hb
    obtain ⟨-, hhi⟩ := hf
    exact .one ho (show _ = _ by simp only; omega) hr
  | terminated | full | «open» | callInlet | inlet | callPump | callOutlet =>
    exact .one ho hf hr
  | dry | outlet => exact .one ho trivial hr
  | pump =>
    obtain ⟨hlo, hhi⟩ := hf
    exact .one ho ⟨by omega, hhi⟩ hr
  | dropState hb => exact ⟨by simpa using Owned.free ho, by simpa using hr⟩
  | freeState hb => exact .one (by simpa [Frame.refs] using Owned.free ho) trivial hr
  | retire | retireLast => exact .one ho trivial hr
  | done => exact ⟨by simpa [Frame.refs] using ho, by simpa using hr⟩
  | @«defer» d =>
    have hstage : d.block.currentStage = -1 := hf
    exact .two (by simpa [Frame.refs] using ho) trivial ⟨by omega, by omega⟩ hr
  | push => exact .two (by simpa [Frame.refs] using ho) trivial ⟨by have := hf.1; omega, hf.2⟩ hr
  | @restart d v l a ha =>
    have hstage : d.block.currentStage = -1 := hf
    refine .one ?_ ⟨hstage, hstage⟩ hr
    have hnew := ho.alloc ha ⟨none, d.block.currentStage, 0⟩
    simpa [Frame.refs, Multiset.insert_eq_cons, Multiset.cons_swap] using hnew
  | @pushInlet d d' v l =>
    have hstages : d.block.currentStage = -1 ∧ d'.block.currentStage = -1 := hf
    refine .two ?_ ⟨by omega, by omega⟩ ⟨by omega, by omega⟩ hr
    simpa [Frame.refs, Multiset.insert_eq_cons, Multiset.cons_swap d d'] using ho
  | @advance d p l b hb =>
    obtain rfl := Owned.block_eq ho hb
    obtain ⟨hlo, hhi⟩ : -1 ≤ d.block.currentStage ∧ d.block.currentStage < k := hf
    exact .one (Owned.write ho _) ⟨by simp only; omega, by simp only; omega⟩ hr

/-- An activation goes through live blocks only. -/
theorem Blocks.live {heap : Nat → Option (State V)} {f : Frame V} {r : Multiset (Frame V)}
    (hI : Blocks k heap (f ::ₘ r)) {d : Ref (State V)} (hf : f.through = some d) :
    heap d.addr ≠ none := by
  have ho := hI.owned
  rw [allRefs_cons] at ho
  cases f <;> cases hf <;> exact Owned.live ho

theorem Blocks.execute {heap : Nat → Option (State V)} {r : Multiset (Frame V)}
    (hI : Blocks k heap r) {a : Nat} (ha : heap a = none) :
    Blocks k (Function.update heap a (some ⟨none, -1, 0⟩)) (.enter ⟨a, none, -1, 0⟩ ::ₘ r) :=
  .one (hI.owned.alloc ha _) ⟨Int.le_refl _, by simp only; omega⟩ hI.fits

end Loomlib.Pipeline
