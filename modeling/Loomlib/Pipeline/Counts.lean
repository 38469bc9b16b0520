import Loomlib.Pipeline.Blocks

/-!
# Pipeline — Counts

What the shared counter and the routines' history say about the bag of
activations: `active_lines` is the number of activations that count as a
line, there is at most one inlet token, and every product the inlet
returned is carried by one activation until it is deposited.
-/

namespace Loomlib.Pipeline

open ThreadPool (Request Outcome Bag Act OnBag)
open Mem (returned_record dry_record given_record delivered_record)

variable {V : Type} {k n : Nat}

/-- It has been counted in `active_lines`, or carries what was. -/
def Frame.counted : Frame V → Nat
  | .enter d => if d.block.currentStage < 0 then 0 else 1
  | .gate _ | .dropState _ | .defer _ | .done => 0
  | .callInlet _ | .inlet _ | .restart _ _ _ | .pushInlet _ _ _ _ | .callPump _ | .pump _
  | .callOutlet _ | .outlet _ | .freeState _ | .retire | .advance _ _ _ | .push _ => 1

/-- It is the inlet token, up to the push of the next one. -/
def Frame.token : Frame V → Nat
  | .enter d => if d.block.currentStage < 0 then 1 else 0
  | .gate _ | .dropState _ | .defer _ | .callInlet _ | .inlet _ | .restart _ _ _
  | .pushInlet _ _ _ _ => 1
  | .callPump _ | .pump _ | .callOutlet _ | .outlet _ | .freeState _ | .retire | .advance _ _ _
  | .push _ | .done => 0

/-- It is the inlet token, and not counted yet. -/
def Frame.pending : Frame V → Nat
  | .enter d => if d.block.currentStage < 0 then 1 else 0
  | .gate _ | .dropState _ | .defer _ => 1
  | _ => 0

/-- It carries the product of the line `l`. -/
def Frame.carries (l : Nat) : Frame V → Nat
  | .enter d => if d.block.currentStage < 0 then 0 else if d.block.line = l then 1 else 0
  | .callPump d | .pump d | .callOutlet d | .outlet d | .push d =>
    if d.block.line = l then 1 else 0
  | .restart _ _ l' | .pushInlet _ _ _ l' | .advance _ _ l' => if l' = l then 1 else 0
  | _ => 0

/-- It is inside the outlet with the product of the line `l`. -/
def Frame.depositing (l : Nat) : Frame V → Nat
  | .outlet d => if d.block.line = l then 1 else 0
  | _ => 0

/-- The total weight of a bag of activations. -/
def load (w : Frame V → Nat) (fs : Multiset (Frame V)) : Nat :=
  (fs.map w).sum

section Load

variable (w : Frame V → Nat)

@[simp] theorem load_zero : load w 0 = 0 :=
  weigh_zero w

@[simp] theorem load_cons (f : Frame V) (fs : Multiset (Frame V)) :
    load w (f ::ₘ fs) = w f + load w fs :=
  weigh_cons w f fs

@[simp] theorem load_singleton (f : Frame V) : load w {f} = w f :=
  weigh_singleton w f

@[simp] theorem load_add (fs gs : Multiset (Frame V)) :
    load w (fs + gs) = load w fs + load w gs :=
  weigh_add w fs gs

end Load

theorem load_eq_zero {w : Frame V → Nat} {fs : Multiset (Frame V)} :
    load w fs = 0 ↔ ∀ f ∈ fs, w f = 0 :=
  weigh_eq_zero

theorem load_mono {w w' : Frame V → Nat} (h : ∀ f, w f ≤ w' f) (fs : Multiset (Frame V)) :
    load w fs ≤ load w' fs :=
  weigh_mono h fs

section Move

variable {m m' : Mem V} {f : Frame V} {o : Outcome (Ref (State V)) (Frame V)}
  {r : Multiset (Frame V)} (h : Move k n m f m' o) (hB : Blocks k m.heap (f ::ₘ r))
include h hB

/-- The gate and the retirement move the counter; a push takes the count
along. -/
private theorem lines_move :
    load Frame.counted (o.frames .enter) + m.activeLines = f.counted + m'.activeLines := by
  have hfit := hB.fits f (Multiset.mem_cons_self _ _)
  have ho := hB.owned
  rw [allRefs_cons] at ho
  cases h with
  | enterInlet hb hst =>
    obtain rfl := Owned.block_eq ho hb
    simp [Frame.counted, hst]
  | enterPump hb hst | enterOutlet hb hst =>
    obtain rfl := Owned.block_eq ho hb
    simp [Frame.counted, Int.not_lt.mpr hst]
  | @«defer» d =>
    have hstage : d.block.currentStage = -1 := hfit
    simp [Frame.counted, hstage]
  | @pushInlet d d' =>
    have hstage : d.block.currentStage = -1 ∧ d'.block.currentStage = -1 := hfit
    simp [Frame.counted, hstage.2]
  | @push d =>
    have hstage : 0 ≤ d.block.currentStage ∧ d.block.currentStage ≤ k := hfit
    simp [Frame.counted, Int.not_lt.mpr hstage.1]
  | «open» | retire | retireLast => simp [Frame.counted, *]; try omega
  | _ => simp [Frame.counted, Mem.record, Mem.store]

/-- The inlet token passes on from push to push until the inlet dries up,
or the pipeline is terminated. -/
private theorem token_move (hone : f.token + m.dry.toNat ≤ 1) :
    load Frame.token (o.frames .enter) + m'.dry.toNat ≤ f.token + m.dry.toNat ∧
    ((∀ d, f ≠ .dropState d) →
      load Frame.token (o.frames .enter) + m'.dry.toNat = f.token + m.dry.toNat) := by
  have hfit := hB.fits f (Multiset.mem_cons_self _ _)
  have ho := hB.owned
  rw [allRefs_cons] at ho
  cases h with
  | enterInlet hb hst =>
    obtain rfl := Owned.block_eq ho hb
    simp [Frame.token, hst]
  | enterPump hb hst | enterOutlet hb hst =>
    obtain rfl := Owned.block_eq ho hb
    simp [Frame.token, Int.not_lt.mpr hst]
  | @«defer» d =>
    have hstage : d.block.currentStage = -1 := hfit
    simp [Frame.token, hstage]
  | @pushInlet d d' =>
    have hstage : d.block.currentStage = -1 ∧ d'.block.currentStage = -1 := hfit
    simp [Frame.token, hstage.2]
  | @push d =>
    have hstage : 0 ≤ d.block.currentStage ∧ d.block.currentStage ≤ k := hfit
    simp [Frame.token, Int.not_lt.mpr hstage.1]
  | dry =>
    have hdry : m.dry = false := by
      cases hd : m.dry
      · rfl
      · simp [Frame.token, hd] at hone
    simp [Frame.token, dry_record, hdry]
  | @dropState d b hb => exact ⟨by simp [Frame.token, Mem.store], fun hne => absurd rfl (hne d)⟩
  | _ => simp [Frame.token, dry_record, Mem.store]

/-- A product keeps its line from the inlet to the outlet. -/
private theorem products_move (l : Nat) :
    load (Frame.carries l) (o.frames .enter) + m'.delivered l + m.returned l
      = f.carries l + m.delivered l + m'.returned l := by
  have hfit := hB.fits f (Multiset.mem_cons_self _ _)
  have ho := hB.owned
  rw [allRefs_cons] at ho
  cases h with
  | enterInlet hb hst =>
    obtain rfl := Owned.block_eq ho hb
    simp [Frame.carries, hst]
  | enterPump hb hst | enterOutlet hb hst =>
    obtain rfl := Owned.block_eq ho hb
    simp [Frame.carries, Int.not_lt.mpr hst]
  | @«defer» d =>
    have hstage : d.block.currentStage = -1 := hfit
    simp [Frame.carries, hstage]
  | @pushInlet d d' =>
    have hstage : d.block.currentStage = -1 ∧ d'.block.currentStage = -1 := hfit
    simp [Frame.carries, hstage.2]
  | @push d =>
    have hstage : 0 ≤ d.block.currentStage ∧ d.block.currentStage ≤ k := hfit
    simp [Frame.carries, Int.not_lt.mpr hstage.1]
  | inlet => simp [Frame.carries, returned_record, delivered_record]; omega
  | outlet => simp [Frame.carries, returned_record, delivered_record]; omega
  | _ => simp [Frame.carries, returned_record, delivered_record, Mem.store]

omit hB in
private theorem deposits_move (l : Nat) :
    load (Frame.depositing l) (o.frames .enter) + m'.delivered l + m.given l
      = f.depositing l + m.delivered l + m'.given l := by
  cases h with
  | callOutlet | outlet => simp [Frame.depositing, given_record, delivered_record]; omega
  | _ => simp [Frame.depositing, given_record, delivered_record, Mem.store]

omit hB in
/-- Only the gate of a terminated pipeline leads to `dropState`. -/
private theorem dropped_move {d : Ref (State V)} (hd : Frame.dropState d ∈ o.frames Frame.enter) :
    f = .dropState d ∨ m.terminated = true := by
  cases h with
  | dead => exact .inl (Multiset.mem_singleton.mp hd).symm
  | terminated ht => exact .inr ht
  | _ => simp at hd

/-- What an activation holds is live, and what it counts as is counted. -/
private theorem sound_move (hpos : f.counted ≤ m.activeLines) : m'.fault = m.fault := by
  cases h with
  | dead hf hd => exact absurd hd (hB.live hf)
  | wrap ha => simp [Frame.counted, ha] at hpos
  | _ => rfl

end Move

structure Counts (m : Mem V) (fs : Multiset (Frame V)) : Prop where
  lines : load Frame.counted fs = m.activeLines
  token_le : load Frame.token fs + m.dry.toNat ≤ m.executed.toNat
  token : m.terminated = false → load Frame.token fs + m.dry.toNat = m.executed.toNat
  dropped : ∀ d, Frame.dropState d ∈ fs → m.terminated = true
  idle : m.executed = false → fs = 0
  deposits : ∀ l, load (Frame.depositing l) fs + m.delivered l = m.given l
  products : ∀ l, load (Frame.carries l) fs + m.delivered l = m.returned l
  sound : m.fault = false

theorem Counts.move {m m' : Mem V} {f : Frame V} {o : Outcome (Ref (State V)) (Frame V)}
    {r : Multiset (Frame V)} (h : Move k n m f m' o) (hB : Blocks k m.heap (f ::ₘ r))
    (hI : Counts m (f ::ₘ r)) : Counts m' (o.frames .enter + r) := by
  obtain ⟨hl, hle, ht, hdrop, hidle, hdep, hp, hs⟩ := hI
  simp only [load_cons] at hl hle ht hdep hp
  have hlines := lines_move h hB
  have htok := token_move h hB (by have := Bool.toNat_le m.executed; omega)
  have hprod := products_move h hB
  have hstable : m'.executed = m.executed ∧ m'.terminated = m.terminated := by
    cases h <;> exact ⟨rfl, rfl⟩
  refine ⟨?_, ?_, ?_, ?_, ?_, ?_, ?_, ?_⟩
  · simp only [load_add]
    omega
  · simp only [load_add, hstable.1]
    omega
  · intro hterm
    rw [hstable.2] at hterm
    have hnot : ∀ d, f ≠ .dropState d := by
      rintro d rfl
      rw [hdrop d (Multiset.mem_cons_self _ _)] at hterm
      cases hterm
    simp only [load_add, hstable.1]
    have := htok.2 hnot
    have := ht hterm
    omega
  · intro d hd
    rw [hstable.2]
    rcases Multiset.mem_add.mp hd with hd | hd
    · rcases dropped_move h hd with rfl | ht
      · exact hdrop d (Multiset.mem_cons_self _ _)
      · exact ht
    · exact hdrop d (Multiset.mem_cons_of_mem hd)
  · intro hnew
    exact absurd (hidle (hstable.1 ▸ hnew)) (Multiset.cons_ne_zero)
  · intro l
    simp only [load_add]
    have := deposits_move h l
    have := hdep l
    omega
  · intro l
    simp only [load_add]
    have := hprod l
    have := hp l
    omega
  · rw [sound_move h hB (by omega)]
    exact hs

/-- What holds of the bag of every pipeline. -/
structure Sound (k : Nat) (m : Mem V) (fs : Multiset (Frame V)) : Prop where
  blocks : Blocks k m.heap fs
  counts : Counts m fs

theorem Sound.new : Sound k (pipelineNew : Mem V) 0 where
  blocks := ⟨Owned.empty, nofun⟩
  counts := ⟨rfl, by simp [pipelineNew, Mem.dry], fun _ => rfl, nofun,
    fun _ => rfl, fun l => by simp [pipelineNew, Mem.delivered, Mem.given],
    fun l => by simp [pipelineNew, Mem.delivered, Mem.returned, Mem.injected], rfl⟩

theorem Sound.execute {m : Mem V} {fs : Multiset (Frame V)} (hI : Sound k m fs)
    (hnew : m.executed = false) {a : Nat} (ha : m.heap a = none) :
    Sound k { m.store a (some ⟨none, -1, 0⟩) with executed := true }
      (.enter ⟨a, none, -1, 0⟩ ::ₘ fs) := by
  obtain ⟨hl, hle, ht, hdrop, hidle, hdep, hp, hs⟩ := hI.counts
  simp only [hnew, Bool.toNat_false, Nat.le_zero, Nat.add_eq_zero_iff] at hle
  refine ⟨hI.blocks.execute ha, ?_, ?_, ?_, ?_, nofun, ?_,
    ?_, hs⟩
  · simpa [Frame.counted, Mem.store] using hl
  · simp [Frame.token, Mem.store, hle]
  · intro _
    simp [Frame.token, Mem.store, hle]
  · intro d hd
    rcases Multiset.mem_cons.mp hd with hd | hd
    · cases hd
    · exact hdrop d hd
  · intro l
    simpa [Frame.depositing, Mem.store] using hdep l
  · intro l
    simpa [Frame.carries, Mem.store] using hp l

theorem Sound.step {b b' : Bag (program V k n)} {a : Act (program V k n)}
    (hI : Sound k b.mem b.frames) (h : Bag.Step b a b') : Sound k b'.mem b'.frames := by
  cases bagMove_cases h with
  | unit hmove => exact ⟨hI.blocks.move hmove, hI.counts.move hmove hI.blocks⟩
  | terminate =>
    obtain ⟨hl, hle, -, -, hidle, hdep, hp, hs⟩ := hI.counts
    exact ⟨⟨hI.blocks.owned, hI.blocks.fits⟩, hl, hle, nofun, fun _ _ => rfl, hidle, hdep, hp, hs⟩
  | execute hnew ha => exact hI.execute hnew ha

theorem sound {C} {s : ThreadPool.Pool (program V k n) n} (h : (machine V k n).ReachableBy C s) :
    Sound k s.mem s.bag.frames :=
  ThreadPool.bag_invariant (I := fun b => Sound k b.mem b.frames) Sound.new
    (fun hI _ hs => hI.step hs) (ThreadPool.reachable_onBag h)

/-- **The invariant rule for pipelines**, whose bags are sound. -/
theorem sound_invariant {D : Bag (program V k n) → Act (program V k n) → Prop}
    {I : Bag (program V k n) → Prop} (hinit : I ⟨pipelineNew, 0, 0⟩)
    (hstep : ∀ {b a b'}, Sound k b.mem b.frames → I b → D b a → Bag.Step b a b' → I b')
    {s : ThreadPool.Pool (program V k n) n} (h : (machine V k n).ReachableBy (OnBag D) s) :
    I s.bag :=
  ThreadPool.bag_invariant_beside (J := fun b => Sound k b.mem b.frames) Sound.new
    (fun hS hs => hS.step hs) hinit hstep h

end Loomlib.Pipeline
