import Loomlib.Pipeline.Counts
import Loomlib.ThreadPool.Late

/-!
# Pipeline — Terminate

`pipeline_terminate` makes the gate give up the inlet token. The branch
returns without looking at `active_lines`, so it counts on a line that is
still under way to tell the pool. Where there is none, the workers sleep
for ever.
-/

namespace Loomlib.Pipeline

open ThreadPool

variable {V : Type} {k n : Nat}

/-- Nothing of the pipeline is left, all workers sleep, and nobody ever
told them to go. -/
def Stranded (s : Pool (program V k n) n) : Prop :=
  s.mem.executed = true ∧ (∀ f ∈ s.bag.frames, f.token = 0 ∧ f.counted = 0) ∧
    (∀ i, s.workers i = .asleep) ∧ s.workQueue = [] ∧ ∀ u ∈ s.pushed, u.func ≠ .termSig

/-- The gate gives up the inlet token only while a line is counted, or the
pool has been told. -/
def LineLeft (b : Bag (program V k n)) : Act (program V k n) → Prop
  | .unit (.gate _) _ => b.mem.terminated = true → 0 < b.mem.activeLines ∨ 0 < b.calls
  | _ => True

instance (b : Bag (program V k n)) : ∀ a, Decidable (LineLeft b a)
  | .unit (.gate _) _ => inferInstanceAs (Decidable (_ → _))
  | .unit (.enter _) _ | .unit (.dropState _) _ | .unit (.defer _) _ | .unit (.callInlet _) _
  | .unit (.inlet _) _ | .unit (.restart _ _ _) _ | .unit (.pushInlet _ _ _ _) _
  | .unit (.callPump _) _ | .unit (.pump _) _ | .unit (.callOutlet _) _ | .unit (.outlet _) _
  | .unit (.freeState _) _ | .unit .retire _ | .unit (.advance _ _ _) _ | .unit (.push _) _
  | .unit .done _ | .client _ => isTrue trivial

/-- It is the inlet token, and will reach the gate. -/
def Frame.waiting : Frame V → Nat
  | .enter d => if d.block.currentStage < 0 then 1 else 0
  | .gate _ | .defer _ => 1
  | _ => 0

/-- Until the pool is told, an inlet token waits or a line is counted. -/
def Tended (m : Mem V) (fs : Multiset (Frame V)) (calls : Nat) : Prop :=
  m.executed = true → calls = 0 → 0 < load Frame.waiting fs + m.activeLines

theorem Tended.move {m m' : Mem V} {f : Frame V} {o : Outcome (Ref (State V)) (Frame V)}
    {r : Multiset (Frame V)} {calls : Nat} (h : Move k n m f m' o) (hB : Blocks k m.heap (f ::ₘ r))
    (hI : Tended m (f ::ₘ r) calls)
    (hc : ∀ d, f = .gate d → m.terminated = true → 0 < m.activeLines ∨ 0 < calls) :
    Tended m' (o.frames .enter + r) (calls + o.calls) := by
  have hfit := hB.fits f (Multiset.mem_cons_self _ _)
  have ho := hB.owned
  rw [allRefs_cons] at ho
  intro hexec hcalls
  have hexec' : m.executed = true := by cases h <;> exact hexec
  have hpos := hI hexec' (by omega)
  simp only [load_cons] at hpos
  simp only [load_add]
  cases h with
  | enterInlet hb hst =>
    obtain rfl := Owned.block_eq ho hb
    simp [Frame.waiting]
  | enterPump hb hst | enterOutlet hb hst =>
    obtain rfl := Owned.block_eq ho hb
    simpa [Frame.waiting, Int.not_lt.mpr hst] using hpos
  | terminated ht =>
    rcases hc _ rfl ht with hline | htold
    · simp [hline]
    · simp only [Outcome.calls] at hcalls
      omega
  | @«defer» d =>
    have hstage : d.block.currentStage = -1 := hfit
    simp [Frame.waiting, hstage]
  | full | «open» | retire => simp [Frame.waiting]
  | retireLast => simp at hcalls
  | pushInlet | push =>
    simp only [Frame.waiting, zero_add] at hpos
    simp [Frame.waiting]
    omega
  | _ =>
    simp only [Frame.waiting, zero_add] at hpos
    simp [Frame.waiting, hpos, Mem.store, Mem.record]

theorem Tended.step {b b' : Bag (program V k n)} {a : Act (program V k n)}
    (hS : Sound k b.mem b.frames) (hI : Tended b.mem b.frames b.calls) (hc : LineLeft b a)
    (h : Bag.Step b a b') : Tended b'.mem b'.frames b'.calls := by
  cases bagMove_cases h with
  | unit hmove =>
    apply hI.move hmove hS.blocks
    rintro d rfl
    exact hc
  | terminate => exact hI
  | execute hnew ha =>
    intro _ _
    simp [Frame.waiting]

/-- **The pool is told to shut down** once the pipeline is drained, as long
as the gate gives up the inlet token beside a counted line only. -/
theorem told_when_drained {s : Pool (program V k n) n}
    (h : (machine V k n).ReachableBy (OnBag LineLeft) s) : ¬ Stranded s := by
  intro hstranded
  obtain ⟨hexec, hnone, -, -, hsig⟩ := hstranded
  have htended := sound_invariant (I := fun b => Tended b.mem b.frames b.calls) nofun
    (fun hS hI hc hs => hI.step hS hc hs) h
  have htold : s.terminates = 0 := by
    by_contra hne
    obtain ⟨u, hu, hf⟩ := ThreadPool.told h.reachable (Nat.pos_of_ne_zero hne)
    exact hsig u hu hf
  have hwait : load Frame.waiting s.bag.frames = 0 := by
    apply load_eq_zero.mpr
    intro f hf
    have := (hnone f hf).1
    cases f <;> simp_all [Frame.waiting, Frame.token]
  have hlines : s.mem.activeLines = 0 := by
    rw [← (sound h).counts.lines]
    exact load_eq_zero.mpr fun f hf => (hnone f hf).2
  have := htended hexec htold
  change 0 < load Frame.waiting s.bag.frames + s.mem.activeLines at this
  omega

/-- A product is in the pipe when the token meets the flag: its line tells
the pool. -/
def drainedRun : List (Event (program Nat 0 1) 1) :=
  .client (.execute 0) :: take first ++ go first 3 ++ .unit first (.returns (some 7)) ::
    .unit first (.malloc 1) :: go first 4 ++ .loop first :: .client .terminate ::
    take first ++ go first 3 ++ .loop first :: take first ++ deposit first

theorem told_when_drained_one :
    let s := (machine Nat 0 1).final drainedRun (by decide)
    s.mem.terminated = true ∧ s.terminates = 1 ∧ ¬ Stranded s :=
  ⟨by decide, by decide, told_when_drained
    ((machine Nat 0 1).reachableBy_final drainedRun (by decide) (by decide))⟩

/-- `pipeline_terminate` before the inlet token is first at the gate: the
token is given up, and the worker goes to sleep. -/
theorem stranded_pipeline : ∃ s, (machine Nat 0 1).Reachable s ∧ Stranded s :=
  ⟨_, (machine Nat 0 1).reachable_final (.client (.execute 0) :: .client .terminate ::
    take first ++ go first 3 ++ [.loop first, .loop first]) (by decide), by
      unfold Stranded
      decide⟩

end Loomlib.Pipeline
