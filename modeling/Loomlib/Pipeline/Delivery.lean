import Loomlib.Pipeline.Single
import Loomlib.ThreadPool.Solo

/-!
# Pipeline — Delivery

Which pipelines deliver everything before they shut down, whatever the
interleaving. One worker comes back to the inlet token before a line could
retire without it, and an inlet with nothing to give has no line that
retires before it is dry. In every other pipeline one worker can take the
inlet token and stop short of the gate, while another one carries the only
line through all pumps to its end.
-/

namespace Loomlib.Pipeline

open ThreadPool

variable {V : Type} {k n : Nat} {inputs : List V}

/-- In every run in which the inlet returns `inputs` and then NULL the pool
is told to terminate with the inlet dry and every product deposited, and
the workers are gone with each product given to the outlet once and nothing
queued. -/
def Delivers (k n : Nat) (inputs : List V) : Prop :=
  ∀ s, (machine V k n).ReachableBy (OnBag (Feeds inputs)) s →
    (∀ e t, OnBag (Feeds inputs) s e → (machine V k n).step s e = some t →
      s.terminates < t.terminates →
      s.mem.dry = true ∧ ∀ l < s.mem.injected, s.mem.delivered l = 1) ∧
    ((∀ i, s.workers i = .exited) →
      s.mem.dry = true ∧ (∀ l < s.mem.injected, s.mem.given l = 1 ∧ s.mem.delivered l = 1) ∧
        s.workQueue = [])

theorem delivers_of_counted (hn : 1 ≤ n)
    (hcount : ∀ s, (machine V k n).ReachableBy (OnBag (Feeds inputs)) s →
      ∀ e, OnBag (Feeds inputs) s e → OnBag InletCounted s e) : Delivers k n inputs := by
  intro s h
  obtain ⟨hcall, hgone⟩ := delivered_before_shutdown hn (h.imposed hcount)
  exact ⟨fun e t hc hs => hcall e t (hcount s h e hc) hs, hgone⟩

/-! ## An inlet with nothing to give -/

/-- It is on the way of the inlet token, and the inlet has not answered. -/
def Frame.Asking : Frame V → Prop
  | .enter d => d.block.currentStage < 0
  | .gate _ | .dropState _ | .defer _ | .callInlet _ | .inlet _ | .done => True
  | .restart _ _ _ | .pushInlet _ _ _ _ | .callPump _ | .pump _ | .callOutlet _ | .outlet _
  | .freeState _ | .retire | .advance _ _ _ | .push _ => False

theorem dry_move {m m' : Mem V} {f : Frame V} {o : Outcome (Ref (State V)) (Frame V)}
    (h : Move k n m f m' o) (hdry : m'.dry = false) : m.dry = false := by
  cases h <;> simp_all [Mem.dry_record, Mem.store]

/-- An inlet that never returns a product is asked until it is dry. -/
theorem asking_move {m m' : Mem V} {f : Frame V} {c : Choice V}
    {o : Outcome (Ref (State V)) (Frame V)} {r : Multiset (Frame V)}
    (h : pipelineLoop k n m f c = some (m', o)) (hB : Blocks k m.heap (f ::ₘ r))
    (hc : ∀ d p, f = .inlet d → c = .returns p → p = none) (hf : f.Asking)
    (hdry : m'.dry = false) : ∀ g ∈ o.frames .enter, g.Asking := by
  have hfit := hB.fits f (Multiset.mem_cons_self _ _)
  have ho := hB.owned
  rw [allRefs_cons] at ho
  cases move_cases h with
  | dead => simpa using hf
  | enterPump hb hst | enterOutlet hb hst =>
    obtain rfl := Owned.block_eq ho hb
    exact absurd hf (Int.not_lt.mpr hst)
  | @«defer» d =>
    have hstage : d.block.currentStage = -1 := hfit
    simp [Frame.Asking, hstage]
  | @inlet d v =>
    obtain ⟨p, rfl, ho⟩ := (returns_of_step h).1 d rfl
    obtain rfl := hc d p rfl rfl
    cases ho
  | dry => simp [Mem.dry_record] at hdry
  | enterInlet | terminated | full | «open» | dropState | callInlet | done => simp [Frame.Asking]
  | _ => exact hf.elim

theorem asking {s : Pool (program V k n) n}
    (h : (machine V k n).ReachableBy (OnBag (Feeds [])) s) :
    s.mem.dry = false → ∀ f ∈ s.bag.frames, f.Asking := by
  refine sound_invariant (D := Feeds [])
    (I := fun b => b.mem.dry = false → ∀ f ∈ b.frames, f.Asking) (fun _ f hf => ?_) ?_ h
  · exact absurd hf (Multiset.notMem_zero f)
  · intro b a b' hS hI hc hs hdry
    cases hs with
    | @unit m f c m' o r calls h =>
      obtain ⟨hf, hr⟩ := Multiset.forall_mem_cons.mp (hI (dry_move (move_cases h) hdry))
      have hnone : ∀ d p, f = .inlet d → c = .returns p → p = none := by
        rintro d p rfl rfl
        exact hc
      intro g hg
      exact (Multiset.mem_add.mp hg).elim (asking_move h hS.blocks hnone hf hdry g) (hr g)
    | client h =>
      obtain ⟨rfl, -⟩ | ⟨a, -, -, -, -, ⟨⟩⟩ := client_cases h
      exact hc.elim
    | clientRequest h =>
      obtain ⟨-, -, ⟨⟩⟩ | ⟨a, -, -, -, rfl, ⟨⟩⟩ := client_cases h
      intro f hf
      rcases Multiset.mem_add.mp hf with hf | hf
      · rw [Multiset.mem_singleton.mp hf]
        exact (by decide : (-1 : Int) < 0)
      · exact hI hdry f hf

theorem pending_le_token (f : Frame V) : f.pending ≤ f.token := by
  cases f <;> simp [Frame.pending, Frame.token]

/-- Without a product the last line retires when the inlet is dry. -/
theorem empty_inlet_counted {s : Pool (program V k n) n}
    (h : (machine V k n).ReachableBy (OnBag (Feeds [])) s) {e : Event (program V k n) n}
    (hc : OnBag (Feeds []) s e) : OnBag InletCounted s e := by
  intro a ha
  cases a with
  | client x =>
    rintro rfl
    exact hc _ ha
  | unit f c =>
    rintro rfl -
    obtain ⟨i, u, hw⟩ := running_of_act ha
    have hdry : s.mem.dry = true := by
      by_contra hwet
      exact asking h (by simpa using hwet) _ (mem_bag_of_running hw)
    have hle := (sound h).counts.token_le
    have hexec := Bool.toNat_le s.mem.executed
    have hpend := load_mono pending_le_token s.bag.frames
    rw [hdry, Bool.toNat_true] at hle
    change load Frame.pending s.bag.frames = 0
    omega

/-! ## A line that overtakes the inlet token -/

/-- The block `a` is the state `b` of the only line that is counted, and
the inlet is not dry. -/
structure Carried (m : Mem V) (a : Nat) (b : State V) : Prop where
  block : m.heap a = some b
  lines : m.activeLines = 1
  going : m.dry = false

/-- Worker `i` is about to pop the unit with `d`, which is all there is in
the queue; where the others are is left open. -/
def Overtaking (k n : Nat) (inputs : List V) (i : Fin n) (d : Ref (State V)) : Prop :=
  ∃ m, Solo (P := program V k n) (Feeds inputs) pipelineNew (fun _ => True) (· = .popping) i
    [.call d] m ∧ Carried m d.addr d.block

/-- Worker `i` gets a product from the inlet and queues the inlet token,
which worker `j` takes; then `i` queues its line. -/
theorem overtaking_start {v : V} {rest : List V} {i j : Fin n} (hij : j ≠ i) :
    Overtaking k n (v :: rest) i ⟨0, some v, 0, 0⟩ := by
  have hnew : Solo (P := program V k n) (Feeds (v :: rest)) pipelineNew (· = .popping)
      (· = .popping) i [] pipelineNew := .new i
  have hqueued := hnew.clientPush (x := Client.execute 0) rfl fun _ _ => by trivial
  have hgate := hqueued.take.go (c := Choice.run) (g := Frame.gate ⟨0, none, -1, 0⟩)
    (fun _ _ => trivial) rfl
  have hcounted := hgate.go (c := Choice.run) (g := Frame.callInlet ⟨0, none, -1, 0⟩)
    (fun _ _ => trivial) rfl
  have hinlet := hcounted.go (c := Choice.run) (g := Frame.inlet ⟨0, none, -1, 0⟩)
    (fun _ _ => trivial) rfl
  have hproduct := hinlet.go (c := Choice.returns (some v))
    (g := Frame.restart ⟨0, none, -1, 0⟩ v 0) (fun b hb => by simp only [Feeds, hb]; rfl) rfl
  have hblock := hproduct.go (c := Choice.malloc 1)
    (g := Frame.pushInlet ⟨0, none, -1, 0⟩ ⟨1, none, -1, 0⟩ v 0) (fun _ _ => trivial) rfl
  have htoken := hblock.push (c := Choice.run) (fun _ _ => trivial)
    (fun w hw => by rw [hw]; rfl) rfl
  have hadvanced := (htoken.lend hij).go (c := Choice.run) (g := Frame.push ⟨0, some v, 0, 0⟩)
    (fun _ _ => trivial) rfl
  have hpushed := hadvanced.push (c := Choice.run) (fun _ _ => trivial) (fun _ _ => trivial) rfl
  exact ⟨_, hpushed.ret (c := Choice.run) (fun _ _ => trivial) rfl, rfl, rfl, rfl⟩

/-- The line goes through the next pump and is queued again. -/
theorem Overtaking.lap {i : Fin n} {d : Ref (State V)} (h : Overtaking k n inputs i d)
    (hstage : 0 ≤ d.block.currentStage) (hk : d.block.currentStage < k) :
    Overtaking k n inputs i
      ⟨d.addr, d.block.product, d.block.currentStage + 1, d.block.line⟩ := by
  obtain ⟨m, hqueued, hblock, hlines, hwet⟩ := h
  have hentered := hqueued.take.go (c := Choice.run) (g := Frame.callPump d) (fun _ _ => trivial)
    (by simp only [pipelineLoop, hblock, if_neg (Int.not_lt.mpr hstage), if_pos hk]; rfl)
  have hpump := hentered.go (c := Choice.run) (g := Frame.pump d) (fun _ _ => trivial) rfl
  have hvalue := hpump.go (c := Choice.returns d.block.product)
    (g := Frame.advance d d.block.product d.block.line) (fun _ _ => trivial) rfl
  have hadvanced := hvalue.go (c := Choice.run)
    (g := Frame.push ⟨d.addr, d.block.product, d.block.currentStage + 1, d.block.line⟩)
    (fun _ _ => trivial) (by simp only [pipelineLoop, Mem.record_heap, hblock]; rfl)
  have hpushed := hadvanced.push (c := Choice.run) (fun _ _ => trivial) (fun _ _ => trivial) rfl
  refine ⟨_, hpushed.ret (c := Choice.run) (fun _ _ => trivial) rfl, ?_, hlines, ?_⟩
  · exact Function.update_self ..
  · simp only [Mem.store_dry, Mem.dry_record, hwet, Bool.or_false]

/-- Through all pumps. -/
theorem overtaking_through {v : V} {rest : List V} {i j : Fin n} (hij : j ≠ i) :
    ∀ c ≤ k, ∃ d, Overtaking k n (v :: rest) i d ∧ d.block.currentStage = c
  | 0, _ => ⟨_, overtaking_start hij, rfl⟩
  | c + 1, hc => by
    obtain ⟨d, hd, hstage⟩ := overtaking_through hij c (by omega)
    exact ⟨_, hd.lap (by omega) (by omega), by simp [hstage]⟩

/-- Behind the last pump the line takes `active_lines` to 0. -/
theorem Overtaking.tells {i : Fin n} {d : Ref (State V)} (h : Overtaking k n inputs i d)
    (hstage : d.block.currentStage = k) :
    ∃ s e t, (machine V k n).ReachableBy (OnBag (Feeds inputs)) s ∧ OnBag (Feeds inputs) s e ∧
      (machine V k n).step s e = some t ∧ s.terminates < t.terminates ∧ s.mem.dry = false := by
  obtain ⟨m, hqueued, hblock, hlines, hwet⟩ := h
  have hentered := hqueued.take.go (c := Choice.run) (g := Frame.callOutlet d)
    (fun _ _ => trivial) (by
      have hline : ¬ d.block.currentStage < 0 := by omega
      have hthrough : ¬ d.block.currentStage < k := by omega
      simp only [pipelineLoop, hblock, if_neg hline, if_neg hthrough]
      rfl)
  have houtlet := hentered.go (c := Choice.run) (g := Frame.outlet d) (fun _ _ => trivial) rfl
  have hdeposited := houtlet.go (c := Choice.returns none) (g := Frame.freeState d)
    (fun _ _ => trivial) rfl
  have hfreed := hdeposited.go (c := Choice.run) (g := Frame.retire) (fun _ _ => trivial)
    (by simp only [pipelineLoop, Mem.record_heap, hblock]; rfl)
  obtain ⟨s, e, t, hr, hc, hs, hlt, hm⟩ := hfreed.tell (c := Choice.run) (fun _ _ => trivial)
    (by simp only [pipelineLoop, Mem.store, Mem.record_activeLines, hlines]; rfl)
  refine ⟨s, e, t, hr, hc, hs, hlt, ?_⟩
  simp only [hm, Mem.store_dry, Mem.dry_record, hwet, Bool.or_false]

/-- **A pipeline delivers everything before it shuts down** in all runs if
and only if it has one worker, or an inlet without products. -/
theorem delivers_iff (hn : 1 ≤ n) : Delivers k n inputs ↔ n = 1 ∨ inputs = [] := by
  constructor
  · intro hall
    by_contra hnot
    rw [not_or] at hnot
    obtain ⟨hmany, hsome⟩ := hnot
    obtain ⟨v, rest, rfl⟩ := List.exists_cons_of_ne_nil hsome
    have hij : (⟨1, by omega⟩ : Fin n) ≠ ⟨0, hn⟩ := by simp
    obtain ⟨d, hd, hstage⟩ := overtaking_through (k := k) hij k (Nat.le_refl k)
    obtain ⟨s, e, t, hr, hc, hs, hlt, hwet⟩ := hd.tells hstage
    have hdry := ((hall s hr).1 e t hc hs hlt).1
    cases hdry.symm.trans hwet
  · rintro (rfl | rfl)
    · exact delivers_of_counted hn fun s h => (one_worker_counted h).2
    · exact delivers_of_counted hn fun s h _ => empty_inlet_counted h

theorem delivers_iff_two : Delivers 1 1 [7, 8] ∧ ¬ Delivers 1 2 [7, 8] :=
  ⟨(delivers_iff (by decide)).mpr (.inl rfl),
    fun h => absurd ((delivers_iff (by decide)).mp h) (by decide)⟩

end Loomlib.Pipeline
