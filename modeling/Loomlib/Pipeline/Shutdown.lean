import Loomlib.Pipeline.Counts
import Loomlib.ThreadPool.Late

/-!
# Pipeline — Shutdown

`pipeline_loop` tells the pool to terminate when it takes `active_lines`
to 0. The inlet token counts only while the inlet runs: between the push
of the next token and its gate no line may be counted although the inlet
has not dried up. Unless a line retires the counter in this gap, the pool
is told once, after the last product was deposited. The runs of one worker
keep out of the gap (`one_worker_counted`).
-/

namespace Loomlib.Pipeline

open ThreadPool

variable {V : Type} {k n : Nat}

/-- `pipeline_terminate` is not called, and no line takes `active_lines`
to 0 while an inlet token waits or has not been counted yet. -/
def InletCounted (b : Bag (program V k n)) : Act (program V k n) → Prop
  | .client x => x ≠ .terminate
  | .unit f _ => f = .retire → b.mem.activeLines = 1 → load Frame.pending b.frames = 0

instance [DecidableEq V] (b : Bag (program V k n)) : ∀ a, Decidable (InletCounted b a)
  | .client x => inferInstanceAs (Decidable (x ≠ .terminate))
  | .unit f _ => inferInstanceAs (Decidable (f = .retire → b.mem.activeLines = 1 →
      load Frame.pending b.frames = 0))

theorem token_le (f : Frame V) : f.token ≤ f.pending + f.counted := by
  cases f <;> simp only [Frame.token, Frame.pending, Frame.counted] <;> (try split) <;> omega

theorem carries_le (l : Nat) (f : Frame V) : f.carries l ≤ f.counted := by
  cases f <;> simp only [Frame.carries, Frame.counted] <;> repeat' split
  all_goals omega

theorem depositing_le (l : Nat) (f : Frame V) : f.depositing l ≤ f.counted := by
  cases f <;> simp only [Frame.depositing, Frame.counted] <;> repeat' split
  all_goals omega

/-- The pool has been told to terminate, once, if and only if the inlet is
dry and no line is counted. -/
structure Told (m : Mem V) (calls : Nat) : Prop where
  going : m.terminated = false
  calls : calls = (m.dry && m.activeLines == 0).toNat

theorem Told.move {m m' : Mem V} {f : Frame V} {o : Outcome (Ref (State V)) (Frame V)}
    {r : Multiset (Frame V)} {calls : Nat} (h : Move k n m f m' o) (hS : Sound k m (f ::ₘ r))
    (hI : Told m calls)
    (hc : f = .retire → m.activeLines = 1 → load Frame.pending (f ::ₘ r) = 0) :
    Told m' (calls + o.calls) := by
  obtain ⟨hgo, hcalls⟩ := hI
  have hl := hS.counts.lines
  have htok := hS.counts.token hgo
  have hexec : m.executed = true := by
    cases he : m.executed
    · exact absurd (hS.counts.idle he) Multiset.cons_ne_zero
    · rfl
  simp only [load_cons, hexec, Bool.toNat_true] at hl htok hc
  cases h with
  | dead hf hd => exact absurd hd (hS.blocks.live hf)
  | wrap ha => simp [Frame.counted] at hl; omega
  | retireLast ha =>
    -- nothing else is counted and no inlet token waits, so the inlet is dry
    have hle := load_mono token_le r
    have hsplit : load (fun f => f.pending + f.counted) r
        = load Frame.pending r + load Frame.counted r := Multiset.sum_map_add
    have hpend := hc rfl ha
    simp only [Frame.counted, Frame.token, Frame.pending] at hl htok hpend
    have hdry : m.dry = true := by
      cases hd : m.dry
      · simp only [hd, Bool.toNat_false] at htok; omega
      · rfl
    exact ⟨hgo, by simp [hcalls, hdry, ha]⟩
  | retire ha => exact ⟨hgo, by simp [hcalls, ha]⟩
  | «open» ht hroom =>
    -- the token at the gate says that the inlet is not dry
    have hdry : m.dry = false := by
      cases hd : m.dry
      · rfl
      · simp [Frame.token, hd] at htok
    exact ⟨hgo, by simp [hcalls, hdry]⟩
  | dry =>
    have hne : (m.activeLines == 0) = false := by simp only [Frame.counted] at hl; simp; omega
    exact ⟨hgo, by simp [hcalls, hne]⟩
  | _ => exact ⟨hgo, by simp [hcalls, Mem.dry_record, Mem.store]⟩

theorem Told.step {b b' : Bag (program V k n)} {a : Act (program V k n)}
    (hS : Sound k b.mem b.frames) (hI : Told b.mem b.calls) (hc : InletCounted b a)
    (h : Bag.Step b a b') : Told b'.mem b'.calls := by
  cases bagMove_cases h with
  | unit hmove => exact hI.move hmove hS hc
  | terminate => exact absurd rfl hc
  | execute hnew ha => exact ⟨hI.going, hI.calls⟩

theorem told {s : Pool (program V k n) n} (h : (machine V k n).ReachableBy (OnBag InletCounted) s) :
    Told s.mem s.terminates :=
  sound_invariant (I := fun b => Told b.mem b.calls) ⟨rfl, rfl⟩
    (fun hS hI hc hs => hI.step hS hc hs) h

/-- **Nothing is on its way** once the pool was told to terminate. -/
theorem Told.drained {m : Mem V} {fs : Multiset (Frame V)} {calls : Nat} (hI : Told m calls)
    (hC : Counts m fs) (hcalls : 0 < calls) :
    m.dry = true ∧ (∀ l < m.injected, m.given l = 1 ∧ m.delivered l = 1) ∧
      (∀ f ∈ fs, f.token = 0 ∧ f.counted = 0) ∧ calls = 1 := by
  have hcond : (m.dry && m.activeLines == 0) = true := by
    cases hd : (m.dry && m.activeLines == 0)
    · have := hI.calls
      simp [hd] at this
      omega
    · rfl
  obtain ⟨hdry, hzero⟩ : m.dry = true ∧ m.activeLines = 0 := by simpa using hcond
  have hcounted : load Frame.counted fs = 0 := hC.lines.trans hzero
  have htoken : load Frame.token fs = 0 := by
    have hle := hC.token_le
    have := Bool.toNat_le m.executed
    simp only [hdry, Bool.toNat_true] at hle
    omega
  refine ⟨hdry, ?_, fun f hf => ⟨load_eq_zero.mp htoken f hf,
    load_eq_zero.mp hcounted f hf⟩, by simp [hI.calls, hcond]⟩
  intro l hl
  have hcarry := load_mono (carries_le l) fs
  have hdep := load_mono (depositing_le l) fs
  have hproducts := hC.products l
  have hdeposits := hC.deposits l
  have hone : m.returned l = 1 := if_pos hl
  omega

/-- The routines' history is the same before and after the call. -/
theorem log_of_call {b b' : Bag (program V k n)} {a : Act (program V k n)} (h : Bag.Step b a b')
    (hcall : b.calls < b'.calls) : b'.mem.log = b.mem.log := by
  cases bagMove_cases h with
  | unit hmove =>
    cases hmove with
    | retireLast => rfl
    | _ => simp at hcall
  | terminate | execute => rfl

/-- A queue without signals is empty when nothing is on its way. -/
theorem queue_nil {s : Pool (program V k n) n}
    (hnone : ∀ f ∈ s.bag.frames, f.token = 0 ∧ f.counted = 0)
    (hsig : signals s.workQueue = 0) : s.workQueue = [] := by
  refine List.eq_nil_iff_forall_not_mem.mpr ?_
  intro u hu
  cases hf : u.func with
  | termSig =>
    have : 0 < signals s.workQueue := List.countP_pos_iff.mpr ⟨u, hu, by simp [hf, Func.isSig]⟩
    omega
  | call d =>
    have hd := hnone _ (mem_bag_of_queue hu hf)
    simp only [Frame.token, Frame.counted] at hd
    split at hd <;> omega

/-- **Everything is delivered before the shutdown**, as long as no line
takes `active_lines` to 0 beside an inlet token that is not counted:
`thread_pool_terminate` is called with the inlet dry and every product
deposited; and with all workers gone each product was given to the outlet
once, and the work queue is empty. -/
theorem delivered_before_shutdown {s : Pool (program V k n) n} (hn : 1 ≤ n)
    (h : (machine V k n).ReachableBy (OnBag InletCounted) s) :
    (∀ e t, OnBag InletCounted s e → (machine V k n).step s e = some t →
      s.terminates < t.terminates →
      s.mem.dry = true ∧ ∀ l < s.mem.injected, s.mem.delivered l = 1) ∧
    ((∀ i, s.workers i = .exited) →
      s.mem.dry = true ∧ (∀ l < s.mem.injected, s.mem.given l = 1 ∧ s.mem.delivered l = 1) ∧
        s.workQueue = []) := by
  constructor
  · intro e t hc hs hcall
    have ht := h.step hc hs
    obtain ⟨hdry, hall, -⟩ := (told ht).drained (sound ht).counts (by omega)
    have hlog : t.mem.log = s.mem.log := by
      rcases bag_step hs with ⟨-, heq⟩ | ⟨a, -, hb⟩
      · exact congrArg (fun b : Bag (program V k n) => b.mem.log) heq
      · exact log_of_call hb hcall
    simp only [Mem.dry, Mem.injected, Mem.delivered, hlog] at hdry hall ⊢
    exact ⟨hdry, fun l hl => (hall l hl).2⟩
  · -- a worker that has exited popped a signal, so the pool was told
    intro hdone
    obtain ⟨g, hg, hsig⟩ := hands h.reachable ⟨0, hn⟩ (by simp [hdone])
    have hpos := asked h.reachable ⟨g, (history h.reachable).popped_mem hg, hsig⟩
    obtain ⟨hdry, hall, hnone, hone⟩ := (told h).drained (sound h).counts hpos
    have hleft : signals s.workQueue + 1 = s.terminates :=
      (balance h.reachable).left_over hn fun i => by simp [Pool.relay, hdone i]
    exact ⟨hdry, hall, queue_nil hnone (by omega)⟩

/-! ## Runs -/

/-- One worker and one product. -/
def oneProduct : List (Event (program Nat 0 1) 1) :=
  .client (.execute 0) :: take first ++ go first 3 ++ .unit first (.returns (some 7)) ::
    .unit first (.malloc 1) :: go first 4 ++ .loop first :: take first ++ go first 3 ++
    dryUp first ++ take first ++ deposit first ++ go first 1 ++ List.replicate 8 (.loop first)

example :
    let s := (machine Nat 0 1).final oneProduct (by decide)
    (∀ i, s.workers i = .exited) ∧ s.mem.injected = 1 ∧ s.mem.delivered 0 = 1 ∧
      s.workQueue = [] :=
  have h := (delivered_before_shutdown (by decide)
    ((machine Nat 0 1).reachableBy_final oneProduct (by decide) (by decide))).2 (by decide)
  ⟨by decide, by decide, (h.2.1 0 (by decide)).2, h.2.2⟩

/-- Two workers. Worker 0 takes the first product to the outlet while
worker 1 has popped the next inlet token and not reached the gate. -/
def earlyCall : List (Event (program Nat 0 2) 2) :=
  .client (.execute 0) :: take first ++ go first 3 ++ .unit first (.returns (some 7)) ::
    .unit first (.malloc 1) :: go first 1 ++ .loop second :: go first 3 ++ .loop first ::
    take first ++ deposit first

/-- Worker 1 goes on to inject a second product. The signals overtake its
line, and both workers exit. -/
def lostProduct : List (Event (program Nat 0 2) 2) :=
  earlyCall ++ .loop second :: go second 3 ++ .unit second (.returns (some 8)) ::
    .unit second (.malloc 0) :: go second 1 ++ go first 1 ++ List.replicate 9 (.loop first) ++
    go second 3 ++ .loop second :: take second ++ go second 3 ++ dryUp second ++
    List.replicate 7 (.loop second)

/-- The pool is told to terminate before the inlet is dry, and a product
is left in the queue when both workers are gone. -/
theorem product_lost :
    (∃ s, (machine Nat 0 2).Reachable s ∧ s.mem.terminated = false ∧ s.terminates = 1 ∧
      s.mem.dry = false) ∧
    ∃ s, (machine Nat 0 2).Reachable s ∧ s.mem.terminated = false ∧
      (∀ i, s.workers i = .exited) ∧ s.mem.dry = true ∧ s.mem.injected = 2 ∧
      s.mem.given 1 = 0 ∧ s.workQueue ≠ [] :=
  ⟨⟨_, (machine Nat 0 2).reachable_final earlyCall (by decide), by decide, by decide, by decide⟩,
    ⟨_, (machine Nat 0 2).reachable_final lostProduct (by decide), by decide, by decide,
      by decide, by decide, by decide, by decide⟩⟩

end Loomlib.Pipeline
