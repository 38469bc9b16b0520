import Loomlib.Core.History
import Loomlib.Pipeline.Flight

/-!
# Pipeline — Inlet

The inlet routine is called by one activation at a time: by the inlet
token, of which there is one until the inlet is dry or the pipeline is
terminated. The flag is read at the gate only, so a token that has passed
it when `pipeline_terminate` returns calls the inlet once more.
-/

namespace Loomlib.Pipeline

open ThreadPool

variable {V : Type} {k n : Nat}

/-! ## Calls in the log -/

section Log

variable (log : List (Routine V)) (r : Routine V)

/-- The calls of the inlet. -/
def inletCalls : Nat :=
  log.countP fun r => match r with
    | .inlet => true
    | _ => false

/-- The returns from the inlet. -/
def inletReturns : Nat :=
  log.countP fun r => match r with
    | .inletRet _ => true
    | _ => false

@[simp] theorem inletCalls_snoc : inletCalls (log ++ [r])
    = inletCalls log + (match r with | .inlet => 1 | _ => 0) := by
  unfold inletCalls
  rw [List.countP_append]
  cases r <;> rfl

@[simp] theorem inletReturns_snoc : inletReturns (log ++ [r])
    = inletReturns log + (match r with | .inletRet _ => 1 | _ => 0) := by
  unfold inletReturns
  rw [List.countP_append]
  cases r <;> rfl

end Log

theorem dry_iff {m : Mem V} : m.dry = true ↔ .inletRet none ∈ m.log := by
  unfold Mem.dry
  rw [List.any_eq_true]
  constructor
  · rintro ⟨r, hr, hnone⟩
    rcases r with _ | (_ | _) | _ | _ | _ | _ <;> first | exact hr | cases hnone
  · intro h
    exact ⟨_, h, rfl⟩

/-- The inlet may be called when every call of it has returned, and none
with NULL. -/
def Serial (pre : List (Routine V)) : Routine V → Prop
  | .inlet => inletCalls pre = inletReturns pre ∧ .inletRet none ∉ pre
  | _ => True

/-! ## The token at the inlet -/

/-- It is about to call the inlet. -/
def Frame.calling : Frame V → Nat
  | .callInlet _ => 1
  | _ => 0

/-- It is inside the inlet. -/
def Frame.inside : Frame V → Nat
  | .inlet _ => 1
  | _ => 0

theorem calling_le (f : Frame V) : f.calling ≤ f.token := by
  cases f <;> simp [Frame.calling, Frame.token]

theorem inside_le (f : Frame V) : f.inside ≤ f.token := by
  cases f <;> simp [Frame.inside, Frame.token]

/-- Every call was in order, and those that have not returned are under
way in the bag. -/
structure Called (log : List (Routine V)) (fs : Multiset (Frame V)) : Prop where
  balance : inletCalls log = inletReturns log + load Frame.inside fs
  serial : Justified Serial log

theorem Called.move {m m' : Mem V} {f : Frame V} {o : Outcome (Ref (State V)) (Frame V)}
    {r : Multiset (Frame V)} (h : Move k n m f m' o) (hC : Counts m (f ::ₘ r))
    (hI : Called m.log (f ::ₘ r)) : Called m'.log (o.frames .enter + r) := by
  obtain ⟨hopen, hser⟩ := hI
  have htok := hC.token_le
  rw [load_cons] at hopen htok
  have hexec := Bool.toNat_le m.executed
  cases h with
  | @callInlet d =>
    -- this is the one token, so nobody is inside and the inlet is not dry
    have hone : (Frame.callInlet d).token = 1 := rfl
    have hin := load_mono inside_le r
    refine ⟨?_, hser.snoc ⟨?_, ?_⟩⟩
    · simp only [Frame.inside, zero_add] at hopen
      simp [Frame.inside, Mem.record]
      omega
    · simp only [Frame.inside] at hopen
      omega
    · rw [← dry_iff]
      intro hdry
      simp only [hdry, Bool.toNat_true] at htok
      omega
  | inlet | dry =>
    refine ⟨?_, hser.snoc trivial⟩
    simp only [Frame.inside] at hopen
    simp [Frame.inside, Mem.record]
    omega
  | callPump | pump | callOutlet | outlet =>
    refine ⟨?_, hser.snoc trivial⟩
    simpa [Frame.inside, Mem.record] using hopen
  | dead hf hd => exact ⟨by simpa using hopen, hser⟩
  | _ => exact ⟨by simpa [Frame.inside, Mem.store] using hopen, hser⟩

theorem Called.step {b b' : Bag (program V k n)} {a : Act (program V k n)}
    (hS : Sound k b.mem b.frames) (hI : Called b.mem.log b.frames) (h : Bag.Step b a b') :
    Called b'.mem.log b'.frames := by
  cases bagMove_cases h with
  | unit hmove => exact hI.move hmove hS.counts
  | terminate => exact hI
  | execute hnew ha =>
    exact ⟨by simpa [Frame.inside, Mem.store] using hI.balance, hI.serial⟩

theorem called {s : Pool (program V k n) n} (h : (machine V k n).Reachable s) :
    Called s.mem.log s.bag.frames :=
  sound_invariant (I := fun b => Called b.mem.log b.frames) ⟨rfl, .nil⟩
    (fun hS hI _ hs => hI.step hS hs) (reachable_onBag h)

/-! ## After pipeline_terminate -/

/-- The calls of the inlet, with those the gate has let through. -/
def callsDue (m : Mem V) (fs : Multiset (Frame V)) : Nat :=
  inletCalls m.log + load Frame.calling fs

/-- The gate of a terminated pipeline lets nobody through. -/
theorem callsDue_step {b b' : Bag (program V k n)} {a : Act (program V k n)}
    (ht : b.mem.terminated = true) (h : Bag.Step b a b') :
    b'.mem.terminated = true ∧ callsDue b'.mem b'.frames ≤ callsDue b.mem b.frames := by
  cases bagMove_cases h with
  | @unit m f c m' o r calls hmove =>
    unfold callsDue
    simp only [load_add, load_cons]
    cases hmove with
    | «open» hgo =>
      change m.terminated = true at ht
      cases ht.symm.trans hgo
    | callInlet =>
      refine ⟨ht, ?_⟩
      simp [Frame.calling, Mem.record]
      omega
    | _ =>
      refine ⟨ht, ?_⟩
      simp [Frame.calling, Mem.record, Mem.store]
  | terminate => exact ⟨rfl, Nat.le_refl _⟩
  | execute hnew ha =>
    exact ⟨ht, by simp [callsDue, Frame.calling, Mem.store]⟩

/-- How the inlet is called, in a state of the pipeline. -/
structure SerialInlet (s : Pool (program V k n) n) : Prop where
  /-- There is one inlet token, and no other beside one whose call of the
  inlet returned NULL. -/
  one_token : queued Frame.token s + tally (held Frame.token) s.workers + s.mem.dry.toNat ≤ 1
  one_call : ∀ i j u u' d d', s.workers i = .running u (.inlet d) →
    s.workers j = .running u' (.inlet d') → i = j
  /-- No call overlaps another or follows a NULL. -/
  serial : Justified Serial s.mem.log
  /-- Once `pipeline_terminate` has returned, one more call starts at most. -/
  stops : s.mem.terminated = true → ∀ t, (machine V k n).Leads s t →
    inletCalls t.mem.log ≤ inletCalls s.mem.log + 1

/-- **The inlet is called serially and stops when told.** -/
theorem serial_inlet {s : Pool (program V k n) n} (h : (machine V k n).Reachable s) :
    SerialInlet s := by
  have hC := (sound h).counts
  have hle : load Frame.token s.bag.frames + s.mem.dry.toNat ≤ 1 := by
    have := hC.token_le
    have := Bool.toNat_le s.mem.executed
    change _ ≤ s.mem.executed.toNat at *
    omega
  refine ⟨load_bag Frame.token s ▸ hle, ?_, (called h).serial, ?_⟩
  · intro i j u u' d d' hi hj
    by_contra hij
    have hboth := add_le_tally (held Frame.token) s.workers hij
    have hall := load_bag Frame.token s
    have hone : ∀ u d, held Frame.token (.running u (.inlet d) : Worker (program V k n)) = 1 :=
      fun _ _ => rfl
    rw [hi, hj, hone, hone] at hboth
    omega
  · intro hterm t ht
    have hdue := ht.invariant (I := fun t => t.mem.terminated = true ∧
      callsDue t.mem t.bag.frames ≤ callsDue s.mem s.bag.frames) ?_ ⟨hterm, Nat.le_refl _⟩
    · have hcall := load_mono calling_le s.bag.frames
      have hdue := hdue.2
      unfold callsDue at hdue
      omega
    · intro t e t' hI hs
      rcases bag_step hs with ⟨-, heq⟩ | ⟨a, -, hb⟩
      · have hmem : t'.mem = t.mem := congrArg Bag.mem heq
        rwa [heq, hmem]
      · have hstep := callsDue_step hI.1 hb
        exact ⟨hstep.1, Nat.le_trans hstep.2 hI.2⟩

/-- `pipeline_terminate` returns when the token has passed the gate. -/
def lateRun : List (Event (program Nat 0 1) 1) :=
  .client (.execute 0) :: take first ++ go first 2 ++ [.client .terminate]

/-- The token that has passed the gate calls the inlet once more. -/
theorem serial_inlet_late :
    let s := (machine Nat 0 1).final lateRun (by decide)
    let t := (machine Nat 0 1).final (lateRun ++ go first 1) (by decide)
    s.mem.terminated = true ∧ inletCalls s.mem.log = 0 ∧ inletCalls t.mem.log = 1 ∧
      SerialInlet s :=
  ⟨by decide, by decide, by decide,
    serial_inlet ((machine Nat 0 1).reachable_final lateRun (by decide))⟩

end Loomlib.Pipeline
