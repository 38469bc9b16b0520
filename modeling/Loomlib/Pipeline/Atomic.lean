import Loomlib.Pipeline.Counts
import Loomlib.Pipeline.Locked

/-!
# Pipeline — Atomic

The critical sections under `pipe->lock` are atomic. The pipeline with its
lock, its steps taken one by one and those of all threads in between,
refines the one whose sections are one step each: a section takes effect
where it decides what comes next, the last of all where it tells the pool
to terminate, and `pipeline_execute` where it pushes.
-/

namespace Loomlib.Pipeline

open ThreadPool (Pool Program Request Outcome Bag Act Detail)

variable {V κ : Type} {k n : Nat}

/-! ## The view from above -/

namespace LockedMem

variable (m : LockedMem V κ)

/-- A block that is still to be pushed is not seen. -/
def hides (a : Nat) : Bool :=
  m.block.any fun p => p.2.addr == a

/-- The last line ends where the pool is told. -/
def view : Mem V :=
  { m.mem with
    heap := fun a => if m.hides a then none else m.mem.heap a
    activeLines := m.mem.activeLines + m.ending.toNat }

theorem view_heap {a : Nat} (ha : m.hides a = false) : m.view.heap a = m.mem.heap a := by
  simp only [view, ha, Bool.false_eq_true, if_false]

theorem hides_of_view {a : Nat} (ha : m.view.heap a ≠ none) : m.hides a = false := by
  by_contra hh
  exact ha (if_pos (Bool.not_eq_false _ ▸ hh))

theorem view_lines (he : m.ending = false) : m.view.activeLines = m.mem.activeLines := by
  simp only [view, he, Bool.toNat_false, Nat.add_zero]

/-- A write that is seen. -/
theorem view_store {a : Nat} (ha : m.hides a = false) (b : Option (State V)) :
    { m with mem := m.mem.store a b }.view = m.view.store a b := by
  have hheap : (fun x => if m.hides x then none else Function.update m.mem.heap a b x)
      = Function.update (fun x => if m.hides x then none else m.mem.heap x) a b := by
    funext x
    by_cases hx : x = a
    · subst hx
      simp only [ha, Bool.false_eq_true, if_false, Function.update_self]
    · simp only [Function.update_of_ne hx]
  exact congrArg (fun h => ({ m.view with heap := h } : Mem V)) hheap

end LockedMem

/-- A section is entered from above where it decides. -/
def LockedFrame.view : LockedFrame V → Frame V
  | .out f | .unlock f => f
  | .testTerminated d | .testLines d | .countLine d => .gate d
  | .endLine | .terminate => .retire

/-- The steps of the section that starts here, up to its decision. -/
def Frame.sectionSteps : Frame V → Nat
  | .gate _ => 4
  | .retire => 3
  | _ => 0

def LockedFrame.rest : LockedFrame V → Nat
  | .out f => f.sectionSteps
  | .testTerminated _ => 3
  | .testLines _ | .endLine => 2
  | .countLine _ | .terminate => 1
  | .unlock f => f.sectionSteps + 1

theorem LockedFrame.rest_le (f : LockedFrame V) : f.rest ≤ 5 := by
  have hframe : ∀ g : Frame V, g.sectionSteps ≤ 4 := by
    intro g
    cases g <;> simp [Frame.sectionSteps]
  cases f with
  | out g =>
    have := hframe g
    simp only [rest]
    omega
  | unlock g =>
    have := hframe g
    simp only [rest]
    omega
  | _ => simp [rest]

/-- The pipeline with its lock, and the one without. -/
def detail (V κ : Type) [DecidableEq κ] (k n : Nat) :
    Detail (lockedProgram V κ k n) (program V k n) where
  data := id
  frame := LockedFrame.view
  mem := LockedMem.view
  rest := LockedFrame.rest
  call := fun _ => rfl
  fresh := fun _ => rfl

/-! ## Who is inside -/

def LockedFrame.holds : LockedFrame V → Nat
  | .out _ => 0
  | _ => 1

def LockedFrame.ends : LockedFrame V → Nat
  | .terminate => 1
  | _ => 0

def Caller.holds : Caller V → Bool
  | .terminate | .unlock => true
  | _ => false

/-- What has been tested under the lock still holds. -/
def LockedFrame.Inside (n : Nat) (m : Mem V) : LockedFrame V → Prop
  | .testLines _ => m.terminated = false
  | .countLine _ => m.terminated = false ∧ m.activeLines ≤ n
  | .terminate => m.activeLines = 0
  | _ => True

theorem LockedFrame.ends_le_holds (f : LockedFrame V) : f.ends ≤ f.holds := by
  cases f <;> simp [ends, holds]

/-- Outside of the lock nothing is known. -/
theorem LockedFrame.inside_of_out {m : Mem V} {f : LockedFrame V} (hf : f.holds = 0) :
    f.Inside n m := by
  cases f <;> trivial

theorem LockedFrame.Inside.congr {m m' : Mem V} {f : LockedFrame V} (h : f.Inside n m)
    (ht : m'.terminated = m.terminated) (ha : m'.activeLines = m.activeLines) : f.Inside n m' := by
  cases f with
  | testLines d => exact ht.trans h
  | countLine d => exact ⟨ht.trans h.1, ha ▸ h.2⟩
  | terminate => exact ha.trans h
  | _ => trivial

/-- The lock, the threads that may hold it and what they know. -/
structure Locks (n : Nat) (m : LockedMem V κ) (fs : Multiset (LockedFrame V)) : Prop where
  units : weigh LockedFrame.holds fs = 1 ∧ m.lock = some .unit ∨
    weigh LockedFrame.holds fs = 0 ∧ m.lock ≠ some .unit
  callers : ∀ t, (m.callers t).holds = true ↔ m.lock = some (.caller t)
  inside : ∀ f ∈ fs, f.Inside n m.mem
  ending : weigh LockedFrame.ends fs = m.ending.toNat

/-- The block of a `pipeline_execute` that has not pushed it. -/
structure Hidden (m : LockedMem V κ) : Prop where
  owner : ∀ t d, m.callers t = .execute d ↔ m.block = some (t, d)
  block : ∀ t d, m.block = some (t, d) →
    d.block = ⟨none, -1, 0⟩ ∧ m.mem.heap d.addr = some d.block ∧ m.mem.executed = false

section Locks

variable {m m' : LockedMem V κ} {f : LockedFrame V} {r fs : Multiset (LockedFrame V)}

theorem weigh_ends_le (fs : Multiset (LockedFrame V)) :
    weigh LockedFrame.ends fs ≤ weigh LockedFrame.holds fs :=
  weigh_mono LockedFrame.ends_le_holds fs

/-- Who is under the lock is there alone. -/
theorem Locks.alone (hI : Locks n m (f ::ₘ r)) (hf : f.holds = 1) :
    m.lock = some .unit ∧ weigh LockedFrame.holds r = 0 := by
  have hunits := hI.units
  rw [weigh_cons, hf] at hunits
  rcases hunits with ⟨hone, hl⟩ | ⟨hzero, -⟩
  · exact ⟨hl, by omega⟩
  · omega

theorem Locks.ending_eq (hI : Locks n m (f ::ₘ r)) (hf : f.holds = 1) :
    m.ending.toNat = f.ends := by
  have hends := hI.ending
  have hle := weigh_ends_le r
  rw [weigh_cons] at hends
  have hr := (hI.alone hf).2
  omega

theorem Locks.not_ending (hI : Locks n m (f ::ₘ r)) (hf : f.holds = 1) (he : f.ends = 0) :
    m.ending = false := by
  have hends := hI.ending_eq hf
  rw [he] at hends
  exact Bool.toNat_eq_zero.mp hends

/-- Nobody else under the lock, nobody else knows anything. -/
theorem inside_of_free {mem : Mem V} (hr : weigh LockedFrame.holds r = 0) :
    ∀ g ∈ r, g.Inside n mem :=
  fun g hg => LockedFrame.inside_of_out (weigh_eq_zero.mp hr g hg)

/-- What `pipeline_loop` does outside of its sections leaves alone what is
under the lock. -/
theorem Move.beside {m m' : Mem V} {f : Frame V} {o : Outcome (Ref (State V)) (Frame V)}
    (h : Move k n m f m' o) (hf : f.free = true) : m'.terminated = m.terminated ∧
      m'.activeLines = m.activeLines ∧ m'.executed = m.executed := by
  cases h with
  | wrap | terminated | full | «open» | retire | retireLast => cases hf
  | _ => exact ⟨rfl, rfl, rfl⟩

theorem weigh_beside (w : LockedFrame V → Nat) (hw : ∀ f, w (.out f) = 0)
    (o : Outcome (Ref (State V)) (Frame V)) :
    weigh w ((o.map id LockedFrame.out).frames fun d => .out (.enter d)) = 0 := by
  rcases o with f | ⟨_ | _, f⟩ | _ <;> simp [Outcome.map, ThreadPool.Request.map, hw]

/-- A step under the lock. -/
theorem Locks.within {g : LockedFrame V} (hI : Locks n m (f ::ₘ r)) (hf : f.holds = 1)
    (hg : g.holds = 1) (hlock : m'.lock = m.lock) (hcallers : m'.callers = m.callers)
    (hin : g.Inside n m'.mem) (hends : g.ends = m'.ending.toNat) : Locks n m' (g ::ₘ r) := by
  obtain ⟨hl, hr⟩ := hI.alone hf
  have hle := weigh_ends_le r
  refine ⟨.inl ⟨?_, hlock.trans hl⟩, ?_, ?_, ?_⟩
  · rw [weigh_cons, hg, hr]
  · rw [hlock, hcallers]
    exact hI.callers
  · exact Multiset.forall_mem_cons.mpr ⟨hin, inside_of_free hr⟩
  · rw [weigh_cons]
    omega

/-- The free lock is taken. -/
theorem Locks.acquire {g : LockedFrame V} (hI : Locks n m (f ::ₘ r)) (hl : m.lock = none)
    (hf : f.holds = 0) (hg : g.holds = 1) (hends : g.ends = 0) (hin : g.Inside n m.mem) :
    Locks n { m with lock := some .unit } (g ::ₘ r) := by
  have hunits := hI.units
  have hending := hI.ending
  have hle := f.ends_le_holds
  rw [weigh_cons] at hunits hending
  have hr : weigh LockedFrame.holds r = 0 := by
    rcases hunits with ⟨-, hu⟩ | ⟨hzero, -⟩
    · cases hl.symm.trans hu
    · omega
  refine ⟨.inl ⟨?_, rfl⟩, ?_, ?_, ?_⟩
  · rw [weigh_cons, hg, hr]
  · intro t
    rw [hI.callers t, hl]
    exact ⟨nofun, nofun⟩
  · exact Multiset.forall_mem_cons.mpr ⟨hin, inside_of_free hr⟩
  · rw [weigh_cons, hends]
    show _ = m.ending.toNat
    omega

/-- It is given back. -/
theorem Locks.release {g : Frame V} (hI : Locks n m (f ::ₘ r)) (hf : f.holds = 1)
    (hends : f.ends = 0) : Locks n { m with lock := none } (.out g ::ₘ r) := by
  obtain ⟨hl, hr⟩ := hI.alone hf
  have hending := hI.ending_eq hf
  have hle := weigh_ends_le r
  refine ⟨.inr ⟨?_, nofun⟩, ?_, ?_, ?_⟩
  · rw [weigh_cons, hr]
    rfl
  · intro t
    rw [hI.callers t, hl]
    exact ⟨nofun, nofun⟩
  · exact Multiset.forall_mem_cons.mpr ⟨trivial, inside_of_free hr⟩
  · rw [weigh_cons]
    show 0 + _ = m.ending.toNat
    omega

/-- **Mutual exclusion**: a step of a unit keeps the lock and what is known
under it. -/
theorem Locks.move {o : Outcome (Ref (State V)) (LockedFrame V)} (h : LockedMove k n m f m' o)
    (hI : Locks n m (f ::ₘ r)) : Locks n m' (o.frames (fun d => .out (.enter d)) + r) := by
  have hin : f.Inside n m.mem := hI.inside f (Multiset.mem_cons_self _ _)
  have hrest : ∀ g ∈ r, g.Inside n m.mem := fun g hg => hI.inside g (Multiset.mem_cons_of_mem hg)
  have hcallers := hI.callers
  cases h with
  | @beside f mem o hf h =>
    obtain ⟨ht, ha, -⟩ := h.beside hf
    have hunits := hI.units
    have hending := hI.ending
    rw [weigh_cons] at hunits hending
    refine ⟨?_, hcallers, ?_, ?_⟩
    · rw [weigh_add, weigh_beside _ (fun _ => rfl)]
      exact hunits
    · intro g hg
      rcases Multiset.mem_add.mp hg with hg | hg
      · exact LockedFrame.inside_of_out (weigh_eq_zero.mp (weigh_beside _ (fun _ => rfl) o) g hg)
      · exact (hrest g hg).congr ht ha
    · rw [weigh_add, weigh_beside _ (fun _ => rfl)]
      exact hending
  | lockGate hl | lockRetire hl => exact hI.acquire hl rfl rfl rfl trivial
  | terminated ht | full hfull | wrap ha =>
    exact hI.within rfl rfl rfl rfl trivial (hI.ending_eq rfl).symm
  | notTerminated ht => exact hI.within rfl rfl rfl rfl ht (hI.ending_eq rfl).symm
  | room hroom => exact hI.within rfl rfl rfl rfl ⟨hin, hroom⟩ (hI.ending_eq rfl).symm
  | countLine => exact hI.within rfl rfl rfl rfl trivial (hI.ending_eq rfl).symm
  | endLine ha => exact hI.within rfl rfl rfl rfl trivial rfl
  | endLast ha => exact hI.within rfl rfl rfl rfl rfl rfl
  | terminate => exact hI.within rfl rfl rfl rfl trivial rfl
  | unlock => exact hI.release rfl rfl

/-- While no unit has the lock nothing is known. -/
theorem Locks.outside (hI : Locks n m fs) (hl : m.lock ≠ some .unit) :
    weigh LockedFrame.holds fs = 0 := by
  rcases hI.units with ⟨-, hu⟩ | ⟨hzero, -⟩
  · exact absurd hu hl
  · exact hzero

variable [DecidableEq κ]

/-- A thread moves on, and the lock changes hands for nobody else. -/
theorem callers_move {lock lock' : Option (Holder κ)} {callers : κ → Caller V}
    (h : ∀ t, (callers t).holds = true ↔ lock = some (.caller t)) {t : κ} {c : Caller V}
    (ht : c.holds = true ↔ lock' = some (.caller t))
    (hother : ∀ u, u ≠ t → (lock' = some (.caller u) ↔ lock = some (.caller u))) (u : κ) :
    (Function.update callers t c u).holds = true ↔ lock' = some (.caller u) := by
  by_cases hu : u = t
  · subst hu
    rw [Function.update_self]
    exact ht
  · rw [Function.update_of_ne hu, hother u hu]
    exact h u

theorem Locks.client {x : LockedClient κ} {q : Option (Request (Ref (State V)))}
    (h : LockedClientMove m x m' q) (hI : Locks n m fs) :
    Locks n m' ((q.elim 0 (Request.frames fun d => LockedFrame.out (.enter d))) + fs) := by
  cases h with
  | @execute t a hidle hnew hb ha =>
    have hnot : ¬ m.lock = some (.caller t) := by
      rw [← hI.callers t, hidle]
      nofun
    rw [Option.elim_none, zero_add]
    exact ⟨hI.units, callers_move hI.callers ⟨nofun, (absurd · hnot)⟩ (fun _ _ => .rfl), hI.inside,
      hI.ending⟩
  | @push t d hc =>
    have hnot : ¬ m.lock = some (.caller t) := by
      rw [← hI.callers t, hc]
      nofun
    refine ⟨?_, callers_move hI.callers ⟨nofun, (absurd · hnot)⟩ (fun _ _ => .rfl), ?_, ?_⟩
    · rw [weigh_add]
      simpa [LockedFrame.holds, LockedMem.setCaller] using hI.units
    · intro g hg
      rcases Multiset.mem_add.mp hg with hg | hg
      · obtain rfl := Multiset.mem_singleton.mp hg
        trivial
      · exact (hI.inside g hg).congr rfl rfl
    · rw [weigh_add]
      simpa [LockedFrame.ends, LockedMem.setCaller] using hI.ending
  | @lock t hidle hl =>
    have hzero := hI.outside (hl ▸ nofun)
    rw [Option.elim_none, zero_add]
    refine ⟨.inr ⟨hzero, nofun⟩, callers_move hI.callers ⟨fun _ => rfl, fun _ => rfl⟩ ?_, hI.inside,
      hI.ending⟩
    intro u hu
    rw [hl]
    exact ⟨fun heq => (hu (by cases heq; rfl)).elim, nofun⟩
  | @write t hc =>
    have hl := (hI.callers t).mp (by rw [hc]; rfl)
    have hzero := hI.outside (hl ▸ nofun)
    rw [Option.elim_none, zero_add]
    exact ⟨.inr ⟨hzero, hl ▸ nofun⟩,
      callers_move hI.callers ⟨fun _ => hl, fun _ => rfl⟩ (fun _ _ => .rfl),
      inside_of_free hzero, hI.ending⟩
  | @unlock t hc =>
    have hl := (hI.callers t).mp (by rw [hc]; rfl)
    have hzero := hI.outside (hl ▸ nofun)
    rw [Option.elim_none, zero_add]
    refine ⟨.inr ⟨hzero, nofun⟩, callers_move hI.callers ⟨nofun, nofun⟩ ?_, hI.inside, hI.ending⟩
    intro u hu
    rw [hl]
    exact ⟨nofun, fun heq => (hu (by cases heq; rfl)).elim⟩

end Locks

/-! ## The block that is not pushed yet -/

section Hidden

variable {m m' : LockedMem V κ} {f : LockedFrame V}

/-- A step of `pipeline_loop` leaves a live block alone that is not its
own. -/
theorem Move.heap_other {m m' : Mem V} {f : Frame V} {o : Outcome (Ref (State V)) (Frame V)}
    (h : Move k n m f m' o) {a : Nat} (ha : m.heap a ≠ none)
    (hf : ∀ d, f.through = some d → d.addr ≠ a) : m'.heap a = m.heap a := by
  cases h with
  | dropState | freeState | advance => exact Function.update_of_ne (hf _ rfl).symm _ _
  | restart hnew =>
    refine Function.update_of_ne ?_ _ _
    rintro rfl
    exact ha hnew
  | _ => rfl

theorem hides_cases {a : Nat} (ha : m.hides a = true) :
    ∃ t d, m.block = some (t, d) ∧ d.addr = a := by
  obtain ⟨⟨t, d⟩, hblock, haddr⟩ := (Option.any_eq_true _ _).mp ha
  exact ⟨t, d, hblock, beq_iff_eq.mp haddr⟩

/-- A free address is none of a block to be pushed. -/
theorem Hidden.free (hH : Hidden m) {a : Nat} (ha : m.mem.heap a = none) : m.hides a = false := by
  by_contra hh
  obtain ⟨t, d, hblock, rfl⟩ := hides_cases (by simpa using hh)
  cases ha.symm.trans (hH.block t d hblock).2.1

theorem hides_self {t : κ} {d : Ref (State V)} (hb : m.block = some (t, d)) :
    m.hides d.addr = true := by
  simp [LockedMem.hides, hb]

/-- The heap is what is seen of it, and the block. -/
theorem Hidden.heap (hH : Hidden m) {t : κ} {d : Ref (State V)} (hb : m.block = some (t, d)) :
    m.mem.heap = Function.update m.view.heap d.addr (some d.block) := by
  funext x
  by_cases hx : x = d.addr
  · subst hx
    rw [Function.update_self, (hH.block t d hb).2.1]
  · have hseen : m.hides x = false := by simpa [LockedMem.hides, hb] using Ne.symm hx
    rw [Function.update_of_ne hx, m.view_heap hseen]

/-- There is memory left if there is from above. -/
theorem Hidden.fresh (hH : Hidden m) {refs : Multiset (Ref (State V))}
    (ho : Owned m.view.heap refs) : ∃ a, m.mem.heap a = none := by
  cases hb : m.block with
  | none =>
    obtain ⟨a, ha⟩ := ho.fresh
    refine ⟨a, ?_⟩
    rwa [m.view_heap (by simp [LockedMem.hides, hb])] at ha
  | some p =>
    obtain ⟨t, d⟩ := p
    have hnone : m.view.heap d.addr = none := if_pos (hides_self hb)
    rw [hH.heap hb]
    exact (ho.alloc hnone d.block).fresh

theorem Hidden.move {o : Outcome (Ref (State V)) (LockedFrame V)} (h : LockedMove k n m f m' o)
    (hH : Hidden m) (hlive : ∀ d, f.view.through = some d → m.hides d.addr = false) :
    Hidden m' := by
  cases h with
  | @beside f mem o hf h =>
    refine ⟨hH.owner, ?_⟩
    intro t d hb
    have hb : m.block = some (t, d) := hb
    obtain ⟨hd, hheap, hnew⟩ := hH.block t d hb
    refine ⟨hd, ?_, (h.beside hf).2.2.trans hnew⟩
    show mem.heap d.addr = _
    rw [h.heap_other (by rw [hheap]; nofun) ?_, hheap]
    intro d' hd' haddr
    have hseen := hlive d' hd'
    rw [haddr, hides_self hb] at hseen
    cases hseen
  | _ => exact ⟨hH.owner, hH.block⟩

variable [DecidableEq κ]

/-- A thread that has nothing to push moves on to where it has not either. -/
theorem owner_move {block : Option (κ × Ref (State V))} {callers : κ → Caller V}
    (h : ∀ t d, callers t = .execute d ↔ block = some (t, d)) {t : κ} {c : Caller V}
    (ht : ∀ d, callers t ≠ .execute d) (hc : ∀ d, c ≠ .execute d) (u : κ) (d : Ref (State V)) :
    Function.update callers t c u = .execute d ↔ block = some (u, d) := by
  by_cases hu : u = t
  · subst hu
    rw [Function.update_self, ← h u d]
    exact ⟨fun heq => (hc d heq).elim, fun heq => (ht d heq).elim⟩
  · rw [Function.update_of_ne hu]
    exact h u d

theorem Hidden.client {x : LockedClient κ} {q : Option (Request (Ref (State V)))}
    (h : LockedClientMove m x m' q) (hH : Hidden m) : Hidden m' := by
  cases h with
  | @execute t a hidle hnew hb ha =>
    refine ⟨?_, ?_⟩
    · intro u d
      show Function.update m.callers t _ u = _ ↔ some (t, _) = some (u, d)
      by_cases hu : u = t
      · subst hu
        rw [Function.update_self]
        exact ⟨fun heq => by cases heq; rfl, fun heq => by cases heq; rfl⟩
      · rw [Function.update_of_ne hu, hH.owner u d, hb]
        exact ⟨nofun, fun heq => (hu (by cases heq; rfl)).elim⟩
    · intro u d hd
      cases hd
      exact ⟨rfl, Function.update_self .., hnew⟩
  | @push t d hc =>
    have hb := (hH.owner t d).mp hc
    refine ⟨?_, nofun⟩
    intro u d'
    show Function.update m.callers t .idle u = _ ↔ _
    by_cases hu : u = t
    · subst hu
      rw [Function.update_self]
      exact ⟨nofun, nofun⟩
    · rw [Function.update_of_ne hu, hH.owner u d', hb]
      exact ⟨fun heq => (hu (by cases heq; rfl)).elim, nofun⟩
  | lock hc | write hc | unlock hc =>
    exact ⟨owner_move hH.owner (fun d => by rw [hc]; nofun) nofun, hH.block⟩

end Hidden

/-! ## Every step is one from above, or none -/

section Covers

variable {m m' : LockedMem V κ} {f : LockedFrame V} {c : Choice V}

/-- Outside of the sections the hidden block makes no difference. -/
theorem pipelineLoop_view {mem : Mem V} {f : Frame V} {o : Outcome (Ref (State V)) (Frame V)}
    (hH : Hidden m) (hf : f.free = true) (hlive : ∀ d, f.through = some d → m.hides d.addr = false)
    (h : pipelineLoop k n m.mem f c = some (mem, o)) :
    pipelineLoop k n m.view f c = some ({ m with mem := mem }.view, o) := by
  cases f with
  | gate d => cases hf
  | retire => cases hf
  | enter d =>
    simp only [pipelineLoop, m.view_heap (hlive d rfl)] at h ⊢
    split at h <;> (cases h; rfl)
  | dropState d | freeState d | advance d p l =>
    simp only [pipelineLoop, m.view_heap (hlive d rfl)] at h ⊢
    split at h
    · cases h
      rfl
    · cases h
      rw [m.view_store (hlive d rfl)]
  | restart d v l =>
    simp only [pipelineLoop] at h ⊢
    split at h
    · rename_i a
      split at h
      · rename_i ha
        cases h
        have hfree := hH.free (Option.isNone_iff_eq_none.mp ha)
        simp only [m.view_heap hfree, ha, if_true, m.view_store hfree]
      · cases h
    · cases h
  | inlet d | pump d | outlet d =>
    simp only [pipelineLoop] at h ⊢
    split at h <;> first | (cases h; rfl) | cases h
  | _ =>
    cases h
    rfl

section Sections

variable {m : Mem V} {d : Ref (State V)}

theorem gate_terminated (ht : m.terminated = true) :
    pipelineLoop k n m (.gate d) c = some (m, .go (.dropState d)) :=
  if_pos ht

theorem gate_full (ht : m.terminated = false) (hfull : n < m.activeLines) :
    pipelineLoop k n m (.gate d) c = some (m, .go (.defer d)) := by
  have hnot : ¬ m.terminated = true := by rw [ht]; nofun
  exact (if_neg hnot).trans (if_pos hfull)

theorem gate_open (ht : m.terminated = false) (hroom : m.activeLines ≤ n) :
    pipelineLoop k n m (.gate d) c
      = some ({ m with activeLines := m.activeLines + 1 }, .go (.callInlet d)) := by
  have hnot : ¬ m.terminated = true := by rw [ht]; nofun
  exact (if_neg hnot).trans (if_neg (Nat.not_lt.mpr hroom))

theorem retire_wrap (ha : m.activeLines = 0) :
    pipelineLoop k n m .retire c = some ({ m with fault := true }, .go .retire) := by
  simp only [pipelineLoop]
  split
  · rfl
  · rename_i a hsucc
    cases ha.symm.trans hsucc

theorem retire_line {a : Nat} (ha : m.activeLines = a + 2) :
    pipelineLoop k n m .retire c = some ({ m with activeLines := a + 1 }, .go .done) := by
  simp only [pipelineLoop, ha]
  rfl

theorem retire_last (ha : m.activeLines = 1) :
    pipelineLoop k n m .retire c
      = some ({ m with activeLines := 0 }, .request .terminate .done) := by
  simp only [pipelineLoop, ha]
  rfl

end Sections

/-- What an outcome is to the pipeline is what it is to its lock. -/
theorem outcome_view (o : Outcome (Ref (State V)) (Frame V)) :
    (o.map id LockedFrame.out).map id LockedFrame.view = o := by
  rcases o with f | ⟨_ | _, f⟩ | _ <;> rfl

theorem request_view (r : Request (Ref (State V))) : r.map id = r := by
  cases r <;> rfl

theorem lockedLoop_free {f : Frame V} (hf : f.free = true) : lockedLoop k n m (.out f) c
    = (pipelineLoop k n m.mem f c).map fun r => ({ m with mem := r.1 }, r.2.map id .out) := by
  cases f with
  | gate d => cases hf
  | retire => cases hf
  | _ => rfl

variable [DecidableEq κ]

/-- **A step of `pipeline_loop`** is none from above, or one. -/
theorem covers {r : Multiset (LockedFrame V)} {o : Outcome (Ref (State V)) (LockedFrame V)}
    (hL : Locks n m (f ::ₘ r)) (hH : Hidden m)
    (hlive : ∀ d, f.view.through = some d → m.hides d.addr = false)
    (h : lockedLoop k n m f c = some (m', o)) : (detail V κ k n).Covers m f m' o := by
  have hin : f.Inside n m.mem := hL.inside f (Multiset.mem_cons_self _ _)
  cases lockedMove_cases h with
  | @beside f mem o hf hm =>
    rw [lockedLoop_free hf] at h
    obtain ⟨⟨mem', o'⟩, hstep, heq⟩ := Option.map_eq_some_iff.mp h
    obtain ⟨hmem, ho⟩ := Prod.mk.inj heq
    obtain rfl : mem' = mem := congrArg LockedMem.mem hmem
    refine .inr ⟨c, ?_⟩
    rw [← ho]
    show pipelineLoop k n m.view f c = some (_, (o'.map id .out).map id LockedFrame.view)
    rw [outcome_view]
    exact pipelineLoop_view hH hf hlive hstep
  | lockGate | lockRetire | notTerminated | room | unlock =>
    exact .inl ⟨_, rfl, rfl, rfl, Nat.lt_succ_self _⟩
  | @terminated d ht => exact .inr ⟨.run, gate_terminated (k := k) (c := .run) (m := m.view) ht⟩
  | @full d hfull =>
    refine .inr ⟨.run, gate_full (k := k) (c := .run) (m := m.view) hin ?_⟩
    rwa [m.view_lines (hL.not_ending rfl rfl)]
  | @countLine d =>
    have hlines := m.view_lines (hL.not_ending rfl rfl)
    have hroom : m.view.activeLines ≤ n := hlines.le.trans hin.2
    refine .inr ⟨.run, (gate_open (k := k) (c := .run) (m := m.view) hin.1 hroom).trans ?_⟩
    rw [hlines]
    show _ = some (({ m.view with activeLines := m.mem.activeLines + 1 + m.ending.toNat } : Mem V),
      Outcome.go (Frame.callInlet d))
    rw [hL.not_ending rfl rfl]
    rfl
  | wrap ha =>
    have hlines := m.view_lines (hL.not_ending rfl rfl)
    exact .inr ⟨.run, retire_wrap (k := k) (n := n) (c := .run) (m := m.view) (hlines.trans ha)⟩
  | endLine ha =>
    have hlines := m.view_lines (hL.not_ending rfl rfl)
    exact .inr ⟨.run, retire_line (k := k) (n := n) (c := .run) (m := m.view) (hlines.trans ha)⟩
  | endLast ha =>
    refine .inl ⟨_, rfl, rfl, ?_, Nat.lt_succ_self _⟩
    show ({ m.view with activeLines := 0 + 1 } : Mem V) = m.view
    rw [Nat.zero_add, ← ha, ← m.view_lines (hL.not_ending rfl rfl)]
  | terminate =>
    have hnone : m.mem.activeLines = 0 := hin
    have hend : m.ending = true := Bool.toNat_eq_one.mp (hL.ending_eq rfl)
    have hlines : m.view.activeLines = 1 := by
      simp only [LockedMem.view, hend, hnone, Bool.toNat_true]
    refine .inr ⟨.run, (retire_last (k := k) (n := n) (c := .run) (m := m.view) hlines).trans ?_⟩
    show _ = some (({ m.view with activeLines := m.mem.activeLines } : Mem V),
      Outcome.request .terminate Frame.done)
    rw [hnone]

/-- A step of a thread that uses the pipeline is none from above, or one. -/
theorem covers_client {x : LockedClient κ} {q : Option (Request (Ref (State V)))} (hH : Hidden m)
    (h : lockedClient m x = some (m', q)) : (detail V κ k n).CoversClient m m' q := by
  cases lockedClient_cases h with
  | lock | unlock => exact .inl ⟨rfl, rfl⟩
  | write => exact .inr ⟨.terminate, rfl⟩
  | @execute t a hidle hnew hb ha =>
    refine .inl ⟨rfl, ?_⟩
    have hheap : (fun x => if (some (t, (⟨a, none, -1, 0⟩ : Ref (State V)))).any (·.2.addr == x)
        then none else Function.update m.mem.heap a (some ⟨none, -1, 0⟩) x) = m.view.heap := by
      funext x
      by_cases hx : x = a
      · subst hx
        rw [m.view_heap (hH.free ha), ha]
        exact if_pos (by simp)
      · have hseen : m.hides x = false := by simp [LockedMem.hides, hb]
        rw [m.view_heap hseen, Function.update_of_ne hx]
        exact if_neg (by simpa using Ne.symm hx)
    exact congrArg (fun h => ({ m.view with heap := h } : Mem V)) hheap
  | @push t d hc =>
    refine .inr ⟨.execute d.addr, ?_⟩
    have hb := (hH.owner t d).mp hc
    obtain ⟨hd, -, hnew⟩ := hH.block t d hb
    have hnone : m.view.heap d.addr = none := if_pos (hides_self hb)
    have hexec : m.view.executed = false := hnew
    show client m.view (.execute d.addr) = some (({ m.view with
      heap := m.mem.heap
      executed := true } : Mem V), some ((Request.push d).map id))
    -- what was hidden is what is pushed
    rw [hH.heap hb, request_view, show d = ⟨d.addr, none, -1, 0⟩ from congrArg (Ref.mk d.addr) hd]
    simp only [client, hexec, hnone]
    rfl

end Covers

/-! ## Every run -/

section Runs

variable [DecidableEq κ] {s t : Pool (lockedProgram V κ k n) n}

/-- What holds of every pipeline with its lock. -/
structure Guarded (s : Pool (lockedProgram V κ k n) n) : Prop where
  above : (machine V k n).Reachable ((detail V κ k n).pool s)
  locks : Locks n s.mem s.bag.frames
  hidden : Hidden s.mem

theorem Guarded.new :
    Guarded (ThreadPool.threadPoolNew (P := lockedProgram V κ k n) n lockedNew) where
  above := .init
  locks := by
    have hnone : (ThreadPool.threadPoolNew (P := lockedProgram V κ k n) n
        lockedNew).bag.frames = 0 :=
      (zero_add _).trans (Finset.sum_eq_zero fun _ _ => rfl)
    rw [hnone]
    exact ⟨.inr ⟨rfl, nofun⟩, fun _ => ⟨nofun, nofun⟩, nofun, rfl⟩
  hidden := ⟨fun _ _ => ⟨nofun, nofun⟩, nofun⟩

/-- What a unit works on is seen from above. -/
theorem Guarded.live (hI : Guarded s) {i : Fin n} {u : ThreadPool.WorkUnit (Ref (State V))}
    {f : LockedFrame V} (hw : s.workers i = .running u f) {d : Ref (State V)}
    (hd : f.view.through = some d) : s.mem.hides d.addr = false := by
  have hrun : ((detail V κ k n).pool s).workers i = .running (u.map id) f.view :=
    congrArg (detail V κ k n).worker hw
  obtain ⟨r, hr⟩ := Multiset.exists_cons_of_mem (ThreadPool.mem_bag_of_running hrun)
  have hblocks := (sound hI.above).blocks
  rw [hr] at hblocks
  exact s.mem.hides_of_view (hblocks.live hd)

/-- **A step of the pipeline with its lock** is none or one of the pipeline
without. -/
theorem Guarded.covered (hI : Guarded s) {e : ThreadPool.Event (lockedProgram V κ k n) n}
    (hs : ThreadPool.step s e = some t) : (detail V κ k n).Unseen s e t ∨
      ∃ d, Detail.Like e d ∧
        ThreadPool.step ((detail V κ k n).pool s) d = some ((detail V κ k n).pool t) := by
  refine (detail V κ k n).pool_step hs ?_ ?_
  · intro i u f c m o hw hp
    obtain ⟨r, hr⟩ := Multiset.exists_cons_of_mem (ThreadPool.mem_bag_of_running hw)
    exact covers (hr ▸ hI.locks) hI.hidden (fun d hd => hI.live hw hd) hp
  · intro x m q hp
    exact covers_client hI.hidden hp

theorem Guarded.step (hI : Guarded s) {e : ThreadPool.Event (lockedProgram V κ k n) n}
    (hs : ThreadPool.step s e = some t) : Guarded t := by
  have habove : (machine V k n).Reachable ((detail V κ k n).pool t) := by
    rcases hI.covered hs with ⟨heq, -⟩ | ⟨d, -, hd⟩
    · rw [heq]
      exact hI.above
    · exact .step (M := machine V k n) hI.above trivial hd
  cases e with
  | loop i =>
    rcases ThreadPool.bag_step hs with ⟨-, hb⟩ | ⟨a, ha, -⟩
    · have hmem : t.mem = s.mem := congrArg Bag.mem hb
      exact ⟨habove, by rw [hmem, hb]; exact hI.locks, by rw [hmem]; exact hI.hidden⟩
    · cases ha
  | unit i c =>
    obtain ⟨u, f, o, r, hu⟩ := ThreadPool.unit_step hs
    have hmove := lockedMove_cases hu.step
    refine ⟨habove, ?_, hI.hidden.move hmove fun d hd => hI.live hu.running hd⟩
    rw [hu.after]
    exact Locks.move hmove (hu.before ▸ hI.locks)
  | client x =>
    rcases ThreadPool.bag_step hs with ⟨hnone, -⟩ | ⟨a, ha, hb⟩
    · cases hnone
    · cases ha
      have hlocks := hI.locks
      have hhidden := hI.hidden
      generalize hb₁ : s.bag = b₁, hb₂ : t.bag = b₂ at hb
      have hm₁ : s.mem = b₁.mem := congrArg Bag.mem hb₁
      have hm₂ : t.mem = b₂.mem := congrArg Bag.mem hb₂
      rw [hb₁, hm₁] at hlocks
      rw [hm₁] at hhidden
      refine ⟨habove, ?_, ?_⟩
      · rw [hb₂, hm₂]
        cases hb with
        | client h =>
          have hnew := Locks.client (lockedClient_cases h) hlocks
          rwa [Option.elim_none, zero_add] at hnew
        | clientRequest h => exact Locks.client (lockedClient_cases h) hlocks
      · rw [hm₂]
        cases hb with
        | client h | clientRequest h => exact hhidden.client (lockedClient_cases h)

theorem guarded (h : (ThreadPool.machine (lockedProgram V κ k n) n lockedNew).Reachable s) :
    Guarded s :=
  h.invariant (I := Guarded) .new fun _ hI hs => hI.step hs

end Runs

end Loomlib.Pipeline
