import Loomlib.Core.History
import Loomlib.Pipeline.Counts

/-!
# Pipeline — Lines

The way of one product from the inlet to the outlet. Each pump is called
once for a line, in order, with what the pump before it returned; the
outlet gets what the last pump returned. One block carries the product all
the way, and the activation that ends the line frees it.
-/

namespace Loomlib.Pipeline

open ThreadPool (Pool Event Outcome Bag Act first)
open Mem (delivered_record)

variable {V : Type} {k n : Nat}

/-! ## What a log says about a line -/

/-- The products the inlet returned, the product of the line `l` at `l`. -/
def products (log : List (Routine V)) : List V :=
  log.filterMap fun r => match r with
    | .inletRet p => p
    | _ => none

/-- `p` is the value of the line `l` after `i` pumps. -/
def Yields (log : List (Routine V)) (l : Nat) : Nat → Option V → Prop
  | 0, p => ∃ v, p = some v ∧ (products log)[l]? = some v
  | i + 1, p => .pumpRet i l p ∈ log

/-- For the line `l` the pumps below `c` were called, and those below `r`
have returned. -/
structure Stands (log : List (Routine V)) (l c r : Nat) : Prop where
  called : ∀ i, (∃ p, .pump i l p ∈ log) ↔ i < c
  returned : ∀ i, (∃ p, .pumpRet i l p ∈ log) ↔ i < r

/-- The line `l` has passed `i` pumps, and its value is `p`. -/
structure Ready (log : List (Routine V)) (l i : Nat) (p : Option V) : Prop where
  stands : Stands log l i i
  yields : Yields log l i p

/-- The line of a call of a pump, or of a pump's return. -/
def Routine.pumped : Routine V → Option Nat
  | .pump _ l _ | .pumpRet _ l _ => some l
  | _ => none

/-- What may come next: a pump or the outlet for a line that has come this
far and was not there yet, with the value of the line; the return of what
was called and has not returned. -/
def Allowed (k : Nat) (pre : List (Routine V)) : Routine V → Prop
  | .inlet | .inletRet _ => True
  | .pump i l p => i < k ∧ Yields pre l i p ∧ ∀ q, .pump i l q ∉ pre
  | .pumpRet i l _ => (∃ q, .pump i l q ∈ pre) ∧ ∀ q, .pumpRet i l q ∉ pre
  | .outlet l p => Yields pre l k p ∧ (∀ i < k, ∃ q, .pumpRet i l q ∈ pre) ∧
      ∀ q, .outlet l q ∉ pre
  | .outletRet l => (∃ q, .outlet l q ∈ pre) ∧ .outletRet l ∉ pre

section Log

variable {log : List (Routine V)} {l i c c' : Nat} {p : Option V}

theorem products_snoc (log : List (Routine V)) (r : Routine V) :
    products log <+: products (log ++ [r]) := by
  unfold products
  rw [List.filterMap_append]
  exact List.prefix_append _ _

theorem Yields.snoc (h : Yields log l i p) (r : Routine V) : Yields (log ++ [r]) l i p := by
  cases i with
  | zero =>
    obtain ⟨v, hp, hv⟩ := h
    obtain ⟨hl, -⟩ := List.getElem?_eq_some_iff.mp hv
    obtain ⟨rest, hrest⟩ := products_snoc log r
    exact ⟨v, hp, by rw [← hrest, List.getElem?_append_left hl]; exact hv⟩
  | succ i => exact List.mem_append_left _ h

/-- What happens to another line, or is no matter of the pumps. -/
theorem Stands.snoc (h : Stands log l c c') {r : Routine V} (hr : r.pumped ≠ some l) :
    Stands (log ++ [r]) l c c' := by
  have hpump : ∀ i p, Routine.pump i l p ≠ r := by
    rintro i p rfl
    exact hr rfl
  have hret : ∀ i p, Routine.pumpRet i l p ≠ r := by
    rintro i p rfl
    exact hr rfl
  refine ⟨fun i => ?_, fun i => ?_⟩
  · simpa [hpump] using h.called i
  · simpa [hret] using h.returned i

theorem Ready.snoc (h : Ready log l i p) {r : Routine V} (hr : r.pumped ≠ some l) :
    Ready (log ++ [r]) l i p :=
  ⟨h.stands.snoc hr, h.yields.snoc r⟩

theorem Stands.call (h : Stands log l i i) (p : Option V) :
    Stands (log ++ [.pump i l p]) l (i + 1) i where
  called j := by
    simp only [List.mem_append, exists_or, h.called j, List.mem_singleton]
    simp
    omega
  returned j := by simpa using h.returned j

theorem Stands.ret (h : Stands log l (i + 1) i) (p : Option V) :
    Ready (log ++ [.pumpRet i l p]) l (i + 1) p where
  stands := {
    called := fun j => by simpa using h.called j
    returned := fun j => by
      simp only [List.mem_append, exists_or, h.returned j, List.mem_singleton]
      simp
      omega }
  yields := List.mem_append_right _ (List.mem_singleton_self _)

end Log

theorem injected_eq (m : Mem V) : m.injected = (products m.log).length := by
  unfold Mem.injected products
  rw [List.length_filterMap_eq_countP]
  congr 1
  funext r
  rcases r with _ | (_ | _) | _ | _ | _ | _ <;> rfl

theorem given_pos {m : Mem V} {l : Nat} : 0 < m.given l ↔ ∃ p, .outlet l p ∈ m.log := by
  unfold Mem.given
  rw [List.countP_pos_iff]
  constructor
  · rintro ⟨r, hr, hl⟩
    rcases r with _ | _ | _ | _ | ⟨l', p⟩ | _ <;> try cases hl
    obtain rfl : l' = l := by simpa using hl
    exact ⟨p, hr⟩
  · rintro ⟨p, hp⟩
    exact ⟨_, hp, by simp⟩

theorem delivered_pos {m : Mem V} {l : Nat} : 0 < m.delivered l ↔ .outletRet l ∈ m.log := by
  unfold Mem.delivered
  rw [List.countP_pos_iff]
  constructor
  · rintro ⟨r, hr, hl⟩
    rcases r with _ | _ | _ | _ | _ | l' <;> try cases hl
    obtain rfl : l' = l := by simpa using hl
    exact hr
  · intro h
    exact ⟨_, h, by simp⟩

/-! ## What an activation knows of its line -/

/-- What the log says of the line an activation carries. -/
def Frame.Knows (log : List (Routine V)) : Frame V → Prop
  | .enter d => 0 ≤ d.block.currentStage →
      Ready log d.block.line d.block.currentStage.toNat d.block.product
  | .callPump d | .callOutlet d | .push d =>
      Ready log d.block.line d.block.currentStage.toNat d.block.product
  | .pump d => Stands log d.block.line (d.block.currentStage.toNat + 1) d.block.currentStage.toNat
  | .advance d p l => Ready log l (d.block.currentStage + 1).toNat p ∧
      (0 ≤ d.block.currentStage → d.block.line = l)
  | .restart _ v l | .pushInlet _ _ v l => Ready log l 0 (some v)
  | _ => True

theorem Frame.Knows.snoc {log : List (Routine V)} {f : Frame V} (h : f.Knows log) {r : Routine V}
    (hr : ∀ l, r.pumped = some l → f.carries l = 0) : f.Knows (log ++ [r]) := by
  have hne : ∀ l, f.carries l = 1 → r.pumped ≠ some l := by
    intro l hl hp
    rw [hr l hp] at hl
    cases hl
  cases f with
  | enter d =>
    intro hst
    exact (h hst).snoc (hne _ (by simp [Frame.carries, Int.not_lt.mpr hst]))
  | pump d => exact Stands.snoc h (hne _ (if_pos rfl))
  | callPump | callOutlet | push | restart | pushInlet =>
    exact Ready.snoc h (hne _ (if_pos rfl))
  | advance d p l => exact ⟨h.1.snoc (hne _ (if_pos rfl)), h.2⟩
  | _ => trivial

theorem depositing_le_carries (l : Nat) (f : Frame V) : f.depositing l ≤ f.carries l := by
  cases f <;> simp only [Frame.depositing, Frame.carries] <;> omega

/-- A line that is carried has not been deposited, and only the activation
that carries it can be inside the outlet with it. -/
theorem Counts.carried {m : Mem V} {f : Frame V} {r : Multiset (Frame V)}
    (hC : Counts m (f ::ₘ r)) {l : Nat} (hl : f.carries l = 1) :
    m.delivered l = 0 ∧ m.given l = f.depositing l ∧ load (Frame.carries l) r = 0 ∧
      l < m.injected := by
  have hproducts := hC.products l
  have hdeposits := hC.deposits l
  have hle := load_mono (depositing_le_carries l) r
  rw [load_cons] at hproducts hdeposits
  unfold Mem.returned at hproducts
  split at hproducts <;> omega

/-- Every activation is right about its line, and every call was in order. -/
structure Lines (k : Nat) (log : List (Routine V)) (fs : Multiset (Frame V)) : Prop where
  knows : ∀ f ∈ fs, f.Knows log
  fresh : ∀ l, (products log).length ≤ l → Stands log l 0 0
  allowed : Justified (Allowed k) log

section Move

variable {m : Mem V} {f g : Frame V} {r : Multiset (Frame V)}

/-- A step that calls no routine and returns from none. -/
private theorem Lines.keep (hI : Lines k m.log (f ::ₘ r)) {gs : Multiset (Frame V)}
    (hg : ∀ g ∈ gs, g.Knows m.log) : Lines k m.log (gs + r) where
  knows g hmem := (Multiset.mem_add.mp hmem).elim (hg g)
    fun hr => hI.knows g (Multiset.mem_cons_of_mem hr)
  fresh := hI.fresh
  allowed := hI.allowed

/-- A call or a return in the line that `f` carries, or in none. -/
private theorem Lines.record (hI : Lines k m.log (f ::ₘ r)) (hC : Counts m (f ::ₘ r))
    {e : Routine V} (he : ∀ l, e.pumped = some l → f.carries l = 1) (ha : Allowed k m.log e)
    (hg : g.Knows (m.log ++ [e])) : Lines k (m.log ++ [e]) (g ::ₘ r) where
  knows f' hmem := by
    rcases Multiset.mem_cons.mp hmem with rfl | hr
    · exact hg
    · apply (hI.knows f' (Multiset.mem_cons_of_mem hr)).snoc
      intro l hl
      -- nobody else carries the line
      obtain ⟨-, -, hzero, -⟩ := hC.carried (he l hl)
      exact load_eq_zero.mp hzero f' hr
  fresh l hl := by
    have hle := (products_snoc m.log e).length_le
    apply (hI.fresh l (by omega)).snoc
    intro hp
    obtain ⟨-, -, -, hlt⟩ := hC.carried (he l hp)
    rw [injected_eq] at hlt
    omega
  allowed := hI.allowed.snoc ha

theorem Lines.move {m' : Mem V} {o : Outcome (Ref (State V)) (Frame V)} (h : Move k n m f m' o)
    (hS : Sound k m (f ::ₘ r)) (hI : Lines k m.log (f ::ₘ r)) :
    Lines k m'.log (o.frames .enter + r) := by
  have hknows := hI.knows f (Multiset.mem_cons_self _ _)
  have hfit := hS.blocks.fits f (Multiset.mem_cons_self _ _)
  have ho := hS.blocks.owned
  rw [allRefs_cons] at ho
  have hone : ∀ {g : Frame V}, g.Knows m.log → Lines k m.log ({g} + r) := fun {g} hg =>
    hI.keep (by simpa using hg)
  cases h with
  | dead | wrap => exact hone hknows
  | enterInlet hb hst =>
    exact hone trivial
  | enterPump hb hst | enterOutlet hb hst =>
    obtain rfl := Owned.block_eq ho hb
    exact hone (hknows hst)
  | terminated | full | «open» | freeState | retire => exact hone trivial
  | retireLast => exact hI.keep (by simp [Frame.Knows])
  | dropState | done => exact hI.keep (by simp)
  | @«defer» d =>
    have hstage : d.block.currentStage = -1 := hfit
    exact hI.keep (by simp [Frame.Knows, hstage])
  | callInlet => exact hI.record hS.counts (fun _ hl => by cases hl) trivial trivial
  | dry => exact hI.record hS.counts (fun _ hl => by cases hl) trivial trivial
  | @inlet d v =>
    refine hI.record hS.counts (fun _ hl => by cases hl) trivial ⟨?_, v, rfl, ?_⟩
    · exact (hI.fresh _ (injected_eq m).ge).snoc fun hl => by cases hl
    · rw [injected_eq]
      simp [products]
  | restart => exact hone hknows
  | @pushInlet d d' v l =>
    have hstages : d.block.currentStage = -1 ∧ d'.block.currentStage = -1 := hfit
    have hready : Ready m.log l 0 (some v) := hknows
    exact hI.keep (by simp [Frame.Knows, hstages.1, hstages.2, hready])
  | @callPump d =>
    have hready : Ready m.log d.block.line d.block.currentStage.toNat d.block.product := hknows
    have hstage : 0 ≤ d.block.currentStage ∧ d.block.currentStage < k := hfit
    refine hI.record hS.counts ?_ ⟨by omega, hready.yields, ?_⟩ (hready.stands.call _)
    · intro l hl
      exact if_pos (Option.some.inj hl)
    · intro q hq
      exact absurd ((hready.stands.called _).mp ⟨q, hq⟩) (Nat.lt_irrefl _)
  | @pump d p =>
    have hstands : Stands m.log d.block.line (d.block.currentStage.toNat + 1)
      d.block.currentStage.toNat := hknows
    have hstage : 0 ≤ d.block.currentStage ∧ d.block.currentStage < k := hfit
    refine hI.record hS.counts ?_ ⟨?_, ?_⟩ ⟨?_, fun _ => rfl⟩
    · intro l hl
      exact if_pos (Option.some.inj hl)
    · exact (hstands.called _).mpr (Nat.lt_succ_self _)
    · intro q hq
      exact absurd ((hstands.returned _).mp ⟨q, hq⟩) (Nat.lt_irrefl _)
    · rw [Int.toNat_add hstage.1 (by omega)]
      exact hstands.ret p
  | @callOutlet d =>
    have hready : Ready m.log d.block.line d.block.currentStage.toNat d.block.product := hknows
    have hstage : d.block.currentStage = k := hfit
    rw [hstage, Int.toNat_natCast] at hready
    refine hI.record hS.counts (fun _ hl => by cases hl) ⟨hready.yields, ?_, ?_⟩ trivial
    · intro i hi
      exact (hready.stands.returned i).mpr hi
    · intro q hq
      obtain ⟨-, hgiven, -⟩ := hS.counts.carried (l := d.block.line) (if_pos rfl)
      exact absurd (given_pos.mpr ⟨q, hq⟩) (by simp [hgiven, Frame.depositing])
  | @outlet d =>
    obtain ⟨hdelivered, hgiven, -⟩ := hS.counts.carried (l := d.block.line) (if_pos rfl)
    refine hI.record hS.counts (fun _ hl => by cases hl) ⟨?_, ?_⟩ trivial
    · exact given_pos.mp (by simp [hgiven, Frame.depositing])
    · intro hmem
      exact absurd (delivered_pos.mpr hmem) (by simp [hdelivered])
  | @advance d p l b hb =>
    obtain rfl := Owned.block_eq ho hb
    exact hone hknows.1
  | @push d =>
    have hready : Ready m.log d.block.line d.block.currentStage.toNat d.block.product := hknows
    exact hI.keep (by simp [Frame.Knows, hready])

end Move

theorem Lines.new : Lines k ([] : List (Routine V)) 0 where
  knows := nofun
  fresh l _ := ⟨fun i => by simp, fun i => by simp⟩
  allowed := .nil

/-! ## The blocks that are freed -/

/-- The block carries the product of the line `l`. -/
def State.carries (l : Nat) (b : State V) : Bool :=
  decide (0 ≤ b.currentStage ∧ b.line = l)

/-- What the next step of `pipeline_loop` frees. -/
def Frame.freed (m : Mem V) : Frame V → List (State V)
  | .dropState d | .freeState d => (m.heap d.addr).toList
  | _ => []

def freedBy (m : Mem V) : Act (program V k n) → List (State V)
  | .unit f _ => f.freed m
  | .client _ => []

/-- What a step of the pipeline frees. -/
def frees (s : Pool (program V k n) n) (e : Event (program V k n) n) : List (State V) :=
  match s.act e with
  | some a => freedBy s.mem a
  | none => []

/-- The number of blocks it owns that carry the product of the line `l`. -/
def Frame.held (l : Nat) (f : Frame V) : Nat :=
  (f.refs.map fun d => (d.block.carries l).toNat).sum

/-- It has the product of the line `l`, and no block carries it yet. -/
def Frame.unborn (l : Nat) : Frame V → Nat
  | .restart _ _ l' | .pushInlet _ _ _ l' => if l' = l then 1 else 0
  | .advance d _ l' => if d.block.currentStage < 0 ∧ l' = l then 1 else 0
  | _ => 0

/-- It is going to free the block of the line `l`. -/
def Frame.ending (l : Nat) : Frame V → Nat
  | .freeState d => (d.block.carries l).toNat
  | _ => 0

@[simp] theorem State.carries_of_neg {l : Nat} {b : State V} (h : b.currentStage < 0) :
    b.carries l = false := by
  simp [carries, h]

@[simp] theorem State.carries_of_nonneg {l : Nat} {b : State V} (h : 0 ≤ b.currentStage) :
    (b.carries l).toNat = if b.line = l then 1 else 0 := by
  simp [carries, h, Bool.toNat]

/-- Whoever carries a line has its block, but for the way from the inlet
to the first write of the block. -/
theorem held_split {log : List (Routine V)} {f : Frame V} (hfit : f.Fits k) (hknows : f.Knows log)
    (l : Nat) : f.held l + f.unborn l = f.carries l + f.ending l := by
  cases f with
  | enter d =>
    by_cases hst : d.block.currentStage < 0
    · simp [Frame.held, Frame.unborn, Frame.carries, Frame.ending, Frame.refs, hst]
    · simp [Frame.held, Frame.unborn, Frame.carries, Frame.ending, Frame.refs, hst,
        Int.not_lt.mp hst]
  | gate d | dropState d | «defer» d | callInlet d | inlet d | restart d =>
    have hst : d.block.currentStage < 0 := by
      have : d.block.currentStage = -1 := hfit
      omega
    simp [Frame.held, Frame.unborn, Frame.carries, Frame.ending, Frame.refs, hst]
  | pushInlet d d' =>
    obtain ⟨hd, hd'⟩ : d.block.currentStage = -1 ∧ d'.block.currentStage = -1 := hfit
    simp [Frame.held, Frame.unborn, Frame.carries, Frame.ending, Frame.refs,
      Multiset.insert_eq_cons, hd, hd']
  | callPump d | pump d | push d =>
    have hst : 0 ≤ d.block.currentStage := hfit.1
    simp [Frame.held, Frame.unborn, Frame.carries, Frame.ending, Frame.refs, hst]
  | callOutlet d | outlet d =>
    have hst : 0 ≤ d.block.currentStage := by
      have : d.block.currentStage = k := hfit
      omega
    simp [Frame.held, Frame.unborn, Frame.carries, Frame.ending, Frame.refs, hst]
  | freeState | retire | done =>
    simp [Frame.held, Frame.unborn, Frame.carries, Frame.ending, Frame.refs]
  | advance d p l' =>
    by_cases hst : d.block.currentStage < 0
    · simp [Frame.held, Frame.unborn, Frame.carries, Frame.ending, Frame.refs, hst]
    · have hline : d.block.line = l' := hknows.2 (Int.not_lt.mp hst)
      simp [Frame.held, Frame.unborn, Frame.carries, Frame.ending, Frame.refs, hst,
        Int.not_lt.mp hst, hline]

/-- What has been freed, or is about to be, has been deposited. -/
private theorem freed_move {m m' : Mem V} {f : Frame V}
    {o : Outcome (Ref (State V)) (Frame V)} {r : Multiset (Frame V)} (h : Move k n m f m' o)
    (hB : Blocks k m.heap (f ::ₘ r)) (l : Nat) :
    load (Frame.ending l) (o.frames .enter) + (f.freed m).countP (State.carries l)
      + m.delivered l = f.ending l + m'.delivered l := by
  have hfit := hB.fits f (Multiset.mem_cons_self _ _)
  have ho := hB.owned
  rw [allRefs_cons] at ho
  cases h with
  | dead hf hd => exact absurd hd (hB.live hf)
  | @dropState d b hb =>
    have hst : d.block.currentStage = -1 := hfit
    obtain rfl := Owned.block_eq ho hb
    simp [Frame.freed, Frame.ending, hb, hst, Mem.store]
  | @freeState d b hb =>
    obtain rfl := Owned.block_eq ho hb
    simp only [Frame.freed, Frame.ending, hb]
    cases hc : d.block.carries l <;> simp [hc, Frame.ending, Mem.store]
  | @outlet d =>
    have hst : 0 ≤ d.block.currentStage := by
      have : d.block.currentStage = k := hfit
      omega
    simp [Frame.freed, Frame.ending, delivered_record, hst]
    omega
  | @dry d =>
    have hst : d.block.currentStage = -1 := hfit
    simp [Frame.freed, Frame.ending, delivered_record, hst]
  | _ => simp [Frame.freed, Frame.ending, delivered_record, Mem.store]

/-! ## Every run -/

theorem Lines.step {b b' : Bag (program V k n)} {a : Act (program V k n)}
    (hS : Sound k b.mem b.frames) (hI : Lines k b.mem.log b.frames) (h : Bag.Step b a b') :
    Lines k b'.mem.log b'.frames := by
  cases bagMove_cases h with
  | unit hmove => exact hI.move hmove hS
  | terminate => exact hI
  | execute hnew ha =>
    refine ⟨?_, hI.fresh, hI.allowed⟩
    intro f hf
    rcases Multiset.mem_cons.mp hf with rfl | hf
    · -- the new token carries nothing
      intro hst
      exact absurd (show (0 : Int) ≤ -1 from hst) (by decide)
    · exact hI.knows f hf

theorem lines {s : Pool (program V k n) n} (h : (machine V k n).Reachable s) :
    Lines k s.mem.log s.bag.frames :=
  sound_invariant (I := fun b => Lines k b.mem.log b.frames) Lines.new
    (fun hS hI _ hs => hI.step hS hs) (ThreadPool.reachable_onBag h)

private theorem freed_step {b b' : Bag (program V k n)} {a : Act (program V k n)}
    (hS : Sound k b.mem b.frames) (h : Bag.Step b a b') (l : Nat) :
    load (Frame.ending l) b'.frames + (freedBy b.mem a).countP (State.carries l)
      + b.mem.delivered l = load (Frame.ending l) b.frames + b'.mem.delivered l := by
  cases bagMove_cases h with
  | unit hmove =>
    have hfreed := freed_move hmove hS.blocks l
    simp only [load_add, load_cons, freedBy]
    omega
  | terminate => simp [freedBy]
  | execute hnew ha => simp [freedBy, Frame.ending, Mem.store]

/-- **A block is freed when its line ends**: what was freed, and what an
activation is going to free, was deposited. -/
theorem freed_balance {s : Pool (program V k n) n} {seen : List (State V)}
    (h : ((machine V k n).traced frees).Reachable (s, seen)) (l : Nat) :
    load (Frame.ending l) s.bag.frames + seen.countP (State.carries l) = s.mem.delivered l := by
  refine h.invariant (I := fun s => load (Frame.ending l) s.1.bag.frames
    + s.2.countP (State.carries l) = s.1.mem.delivered l) ?_ ?_
  · have hnone : (machine V k n).init.bag.frames = 0 :=
      (sound (V := V) (k := k) (n := n) .init (C := fun _ _ => True)).counts.idle rfl
    simp [Machine.traced, hnone]
    rfl
  · rintro ⟨s, seen⟩ e ⟨t, seen'⟩ hr hI hs
    obtain ⟨hs, rfl⟩ := Machine.traced_step hs
    have hS := sound hr.untraced
    simp only at hI hs ⊢
    rcases ThreadPool.bag_step hs with ⟨ha, heq⟩ | ⟨a, ha, hb⟩
    · have hmem : t.mem = s.mem := congrArg Bag.mem heq
      simpa [heq, frees, ha, hmem] using hI
    · have hstep := freed_step hS hb l
      have hobs : frees s e = freedBy s.bag.mem a := by rw [frees, ha]; rfl
      rw [List.countP_append, hobs]
      change _ + _ + s.mem.delivered l = _ + t.mem.delivered l at hstep
      omega

theorem load_held (l : Nat) (fs : Multiset (Frame V)) :
    load (Frame.held l) fs = ((allRefs fs).map fun d => (d.block.carries l).toNat).sum := by
  induction fs using Multiset.induction with
  | empty => rfl
  | cons f fs ih => simp [Frame.held, ih]

/-- A line has one block at most, and none once its block was freed. -/
theorem held_le {s : Pool (program V k n) n} {seen : List (State V)}
    (h : ((machine V k n).traced frees).Reachable (s, seen)) (l : Nat) :
    load (Frame.held l) s.bag.frames + seen.countP (State.carries l) ≤ 1 := by
  have hr : (machine V k n).Reachable s := h.untraced
  have hS := sound hr
  have hL := lines hr
  have hsplit : load (Frame.held l) s.bag.frames + load (Frame.unborn l) s.bag.frames
      = load (Frame.carries l) s.bag.frames + load (Frame.ending l) s.bag.frames := by
    unfold load
    rw [← Multiset.sum_map_add, ← Multiset.sum_map_add]
    apply congrArg Multiset.sum
    apply Multiset.map_congr rfl
    intro f hf
    exact held_split (hS.blocks.fits f hf) (hL.knows f hf) l
  have hproducts := hS.counts.products l
  have hfreed := freed_balance h l
  unfold Mem.returned at hproducts
  split at hproducts <;> omega

/-- What the pipeline keeps of every line, in a state and for the blocks
freed so far. -/
structure Integrity (k : Nat) (s : Pool (program V k n) n) (freed : List (State V)) : Prop where
  /-- A block has one reference, in an activation that is queued or running. -/
  one_owner : ∀ a b, s.mem.heap a = some b →
    (∃ f ∈ s.bag.frames, ⟨a, b⟩ ∈ f.refs) ∧ ((allRefs s.bag.frames).map Ref.addr).count a = 1
  /-- A line has one block. -/
  one_block : ∀ l a a' b b', s.mem.heap a = some b → s.mem.heap a' = some b' →
    b.carries l = true → b'.carries l = true → a = a'
  /-- The block of a line is freed once at most, and then there is no other. -/
  freed_once : ∀ l, freed.countP (State.carries l) ≤ 1 ∧
    (0 < freed.countP (State.carries l) → ∀ a b, s.mem.heap a = some b → b.carries l = false)
  /-- It is freed when its line ends. -/
  freed_at_end : ∀ l, 0 < freed.countP (State.carries l) → .outletRet l ∈ s.mem.log
  freed_all : ∀ l, .outletRet l ∈ s.mem.log → 0 < freed.countP (State.carries l) ∨
    ∃ d, Frame.freeState d ∈ s.bag.frames ∧ d.block.carries l = true
  /-- Nothing goes through a block that was freed. -/
  live : s.mem.fault = false
  /-- `current_stage++` stays within `k`. -/
  stages : ∀ d p l, Frame.advance d p l ∈ s.bag.frames →
    -1 ≤ d.block.currentStage ∧ d.block.currentStage < k
  /-- Pumps and outlet are called in order, with the values of the line. -/
  calls : Justified (Allowed k) s.mem.log

/-- **The integrity of every line**, whatever the routines return and
whether the pipeline is terminated or not. -/
theorem line_integrity {s : Pool (program V k n) n} {freed : List (State V)}
    (h : ((machine V k n).traced frees).Reachable (s, freed)) : Integrity k s freed := by
  have hr : (machine V k n).Reachable s := h.untraced
  have hS := sound hr
  have ho := hS.blocks.owned
  have hheld := held_le h
  have hbalance := freed_balance h
  have href : ∀ {a b}, s.mem.heap a = some b → ⟨a, b⟩ ∈ allRefs s.bag.frames := by
    intro a b hb
    obtain ⟨d, hd, rfl⟩ := Multiset.mem_map.mp (ho.used a (by rw [hb]; exact Option.some_ne_none _))
    obtain rfl := Option.some.inj ((ho.held d hd).symm.trans hb)
    exact hd
  -- the weight of one block, and of two
  have hone : ∀ {l a b}, s.mem.heap a = some b → b.carries l = true →
      1 ≤ load (Frame.held l) s.bag.frames := by
    intro l a b hb hc
    obtain ⟨rest, hrest⟩ := Multiset.exists_cons_of_mem (href hb)
    simp [load_held, hrest, hc]
  refine ⟨?_, ?_, ?_, ?_, ?_, hS.counts.sound, ?_, (lines hr).allowed⟩
  · intro a b hb
    refine ⟨Multiset.mem_bind.mp (href hb), ?_⟩
    exact Multiset.count_eq_one_of_mem ho.nodup (Multiset.mem_map.mpr ⟨_, href hb, rfl⟩)
  · intro l a a' b b' hb hb' hc hc'
    by_contra hne
    obtain ⟨rest, hrest⟩ := Multiset.exists_cons_of_mem (href hb)
    have hmem := href hb'
    rw [hrest, Multiset.mem_cons] at hmem
    obtain ⟨rest', rfl⟩ := Multiset.exists_cons_of_mem (hmem.resolve_left fun heq => hne
      (congrArg Ref.addr heq).symm)
    have := hheld l
    simp [load_held, hrest, hc, hc'] at this
    omega
  · intro l
    have hle := hheld l
    refine ⟨by omega, ?_⟩
    intro hpos a b hb
    by_contra hc
    have := hone hb (Bool.eq_true_of_not_eq_false hc)
    omega
  · intro l hpos
    have := hbalance l
    exact delivered_pos.mp (by omega)
  · intro l hmem
    have hpos := delivered_pos.mpr hmem
    have hle := hbalance l
    rcases Nat.eq_zero_or_pos (freed.countP (State.carries l)) with hz | hz
    · right
      have hne : ¬ ∀ f ∈ s.bag.frames, f.ending l = 0 := by
        rw [← load_eq_zero]
        omega
      obtain ⟨f, hf⟩ := not_forall.mp hne
      obtain ⟨hmem, hend⟩ := Classical.not_imp.mp hf
      cases f with
      | freeState d => exact ⟨d, hmem, by simpa [Frame.ending] using hend⟩
      | _ => exact absurd rfl hend
    · exact .inl hz
  · intro d p l hd
    exact hS.blocks.fits _ hd

/-- One worker and one product, which the pump drops: it returns NULL. -/
def dropped : List (Event (program Nat 1 1) 1) :=
  .client (.execute 0) :: take first ++ go first 3 ++ .unit first (.returns (some 7)) ::
    .unit first (.malloc 1) :: go first 4 ++ .loop first :: take first ++ go first 3 ++
    dryUp first ++ take first ++ go first 2 ++ .unit first (.returns none) :: go first 3 ++
    .loop first :: take first ++ go first 2 ++ .unit first (.returns none) :: go first 1

theorem line_integrity_dropped :
    let s := ((machine Nat 1 1).traced frees).final dropped (by decide)
    s.1.mem.log = [.inlet, .inletRet (some 7), .inlet, .inletRet none, .pump 0 0 (some 7),
      .pumpRet 0 0 none, .outlet 0 none, .outletRet 0] ∧
    s.2.countP (State.carries 0) = 1 ∧ Integrity 1 s.1 s.2 :=
  ⟨by decide, by decide, line_integrity (Machine.reachable_final dropped (by decide))⟩

end Loomlib.Pipeline
