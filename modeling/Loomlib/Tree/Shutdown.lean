import Loomlib.Tree.Visits
import Loomlib.ThreadPool.Late
import Loomlib.ThreadPool.Solo

/-!
# Tree — Shutdown

`tree_loop` tells the pool to terminate when it takes `active_lines` to 0.
The counter says nothing of the root's token, and a pass takes it down
once for each of its terminal vertices; and the gate gives the token up
without looking at it. Where a terminal vertice takes the counter to 0 as
the last one that has anything left, and the token is given up beside a
counted pass, the pool is told once, when everything is over. But no tree
keeps to that: `tree_terminate` before the first pass is enough.
-/

namespace Loomlib.Tree

open ThreadPool

variable {ι V : Type} [DecidableEq ι] {T : Shape ι} {n : Nat}

/-- What an activation still has to do before its vertice has run and its
children and the root are queued. -/
def Frame.unfinished (T : Shape ι) : Frame ι V → Nat
  | .retire _ => 0
  | f => f.rootToken T + (f.pass T).card

/-- It is about to take the counter down. -/
def Frame.retiring : Frame ι V → Nat
  | .retire _ => 1
  | _ => 0

/-- The counter is taken to 0 with nothing left to do, and the gate gives
up the root's token only beside a counted pass. -/
def EndsLast (b : Bag (program V T n)) : Act (program V T n) → Prop
  | .unit (.retire _) _ => b.mem.activeLines = 1 → weigh (Frame.unfinished T) b.frames = 0
  | .unit (.gate _) _ => b.mem.terminated = true → 0 < b.mem.activeLines
  | _ => True

instance (b : Bag (program V T n)) : ∀ a, Decidable (EndsLast b a)
  | .unit (.retire _) _ => inferInstanceAs (Decidable (_ → _))
  | .unit (.gate _) _ => inferInstanceAs (Decidable (_ → _))
  | .unit (.enter _) _ | .unit (.defer _) _ | .unit (.callRoutine _) _ | .unit (.routine _) _
  | .unit (.children _ _ _) _ | .unit (.restart _) _ | .unit .done _ | .client _ => isTrue trivial

/-- No pass is under way and the root's token is gone, and nobody ever told
the workers to go. -/
def Stranded (s : Pool (program V T n) n) : Prop :=
  s.mem.executed = true ∧ s.mem.terminated = true ∧
    (∀ f ∈ s.bag.frames, f.rootToken T = 0 ∧ f.pass T = 0) ∧ ∀ u ∈ s.pushed, u.func ≠ .termSig

/-- The pool is shut down when it should be. -/
structure ShutsDown (T : Shape ι) (s : Pool (program V T n) n) : Prop where
  /-- it is told after `tree_terminate`, with the root's token gone and
  every vertice of every pass run -/
  due : 0 < s.terminates → s.mem.terminated = true ∧ (∀ f ∈ s.bag.frames, f.rootToken T = 0) ∧
    ∀ p < s.mem.passes, ∀ v, T.Vertice v → calls s.mem.log v p = 1 ∧ rets s.mem.log v p = 1
  once : s.terminates ≤ 1
  told : ¬ Stranded s
  /-- until `tree_terminate` the root comes back -/
  going : s.mem.executed = true → s.mem.terminated = false →
    ∃ f ∈ s.bag.frames, f.rootToken T = 1
  /-- after it the workers do not all sleep -/
  awake : s.mem.executed = true → s.mem.terminated = true → s.workQueue = [] →
    (∀ i, s.workers i = .exited ∨ s.workers i = .asleep) → ∀ i, s.workers i = .exited
  freed : (∀ i, s.workers i = .exited) → s.workQueue = [] ∧ threadPoolFree s = .done

/-! ## The counter -/

/-- What the counter says before and after the pool is told. -/
structure Counting (T : Shape ι) (m : Mem ι V) (fs : Multiset (Frame ι V)) (calls : Nat) :
    Prop where
  idle : m.executed = false → fs = 0 ∧ calls = 0
  token : m.executed = true → m.terminated = false → weigh (Frame.rootToken T) fs = 1
  going : calls = 0 → m.executed = true → 0 < weigh (Frame.rootToken T) fs + m.activeLines
  lines : calls = 0 → m.activeLines ≤ (passes T fs).toFinset.card
  none : calls = 0 → m.activeLines = 0 → passes T fs = 0
  once : calls ≤ 1
  ended : 0 < calls → weigh (Frame.unfinished T) fs = 0 ∧
    (m.activeLines = 0 ∧ weigh Frame.retiring fs ≤ sizeMax ∨
      weigh Frame.retiring fs < m.activeLines)

section Move

variable {m m' : Mem ι V} {f : Frame ι V} {o : Outcome (State ι V) (Frame ι V)}
  {r : Multiset (Frame ι V)} {calls : Nat} (h : Move T n m f m' o)
include h

/-- The root's token is lost at the gate only. -/
theorem token_kept (hT : T.IsTree) (hroot : T.children T.root ≠ []) :
    weigh (Frame.rootToken T) (o.frames .enter) = f.rootToken T ∨
      ((∃ s, f = .gate s) ∧ m.terminated = true) := by
  cases h with
  | terminated ht => exact .inr ⟨⟨_, rfl⟩, ht⟩
  | @leaf s p hs =>
    have hne : s.vertice ≠ T.root := fun heq => hroot (heq ▸ hs)
    simp [Frame.rootToken, hne]
  | @child s p i v hv =>
    have hne : v ≠ T.root := by
      rintro rfl
      exact hT.root s.vertice (List.mem_of_getElem? hv)
    simp [Frame.rootToken, hne]
  | @leave s hs => simp [Frame.rootToken, hs]
  | _ => simp [Frame.rootToken]

/-- Before the pool is told: a pass that starts is counted, and a counter
that is taken down to something else than 0 was taken down for one pass at
most. -/
theorem lines_move (hT : T.IsTree) (hA : Accounted T m (f ::ₘ r))
    (hlines : m.activeLines ≤ (passes T (f ::ₘ r)).toFinset.card)
    (hnone : m.activeLines = 0 → passes T (f ::ₘ r) = 0)
    (hne : ∀ s, f = .retire s → decr m.activeLines ≠ 0) :
    m'.activeLines ≤ (passes T (o.frames .enter + r)).toFinset.card ∧
      (m'.activeLines = 0 → passes T (o.frames .enter + r) = 0) := by
  rw [passes_cons] at hlines hnone
  rw [passes_add]
  cases h.effect hT.root (hA.atRoot f (Multiset.mem_cons_self _ _)) with
  | quiet _ hp ha _ =>
    rw [hp, ha]
    exact ⟨hlines, hnone⟩
  | starts hf hp ha _ =>
    have hnew : m.passes ∉ passes T r := fun hm =>
      Nat.lt_irrefl _ (hA.started _ (by rw [passes_cons]; exact Multiset.mem_add.mpr (.inr hm)))
    rw [hf, zero_add] at hlines
    rw [hp, ha, Multiset.singleton_add, Multiset.toFinset_cons,
      Finset.card_insert_of_notMem (by simpa using hnew)]
    exact ⟨Nat.succ_le_succ hlines, fun h0 => absurd h0 (Nat.succ_ne_zero _)⟩
  | @shares s q i hf hi hp ha _ =>
    subst hf
    simp only [Frame.pass, if_pos hi] at hlines hnone
    rw [hp, ha]
    constructor
    · refine hlines.trans (Finset.card_le_card fun p hp => ?_)
      simp only [Multiset.toFinset_add, Finset.mem_union, Multiset.mem_toFinset,
        Multiset.mem_cons, Multiset.mem_singleton] at hp ⊢
      exact hp.imp_left .inl
    · intro h0
      simp at hnone
      omega
  | @retires s hf hp ha _ =>
    subst hf
    have hpos : m.activeLines ≠ 0 := fun h0 => by simp [Frame.pass] at hnone; omega
    obtain ⟨a, ha'⟩ := Nat.exists_eq_succ_of_ne_zero hpos
    have hnz := hne s rfl
    rw [hp, ha, zero_add]
    refine ⟨?_, fun h0 => absurd h0 hnz⟩
    simp only [Frame.pass, Multiset.singleton_add, Multiset.toFinset_cons] at hlines
    have hins := Finset.card_insert_le s.pass (passes T r).toFinset
    rw [ha'] at hlines ⊢
    simp only [decr]
    omega

/-- After it was told: the counter does not come to 0 again, for it would
have to be taken down once for each value of a `size_t`. -/
theorem over_move (hat : f.AtRoot T) (hover : weigh (Frame.unfinished T) (f ::ₘ r) = 0 ∧
      (m.activeLines = 0 ∧ weigh Frame.retiring (f ::ₘ r) ≤ sizeMax ∨
        weigh Frame.retiring (f ::ₘ r) < m.activeLines)) :
    o.calls = 0 ∧ weigh (Frame.unfinished T) (o.frames .enter + r) = 0 ∧
      (m'.activeLines = 0 ∧ weigh Frame.retiring (o.frames .enter + r) ≤ sizeMax ∨
        weigh Frame.retiring (o.frames .enter + r) < m'.activeLines) := by
  obtain ⟨hfin, hret⟩ := hover
  simp only [weigh_cons] at hfin hret
  simp only [weigh_add]
  have hf : f.unfinished T = 0 := by omega
  have hr : weigh (Frame.unfinished T) r = 0 := by omega
  have hdecr : ∀ s, f = .retire s → weigh Frame.retiring r < decr m.activeLines := by
    rintro s rfl
    simp only [Frame.retiring] at hret
    rcases hret with ⟨h0, hle⟩ | hlt
    · rw [h0]
      simp only [decr]
      omega
    · obtain ⟨a, ha⟩ := Nat.exists_eq_succ_of_ne_zero (Nat.ne_of_gt (Nat.zero_lt_of_lt hlt))
      rw [ha] at hlt ⊢
      simp only [decr]
      omega
  cases h with
  | retire =>
    have := hdecr _ rfl
    exact ⟨rfl, by simp [Frame.unfinished, Frame.rootToken, Frame.pass, hr],
      .inr (by simpa [Frame.retiring] using this)⟩
  | retireLast ha =>
    have := hdecr _ rfl
    omega
  | @lastChild s p i hi =>
    have hlen := List.getElem?_eq_none_iff.mp hi
    refine ⟨rfl, ?_, by simpa [Frame.retiring] using hret⟩
    simp only [Frame.unfinished, Frame.rootToken, Nat.add_eq_zero_iff] at hf
    simp [Frame.unfinished, Frame.rootToken, Frame.pass, hr, hf.1]
  | @leave s hs => exact ⟨rfl, by simpa using hr, by simpa [Frame.retiring] using hret⟩
  | done => exact ⟨rfl, by simpa using hr, by simpa [Frame.retiring] using hret⟩
  -- the others have something left to do
  | terminated | full | «open» | «defer» =>
    have hs : _ = T.root := hat
    simp [Frame.unfinished, Frame.rootToken, hs] at hf
  | enterRoot hs => simp [Frame.unfinished, Frame.rootToken, hs] at hf
  | enter hs => simp [Frame.unfinished, Frame.pass, hs] at hf
  | call | leaf | inner => simp [Frame.unfinished, Frame.pass] at hf
  | child hv => simp [Frame.unfinished, Frame.pass, (List.getElem?_eq_some_iff.mp hv).1] at hf
  | restart hs => simp [Frame.unfinished, Frame.rootToken, hs] at hf

/-- **The counter is right** about the shutdown as long as it is taken to 0
by the last that is left, and the token given up beside a counted pass. -/
theorem Counting.move (hT : T.IsTree) (hroot : T.children T.root ≠ [])
    (hA : Accounted T m (f ::ₘ r)) (hI : Counting T m (f ::ₘ r) calls)
    (hfew : weigh Frame.retiring (f ::ₘ r) ≤ sizeMax)
    (hgate : (∃ s, f = .gate s) → m.terminated = true → 0 < m.activeLines)
    (hlast : (∃ s, f = .retire s) → m.activeLines = 1 →
      weigh (Frame.unfinished T) (f ::ₘ r) = 0) :
    Counting T m' (o.frames .enter + r) (calls + o.calls) := by
  have hat := hA.atRoot f (Multiset.mem_cons_self _ _)
  have hexec : m.executed = true := by
    cases he : m.executed
    · exact absurd (hI.idle he).1 Multiset.cons_ne_zero
    · rfl
  have hkeep : m'.executed = m.executed ∧ m'.terminated = m.terminated := by
    cases h <;> exact ⟨rfl, rfl⟩
  have hpart := weigh_add (Frame.rootToken T) (o.frames .enter) r
  have htoken := token_kept h hT hroot
  have htoken' : m'.executed = true → m'.terminated = false →
      weigh (Frame.rootToken T) (o.frames .enter + r) = 1 := by
    intro _ ht
    have hone := hI.token hexec (hkeep.2 ▸ ht)
    rw [weigh_cons] at hone
    rcases htoken with heq | ⟨-, hterm⟩
    · omega
    · rw [hkeep.2, hterm] at ht
      cases ht
  have hidle' : m'.executed = false → o.frames Frame.enter + r = 0 ∧ calls + o.calls = 0 :=
    fun he => by simp [hkeep.1, hexec] at he
  rcases Nat.eq_zero_or_pos calls with rfl | hpos
  · by_cases hnow : o.calls = 0
    · -- nobody is told
      have hne : ∀ s, f = .retire s → decr m.activeLines ≠ 0 := by
        rintro s rfl
        cases h with
        | retire ha => exact ha
        | retireLast => simp at hnow
      have hpos : m'.activeLines = 0 → m.activeLines = 0 := by
        intro h0
        cases h with
        | «open» => simp at h0
        | retire ha => exact absurd h0 ha
        | retireLast => simp at hnow
        | _ => exact h0
      obtain ⟨hlines, hnone⟩ := lines_move h hT hA (hI.lines rfl) (hI.none rfl) hne
      refine ⟨hidle', htoken', fun _ _ => ?_, fun _ => hlines, fun _ => hnone, by omega,
        fun hlt => by omega⟩
      have hgoing := hI.going rfl hexec
      rw [weigh_cons] at hgoing
      rcases htoken with heq | ⟨hf, hterm⟩
      · omega
      · have := hgate hf hterm
        omega
    · -- the counter comes to 0, for the first time
      cases h with
      | @retireLast s ha =>
        have hone : m.activeLines = 1 := by
          cases hm : m.activeLines with
          | zero => simpa [Frame.pass] using hI.none rfl hm
          | succ a =>
            rw [hm] at ha
            simp only [decr] at ha
            omega
        have hfin := hlast ⟨s, rfl⟩ hone
        simp only [weigh_cons, Nat.add_eq_zero_iff] at hfin hfew
        refine ⟨hidle', htoken', (absurd · Nat.one_ne_zero), (absurd · Nat.one_ne_zero),
          (absurd · Nat.one_ne_zero), Nat.le_refl _, fun _ => ⟨?_, .inl ⟨ha, ?_⟩⟩⟩
        · simp [Frame.unfinished, Frame.rootToken, Frame.pass, hfin.2]
        · simp only [Outcome.frames, Request.frames, Multiset.cons_zero, weigh_add, weigh_singleton,
            Frame.retiring]
          omega
      | _ => simp at hnow
  · -- it has been told
    obtain ⟨hnot, hfin, hret⟩ := over_move h hat (hI.ended hpos)
    have honce := hI.once
    exact ⟨hidle', htoken', fun h0 => by omega, fun h0 => by omega, fun h0 => by omega, by omega,
      fun _ => ⟨hfin, hret⟩⟩

end Move

theorem Counting.new : Counting T (treeNew : Mem ι V) 0 0 where
  idle _ := ⟨rfl, rfl⟩
  token := nofun
  going _ := nofun
  lines _ := Nat.le_refl _
  none _ _ := rfl
  once := Nat.zero_le _
  ended := nofun

theorem Counting.step (hT : T.IsTree) (hroot : T.children T.root ≠ [])
    {b b' : Bag (program V T n)} {a : Act (program V T n)} (hA : Accounted T b.mem b.frames)
    (hI : Counting T b.mem b.frames b.calls) (hfew : weigh Frame.retiring b.frames ≤ sizeMax)
    (hc : EndsLast b a) (h : Bag.Step b a b') : Counting T b'.mem b'.frames b'.calls := by
  cases bagMove_cases h with
  | unit hmove =>
    refine hI.move hmove hT hroot hA hfew ?_ ?_
    · rintro ⟨s, rfl⟩
      exact hc
    · rintro ⟨s, rfl⟩
      exact hc
  | terminate =>
    exact ⟨hI.idle, nofun, hI.going, hI.lines, hI.none, hI.once, hI.ended⟩
  | @execute m x r k hidle =>
    obtain ⟨rfl, rfl⟩ : r = 0 ∧ k = 0 := hI.idle hidle
    have hlines := hI.lines rfl
    refine ⟨nofun, fun _ _ => ?_, fun _ _ => ?_, fun _ => ?_, fun _ _ => ?_, Nat.zero_le _, nofun⟩
    · simp [Frame.rootToken]
    · simp [Frame.rootToken]
    · simpa [Frame.pass] using hlines
    · simp [Frame.pass]

/-- What is counted ends with the pool told. -/
theorem Counting.told {m : Mem ι V} {fs : Multiset (Frame ι V)} {calls : Nat}
    (hI : Counting T m fs calls) (hexec : m.executed = true)
    (hnone : ∀ f ∈ fs, f.rootToken T = 0 ∧ f.pass T = 0) : 0 < calls := by
  by_contra hzero
  have hcalls : calls = 0 := by omega
  have htoken : weigh (Frame.rootToken T) fs = 0 := weigh_eq_zero.mpr fun f hf => (hnone f hf).1
  have hpass : passes T fs = 0 := Multiset.eq_zero_of_forall_notMem fun p hp => by
    obtain ⟨f, hf, hpf⟩ := Multiset.mem_bind.mp hp
    exact Multiset.notMem_zero p ((hnone f hf).2 ▸ hpf)
  have hlines := hI.lines hcalls
  rw [hpass] at hlines
  have hgoing := hI.going hcalls hexec
  have hcard : (Multiset.toFinset (0 : Multiset Nat)).card = 0 := rfl
  omega

omit [DecidableEq ι] in
/-- An activation with nothing left to do is past the root's token, and
idle in every pass. -/
theorem Frame.finished [DecidableEq ι] {f : Frame ι V} (hf : f.unfinished T = 0) :
    f.rootToken T = 0 ∧ ∀ p, f.Idle T p := by
  by_cases hret : ∃ s, f = .retire s
  · obtain ⟨s, rfl⟩ := hret
    exact ⟨rfl, fun p v => ⟨rfl, rfl, rfl⟩⟩
  · have hsum : f.rootToken T + (f.pass T).card = 0 := by
      cases f with
      | retire s => exact absurd ⟨s, rfl⟩ hret
      | _ => exact hf
    have hpass : f.pass T = 0 := Multiset.card_eq_zero.mp (by omega)
    exact ⟨by omega, fun p => Frame.idle (hpass ▸ Multiset.notMem_zero p)⟩

/-- Each worker has one activation, so not more than `n` are about to take
the counter down. -/
theorem retiring_le (s : Pool (program V T n) n) : weigh Frame.retiring s.bag.frames ≤ n := by
  have hworker : ∀ w : Worker (program V T n), weigh Frame.retiring w.frames ≤ 1 := by
    intro w
    cases w with
    | popped u =>
      simp only [Worker.frames, WorkUnit.frames]
      split <;> simp [Frame.retiring]
    | running u f => cases f <;> simp [Worker.frames, Frame.retiring]
    | _ => simp [Worker.frames]
  calc weigh Frame.retiring s.bag.frames
      = tally (fun w => weigh Frame.retiring w.frames) s.workers := weigh_bag (fun _ => rfl) s
    _ ≤ tally (fun _ => 1) s.workers := tally_mono fun i => hworker _
    _ = n := by simp [tally_const]

theorem counting (hT : T.IsTree) (hroot : T.children T.root ≠ []) (hmax : n ≤ sizeMax)
    {s : Pool (program V T n) n} (h : (machine V T n).ReachableBy (OnBag EndsLast) s) :
    Counting T s.mem s.bag.frames s.terminates :=
  accounted_invariant hT.root
    (D := fun b a => EndsLast b a ∧ weigh Frame.retiring b.frames ≤ sizeMax)
    (I := fun b => Counting T b.mem b.frames b.calls) .new
    (fun hA hI hc hs => hI.step hT hroot hA hc.2 hc.1 hs)
    (h.mono fun s _ hc a ha => ⟨hc a ha, (retiring_le s).trans hmax⟩)

/-- **The pool is shut down when it should be** in every run in which the
counter comes to 0 with nothing left to do and the token is given up
beside a counted pass. -/
theorem shut_down_when_over (hT : T.IsTree) (hroot : T.children T.root ≠ []) (hn : 1 ≤ n)
    (hmax : n ≤ sizeMax) {s : Pool (program V T n) n}
    (h : (machine V T n).ReachableBy (OnBag EndsLast) s) : ShutsDown T s := by
  have hC := counting hT hroot hmax h
  have hV := (visiting hT h).visits
  have hdue : 0 < s.terminates → ∀ f ∈ s.bag.frames, f.rootToken T = 0 ∧ ∀ p, f.Idle T p :=
    fun hpos f hf => Frame.finished (weigh_eq_zero.mp (hC.ended hpos).1 f hf)
  constructor
  case due =>
    intro hpos
    refine ⟨?_, fun f hf => (hdue hpos f hf).1, fun p hp v hv =>
      hV.complete hp (fun f hf => (hdue hpos f hf).2 p) hv⟩
    -- a root's token that is gone was given up, under `terminated`
    have hzero : weigh (Frame.rootToken T) s.bag.frames = 0 :=
      weigh_eq_zero.mpr fun f hf => (hdue hpos f hf).1
    by_contra hterm
    have hexec : s.mem.executed = true := by
      by_contra hexec
      have := (hC.idle (by simpa using hexec)).2
      omega
    have := hC.token hexec (by simpa using hterm)
    omega
  case once => exact hC.once
  case told =>
    rintro ⟨hexec, -, hnone, hsig⟩
    obtain ⟨u, hu, hf⟩ := ThreadPool.told h.reachable (hC.told hexec hnone)
    exact hsig u hu hf
  case going =>
    intro hexec hterm
    have hone := hC.token hexec hterm
    by_contra hno
    have hzero : weigh (Frame.rootToken T) s.bag.frames = 0 := by
      refine weigh_eq_zero.mpr fun f hf => ?_
      have hle := le_weigh (f := Frame.rootToken T) hf
      have : f.rootToken T ≠ 1 := fun h1 => hno ⟨f, hf, h1⟩
      omega
    omega
  case awake =>
    intro hexec _ hq hall
    have hnone : s.bag.frames = 0 := by
      have hw : ∀ i, (s.workers i).frames = 0 := fun i => by
        rcases hall i with hi | hi <;> rw [hi] <;> rfl
      simp only [Pool.bag, hq, List.map_nil, List.sum_nil, zero_add, tally]
      exact Finset.sum_eq_zero fun i _ => hw i
    have hpos := hC.told hexec (by simp [hnone])
    exact all_exited h.reachable hpos hq hall
  case freed =>
    intro hdone
    obtain ⟨g, hg, hsig⟩ := hands h.reachable ⟨0, hn⟩ (by simp [hdone])
    have hpos := asked h.reachable ⟨g, (history h.reachable).popped_mem hg, hsig⟩
    have hleft : signals s.workQueue + 1 = s.terminates :=
      (balance h.reachable).left_over hn fun i => by simp [Pool.relay, hdone i]
    have honce := hC.once
    have hempty : s.workQueue = [] := by
      refine List.eq_nil_iff_forall_not_mem.mpr fun u hu => ?_
      cases hf : u.func with
      | termSig =>
        have : 0 < signals s.workQueue :=
          List.countP_pos_iff.mpr ⟨u, hu, by simp [hf, Func.isSig]⟩
        omega
      | call d =>
        -- a unit in the queue is not finished
        have hd := weigh_eq_zero.mp (hC.ended hpos).1 _ (mem_bag_of_queue hu hf)
        simp only [Frame.unfinished, Frame.rootToken, Frame.pass] at hd
        split at hd <;> simp at hd
    exact ⟨hempty, by simp [threadPoolFree, hdone, hempty]⟩

/-! ## Whatever the tree -/

/-- The pool of the tree is shut down when it should be, in every run. -/
def ShutDownExactly (V : Type) (T : Shape ι) (n : Nat) : Prop :=
  ∀ s : Pool (program V T n) n, (machine V T n).Reachable s → ShutsDown T s

/-- `tree_terminate` is called before a worker brings the root's token to
the gate, which gives it up with nothing counted. -/
theorem stranded (V : Type) (T : Shape ι) (hn : 1 ≤ n) :
    ∃ s : Pool (program V T n) n, (machine V T n).Reachable s ∧ Stranded s := by
  have hnew : Solo (P := program V T n) (n := n) (fun _ _ => True) treeNew (· = .popping)
      (· = .popping) ⟨0, hn⟩ [] treeNew := .new _
  have hqueued := hnew.clientPush (x := Client.execute) rfl fun _ _ => trivial
  have htold := hqueued.client (x := Client.terminate) rfl fun _ _ => trivial
  have hgate := htold.take.go (c := Choice.run) (g := Frame.gate ⟨T.root, none, 0⟩)
    (fun _ _ => trivial) (by simp only [treeLoop, if_true]; rfl)
  obtain ⟨s, hr, hs⟩ := hgate.ret (c := Choice.run) (fun _ _ => trivial) rfl
  refine ⟨s, hr.reachable, by simp [hs.mem], by simp [hs.mem], ?_, ?_⟩
  · simp [hs.empty]
  · intro u hu hsig
    have hpos := asked hr.reachable ⟨u, hu, hsig⟩
    have hzero := hs.calls
    omega

/-- **No tree is shut down exactly when it should be**, with any number of
workers. -/
theorem never_shut_down_exactly (hn : 1 ≤ n) : ¬ ShutDownExactly V T n := by
  intro hall
  obtain ⟨s, hr, hs⟩ := stranded V T hn
  exact (hall s hr).told hs

theorem never_shut_down_exactly_chain : ¬ ShutDownExactly Unit chain 1 :=
  never_shut_down_exactly (by decide)

/-! ## Runs -/

/-- Two workers. Worker 1 is in the child of the first pass when worker 0
gives up the root's token; the child takes the counter to 0. -/
def overRun : List (Event (program Unit chain 2) 2) :=
  .client .execute :: take first ++ go first 3 ++ ret first ++ go first 1 ++ take second ++
    go second 2 ++ .client .terminate :: go first 3 ++ .loop first :: take first ++ go first 2 ++
    .loop first :: ret second ++ go second 2 ++ .loop second :: List.replicate 8 (.loop first) ++
    List.replicate 7 (.loop second)

example :
    let s := (machine Unit chain 2).final overRun (by decide)
    s.mem.passes = 1 ∧ s.terminates = 1 ∧ (∀ i, s.workers i = .exited) ∧ ShutsDown chain s :=
  ⟨by decide, by decide, by decide, shut_down_when_over chain_isTree (by decide) (by decide)
    (by decide) ((machine Unit chain 2).reachableBy_final overRun (by decide) (by decide))⟩

/-- One worker, and nobody asks for an end. The child takes the counter to
0 with the root's token queued. -/
def earlyRun : List (Event (program Unit chain 1) 1) :=
  chainRun ++ go first 2 ++ .loop first :: leaf first ++ take first ++ go first 3 ++ ret first ++
    go first 4 ++ List.replicate 8 (.loop first)

/-- The worker is told to go in the middle of the passes, and the assertion
of `thread_pool_free` fails; and with `tree_terminate` called before the
first pass nobody is told at all. -/
theorem shut_down_early :
    (∃ s, (machine Unit chain 1).Reachable s ∧ s.mem.terminated = false ∧ s.terminates = 1 ∧
      threadPoolFree s = .assertionFailed) ∧
    ∃ s, (machine Unit chain 1).Reachable s ∧ Stranded s :=
  ⟨⟨_, (machine Unit chain 1).reachable_final earlyRun (by decide), by decide, by decide,
      by decide⟩,
    ⟨_, (machine Unit chain 1).reachable_final (.client .execute :: .client .terminate ::
      take first ++ go first 2) (by decide), by
        unfold Stranded
        decide⟩⟩

end Loomlib.Tree
