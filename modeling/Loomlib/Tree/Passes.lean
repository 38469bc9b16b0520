import Loomlib.Tree.Model
import Loomlib.ThreadPool.Bag
import Mathlib.Data.Finset.Card

/-!
# Tree — Passes

`active_lines` goes up once for each pass of the root and down once for
each terminal vertice a pass reaches. The two agree as long as the vertice
that takes the counter down is the last one of its pass, which is so when
no vertice has two children, and fails in every pass of any other tree.
-/

namespace Loomlib.Tree

open ThreadPool

variable {ι V : Type} [DecidableEq ι] {T : Shape ι} {n : Nat}

/-- The steps of `tree_loop`. -/
inductive Move (T : Shape ι) (n : Nat) (m : Mem ι V) :
    Frame ι V → Mem ι V → Outcome (State ι V) (Frame ι V) → Prop where
  | enterRoot {s} (hs : s.vertice = T.root) : Move T n m (.enter s) m (.go (.gate s))
  | enter {s} (hs : s.vertice ≠ T.root) : Move T n m (.enter s) m (.go (.callRoutine s))
  | terminated {s} (ht : m.terminated = true) : Move T n m (.gate s) m .ret
  | full {s} (hfull : n < m.activeLines) : Move T n m (.gate s) m (.go (.defer s))
  | open {s} (ht : m.terminated = false) (hroom : m.activeLines ≤ n) :
      Move T n m (.gate s) { m with activeLines := m.activeLines + 1, passes := m.passes + 1 }
        (.go (.callRoutine { s with pass := m.passes }))
  | defer {s} : Move T n m (.defer s) m (.request (.push s) .done)
  | call {s} : Move T n m (.callRoutine s)
      { m with log := m.log ++ [.call s.vertice s.pass s.product] } (.go (.routine s))
  | leaf {s p} (hs : T.children s.vertice = []) : Move T n m (.routine s)
      { m with log := m.log ++ [.ret s.vertice s.pass p] } (.go (.retire s))
  | inner {s p} (hs : T.children s.vertice ≠ []) : Move T n m (.routine s)
      { m with log := m.log ++ [.ret s.vertice s.pass p] } (.go (.children s p 0))
  | child {s p i v} (hv : (T.children s.vertice)[i]? = some v) :
      Move T n m (.children s p i) m
        (.request (.push ⟨v, p, s.pass⟩) (.children s p (i + 1)))
  | lastChild {s p i} (hi : (T.children s.vertice)[i]? = none) :
      Move T n m (.children s p i) m (.go (.restart s))
  | restart {s} (hs : s.vertice = T.root) :
      Move T n m (.restart s) m (.request (.push s) .done)
  | leave {s} (hs : s.vertice ≠ T.root) : Move T n m (.restart s) m .ret
  | retire {s} (ha : decr m.activeLines ≠ 0) :
      Move T n m (.retire s) { m with activeLines := decr m.activeLines } (.go .done)
  | retireLast {s} (ha : decr m.activeLines = 0) :
      Move T n m (.retire s) { m with activeLines := decr m.activeLines }
        (.request .terminate .done)
  | done : Move T n m .done m .ret

theorem move_cases {m m' : Mem ι V} {f : Frame ι V} {c : Choice V}
    {o : Outcome (State ι V) (Frame ι V)} (h : treeLoop T n m f c = some (m', o)) :
    Move T n m f m' o := by
  cases f <;> simp only [treeLoop] at h
  case enter s =>
    cases h
    split
    · rename_i hs; exact .enterRoot hs
    · rename_i hs; exact .enter hs
  case gate s =>
    split at h
    · rename_i ht; cases h; exact .terminated ht
    · rename_i ht
      split at h
      · rename_i hfull; cases h; exact .full hfull
      · rename_i hroom; cases h; exact .open (by simpa using ht) (by omega)
  case routine s =>
    split at h
    · cases h
      split
      · rename_i hs; exact .leaf hs
      · rename_i hs; exact .inner hs
    · cases h
  case children s p i =>
    split at h
    · rename_i hv; cases h; exact .child hv
    · rename_i hi; cases h; exact .lastChild hi
  case restart s =>
    split at h
    · rename_i hs; cases h; exact .restart hs
    · rename_i hs; cases h; exact .leave hs
  case retire s =>
    cases h
    split
    · rename_i ha; exact .retireLast ha
    · rename_i ha; exact .retire ha
  all_goals cases h; constructor

/-! ## The passes under way -/

/-- The pass an activation keeps under way: from its start at the root's
gate, or from the push of a child, until the last child is pushed or the
counter is taken down. -/
def Frame.pass (T : Shape ι) : Frame ι V → Multiset Nat
  | .enter s => if s.vertice = T.root then 0 else {s.pass}
  | .callRoutine s | .routine s | .retire s => {s.pass}
  | .children s _ i => if i < (T.children s.vertice).length then {s.pass} else 0
  | .gate _ | .defer _ | .restart _ | .done => 0

/-- The passes under way, one entry for each activation of a pass. -/
def passes (T : Shape ι) (fs : Multiset (Frame ι V)) : Multiset Nat :=
  fs.bind (Frame.pass T)

@[simp] theorem passes_zero : passes T (0 : Multiset (Frame ι V)) = 0 := rfl

@[simp] theorem passes_cons (f : Frame ι V) (fs : Multiset (Frame ι V)) :
    passes T (f ::ₘ fs) = f.pass T + passes T fs := Multiset.cons_bind ..

@[simp] theorem passes_singleton (f : Frame ι V) : passes T {f} = f.pass T :=
  Multiset.singleton_bind ..

@[simp] theorem passes_add (fs gs : Multiset (Frame ι V)) :
    passes T (fs + gs) = passes T fs + passes T gs := Multiset.add_bind ..

/-- What holds at a control point: only root passes stand at the gate. -/
def Frame.AtRoot (T : Shape ι) : Frame ι V → Prop
  | .gate s | .defer s => s.vertice = T.root
  | _ => True

/-- `active_lines` is the number of passes that have a vertice queued or
running. -/
def Balanced (T : Shape ι) (m : Mem ι V) (fs : Multiset (Frame ι V)) : Prop :=
  m.activeLines = (passes T fs).toFinset.card

structure Accounted (T : Shape ι) (m : Mem ι V) (fs : Multiset (Frame ι V)) : Prop where
  atRoot : ∀ f ∈ fs, f.AtRoot T
  started : ∀ p ∈ passes T fs, p < m.passes

/-- What a step does to the passes under way: nothing, or it starts one,
or hands one on to a child, keeping it if there are more children, or
takes the counter down for one. -/
inductive Effect (T : Shape ι) (m m' : Mem ι V) (f : Frame ι V) (fs : Multiset (Frame ι V)) :
    Prop where
  | quiet (hf : ∀ s, f ≠ .retire s) (hp : passes T fs = f.pass T)
      (ha : m'.activeLines = m.activeLines) (hn : m'.passes = m.passes)
  | starts (hf : f.pass T = 0) (hp : passes T fs = {m.passes})
      (ha : m'.activeLines = m.activeLines + 1) (hn : m'.passes = m.passes + 1)
  | shares {s p i} (hf : f = .children s p i) (hi : i < (T.children s.vertice).length)
      (hp : passes T fs = s.pass ::ₘ
        (if i + 1 < (T.children s.vertice).length then {s.pass} else 0))
      (ha : m'.activeLines = m.activeLines) (hn : m'.passes = m.passes)
  | retires {s} (hf : f = .retire s) (hp : passes T fs = 0)
      (ha : m'.activeLines = decr m.activeLines) (hn : m'.passes = m.passes)

section Move

variable {m m' : Mem ι V} {f : Frame ι V} {o : Outcome (State ι V) (Frame ι V)}
  {r : Multiset (Frame ι V)}

theorem Move.effect (hroot : ∀ v, T.root ∉ T.children v) (h : Move T n m f m' o)
    (hat : f.AtRoot T) : Effect T m m' f (o.frames .enter) := by
  cases h with
  | enterRoot hs => exact .quiet nofun (by simp [Frame.pass, hs]) rfl rfl
  | enter hs => exact .quiet nofun (by simp [Frame.pass, hs]) rfl rfl
  | «open» => exact .starts rfl (by simp [Frame.pass]) rfl rfl
  | «defer» =>
    have hs : _ = T.root := hat
    exact .quiet nofun (by simp [Frame.pass, hs]) rfl rfl
  | inner hs =>
    have hlen := List.length_pos_iff.mpr hs
    exact .quiet nofun (by simp [Frame.pass, hlen]) rfl rfl
  | @child s p i v hv =>
    obtain ⟨hi, hget⟩ := List.getElem?_eq_some_iff.mp hv
    have hv : v ≠ T.root := by
      rintro rfl
      exact hroot s.vertice (hget ▸ List.getElem_mem hi)
    refine .shares rfl hi ?_ rfl rfl
    simp [Frame.pass, hv, add_comm, ← Multiset.singleton_add]
  | lastChild hi =>
    have hlen := List.getElem?_eq_none_iff.mp hi
    exact .quiet nofun (by simp [Frame.pass, Nat.not_lt.mpr hlen]) rfl rfl
  | restart hs => exact .quiet nofun (by simp [Frame.pass, hs]) rfl rfl
  | retire | retireLast => exact .retires rfl (by simp [Frame.pass]) rfl rfl
  | _ => exact .quiet nofun (by simp [Frame.pass]) rfl rfl

omit [DecidableEq ι] in
theorem Move.atRoot (h : Move T n m f m' o) (hat : f.AtRoot T) :
    ∀ g ∈ o.frames .enter, g.AtRoot T := by
  cases h with
  | enterRoot hs => simpa [Frame.AtRoot] using hs
  | full => simpa [Frame.AtRoot] using hat
  | _ => simp [Frame.AtRoot]

theorem Accounted.move (hroot : ∀ v, T.root ∉ T.children v) (h : Move T n m f m' o)
    (hI : Accounted T m (f ::ₘ r)) : Accounted T m' (o.frames .enter + r) := by
  obtain ⟨hat, hst⟩ := hI
  obtain ⟨hf, hr⟩ := Multiset.forall_mem_cons.mp hat
  constructor
  · intro g hg
    rcases Multiset.mem_add.mp hg with hg | hg
    · exact h.atRoot hf g hg
    · exact hr g hg
  · intro p hp
    simp only [passes_cons, Multiset.mem_add] at hst
    rw [passes_add, Multiset.mem_add] at hp
    cases h.effect hroot hf with
    | quiet _ hp' _ hn => rw [hp'] at hp; rw [hn]; exact hst p hp
    | starts _ hp' _ hn =>
      rw [hp', Multiset.mem_singleton] at hp
      rw [hn]
      rcases hp with rfl | hp
      · exact Nat.lt_succ_self _
      · exact Nat.lt_succ_of_lt (hst p (.inr hp))
    | @shares s q i hf' hi hp' _ hn =>
      rw [hn]
      refine hst p (hp.imp_left ?_)
      intro hp
      rw [hp'] at hp
      subst hf'
      simp only [Frame.pass, if_pos hi]
      rcases Multiset.mem_cons.mp hp with rfl | hp
      · exact Multiset.mem_singleton_self _
      · split at hp
        · exact hp
        · cases hp
    | retires _ hp' _ hn =>
      rw [hp'] at hp
      rw [hn]
      exact hst p (.inr (hp.resolve_left (Multiset.notMem_zero p)))

/-- **The balance is kept** by every step but a retirement that leaves a
vertice of its pass behind. -/
theorem balanced_move (hroot : ∀ v, T.root ∉ T.children v) (h : Move T n m f m' o)
    (hI : Accounted T m (f ::ₘ r)) (hB : Balanced T m (f ::ₘ r)) :
    Balanced T m' (o.frames .enter + r) ↔ ∀ s, f = .retire s → s.pass ∉ passes T r := by
  have hf := hI.atRoot f (Multiset.mem_cons_self _ _)
  unfold Balanced at hB ⊢
  rw [passes_cons] at hB
  rw [passes_add]
  cases h.effect hroot hf with
  | quiet hne hp ha _ =>
    rw [hp, ha]
    exact iff_of_true hB fun s hs => absurd hs (hne s)
  | starts hf' hp ha _ =>
    have hnew : m.passes ∉ passes T r := fun hm =>
      Nat.lt_irrefl _ (hI.started _ (by rw [passes_cons]; exact Multiset.mem_add.mpr (.inr hm)))
    rw [hf', zero_add] at hB
    rw [hp, ha, hB, Multiset.singleton_add, Multiset.toFinset_cons,
      Finset.card_insert_of_notMem (by simpa using hnew)]
    apply iff_of_true rfl
    rintro s rfl
    simp [Frame.pass] at hf'
  | @shares s q i hf' hi hp ha _ =>
    subst hf'
    refine iff_of_true ?_ nofun
    simp only [Frame.pass, if_pos hi] at hB
    rw [hp, ha, hB]
    congr 1
    ext p
    split <;> simp
  | @retires s hf' hp ha _ =>
    subst hf'
    simp only [Frame.pass, Multiset.singleton_add, Multiset.toFinset_cons] at hB
    rw [hp, ha, zero_add]
    have hone : (∀ s', Frame.retire s = (.retire s' : Frame ι V) → s'.pass ∉ passes T r)
        ↔ s.pass ∉ passes T r :=
      ⟨fun hall => hall s rfl, fun hno s' hs => by cases hs; exact hno⟩
    rw [hone]
    by_cases hmem : s.pass ∈ passes T r
    · rw [Finset.insert_eq_of_mem (by simpa using hmem)] at hB
      have hpos : 0 < (passes T r).toFinset.card :=
        Finset.card_pos.mpr ⟨s.pass, by simpa using hmem⟩
      refine iff_of_false ?_ (not_not_intro hmem)
      cases hm : m.activeLines with
      | zero => omega
      | succ a => simp only [decr]; omega
    · rw [Finset.card_insert_of_notMem (by simpa using hmem)] at hB
      exact iff_of_true (by rw [hB]; rfl) hmem

end Move

/-! ## Runs -/

/-- The counter is taken down for the last vertice of a pass only. -/
def RetiresLast (b : Bag (program V T n)) : Act (program V T n) → Prop
  | .unit (.retire s) _ => (passes T b.frames).count s.pass ≤ 1
  | _ => True

instance (b : Bag (program V T n)) : ∀ a, Decidable (RetiresLast b a)
  | .unit (.retire _) _ => Nat.decLe ..
  | .unit (.enter _) _ | .unit (.gate _) _ | .unit (.defer _) _ | .unit (.callRoutine _) _
  | .unit (.routine _) _ | .unit (.children _ _ _) _ | .unit (.restart _) _ | .unit .done _
  | .client _ => isTrue trivial

theorem retiresLast_iff {m : Mem ι V} {f : Frame ι V} {c : Choice V} {r : Multiset (Frame ι V)}
    {calls : Nat} : RetiresLast (T := T) (n := n) ⟨m, f ::ₘ r, calls⟩ (.unit f c) ↔
      ∀ s, f = .retire s → s.pass ∉ passes T r := by
  cases f with
  | retire s =>
    have hone : (∀ s', Frame.retire s = (.retire s' : Frame ι V) → s'.pass ∉ passes T r)
        ↔ s.pass ∉ passes T r :=
      ⟨fun hall => hall s rfl, fun hno s' hs => by cases hs; exact hno⟩
    rw [hone, ← Multiset.count_eq_zero]
    simp only [RetiresLast, passes_cons, Frame.pass, Multiset.count_add,
      Multiset.count_singleton_self]
    omega
  | _ => exact iff_of_true trivial nofun

omit [DecidableEq ι] in
/-- The steps of the threads that use the tree. -/
theorem client_cases {m m' : Mem ι V} {x : Client} {q : Option (Request (State ι V))}
    (h : client T m x = some (m', q)) :
    (m' = { m with terminated := true } ∧ q = none) ∨
      (m.executed = false ∧ m' = { m with executed := true } ∧
        q = some (.push ⟨T.root, none, 0⟩)) := by
  cases x with
  | execute =>
    simp only [client] at h
    split at h
    · cases h
    · rename_i hx; cases h; exact .inr ⟨by simpa using hx, rfl, rfl⟩
  | terminate => cases h; exact .inl ⟨rfl, rfl⟩

/-- The steps of the bag of a tree. -/
inductive BagMove (T : Shape ι) (n : Nat) :
    Bag (program V T n) → Act (program V T n) → Bag (program V T n) → Prop where
  | unit {m f c m' o r calls} (h : Move T n m f m' o) :
      BagMove T n ⟨m, f ::ₘ r, calls⟩ (.unit f c) ⟨m', o.frames .enter + r, calls + o.calls⟩
  | terminate {m x r calls} :
      BagMove T n ⟨m, r, calls⟩ (.client x) ⟨{ m with terminated := true }, r, calls⟩
  | execute {m x r calls} (hidle : m.executed = false) :
      BagMove T n ⟨m, r, calls⟩ (.client x)
        ⟨{ m with executed := true }, .enter ⟨T.root, none, 0⟩ ::ₘ r, calls⟩

theorem bagMove_cases {b b' : Bag (program V T n)} {a : Act (program V T n)}
    (h : Bag.Step b a b') : BagMove T n b a b' := by
  cases h with
  | unit h => exact .unit (move_cases h)
  | client h =>
    obtain ⟨rfl, -⟩ | ⟨-, -, ⟨⟩⟩ := client_cases h
    exact .terminate
  | clientRequest h =>
    obtain ⟨-, ⟨⟩⟩ | ⟨hidle, rfl, ⟨⟩⟩ := client_cases h
    exact .execute hidle

omit [DecidableEq ι] in
theorem Accounted.new [DecidableEq ι] : Accounted T (treeNew : Mem ι V) 0 :=
  ⟨fun _ h => absurd h (Multiset.notMem_zero _), fun _ h => absurd h (Multiset.notMem_zero _)⟩

section Step

variable {b b' : Bag (program V T n)} {a : Act (program V T n)}
  (hroot : ∀ v, T.root ∉ T.children v)
include hroot

theorem Accounted.step (hI : Accounted T b.mem b.frames) (h : Bag.Step b a b') :
    Accounted T b'.mem b'.frames := by
  cases bagMove_cases h with
  | unit hmove => exact hI.move hroot hmove
  | terminate => exact ⟨hI.atRoot, hI.started⟩
  | execute =>
    refine ⟨?_, fun p hp => hI.started p ?_⟩
    · simpa [Frame.AtRoot] using hI.atRoot
    · simpa [Frame.pass] using hp

theorem balanced_step (hI : Accounted T b.mem b.frames) (hB : Balanced T b.mem b.frames)
    (h : Bag.Step b a b') : Balanced T b'.mem b'.frames ↔ RetiresLast b a := by
  cases bagMove_cases h with
  | unit hmove => exact (balanced_move hroot hmove hI hB).trans retiresLast_iff.symm
  | terminate => exact iff_of_true hB trivial
  | execute =>
    refine iff_of_true ?_ trivial
    simpa [Balanced, Frame.pass] using hB

/-- With one child at most, a pass is under way in one activation only. -/
theorem nodup_step (hchain : ∀ v, (T.children v).length ≤ 1)
    (hI : Accounted T b.mem b.frames) (hN : (passes T b.frames).Nodup) (h : Bag.Step b a b') :
    (passes T b'.frames).Nodup := by
  cases bagMove_cases h with
  | @unit m f c m' o r calls hmove =>
    simp only [passes_cons] at hN
    rw [passes_add]
    cases hmove.effect hroot (hI.atRoot f (Multiset.mem_cons_self _ _)) with
    | quiet _ hp _ _ => rwa [hp]
    | starts hf hp _ _ =>
      rw [hf, zero_add] at hN
      rw [hp, Multiset.singleton_add, Multiset.nodup_cons]
      exact ⟨fun hm => Nat.lt_irrefl _ (hI.started _ (by
        rw [passes_cons]; exact Multiset.mem_add.mpr (.inr hm))), hN⟩
    | @shares s q i hf hi hp _ _ =>
      subst hf
      have hlast : ¬ i + 1 < (T.children s.vertice).length := by
        have := hchain s.vertice
        omega
      simp only [Frame.pass, if_pos hi] at hN
      rw [hp, if_neg hlast]
      exact hN
    | retires _ hp _ _ =>
      rw [hp, zero_add]
      exact Multiset.nodup_of_le (Multiset.le_add_left _ _) hN
  | terminate => exact hN
  | execute => simpa [Frame.pass] using hN

theorem accounted {C} {s : Pool (program V T n) n} (h : (machine V T n).ReachableBy C s) :
    Accounted T s.mem s.bag.frames :=
  bag_invariant (I := fun b => Accounted T b.mem b.frames) .new (fun hI _ hs => hI.step hroot hs)
    (reachable_onBag h)

/-- The invariant rule for trees, whose bags are accounted for. -/
theorem accounted_invariant {D : Bag (program V T n) → Act (program V T n) → Prop}
    {I : Bag (program V T n) → Prop} (hinit : I ⟨treeNew, 0, 0⟩)
    (hstep : ∀ {b a b'}, Accounted T b.mem b.frames → I b → D b a → Bag.Step b a b' → I b')
    {s : Pool (program V T n) n} (h : (machine V T n).ReachableBy (OnBag D) s) : I s.bag :=
  bag_invariant_beside (J := fun b => Accounted T b.mem b.frames) .new
    (fun hA hs => hA.step hroot hs) hinit hstep h

/-- In a tree where no vertice has two children every run takes the
counter down for the last vertice of a pass only. -/
theorem retiresLast_of_chain (hchain : ∀ v, (T.children v).length ≤ 1)
    {s : Pool (program V T n) n} (h : (machine V T n).Reachable s) :
    (machine V T n).ReachableBy (OnBag RetiresLast) s := by
  apply h.always
  intro s hr e a ha
  have hN : (passes T s.bag.frames).Nodup :=
    accounted_invariant hroot (I := fun b => (passes T b.frames).Nodup) Multiset.nodup_zero
      (fun hA hI _ hs => nodup_step hroot hchain hA hI hs) (reachable_onBag hr)
  unfold RetiresLast
  split
  · exact Multiset.nodup_iff_count_le_one.mp hN _
  · trivial

/-- **The passes are counted** in every run that takes the counter down
for the last vertice of a pass only, and in no other: each such step keeps
the balance and any other step breaks it. As long as it holds, no
decrement is applied at 0 and a closed gate has a pass to wait for. Where
no vertice has two children this is every run. -/
theorem active_lines_balanced :
    (∀ s : Pool (program V T n) n, (machine V T n).ReachableBy (OnBag RetiresLast) s →
      Balanced T s.mem s.bag.frames ∧
      (∀ st, .retire st ∈ s.bag.frames → 0 < s.mem.activeLines) ∧
      (n < s.mem.activeLines → ∃ f ∈ s.bag.frames, f.pass T ≠ 0) ∧
      ∀ e t, (machine V T n).step s e = some t →
        (Balanced T t.mem t.bag.frames ↔ OnBag RetiresLast s e)) ∧
    ((∀ v, (T.children v).length ≤ 1) → ∀ s : Pool (program V T n) n,
      (machine V T n).Reachable s → Balanced T s.mem s.bag.frames) := by
  have hbal : ∀ s : Pool (program V T n) n, (machine V T n).ReachableBy (OnBag RetiresLast) s →
      Balanced T s.mem s.bag.frames := fun s h =>
    accounted_invariant hroot (I := fun b => Balanced T b.mem b.frames) rfl
      (fun hA hI hc hs => (balanced_step hroot hA hI hs).mpr hc) h
  refine ⟨fun s h => ⟨hbal s h, ?_, ?_, ?_⟩,
    fun hchain s h => hbal s (retiresLast_of_chain hroot hchain h)⟩
  · intro st hst
    have hmem : st.pass ∈ passes T s.bag.frames :=
      Multiset.mem_bind.mpr ⟨_, hst, Multiset.mem_singleton_self _⟩
    rw [hbal s h]
    exact Finset.card_pos.mpr ⟨_, Multiset.mem_toFinset.mpr hmem⟩
  · intro hfull
    rw [hbal s h] at hfull
    obtain ⟨p, hp⟩ := Finset.card_pos.mp (Nat.zero_lt_of_lt hfull)
    obtain ⟨f, hf, hpf⟩ := Multiset.mem_bind.mp (Multiset.mem_toFinset.mp hp)
    exact ⟨f, hf, fun h0 => Multiset.notMem_zero p (h0 ▸ hpf)⟩
  · intro e t hs
    rcases bag_step hs with ⟨hno, heq⟩ | ⟨a, ha, hb⟩
    · refine iff_of_true ?_ fun a ha => nomatch hno.symm.trans ha
      have hB : Balanced T t.bag.mem t.bag.frames := by rw [heq]; exact hbal s h
      exact hB
    · refine (balanced_step hroot (accounted hroot h) (hbal s h) hb).trans
        ⟨?_, fun hc => hc a ha⟩
      intro hc a' ha'
      exact Option.some.inj (ha.symm.trans ha') ▸ hc

end Step

/-! ## Two trees -/

/-- A root with one child. -/
def chain : Shape Bool := ⟨false, fun v => if v then [] else [true]⟩

/-- A root with two children. -/
def fork : Shape (Option Bool) :=
  ⟨none, fun v => if v = none then [some false, some true] else []⟩

section Runs

variable {ι : Type} [DecidableEq ι] {T : Shape ι} {n : Nat} (i : Fin n)

/-- Worker `i` takes the first unit of the queue and calls its function. -/
def take : List (Event (program Unit T n) n) := [.loop i, .loop i]

/-- `c` steps of the function worker `i` is in, to which nothing answers. -/
def go (c : Nat) : List (Event (program Unit T n) n) := List.replicate c (.unit i .run)

/-- Worker `i` is in a routine, which returns NULL. -/
def ret : List (Event (program Unit T n) n) := [.unit i (.returns none)]

/-- Worker `i` takes a terminal vertice from the queue to its end. -/
def leaf : List (Event (program Unit T n) n) :=
  take i ++ go i 2 ++ ret i ++ go i 2 ++ [.loop i]

end Runs

/-- One worker runs the root of `chain`, and has its child queued. -/
def chainRun : List (Event (program Unit chain 1) 1) :=
  .client .execute :: take first ++ go first 3 ++ ret first ++ go first 2

theorem active_lines_balanced_chain :
    let s := (machine Unit chain 1).final chainRun (by decide)
    s.mem.activeLines = 1 ∧ Balanced chain s.mem s.bag.frames :=
  ⟨by decide, (active_lines_balanced (by decide)).2 (by decide) _
    ((machine Unit chain 1).reachable_final chainRun (by decide))⟩

/-- One worker runs the root of `fork` and the first of its children. -/
def forkRun : List (Event (program Unit fork 1) 1) :=
  .client .execute :: take first ++ go first 3 ++ ret first ++ go first 5 ++
    .loop first :: leaf first

/-- The first child takes the counter to 0 with the second one queued; the
second one takes it below; and then the gate is closed to the root with no
pass under way. -/
theorem fork_unbalanced :
    (∃ s, (machine Unit fork 1).Reachable s ∧ s.mem.activeLines = 0 ∧
      passes fork s.bag.frames = {0}) ∧
    ∃ s, (machine Unit fork 1).Reachable s ∧ s.mem.activeLines = sizeMax ∧
      passes fork s.bag.frames = 0 :=
  ⟨⟨_, (machine Unit fork 1).reachable_final forkRun (by decide), by decide, by decide⟩,
    ⟨_, (machine Unit fork 1).reachable_final (forkRun ++ leaf first) (by decide), by decide,
      by decide⟩⟩

end Loomlib.Tree
