import Loomlib.Core.History
import Loomlib.Tree.Passes

/-!
# Tree — Visits

What a pass does in the tree. A child is queued once its parent has
returned, with what the parent returned, and is called once; so when
nothing of a pass is left, every vertice has been called in it. One token
brings the passes of the root, one after the other.
-/

namespace Loomlib.Tree

open ThreadPool

variable {ι V : Type} [DecidableEq ι] {T : Shape ι} {n : Nat}

/-- Nobody's child is the root, and every vertice is the child of one
parent, once. -/
structure Shape.IsTree (T : Shape ι) : Prop where
  root : ∀ v, T.root ∉ T.children v
  nodup : ∀ v, (T.children v).Nodup
  parent : ∀ u u' v, v ∈ T.children u → v ∈ T.children u' → u = u'

/-- The vertices of the tree, from the root down. -/
inductive Shape.Vertice (T : Shape ι) : ι → Prop where
  | root : T.Vertice T.root
  | child {u v} : T.Vertice u → v ∈ T.children u → T.Vertice v

/-! ## What a log says about a pass -/

/-- How often `v` was called in the pass `p`. -/
def calls (log : List (Routine ι V)) (v : ι) (p : Nat) : Nat :=
  log.countP fun r => match r with
    | .call v' p' _ => decide (v' = v ∧ p' = p)
    | .ret _ _ _ => false

/-- How often it has returned. -/
def rets (log : List (Routine ι V)) (v : ι) (p : Nat) : Nat :=
  log.countP fun r => match r with
    | .ret v' p' _ => decide (v' = v ∧ p' = p)
    | .call _ _ _ => false

section Log

variable (log : List (Routine ι V)) (v v' : ι) (p p' : Nat) (x : Option V)

@[simp] theorem calls_call : calls (log ++ [.call v' p' x]) v p
    = calls log v p + if v' = v ∧ p' = p then 1 else 0 := by
  simp [calls, List.countP_singleton]

@[simp] theorem calls_ret : calls (log ++ [.ret v' p' x]) v p = calls log v p := by
  simp [calls]

@[simp] theorem rets_ret : rets (log ++ [.ret v' p' x]) v p
    = rets log v p + if v' = v ∧ p' = p then 1 else 0 := by
  simp [rets, List.countP_singleton]

@[simp] theorem rets_call : rets (log ++ [.call v' p' x]) v p = rets log v p := by
  simp [rets]

variable {log v p}

theorem calls_pos : 0 < calls log v p ↔ ∃ x, .call v p x ∈ log := by
  unfold calls
  rw [List.countP_pos_iff]
  constructor
  · rintro ⟨r, hr, heq⟩
    cases r with
    | call v' p' x =>
      obtain ⟨rfl, rfl⟩ : v' = v ∧ p' = p := by simpa using heq
      exact ⟨x, hr⟩
    | ret => cases heq
  · rintro ⟨x, hx⟩
    exact ⟨_, hx, by simp⟩

theorem rets_pos : 0 < rets log v p ↔ ∃ x, .ret v p x ∈ log := by
  unfold rets
  rw [List.countP_pos_iff]
  constructor
  · rintro ⟨r, hr, heq⟩
    cases r with
    | ret v' p' x =>
      obtain ⟨rfl, rfl⟩ : v' = v ∧ p' = p := by simpa using heq
      exact ⟨x, hr⟩
    | call => cases heq
  · rintro ⟨x, hx⟩
    exact ⟨_, hx, by simp⟩

end Log

/-- What may come next. A vertice is called once in a pass; the root gets
NULL, and not before all its calls have returned; any other vertice gets
what its parent has returned in the pass. -/
def Allowed (T : Shape ι) (pre : List (Routine ι V)) : Routine ι V → Prop
  | .call v p x => (∀ y, .call v p y ∉ pre) ∧
      (v = T.root → x = none ∧ ∀ q y, .call v q y ∈ pre → ∃ z, .ret v q z ∈ pre) ∧
      (v ≠ T.root → ∃ u, v ∈ T.children u ∧ .ret u p x ∈ pre)
  | .ret v p _ => (∃ y, .call v p y ∈ pre) ∧ ∀ z, .ret v p z ∉ pre

/-! ## Tokens -/

/-- It is queued to call `v` in the pass `p`. -/
def Frame.waits (T : Shape ι) (v : ι) (p : Nat) : Frame ι V → Nat
  | .enter s => if s.vertice ≠ T.root ∧ s.vertice = v ∧ s.pass = p then 1 else 0
  | .callRoutine s => if s.vertice = v ∧ s.pass = p then 1 else 0
  | _ => 0

/-- It is inside the routine of `v` in the pass `p`. -/
def Frame.runs (v : ι) (p : Nat) : Frame ι V → Nat
  | .routine s => if s.vertice = v ∧ s.pass = p then 1 else 0
  | _ => 0

/-- It has the child `v` still to push, in the pass `p`. -/
def Frame.owes (T : Shape ι) (v : ι) (p : Nat) : Frame ι V → Nat
  | .children s _ i => if s.pass = p ∧ v ∈ (T.children s.vertice).drop i then 1 else 0
  | _ => 0

/-- It carries on the token of the root. -/
def Frame.rootToken (T : Shape ι) : Frame ι V → Nat
  | .enter s | .gate s | .defer s | .callRoutine s | .routine s | .children s _ _ | .restart s =>
    if s.vertice = T.root then 1 else 0
  | .retire _ | .done => 0

/-- Where each vertice stands in each pass. -/
structure Visits (T : Shape ι) (m : Mem ι V) (fs : Multiset (Frame ι V)) : Prop where
  called : ∀ v p, calls m.log v p = rets m.log v p + weigh (Frame.runs v p) fs
  once : ∀ v p, calls m.log v p ≤ 1
  root : ∀ p, weigh (Frame.waits T T.root p) fs + calls m.log T.root p
    = if p < m.passes then 1 else 0
  child : ∀ u v p, v ∈ T.children u → weigh (Frame.waits T v p) fs + calls m.log v p
    + weigh (Frame.owes T v p) fs = rets m.log u p
  token : weigh (Frame.rootToken T) fs ≤ if m.executed then 1 else 0

section Move

variable {m m' : Mem ι V} {f : Frame ι V} {o : Outcome (State ι V) (Frame ι V)}
  {r : Multiset (Frame ι V)} (h : Move T n m f m' o)
include h

private theorem called_move (v : ι) (p : Nat) :
    calls m'.log v p + rets m.log v p + f.runs v p
      = calls m.log v p + rets m'.log v p + weigh (Frame.runs v p) (o.frames .enter) := by
  cases h with
  | call | leaf | inner => simp [Frame.runs]; omega
  | _ => simp [Frame.runs]

private theorem root_move (hT : T.IsTree) (hat : f.AtRoot T) (p : Nat) :
    weigh (Frame.waits T T.root p) (o.frames .enter) + calls m'.log T.root p
      + (if p < m.passes then 1 else 0)
      = f.waits T T.root p + calls m.log T.root p + (if p < m'.passes then 1 else 0) := by
  cases h with
  -- a token that is the root's comes to the gate
  | enterRoot | «defer» | restart => simp +contextual [Frame.waits]
  | enter hs => simp [Frame.waits, hs]
  | «open» =>
    have hs : _ = T.root := hat
    simp only [Outcome.frames, weigh_singleton, Frame.waits, hs, true_and]
    split <;> split <;> split <;> omega
  | call =>
    simp only [Outcome.frames, weigh_singleton, Frame.waits, calls_call]
    omega
  | @child s q i v hv =>
    have hne : v ≠ T.root := by
      rintro rfl
      exact hT.root s.vertice (List.mem_of_getElem? hv)
    simp [Frame.waits, hne]
  | _ => simp [Frame.waits]

private theorem child_move (hT : T.IsTree) (hat : f.AtRoot T) {u v : ι} (hv : v ∈ T.children u)
    (p : Nat) :
    weigh (Frame.waits T v p) (o.frames .enter) + calls m'.log v p
      + weigh (Frame.owes T v p) (o.frames .enter) + rets m.log u p
      = f.waits T v p + calls m.log v p + f.owes T v p + rets m'.log u p := by
  have hne : v ≠ T.root := by
    rintro rfl
    exact hT.root u hv
  cases h with
  | enterRoot hs => simp [Frame.waits, Frame.owes, hs]
  | enter hs => simp [Frame.waits, Frame.owes, hs]
  | «open» | «defer» =>
    have hs : _ = T.root := hat
    simp [Frame.waits, Frame.owes, hs, hne.symm]
  | call => simp [Frame.waits, Frame.owes]; omega
  | @leaf s q hs =>
    have hsu : s.vertice ≠ u := by
      rintro rfl
      simp [hs] at hv
    simp [Frame.waits, Frame.owes, hsu]
  | @inner s q hs =>
    have hsu : v ∈ T.children s.vertice ↔ s.vertice = u :=
      ⟨fun hvs => hT.parent _ _ _ hvs hv, fun heq => heq ▸ hv⟩
    simp [Frame.waits, Frame.owes, hsu, and_comm]
    omega
  | @child s q i v' hv' =>
    obtain ⟨hi, hget⟩ := List.getElem?_eq_some_iff.mp hv'
    have hdrop := List.drop_eq_getElem_cons hi
    rw [hget] at hdrop
    have hnd : v' ∉ (T.children s.vertice).drop (i + 1) :=
      (List.nodup_cons.mp (hdrop ▸ (hT.nodup s.vertice).drop)).1
    simp only [Outcome.frames, Request.frames, weigh_cons, weigh_singleton, Frame.waits,
      Frame.owes, hdrop, List.mem_cons]
    by_cases hvv : v = v'
    · subst hvv
      simp [hnd, hne]
      omega
    · simp [hvv, Ne.symm hvv]
  | @lastChild s q i hi =>
    have hdrop : (T.children s.vertice).drop i = [] :=
      List.drop_eq_nil_iff.mpr (List.getElem?_eq_none_iff.mp hi)
    simp [Frame.waits, Frame.owes, hdrop]
  | restart hs => simp [Frame.waits, Frame.owes, hs]
  | _ => simp [Frame.waits, Frame.owes]

private theorem token_move (hT : T.IsTree) :
    weigh (Frame.rootToken T) (o.frames .enter) ≤ f.rootToken T := by
  cases h with
  | @child s q i v hv =>
    have hne : v ≠ T.root := by
      rintro rfl
      exact hT.root s.vertice (List.mem_of_getElem? hv)
    simp [Frame.rootToken, hne]
  | _ => simp [Frame.rootToken]

omit [DecidableEq ι] in
private theorem executed_move : m'.executed = m.executed := by
  cases h <;> rfl

end Move

/-! ## What a token carries -/

/-- The product of a state is the one its vertice is to be called with. -/
def Fed (T : Shape ι) (log : List (Routine ι V)) (s : State ι V) : Prop :=
  (s.vertice = T.root → s.product = none) ∧
    (s.vertice ≠ T.root → ∃ u, s.vertice ∈ T.children u ∧ .ret u s.pass s.product ∈ log)

/-- What an activation has been told. -/
def Frame.Knows (T : Shape ι) (log : List (Routine ι V)) : Frame ι V → Prop
  | .enter s | .gate s | .defer s | .callRoutine s | .routine s | .restart s => Fed T log s
  | .children s p _ => Fed T log s ∧ .ret s.vertice s.pass p ∈ log
  | .retire _ | .done => True

omit [DecidableEq ι] in
theorem Fed.mono {log log' : List (Routine ι V)} (hlog : log <+: log') {s : State ι V}
    (h : Fed T log s) : Fed T log' s := by
  refine ⟨h.1, fun hs => ?_⟩
  obtain ⟨u, hu, hret⟩ := h.2 hs
  exact ⟨u, hu, hlog.subset hret⟩

omit [DecidableEq ι] in
theorem Frame.Knows.mono {log log' : List (Routine ι V)} (hlog : log <+: log') {f : Frame ι V}
    (h : f.Knows T log) : f.Knows T log' := by
  cases f with
  | children s p i => exact ⟨Fed.mono hlog h.1, hlog.subset h.2⟩
  | retire | done => trivial
  | _ => exact Fed.mono hlog h

section Move

variable {m m' : Mem ι V} {f : Frame ι V} {o : Outcome (State ι V) (Frame ι V)}
  {r : Multiset (Frame ι V)} (h : Move T n m f m' o)
include h

omit [DecidableEq ι] in
private theorem log_move : m.log <+: m'.log := by
  cases h <;> simp

omit [DecidableEq ι] in
private theorem knows_move (hT : T.IsTree) (hat : f.AtRoot T) (hK : f.Knows T m.log) :
    ∀ g ∈ o.frames .enter, g.Knows T m'.log := by
  have hlog := log_move h
  cases h with
  | enterRoot | enter | full | restart => simpa [Frame.Knows] using hK
  | lastChild => simpa [Frame.Knows] using hK.1
  | «open» => simpa [Frame.Knows, Fed, show _ = T.root from hat] using hK
  | «defer» => simpa [Frame.Knows] using hK
  | call => simpa [Frame.Knows] using Fed.mono hlog hK
  | inner => simpa [Frame.Knows] using Fed.mono hlog hK
  | @child s q i v hv =>
    have hmem := List.mem_of_getElem? hv
    have hne : v ≠ T.root := by
      rintro rfl
      exact hT.root s.vertice hmem
    have hfed : Fed T m.log ⟨v, q, s.pass⟩ :=
      ⟨fun heq => absurd heq hne, fun _ => ⟨s.vertice, hmem, hK.2⟩⟩
    simpa [Frame.Knows] using ⟨hK, hfed⟩
  | _ => simp [Frame.Knows]

end Move

/-! ## Steps -/

section Step

variable {m m' : Mem ι V} {f : Frame ι V} {o : Outcome (State ι V) (Frame ι V)}
  {r : Multiset (Frame ι V)}

/-- A vertice that is queued to be called in a pass has not been called in
it. -/
theorem Visits.fresh {s : State ι V} (hV : Visits T m (.callRoutine s ::ₘ r))
    (hF : Fed T m.log s) : calls m.log s.vertice s.pass = 0 := by
  have hwaits : (Frame.callRoutine s).waits T s.vertice s.pass = 1 := by simp [Frame.waits]
  by_cases hs : s.vertice = T.root
  · have hroot := hV.root s.pass
    rw [weigh_cons, ← hs, hwaits] at hroot
    split at hroot <;> omega
  · obtain ⟨u, hu, -⟩ := hF.2 hs
    have hchild := hV.child u s.vertice s.pass hu
    rw [weigh_cons, hwaits] at hchild
    have hcalled := hV.called u s.pass
    have honce := hV.once u s.pass
    omega

/-- While the root's token waits to call the root, no call of the root is
under way. -/
theorem Visits.rootIdle {s : State ι V} (hV : Visits T m (.callRoutine s ::ₘ r))
    (hs : s.vertice = T.root) (p : Nat) : calls m.log T.root p = rets m.log T.root p := by
  have htoken := hV.token
  rw [weigh_cons,
    show (Frame.callRoutine s).rootToken T = 1 by simp [Frame.rootToken, hs]] at htoken
  have hle : weigh (Frame.runs T.root p) r ≤ weigh (Frame.rootToken T) r := by
    refine weigh_mono (fun g => ?_) r
    cases g with
    | routine s' => simp only [Frame.runs, Frame.rootToken]; split <;> split <;> simp_all
    | _ => simp [Frame.runs]
  have hcalled := hV.called T.root p
  rw [weigh_cons, show (Frame.callRoutine s).runs T.root p = 0 from rfl] at hcalled
  split at htoken <;> omega

theorem Visits.move (hT : T.IsTree) (h : Move T n m f m' o) (hV : Visits T m (f ::ₘ r))
    (hat : f.AtRoot T) (hK : f.Knows T m.log) : Visits T m' (o.frames .enter + r) where
  called v p := by
    have hmove := called_move h v p
    have hall := hV.called v p
    rw [weigh_cons] at hall
    rw [weigh_add]
    omega
  once v p := by
    have honce := hV.once v p
    cases h with
    | @call s =>
      have hfresh := hV.fresh hK
      rw [calls_call]
      split
      · rename_i hs
        rw [← hs.1, ← hs.2]
        omega
      · omega
    | leaf | inner => simpa using honce
    | _ => exact honce
  root p := by
    have hmove := root_move h hT hat p
    have hall := hV.root p
    rw [weigh_cons] at hall
    rw [weigh_add]
    omega
  child u v p hv := by
    have hmove := child_move h hT hat hv p
    have hall := hV.child u v p hv
    rw [weigh_cons, weigh_cons] at hall
    rw [weigh_add, weigh_add]
    omega
  token := by
    have hmove := token_move h hT
    have hall := hV.token
    rw [weigh_cons] at hall
    rw [weigh_add, executed_move h]
    omega

/-- **Every call is due and every return is of a call** under way. -/
theorem justified_move (h : Move T n m f m' o) (hV : Visits T m (f ::ₘ r))
    (hK : f.Knows T m.log) (hJ : Justified (Allowed T) m.log) : Justified (Allowed T) m'.log := by
  have hret : ∀ (s : State ι V) (p : Option V), f = .routine s →
      Justified (Allowed T) (m.log ++ [.ret s.vertice s.pass p]) := by
    rintro s p rfl
    have hcalled := hV.called s.vertice s.pass
    have honce := hV.once s.vertice s.pass
    rw [weigh_cons,
      show (Frame.routine s).runs s.vertice s.pass = 1 by simp [Frame.runs]] at hcalled
    refine hJ.snoc ⟨calls_pos.mp (by omega), fun z hz => ?_⟩
    have := rets_pos.mpr ⟨z, hz⟩
    omega
  cases h with
  | @call s =>
    have hfresh := hV.fresh hK
    refine hJ.snoc ⟨fun y hy => ?_, fun hs => ⟨hK.1 hs, fun q y hy => ?_⟩, hK.2⟩
    · have := calls_pos.mpr ⟨y, hy⟩
      omega
    · have hpos := calls_pos.mpr ⟨y, hy⟩
      rw [hs, hV.rootIdle hs q, ← hs] at hpos
      exact rets_pos.mp hpos
  | leaf | inner => exact hret _ _ rfl
  | _ => exact hJ

end Step

/-! ## Runs -/

/-- What every reached state of a tree satisfies. -/
structure Visiting (T : Shape ι) (m : Mem ι V) (fs : Multiset (Frame ι V)) : Prop where
  accounted : Accounted T m fs
  visits : Visits T m fs
  knows : ∀ f ∈ fs, f.Knows T m.log
  justified : Justified (Allowed T) m.log

theorem Visiting.new : Visiting T (treeNew : Mem ι V) 0 where
  accounted := .new
  visits := ⟨fun _ _ => rfl, fun _ _ => Nat.zero_le _, fun _ => rfl, fun _ _ _ _ => rfl,
    Nat.zero_le _⟩
  knows := fun _ hf => absurd hf (Multiset.notMem_zero _)
  justified := .nil

theorem Visiting.step (hT : T.IsTree) {b b' : Bag (program V T n)} {a : Act (program V T n)}
    (hI : Visiting T b.mem b.frames) (h : Bag.Step b a b') : Visiting T b'.mem b'.frames := by
  obtain ⟨hA, hV, hK, hJ⟩ := hI
  have hA' := hA.step hT.root h
  cases bagMove_cases h with
  | @unit m f c m' o r calls hmove =>
    obtain ⟨hKf, hKr⟩ := Multiset.forall_mem_cons.mp hK
    have hat := hA.atRoot f (Multiset.mem_cons_self _ _)
    refine ⟨hA', hV.move hT hmove hat hKf, fun g hg => ?_, justified_move hmove hV hKf hJ⟩
    rcases Multiset.mem_add.mp hg with hg | hg
    · exact knows_move hmove hT hat hKf g hg
    · exact (hKr g hg).mono (log_move hmove)
  | terminate =>
    exact ⟨hA', ⟨hV.called, hV.once, hV.root, hV.child, hV.token⟩, hK, hJ⟩
  | execute hidle =>
    have htoken := hV.token
    rw [hidle] at htoken
    refine ⟨hA', ⟨?_, hV.once, ?_, ?_, ?_⟩, ?_, hJ⟩
    · simpa [Frame.runs] using hV.called
    · simpa [Frame.waits] using hV.root
    · simpa [Frame.waits, Frame.owes] using hV.child
    · simpa [Frame.rootToken] using htoken
    · simpa [Frame.Knows, Fed] using hK

theorem visiting (hT : T.IsTree) {C} {s : Pool (program V T n) n}
    (h : (machine V T n).ReachableBy C s) : Visiting T s.mem s.bag.frames :=
  bag_invariant (I := fun b => Visiting T b.mem b.frames) .new (fun hI _ hs => hI.step hT hs)
    (reachable_onBag h)

/-- Nothing of the pass `p` is left to do in an activation. -/
def Frame.Idle (T : Shape ι) (p : Nat) (f : Frame ι V) : Prop :=
  ∀ v, f.waits T v p = 0 ∧ f.runs v p = 0 ∧ f.owes T v p = 0

/-- So it is where the activation keeps the pass under way no more. -/
theorem Frame.idle {f : Frame ι V} {p : Nat} (hp : p ∉ f.pass T) : f.Idle T p := by
  intro v
  cases f with
  | enter s =>
    refine ⟨if_neg ?_, rfl, rfl⟩
    rintro ⟨hs, -, rfl⟩
    simp [Frame.pass, hs] at hp
  | callRoutine s =>
    refine ⟨if_neg ?_, rfl, rfl⟩
    rintro ⟨-, rfl⟩
    simp [Frame.pass] at hp
  | routine s =>
    refine ⟨rfl, if_neg ?_, rfl⟩
    rintro ⟨-, rfl⟩
    simp [Frame.pass] at hp
  | children s q i =>
    refine ⟨rfl, rfl, if_neg ?_⟩
    rintro ⟨rfl, hv⟩
    have hi : i < (T.children s.vertice).length := by
      have := List.length_pos_of_mem hv
      rw [List.length_drop] at this
      omega
    simp [Frame.pass, hi] at hp
  | _ => exact ⟨rfl, rfl, rfl⟩

/-- **A pass that has nothing left** to do has called every vertice, once,
and all the calls have returned. -/
theorem Visits.complete {m : Mem ι V} {fs : Multiset (Frame ι V)} (hV : Visits T m fs) {p : Nat}
    (hstarted : p < m.passes) (hidle : ∀ f ∈ fs, f.Idle T p) {v : ι} (hv : T.Vertice v) :
    calls m.log v p = 1 ∧ rets m.log v p = 1 := by
  have hreturned : ∀ u, rets m.log u p = calls m.log u p := by
    intro u
    have hruns : weigh (Frame.runs u p) fs = 0 := weigh_eq_zero.mpr fun f hf => (hidle f hf u).2.1
    rw [hV.called, hruns]
    rfl
  have hwaits : ∀ u, weigh (Frame.waits T u p) fs = 0 := fun u =>
    weigh_eq_zero.mpr fun f hf => (hidle f hf u).1
  -- from the root down: a vertice is called as often as its parent returned
  induction hv with
  | root =>
    have hroot := hV.root p
    rw [hwaits, if_pos hstarted] at hroot
    have := hreturned T.root
    omega
  | @child u v _ huv ih =>
    have howes : weigh (Frame.owes T v p) fs = 0 :=
      weigh_eq_zero.mpr fun f hf => (hidle f hf v).2.2
    have hchild := hV.child u v p huv
    rw [hwaits, howes] at hchild
    have := hreturned v
    omega

/-- **Every pass visits the tree once, with its own products.** -/
theorem visited_once (hT : T.IsTree) {s : Pool (program V T n) n}
    (h : (machine V T n).Reachable s) :
    Justified (Allowed T) s.mem.log ∧
    ∀ p, p < s.mem.passes → p ∉ passes T s.bag.frames →
      ∀ v, T.Vertice v → calls s.mem.log v p = 1 := by
  have hI := visiting hT h
  refine ⟨hI.justified, fun p hstarted hp v hv => ?_⟩
  have hidle : ∀ f ∈ s.bag.frames, f.Idle T p := fun f hf =>
    Frame.idle fun hmem => hp (Multiset.mem_bind.mpr ⟨f, hf, hmem⟩)
  exact (hI.visits.complete hstarted hidle hv).1

theorem chain_isTree : chain.IsTree := ⟨by decide, by decide, by decide⟩

theorem fork_isTree : fork.IsTree := ⟨by decide, by decide, by decide⟩

/-- Worker `i` takes a unit from the queue and, `c` steps later, is in the
routine. -/
private def enters (i : Fin 2) (c : Nat) : List (Event (program Nat fork 2) 2) :=
  .loop i :: .loop i :: List.replicate c (.unit i .run)

/-- The routine returns `p`, and `c` steps follow. -/
private def leaves (i : Fin 2) (p : Option Nat) (c : Nat) :
    List (Event (program Nat fork 2) 2) :=
  .unit i (.returns p) :: List.replicate c (.unit i .run)

/-- The second pass starts, and returns its product, while a child of the
root is still in its routine for the first. -/
def twoPasses : List (Event (program Nat fork 2) 2) :=
  .client .execute :: enters first 3 ++ leaves first (some 7) 5 ++
    .loop first :: enters first 2 ++ enters second 2 ++ leaves second none 2 ++
    .loop second :: enters second 3 ++ leaves second (some 9) 3 ++ leaves first none 2

theorem visited_once_fork :
    let s := (machine Nat fork 2).final twoPasses (by decide)
    s.mem.passes = 2 ∧ 1 ∈ passes fork s.bag.frames ∧ 0 ∉ passes fork s.bag.frames ∧
      s.mem.log = [.call none 0 none, .ret none 0 (some 7), .call (some false) 0 (some 7),
        .call (some true) 0 (some 7), .ret (some true) 0 none, .call none 1 none,
        .ret none 1 (some 9), .ret (some false) 0 none] ∧
      Justified (Allowed fork) s.mem.log ∧
      calls s.mem.log none 0 = 1 ∧ calls s.mem.log (some false) 0 = 1 := by
  obtain ⟨hjust, hcalls⟩ := visited_once fork_isTree
    ((machine Nat fork 2).reachable_final twoPasses (by decide))
  have hpass := hcalls 0 (by decide) (by decide)
  refine ⟨by decide, by decide, by decide, by decide, hjust, hpass none .root, ?_⟩
  exact hpass (some false) (.child .root (by decide))

end Loomlib.Tree
