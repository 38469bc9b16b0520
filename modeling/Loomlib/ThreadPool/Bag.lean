import Loomlib.ThreadPool.Steps

/-!
# ThreadPool — Bag

What the unit functions of a pool see of it: a bag of activations over a
shared memory. A unit that waits to be popped or to be called counts as
the activation its call creates; which worker runs an activation, and in
what order the waiting ones will start, is forgotten. Every step of the
pool is a step of its bag or none, so what the steps of a program keep on
bags holds in every pool that runs the program, for any number of workers.
-/

namespace Loomlib.ThreadPool

variable {P : Program} {n : Nat}

/-- The activations in a pool, and the number of `thread_pool_terminate`
calls. -/
structure Bag (P : Program) where
  mem : P.Mem
  frames : Multiset P.Frame
  calls : Nat

/-- What moves: an activation, or a client. -/
inductive Act (P : Program) where
  | unit (f : P.Frame) (c : P.Choice)
  | client (x : P.Client)

section Frames

variable {δ φ : Type} (call : δ → φ)

/-- The activations a call on the pool adds. -/
@[simp] def Request.frames : Request δ → Multiset φ
  | .push d => {call d}
  | .terminate => 0

@[simp] def Request.calls : Request δ → Nat
  | .push _ => 0
  | .terminate => 1

/-- The activations a step leaves in place of its own. -/
@[simp] def Outcome.frames : Outcome δ φ → Multiset φ
  | .go f => {f}
  | .request q f => f ::ₘ q.frames call
  | .ret => 0

@[simp] def Outcome.calls : Outcome δ φ → Nat
  | .request q _ => q.calls
  | _ => 0

end Frames

def Bag.serve (b : Bag P) (q : Request P.Data) : Bag P :=
  ⟨b.mem, q.frames P.call + b.frames, b.calls + q.calls⟩

inductive Bag.Step : Bag P → Act P → Bag P → Prop where
  | unit {m f c m' o r k} (h : P.step m f c = some (m', o)) :
      Step ⟨m, f ::ₘ r, k⟩ (.unit f c) ⟨m', o.frames P.call + r, k + o.calls⟩
  | client {m x m' r k} (h : P.client m x = some (m', none)) :
      Step ⟨m, r, k⟩ (.client x) ⟨m', r, k⟩
  | clientRequest {m x m' q r k} (h : P.client m x = some (m', some q)) :
      Step ⟨m, r, k⟩ (.client x) ⟨m', q.frames P.call + r, k + q.calls⟩

/-! ## The bag of a pool -/

def WorkUnit.frames (u : WorkUnit P.Data) : Multiset P.Frame :=
  match u.func with
  | .termSig => 0
  | .call d => {P.call d}

def Worker.frames : Worker P → Multiset P.Frame
  | .popped u => u.frames
  | .running _ f => {f}
  | _ => 0

@[simp] theorem Worker.frames_wake (w : Worker P) : w.wake.frames = w.frames := by
  cases w <;> rfl

def Pool.bag (s : Pool P n) : Bag P where
  mem := s.mem
  frames := (s.workQueue.map WorkUnit.frames).sum + tally Worker.frames s.workers
  calls := s.terminates

/-- What moves in the bag of `s` at an event. -/
def Pool.act (s : Pool P n) : Event P n → Option (Act P)
  | .loop _ => none
  | .unit i c =>
    match s.workers i with
    | .running _ f => some (.unit f c)
    | _ => none
  | .client x => some (.client x)

/-- A condition on the steps of the bag, as one on the steps of the pool. -/
def OnBag (D : Bag P → Act P → Prop) (s : Pool P n) (e : Event P n) : Prop :=
  ∀ a, s.act e = some a → D s.bag a

instance {D : Bag P → Act P → Prop} [∀ b a, Decidable (D b a)] (s : Pool P n) (e : Event P n) :
    Decidable (OnBag D s e) :=
  match h : s.act e with
  | none => isTrue fun _ ha => nomatch h.symm.trans ha
  | some a => decidable_of_iff (D s.bag a) (by simp [OnBag, h])

theorem bag_threadPoolPush (s : Pool P n) (g : Func P.Data) :
    (s.threadPoolPush g).bag = { s.bag with
      frames := s.bag.frames + (⟨g, s.pushed.length⟩ : WorkUnit P.Data).frames } := by
  simp only [Pool.bag, Pool.threadPoolPush, tally_comp Worker.frames_wake]
  simp only [List.map_append, List.sum_append, List.map_cons, List.map_nil, List.sum_cons,
    List.sum_nil, add_zero, Bag.mk.injEq, true_and, and_true]
  exact add_right_comm _ _ _

theorem bag_serve (s : Pool P n) (q : Request P.Data) : (s.serve q).bag = s.bag.serve q := by
  cases q with
  | push d =>
    apply (bag_threadPoolPush s (.call d)).trans
    exact congrArg (Bag.mk _ · _) (add_comm _ _)
  | terminate =>
    have h := bag_threadPoolPush s .termSig
    simp only [WorkUnit.frames, add_zero] at h
    simp only [Bag.serve, Request.frames, zero_add]
    exact congrArg (fun b : Bag P => { b with calls := b.calls + 1 }) h

/-- A unit with a function that is queued is in the bag. -/
theorem mem_bag_of_queue {s : Pool P n} {u : WorkUnit P.Data} (hu : u ∈ s.workQueue) {d : P.Data}
    (hf : u.func = .call d) : P.call d ∈ s.bag.frames := by
  refine Multiset.mem_add.mpr (.inl ?_)
  generalize s.workQueue = q at hu
  induction q with
  | nil => cases hu
  | cons v q ih =>
    rw [List.map_cons, List.sum_cons]
    rcases List.mem_cons.mp hu with rfl | hu
    · exact Multiset.mem_add.mpr (.inl (by simp [WorkUnit.frames, hf]))
    · exact Multiset.mem_add.mpr (.inr (ih hu))

/-- The activation of one worker beside all others. -/
private theorem bag_focus (s : Pool P n) (i : Fin n) :
    ∃ r, s.bag = ⟨s.mem, (s.workers i).frames + r, s.terminates⟩ ∧
      ∀ m w, ({ s with mem := m }.setWorker i w).bag = ⟨m, w.frames + r, s.terminates⟩ := by
  obtain ⟨others, hall, hset⟩ := tally_split Worker.frames s.workers i
  refine ⟨(s.workQueue.map WorkUnit.frames).sum + others, ?_, ?_⟩
  · simp only [Pool.bag, hall]
    exact congrArg (Bag.mk _ · _) (add_left_comm _ _ _)
  · intro m w
    simp only [Pool.bag, Pool.setWorker, hset]
    exact congrArg (Bag.mk _ · _) (add_left_comm _ _ _)

/-- What a worker is running is in the bag. -/
theorem mem_bag_of_running {s : Pool P n} {i : Fin n} {u : WorkUnit P.Data} {f : P.Frame}
    (hw : s.workers i = .running u f) : f ∈ s.bag.frames := by
  obtain ⟨r, hr, -⟩ := bag_focus s i
  rw [hr, hw]
  exact Multiset.mem_add.mpr (.inl (Multiset.mem_singleton_self f))

/-- What moves in the bag is what some worker is running. -/
theorem running_of_act {s : Pool P n} {e : Event P n} {f : P.Frame} {c : P.Choice}
    (ha : s.act e = some (.unit f c)) : ∃ i u, s.workers i = .running u f := by
  cases e with
  | loop i => cases ha
  | client x => cases ha
  | unit i c' =>
    simp only [Pool.act] at ha
    split at ha
    · rename_i u f hw
      cases ha
      exact ⟨i, u, hw⟩
    · cases ha

/-- Where the activations that wait to be called weigh nothing, the bag
weighs what the workers have in hand. -/
theorem weigh_bag {f : P.Frame → Nat} (hcall : ∀ d, f (P.call d) = 0) (s : Pool P n) :
    weigh f s.bag.frames = tally (fun w => weigh f w.frames) s.workers := by
  have hunit : ∀ u : WorkUnit P.Data, weigh f u.frames = 0 := by
    intro u
    unfold WorkUnit.frames
    split
    · rfl
    · rw [weigh_singleton, hcall]
  have hqueue : ∀ q : List (WorkUnit P.Data), weigh f (q.map WorkUnit.frames).sum = 0 := by
    intro q
    induction q with
    | nil => rfl
    | cons u q ih => rw [List.map_cons, List.sum_cons, weigh_add, hunit, ih]
  simp only [Pool.bag, weigh_add, hqueue, weigh_tally, zero_add]

/-- A worker that moves on without its activation changing. -/
private theorem bag_keep (s : Pool P n) {i : Fin n} {w : Worker P}
    (h : w.frames = (s.workers i).frames) : (s.setWorker i w).bag = s.bag := by
  obtain ⟨r, hr, hw⟩ := bag_focus s i
  exact (hw s.mem w).trans (h ▸ hr.symm)

/-- A call that is under way does not notice a broadcast. -/
private theorem push_setWorker (s : Pool P n) (g : Func P.Data) {i : Fin n} {w : Worker P}
    (hw : w.wake = w) :
    (s.threadPoolPush g).setWorker i w = (s.setWorker i w).threadPoolPush g := by
  have hcomm : Function.update (fun j => (s.workers j).wake) i w
      = fun j => (Function.update s.workers i w j).wake := by
    funext j
    by_cases hj : j = i
    · subst hj; simp [hw]
    · simp [hj]
  simp only [Pool.setWorker, Pool.threadPoolPush, hcomm]

/-- **The pool refines its bag.** -/
theorem bag_step {s t : Pool P n} {e : Event P n} (h : step s e = some t) :
    (s.act e = none ∧ t.bag = s.bag) ∨ ∃ a, s.act e = some a ∧ Bag.Step s.bag a t.bag := by
  cases step_cases h with
  | sleep hw _ | wakeUp hw => exact .inl ⟨rfl, bag_keep s (by rw [hw]; rfl)⟩
  | @take i u rest hw hq =>
    refine .inl ⟨rfl, ?_⟩
    have hmove := tally_move Worker.frames hw (.popped u)
    change _ + 0 = _ + u.frames at hmove
    rw [add_zero] at hmove
    simp only [Pool.bag, Pool.setWorker, hmove, hq, List.map_cons, List.sum_cons]
    exact congrArg (Bag.mk _ · _) (by rw [add_comm u.frames, add_assoc, add_comm u.frames])
  | receive hw hf | start hw hf =>
    exact .inl ⟨rfl, bag_keep s (by rw [hw]; simp [Worker.frames, WorkUnit.frames, hf])⟩
  | free hw => exact .inl ⟨rfl, bag_keep s (by rw [hw]; rfl)⟩
  | sigLock hw _ | sigTest hw | sigDecr hw | sigUnlock hw | sigFree hw =>
    exact .inl ⟨rfl, bag_keep s (by rw [hw]; rfl)⟩
  | @sigPush i u hw =>
    refine .inl ⟨rfl, ?_⟩
    rw [push_setWorker s _ rfl, bag_threadPoolPush]
    simp only [WorkUnit.frames, add_zero]
    exact bag_keep s (by rw [hw]; rfl)
  | @go i c u f m f' hw hp =>
    right
    refine ⟨.unit f c, by simp [Pool.act, hw], ?_⟩
    obtain ⟨r, hr, hset⟩ := bag_focus s i
    rw [hr, hset, hw]
    exact .unit hp
  | @request i c u f m q f' hw hp =>
    right
    refine ⟨.unit f c, by simp [Pool.act, hw], ?_⟩
    obtain ⟨r, hr, hset⟩ := bag_focus s i
    have hserve : (({ s with mem := m }.serve q).setWorker i (.running u f')).bag
        = Bag.serve ⟨m, f' ::ₘ r, s.terminates⟩ q := by
      have hcomm : ({ s with mem := m }.serve q).setWorker i (.running u f')
          = ({ s with mem := m }.setWorker i (.running u f')).serve q := by
        cases q with
        | push d => exact push_setWorker { s with mem := m } (.call d) rfl
        | terminate =>
          exact congrArg (fun p : Pool P n => { p with terminates := p.terminates + 1 })
            (push_setWorker { s with mem := m } .termSig (w := .running u f') (i := i) rfl)
      rw [hcomm, bag_serve, hset]
      rfl
    rw [hserve, hr, hw]
    have hstep := Bag.Step.unit (r := r) (k := s.terminates) hp
    rwa [Outcome.frames, Multiset.cons_add, ← Multiset.add_cons] at hstep
  | @ret i c u f m hw hp =>
    right
    refine ⟨.unit f c, by simp [Pool.act, hw], ?_⟩
    obtain ⟨r, hr, hset⟩ := bag_focus s i
    have hnew := hset m (.ran u)
    simp only [Worker.frames, zero_add] at hnew
    rw [hr, hw]
    have hstep := Bag.Step.unit (r := r) (k := s.terminates) hp
    rw [Outcome.frames, zero_add] at hstep
    exact (show ({ s with mem := m, finished := _ }.setWorker i (.ran u)).bag = _ from hnew) ▸ hstep
  | client hp => exact .inr ⟨_, rfl, .client hp⟩
  | @clientRequest x m q hp =>
    refine .inr ⟨_, rfl, ?_⟩
    rw [bag_serve]
    exact .clientRequest hp

/-! ## A step of a unit function -/

/-- The units a step pushes, the next of which has the number `x`. -/
def Outcome.units {δ φ : Type} (x : Nat) : Outcome δ φ → List (WorkUnit δ)
  | .request (.push d) _ => [⟨.call d, x⟩]
  | .request .terminate _ => [⟨.termSig, x⟩]
  | _ => []

/-- Where the worker of a step stands after it. -/
def Outcome.worker (u : WorkUnit P.Data) : Outcome P.Data P.Frame → Worker P
  | .go f | .request _ f => .running u f
  | .ret => .ran u

/-- What a step of a unit function does to the pool. -/
structure UnitStep (s t : Pool P n) (i : Fin n) (u : WorkUnit P.Data) (f : P.Frame) (c : P.Choice)
    (o : Outcome P.Data P.Frame) (r : Multiset P.Frame) : Prop where
  running : s.workers i = .running u f
  step : P.step s.mem f c = some (t.mem, o)
  before : s.bag.frames = f ::ₘ r
  after : t.bag.frames = o.frames P.call + r
  queue : t.workQueue = s.workQueue ++ o.units s.pushed.length
  worker : t.workers i = o.worker u
  others : ∀ j, j ≠ i → t.workers j = s.workers j ∨ t.workers j = (s.workers j).wake

private theorem Bag.Step.unit_cases {b b' : Bag P} {f : P.Frame} {c : P.Choice}
    (h : Bag.Step b (.unit f c) b') : ∃ o r, P.step b.mem f c = some (b'.mem, o) ∧
      b.frames = f ::ₘ r ∧ b'.frames = o.frames P.call + r := by
  cases h with
  | unit h => exact ⟨_, _, h, rfl, rfl⟩

theorem unit_step {s t : Pool P n} {i : Fin n} {c : P.Choice} (h : step s (.unit i c) = some t) :
    ∃ u f o r, UnitStep s t i u f c o r := by
  have hpool : ∃ u f o, s.workers i = .running u f ∧ P.step s.mem f c = some (t.mem, o) ∧
      t.workQueue = s.workQueue ++ o.units s.pushed.length ∧ t.workers i = o.worker u ∧
      ∀ j, j ≠ i → t.workers j = s.workers j ∨ t.workers j = (s.workers j).wake := by
    cases step_cases h with
    | go hw hp | ret hw hp =>
      refine ⟨_, _, _, hw, hp, (List.append_nil _).symm, Function.update_self .., ?_⟩
      intro j hj
      exact .inl (Function.update_of_ne hj _ _)
    | @request _ _ u f m q f' hw hp =>
      refine ⟨u, f, .request q f', hw, ?_, ?_, Function.update_self .., ?_⟩
      · cases q <;> exact hp
      · cases q <;> rfl
      · intro j hj
        refine .inr ((Function.update_of_ne hj _ _).trans ?_)
        cases q <;> rfl
  obtain ⟨u, f, o, hw, hp, hq, hi, hother⟩ := hpool
  have hact : s.act (.unit i c) = some (.unit f c) := by simp [Pool.act, hw]
  rcases bag_step h with ⟨hnone, -⟩ | ⟨a, ha, hb⟩
  · cases hnone.symm.trans hact
  · obtain rfl : Act.unit f c = a := Option.some.inj (hact.symm.trans ha)
    obtain ⟨o', r, hp', hr, hr'⟩ := hb.unit_cases
    obtain rfl : o = o' := congrArg Prod.snd (Option.some.inj (hp.symm.trans hp'))
    exact ⟨u, f, o, r, hw, hp, hr, hr', hq, hi, hother⟩

/-- **The invariant rule for bags**: what holds of the empty bag and is
kept by every step of a bag that meets `D` holds of the bag of every pool
that runs the program and whose steps meet `D`. -/
theorem bag_invariant {D : Bag P → Act P → Prop} {I : Bag P → Prop} {m : P.Mem}
    (hinit : I ⟨m, 0, 0⟩)
    (hstep : ∀ {b a b'}, I b → D b a → Bag.Step b a b' → I b')
    {s : Pool P n} (h : (machine P n m).ReachableBy (OnBag D) s) : I s.bag := by
  refine h.invariant (I := fun s => I s.bag) ?_ ?_
  · have hnone : tally Worker.frames (fun _ : Fin n => (.popping : Worker P)) = 0 :=
      Finset.sum_eq_zero fun _ _ => rfl
    simpa [machine, threadPoolNew, Pool.bag, hnone] using hinit
  · intro s e t _ hI hc hs
    rcases bag_step hs with ⟨-, heq⟩ | ⟨a, ha, hb⟩
    · exact heq ▸ hI
    · exact hstep hI (hc a ha) hb

/-- The same for what is kept beside an invariant `J` of every bag. -/
theorem bag_invariant_beside {D : Bag P → Act P → Prop} {J I : Bag P → Prop} {m : P.Mem}
    (hJ : J ⟨m, 0, 0⟩) (hJstep : ∀ {b a b'}, J b → Bag.Step b a b' → J b')
    (hinit : I ⟨m, 0, 0⟩) (hstep : ∀ {b a b'}, J b → I b → D b a → Bag.Step b a b' → I b')
    {s : Pool P n} (h : (machine P n m).ReachableBy (OnBag D) s) : I s.bag := by
  have hboth := bag_invariant (D := D) (I := fun b => J b ∧ I b) ⟨hJ, hinit⟩
    (fun hb hc hs => ⟨hJstep hb.1 hs, hstep hb.1 hb.2 hc hs⟩) h
  exact hboth.2

/-- Every run meets the condition that asks for nothing. -/
theorem reachable_onBag {m : P.Mem} {C : Pool P n → Event P n → Prop} {s : Pool P n}
    (h : (machine P n m).ReachableBy C s) :
    (machine P n m).ReachableBy (OnBag fun _ _ => True) s :=
  h.mono fun _ _ _ _ _ => trivial

end Loomlib.ThreadPool
