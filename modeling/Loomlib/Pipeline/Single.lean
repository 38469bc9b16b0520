import Loomlib.Pipeline.Carousel
import Loomlib.Pipeline.Flight
import Loomlib.Pipeline.Shutdown

/-!
# Pipeline — Single

The pipeline on one worker. Seen from outside its turns are those of the
carousel: the worker's next unit is the token at the front, the queue
behind it the rest of the round. Between two turns a bounded number of
steps change nothing that is seen. So what the inlet returns is delivered,
through all pumps and in order, and then the run is over.
-/

namespace Loomlib.Pipeline

open ThreadPool

variable {V : Type} {k n : Nat}

/-! ## The routines -/

section Answers

variable (inputs : List V) (pump : Nat → Option V → Option V)

/-- What the routine returns that `f` is inside of: the inlet the next of
its products and then NULL, a pump its value at the product. -/
def Frame.answer (m : Mem V) : Frame V → Option (Option V)
  | .inlet _ => some inputs[m.injected]?
  | .pump d => some (pump d.block.currentStage.toNat d.block.product)
  | _ => none

/-- The inlet returns `inputs`, the pumps are functions of the product, and
`pipeline_terminate` is not called. -/
def Answers (b : Bag (program V k n)) : Act (program V k n) → Prop
  | .unit f (.returns p) => ∀ q ∈ f.answer inputs pump b.mem, p = q
  | .client .terminate => False
  | _ => True

instance [DecidableEq V] (b : Bag (program V k n)) : ∀ a, Decidable (Answers inputs pump b a)
  | .unit f (.returns p) => inferInstanceAs (Decidable (∀ q ∈ f.answer inputs pump b.mem, p = q))
  | .unit _ .run | .unit _ (.malloc _) | .client (.execute _) => isTrue trivial
  | .client .terminate => isFalse id

/-- The inlet returns `inputs` and then NULL, the other routines what they
like, and `pipeline_terminate` is not called. -/
def Feeds (b : Bag (program V k n)) : Act (program V k n) → Prop
  | .unit (.inlet _) (.returns p) => p = inputs[b.mem.injected]?
  | .client .terminate => False
  | _ => True

variable {inputs pump} {b : Bag (program V k n)} {a : Act (program V k n)}

theorem Answers.feeds (h : Answers inputs pump b a) : Feeds inputs b a := by
  cases a with
  | client x =>
    cases x with
    | terminate => exact h
    | execute => trivial
  | unit f c =>
    cases f with
    | inlet d =>
      cases c with
      | returns p => exact h _ rfl
      | run | malloc => trivial
    | _ => trivial

/-- In one step any pump is a function. -/
theorem Feeds.answers (h : Feeds inputs b a) : ∃ pump, Answers inputs pump b a := by
  cases a with
  | client x =>
    cases x with
    | terminate => exact h.elim
    | execute => exact ⟨fun _ p => p, trivial⟩
  | unit f c =>
    cases c with
    | returns p =>
      refine ⟨fun _ _ => p, ?_⟩
      intro q hq
      cases f with
      | inlet d => exact Eq.trans h (Option.some.inj hq)
      | pump d => exact Option.some.inj hq
      | _ => cases hq
    | run | malloc => exact ⟨fun _ p => p, trivial⟩

end Answers

/-! ## What is seen of a pipeline -/

/-- A `pipeline_state` that is queued. -/
def State.token (b : State V) : Token V :=
  if b.currentStage < 0 then .inlet else .line b.currentStage.toNat b.product

def unitToken (u : WorkUnit (Ref (State V))) : Token V :=
  match u.func with
  | .termSig => .signal
  | .call d => d.block.token

/-- The token an activation has in hand, up to its turn. -/
@[simp] def Frame.front : Frame V → List (Token V)
  | .enter d => [d.block.token]
  | .gate _ | .dropState _ | .callInlet _ | .inlet _ => [.inlet]
  | .callPump d | .pump d | .callOutlet d =>
    [.line d.block.currentStage.toNat d.block.product]
  | .outlet _ | .freeState _ | .retire => [.retire]
  | .defer _ | .restart _ _ _ | .pushInlet _ _ _ _ | .advance _ _ _ | .push _ | .done => []

/-- The tokens it is going to queue, from its turn on. -/
@[simp] def Frame.back : Frame V → List (Token V)
  | .defer _ => [.inlet]
  | .restart _ v _ | .pushInlet _ _ v _ => [.inlet, .line 0 (some v)]
  | .advance d p _ => [.line (d.block.currentStage + 1).toNat p]
  | .push d => [.line d.block.currentStage.toNat d.block.product]
  | .enter _ | .gate _ | .dropState _ | .callInlet _ | .inlet _ | .callPump _ | .pump _
  | .callOutlet _ | .outlet _ | .freeState _ | .retire | .done => []

/-- The steps to the next turn, at most. -/
@[simp] def Frame.rest : Frame V → Nat
  | .dropState _ | .inlet _ | .pump _ | .callOutlet _ | .retire => 0
  | .callInlet _ | .callPump _ | .freeState _ => 1
  | .gate _ | .outlet _ => 2
  | .enter _ => 3
  | .done => 8
  | .defer _ | .push _ => 9
  | .advance _ _ _ => 10
  | .pushInlet _ _ _ _ => 11
  | .restart _ _ _ => 12

@[simp] def front : Worker (program V k n) → List (Token V)
  | .popped u => [unitToken u]
  | .running _ f => f.front
  | .signal _ _ => [.signal]
  | .popping | .asleep | .ran _ | .exited => []

@[simp] def back : Worker (program V k n) → List (Token V)
  | .running _ f => f.back
  | .popping | .asleep | .popped _ | .ran _ | .signal _ _ | .exited => []

@[simp] def rest : Worker (program V k n) → Nat
  | .exited | .signal _ .free => 0
  | .signal _ .unlock => 1
  | .signal _ .decr | .signal _ .push => 2
  | .signal _ .test => 3
  | .signal _ .lock => 4
  | .running _ f => f.rest
  | .popped _ => 5
  | .popping => 6
  | .asleep | .ran _ => 7

/-- The products the outlet was called with. -/
def outletValues (log : List (Routine V)) : List (Option V) :=
  log.filterMap fun r => match r with
    | .outlet _ p => some p
    | _ => none

theorem outletValues_snoc (log : List (Routine V)) (r : Routine V) : outletValues (log ++ [r])
    = outletValues log ++ (match r with | .outlet _ p => [p] | _ => []) := by
  unfold outletValues
  rw [List.filterMap_append]
  cases r <;> rfl

@[simp] theorem record_log (m : Mem V) (r : Routine V) : (m.record r).log = m.log ++ [r] := rfl

/-- What is seen with the worker at `w` and the tokens `ts` queued. -/
def seen (inputs : List V) (w : Worker (program V k n)) (ts : List (Token V)) (m : Mem V)
    (calls : Nat) : Carousel V :=
  ⟨front w ++ ts ++ back w, inputs.drop m.injected, outletValues m.log, calls⟩

/-- What is seen of a pipeline with one worker. -/
def Seen (inputs : List V) (s : Pool (program V k 1) 1) : Carousel V :=
  seen inputs (s.workers first) (s.workQueue.map unitToken) s.mem s.terminates

/-- The lines queued are those the counter counts. -/
theorem lineCount_queue (s : Pool (program V k n) n) :
    lineCount (s.workQueue.map unitToken) = queued Frame.counted s := by
  unfold queued
  induction s.workQueue with
  | nil => rfl
  | cons u q ih =>
    obtain ⟨f, x⟩ := u
    have hone : ∀ t : Token V, lineCount (t :: q.map unitToken)
        = lineCount [t] + lineCount (q.map unitToken) := fun t => lineCount_append [t] _
    rw [List.map_cons, List.map_cons, List.sum_cons, hone, ih]
    congr 1
    cases f with
    | termSig => rfl
    | call d =>
      simp only [unitToken, State.token, Frame.counted]
      split <;> rfl

/-! ## The turns of pipeline_loop -/

section Turns

variable {m m' : Mem V} {f : Frame V} {c : Choice V} {o : Outcome (Ref (State V)) (Frame V)}
  {inputs : List V} {pump : Nat → Option V → Option V}

/-- Where the worker stands after a step of the function of `u`. -/
@[simp] def onward (u : WorkUnit (Ref (State V))) :
    Outcome (Ref (State V)) (Frame V) → Worker (program V k n)
  | .go f | .request _ f => .running u f
  | .ret => .ran u

/-- What the step queues. -/
@[simp] def pushes : Outcome (Ref (State V)) (Frame V) → List (Token V)
  | .request (.push d) _ => [d.block.token]
  | .request .terminate _ => [.signal]
  | .go _ | .ret => []

/-- What the inlet returned, and what a pump. -/
theorem returns_of_step (h : pipelineLoop k n m f c = some (m', o)) :
    (∀ d, f = .inlet d → ∃ p, c = .returns p ∧ o = .go (match p with
      | some v => .restart d v m.injected
      | none => .freeState d)) ∧
    ∀ d, f = .pump d → ∃ p, c = .returns p ∧ o = .go (.advance d p d.block.line) := by
  constructor
  · rintro d rfl
    cases c with
    | returns p => cases p <;> cases h <;> exact ⟨_, rfl, rfl⟩
    | run | malloc => cases h
  · rintro d rfl
    cases c with
    | returns p =>
      cases h
      exact ⟨p, rfl, rfl⟩
    | run | malloc => cases h

/-- **A step of `pipeline_loop`** is a turn, or changes nothing that is
seen and comes closer to one. -/
theorem turn_of_move (u : WorkUnit (Ref (State V))) {r : Multiset (Frame V)}
    {ts : List (Token V)} (calls : Nat) (h : pipelineLoop k 1 m f c = some (m', o))
    (hc : ∀ p, c = .returns p → ∀ q ∈ f.answer inputs pump m, p = q)
    (hS : Sound k m (f ::ₘ r)) (hgo : m.terminated = false)
    (hlines : m.activeLines = f.counted + lineCount ts) (hbound : m.activeLines ≤ 2) :
    let w : Worker (program V k 1) := .running u f
    let w' : Worker (program V k 1) := onward u o
    (seen inputs w' (ts ++ pushes o) m' (calls + o.calls) = seen inputs w ts m calls ∧
        rest w' < rest w) ∨
      (seen inputs w ts m calls).turn k pump
        = some (seen inputs w' (ts ++ pushes o) m' (calls + o.calls)) := by
  have hfit := hS.blocks.fits f (Multiset.mem_cons_self _ _)
  have ho := hS.blocks.owned
  rw [allRefs_cons] at ho
  cases move_cases h with
  | dead hf hd => exact absurd hd (hS.blocks.live hf)
  | wrap ha =>
    have hone : (Frame.retire : Frame V).counted = 1 := rfl
    omega
  | enterInlet hb hst =>
    obtain rfl := Owned.block_eq ho hb
    exact .inl ⟨by simp [seen, State.token, hst], by simp⟩
  | enterPump hb hst | enterOutlet hb hst =>
    obtain rfl := Owned.block_eq ho hb
    exact .inl ⟨by simp [seen, State.token, Int.not_lt.mpr hst], by simp⟩
  | terminated ht => cases hgo.symm.trans ht
  | @dropState d =>
    cases hgo.symm.trans (hS.counts.dropped d (Multiset.mem_cons_self _ _))
  | full ht hfull =>
    simp only [Frame.counted, zero_add] at hlines
    refine .inr ?_
    rw [Carousel.turn_wait rfl (by simp; omega)]
    simp [seen]
  | «open» => exact .inl ⟨by simp [seen], by simp⟩
  | @«defer» d =>
    have hstage : d.block.currentStage = -1 := hfit
    exact .inl ⟨by simp [seen, State.token, hstage], by simp⟩
  | callInlet => exact .inl ⟨by simp [seen, Mem.injected_record, outletValues_snoc], by simp⟩
  | @inlet d v =>
    simp only [Frame.counted] at hlines
    obtain ⟨_ | w, rfl, ho⟩ := (returns_of_step h).1 d rfl
    · cases ho
    · cases ho
      have hnext : some v = inputs[m.injected]? := hc _ rfl _ rfl
      obtain ⟨hlt, hget⟩ := List.getElem?_eq_some_iff.mp hnext.symm
      have hleft : inputs.drop m.injected = v :: inputs.drop (m.injected + 1) := by
        rw [List.drop_eq_getElem_cons hlt, hget]
      refine .inr ?_
      rw [Carousel.turn_fetch rfl (by simp; omega) hleft]
      simp [seen, Mem.injected_record, outletValues_snoc]
  | @dry d =>
    simp only [Frame.counted] at hlines
    obtain ⟨_ | w, rfl, ho⟩ := (returns_of_step h).1 d rfl
    · have hnext : none = inputs[m.injected]? := hc _ rfl _ rfl
      have hleft : inputs.drop m.injected = [] :=
        List.drop_eq_nil_of_le (List.getElem?_eq_none_iff.mp hnext.symm)
      refine .inr ?_
      rw [Carousel.turn_dry rfl (by simp; omega) hleft]
      simp [seen, Mem.injected_record, outletValues_snoc]
    · cases ho
  | restart => exact .inl ⟨by simp [seen, Mem.store], by simp⟩
  | @pushInlet d d' v l =>
    have hstages : d.block.currentStage = -1 ∧ d'.block.currentStage = -1 := hfit
    exact .inl ⟨by simp [seen, State.token, hstages], by simp⟩
  | callPump => exact .inl ⟨by simp [seen, Mem.injected_record, outletValues_snoc], by simp⟩
  | @pump d p =>
    have hstage : 0 ≤ d.block.currentStage ∧ d.block.currentStage < k := hfit
    obtain ⟨q, rfl, ho⟩ := (returns_of_step h).2 d rfl
    cases ho
    obtain rfl : p = pump d.block.currentStage.toNat d.block.product := hc _ rfl _ rfl
    refine .inr ?_
    rw [Carousel.turn_pump rfl (by omega)]
    simp [seen, Mem.injected_record, outletValues_snoc, Int.toNat_add hstage.1]
  | @callOutlet d =>
    have hstage : d.block.currentStage = k := hfit
    refine .inr ?_
    rw [Carousel.turn_outlet rfl (by simp [hstage])]
    simp [seen, Mem.injected_record, outletValues_snoc]
  | outlet => exact .inl ⟨by simp [seen, Mem.injected_record, outletValues_snoc], by simp⟩
  | freeState => exact .inl ⟨by simp [seen, Mem.store], by simp⟩
  | retire ha =>
    simp only [Frame.counted] at hlines
    refine .inr ?_
    rw [Carousel.turn_retire rfl (by simp; omega)]
    simp [seen]
  | retireLast ha =>
    simp only [Frame.counted] at hlines
    refine .inr ?_
    rw [Carousel.turn_tell rfl (by simp; omega)]
    simp [seen]
  | @advance d p l b hb =>
    obtain rfl := Owned.block_eq ho hb
    exact .inl ⟨by simp [seen, Mem.store], by simp⟩
  | @push d =>
    have hstage : 0 ≤ d.block.currentStage ∧ d.block.currentStage ≤ k := hfit
    exact .inl ⟨by simp [seen, State.token, Int.not_lt.mpr hstage.1], by simp⟩
  | done => exact .inl ⟨by simp [seen], by simp⟩

end Turns

/-! ## The turns of the pool -/

section Pool

variable {s t : Pool (program V k 1) 1} {e : Event (program V k 1) 1} {inputs : List V}
  {pump : Nat → Option V → Option V}

theorem tally_first {α : Type} (f : α → Nat) (g : Fin 1 → α) : tally f g = f (g first) :=
  Fintype.sum_unique _

/-- What a step of a unit function does to the pool. -/
theorem unit_of_step (inputs : List V) {i : Fin 1} {c : Choice V}
    (h : step s (.unit i c) = some t) :
    ∃ u f m o, s.workers first = .running u f ∧ pipelineLoop k 1 s.mem f c = some (m, o) ∧
      t.workers first = onward u o ∧ t.mem = m ∧
      Seen inputs t = seen inputs (onward u o : Worker (program V k 1))
        (s.workQueue.map unitToken ++ pushes o) m (s.terminates + o.calls) := by
  cases step_cases h with
  | @go i _ u f m f' hw hp =>
    obtain rfl : i = first := Subsingleton.elim _ _
    exact ⟨u, f, m, .go f', hw, hp, by simp [Pool.setWorker], rfl, by simp [Seen, Pool.setWorker]⟩
  | @request i _ u f m q f' hw hp =>
    obtain rfl : i = first := Subsingleton.elim _ _
    refine ⟨u, f, m, .request q f', hw, hp, ?_, ?_, ?_⟩ <;> cases q <;>
      simp [Seen, Pool.setWorker, Pool.serve, Pool.threadPoolTerminate, Pool.threadPoolPush,
        unitToken]
  | @ret i _ u f m hw hp =>
    obtain rfl : i = first := Subsingleton.elim _ _
    exact ⟨u, f, m, .ret, hw, hp, by simp [Pool.setWorker], rfl, by simp [Seen, Pool.setWorker]⟩

/-- The lines behind the counter of the worker's activation. -/
theorem activeLines_eq (h : (machine V k 1).Reachable s) {u : WorkUnit (Ref (State V))}
    {f : Frame V} (hw : s.workers first = .running u f) :
    s.mem.activeLines = f.counted + lineCount (s.workQueue.map unitToken) := by
  have hall := load_bag Frame.counted s
  have hheld : held Frame.counted (s.workers first) = f.counted := by rw [hw]; rfl
  rw [tally_first, hheld, (sound h).counts.lines] at hall
  rw [lineCount_queue]
  exact hall.trans (Nat.add_comm _ _)

/-- While the worker has no signal, the signals asked for are queued. -/
theorem signals_eq (h : (machine V k 1).Reachable s) (hw : (s.workers first).stage = .before) :
    signals s.workQueue = s.terminates := by
  have hflight := (balance h).in_flight (i := first) hw
  have hstage : s.relay.stage first = .before := hw
  rw [tally_first, tally_first, hstage] at hflight
  exact hflight

/-- One worker never passes a signal on. -/
theorem not_relaying (h : (machine V k 1).Reachable s) (hcalls : s.terminates ≤ 1) :
    (s.workers first).stage ≠ .push := by
  intro hw
  have hconserve := (balance h).conserve
  have hstage : s.relay.stage first = .push := hw
  rw [tally_first, tally_first, tally_first, hstage] at hconserve
  have hcalls : s.relay.calls ≤ 1 := hcalls
  simp only [Stage.untested, Stage.relaying, Stage.tested] at hconserve
  omega

/-- **A step of the pool** that is executing is a turn, or changes nothing
that is seen and comes closer to one. -/
theorem turn_of_step (h : (machine V k 1).ReachableBy (OnBag InletCounted) s)
    (hexec : s.mem.executed = true) (hcalls : s.terminates ≤ 1)
    (hleft : (Seen inputs s).tokens = [] → s.terminates = 1)
    (hc : OnBag (Answers inputs pump) s e) (hs : step s e = some t) :
    (Seen inputs t = Seen inputs s ∧ rest (t.workers first) < rest (s.workers first)) ∨
      (Seen inputs s).turn k pump = some (Seen inputs t) := by
  cases e with
  | client x =>
    cases x with
    | terminate => exact (hc _ rfl).elim
    | execute a => simp [step, Pool.runClient, client, hexec] at hs
  | unit i c =>
    obtain ⟨u, f, m, o, hw, hp, hw', hm, hseen⟩ := unit_of_step inputs hs
    obtain rfl : i = first := Subsingleton.elim _ _
    obtain ⟨r, hr⟩ := Multiset.exists_cons_of_mem (mem_bag_of_running hw)
    have hans : ∀ p, c = .returns p → ∀ q ∈ f.answer inputs pump s.mem, p = q := by
      rintro p rfl q hq
      exact hc (.unit f (.returns p)) (by simp [Pool.act, hw]) q hq
    have hturn := turn_of_move u s.terminates hp hans (hr ▸ sound h)
      (told h).going (activeLines_eq h.reachable hw) (bounded h.reachable)
    rw [← hw, ← hw'] at hturn
    rw [hw', hseen, ← hw']
    exact hturn
  | loop i =>
    obtain rfl : i = first := Subsingleton.elim _ _
    cases step_cases hs with
    | sleep hw hq =>
      -- an empty round has been left by the worker
      have hsig := signals_eq h.reachable (by rw [hw]; rfl)
      have hnone : (Seen inputs s).tokens = [] := by simp [Seen, seen, hw, hq]
      rw [hq, hleft hnone] at hsig
      cases hsig
    | take hw hq =>
      exact .inl ⟨by simp [Seen, seen, Pool.setWorker, hw, hq], by simp [Pool.setWorker, hw]⟩
    | wakeUp hw =>
      exact .inl ⟨by simp [Seen, seen, Pool.setWorker, hw], by simp [Pool.setWorker, hw]⟩
    | receive hw hf =>
      exact .inl ⟨by simp [Seen, seen, Pool.setWorker, hw, unitToken, hf],
        by simp [Pool.setWorker, hw]⟩
    | start hw hf =>
      exact .inl ⟨by simp [Seen, seen, Pool.setWorker, hw, unitToken, hf],
        by simp [Pool.setWorker, hw]⟩
    | free hw =>
      exact .inl ⟨by simp [Seen, seen, Pool.setWorker, hw], by simp [Pool.setWorker, hw]⟩
    | sigLock hw | sigDecr hw | sigUnlock hw =>
      exact .inl ⟨by simp [Seen, seen, Pool.setWorker, hw], by simp [Pool.setWorker, hw]⟩
    | sigTest hw =>
      refine .inl ⟨by simp [Seen, seen, Pool.setWorker, hw], ?_⟩
      by_cases hlast : 1 < s.numThreads <;> simp [Pool.setWorker, hw, hlast]
    | sigPush hw => exact absurd (by rw [hw]; rfl) (not_relaying h.reachable hcalls)
    | @sigFree _ u hw =>
      refine .inr ?_
      have hfront : (Seen inputs s).tokens = .signal :: s.workQueue.map unitToken := by
        simp [Seen, seen, hw]
      rw [Carousel.turn_signal hfront]
      simp [Seen, seen, Pool.setWorker]

/-- Before `pipeline_execute` there is nothing to do. -/
structure Untouched (s : Pool (program V k 1) 1) : Prop where
  worker : s.workers first = .popping ∨ s.workers first = .asleep
  queue : s.workQueue = []
  log : s.mem.log = []
  calls : s.terminates = 0

/-- What holds of a pipeline whose inlet returns `inputs`. -/
structure Fed (inputs : List V) (s : Pool (program V k 1) 1) : Prop where
  reached : (machine V k 1).ReachableBy (OnBag InletCounted) s
  before : s.mem.executed = false → Untouched s
  round : s.mem.executed = true →
    (Seen inputs s).plain.Ordered k (fun _ p => p) (inputs.map fun _ => ())

/-- And of one whose pumps are functions besides. -/
structure Served (inputs : List V) (pump : Nat → Option V → Option V)
    (s : Pool (program V k 1) 1) : Prop extends Fed inputs s where
  ordered : s.mem.executed = true → (Seen inputs s).Ordered k pump inputs

theorem executed_of_running (h : (machine V k 1).Reachable s) {u : WorkUnit (Ref (State V))}
    {f : Frame V} (hw : s.workers first = .running u f) : s.mem.executed = true := by
  have hmem := mem_bag_of_running hw
  by_contra hnew
  rw [(sound h).counts.idle (by simpa using hnew)] at hmem
  cases hmem

/-- The last line retires when no inlet token is on the round. -/
theorem Fed.inletCounted (hI : Fed inputs s) (hc : OnBag (Feeds inputs) s e) :
    OnBag InletCounted s e := by
  intro a ha
  cases a with
  | client x =>
    rintro rfl
    exact hc _ ha
  | unit f c =>
    rintro rfl hone
    obtain ⟨i, u, hw⟩ := running_of_act ha
    obtain rfl : i = first := Subsingleton.elim _ _
    have hr := hI.reached.reachable
    obtain ⟨done, current, -, -, hshape⟩ := hI.round (executed_of_running hr hw)
    have hlines := activeLines_eq hr hw
    have htokens : (Seen inputs s).plain.tokens
        = .retire :: (s.workQueue.map unitToken).map Token.plain := by
      simp [Carousel.plain, Seen, seen, hw]
    rw [htokens] at hshape
    have hnone := hshape.retire_alone (by
      have hone : s.mem.activeLines = 1 := hone
      simp only [Frame.counted] at hlines
      rw [lineCount_plain]
      omega)
    change load Frame.pending s.bag.frames = 0
    rw [load_bag, tally_first, hw, queued, List.map_eq_nil_iff.mp (List.map_eq_nil_iff.mp hnone)]
    rfl

theorem executed_bag {b b' : Bag (program V k n)} {a : Act (program V k n)}
    (h : Bag.Step b a b') (hexec : b.mem.executed = true) : b'.mem.executed = true := by
  cases bagMove_cases h with
  | unit hmove => cases hmove <;> exact hexec
  | terminate => exact hexec
  | execute => rfl

theorem executed_step (h : step s e = some t) (hexec : s.mem.executed = true) :
    t.mem.executed = true := by
  rcases bag_step h with ⟨-, heq⟩ | ⟨a, -, hb⟩
  · have hmem : t.mem = s.mem := congrArg Bag.mem heq
    rw [hmem]
    exact hexec
  · exact executed_bag hb hexec

/-- Until `pipeline_execute` the worker waits; then the round begins. -/
theorem Untouched.step (hU : Untouched s) (hc : OnBag (Feeds inputs) s e)
    (h : step s e = some t) : (t.mem.executed = s.mem.executed ∧ Untouched t) ∨
      (t.mem.executed = true ∧ Seen inputs t = ⟨[.inlet], inputs, [], 0⟩) := by
  obtain ⟨hw, hq, hlog, hcalls⟩ := hU
  have hidle : ∀ {i w}, s.workers i = w → w = .popping ∨ w = .asleep := by
    rintro i _ rfl
    obtain rfl : i = first := Subsingleton.elim _ _
    exact hw
  cases step_cases h with
  | @sleep i hw' =>
    obtain rfl : i = first := Subsingleton.elim _ _
    exact .inl ⟨rfl, .inr (by simp [Pool.setWorker]), hq, hlog, hcalls⟩
  | @wakeUp i hw' =>
    obtain rfl : i = first := Subsingleton.elim _ _
    exact .inl ⟨rfl, .inl (by simp [Pool.setWorker]), hq, hlog, hcalls⟩
  | take _ hq' => cases hq.symm.trans hq'
  | receive hw' | start hw' | free hw' | sigLock hw' | sigTest hw' | sigPush hw' | sigDecr hw'
  | sigUnlock hw' | sigFree hw' | go hw' | request hw' | ret hw' =>
    rcases hidle hw' with hw' | hw' <;> cases hw'
  | client hp =>
    obtain ⟨rfl, -⟩ | ⟨a, -, -, -, -, ⟨⟩⟩ := client_cases hp
    exact (hc _ rfl).elim
  | clientRequest hp =>
    obtain ⟨-, -, ⟨⟩⟩ | ⟨a, -, -, -, rfl, ⟨⟩⟩ := client_cases hp
    refine .inr ⟨rfl, ?_⟩
    have hwake : (s.workers first).wake = .popping := by
      rcases hw with hw | hw <;> rw [hw] <;> rfl
    simp [Seen, seen, Pool.serve, Pool.threadPoolPush, hwake, hq, hcalls, unitToken, State.token,
      outletValues, Mem.injected, Mem.store, hlog]

/-- A step is a turn of the round, or none. -/
theorem Fed.turn (hI : Fed inputs s) (hexec : s.mem.executed = true)
    (hc : OnBag (Answers inputs pump) s e) (h : step s e = some t) :
    (Seen inputs t = Seen inputs s ∧ rest (t.workers first) < rest (s.workers first)) ∨
      (Seen inputs s).turn k pump = some (Seen inputs t) :=
  turn_of_step hI.reached hexec (hI.round hexec).calls_le
    (fun hnone => (hI.round hexec).calls_of_nil (List.map_eq_nil_iff.mpr hnone)) hc h

/-- The round is in order from `pipeline_execute` on, where it was and the
step keeps it so. -/
theorem Fed.onward {I : Carousel V → Prop} (hI : Fed inputs s) (hc : OnBag (Feeds inputs) s e)
    (h : step s e = some t) (hbegin : I ⟨[.inlet], inputs, [], 0⟩)
    (hstep : s.mem.executed = true → I (Seen inputs t)) (hexec : t.mem.executed = true) :
    I (Seen inputs t) := by
  cases hold : s.mem.executed with
  | false =>
    rcases (hI.before hold).step hc h with ⟨heq, -⟩ | ⟨-, hseen⟩
    · cases hexec.symm.trans (heq.trans hold)
    · exact hseen ▸ hbegin
  | true => exact hstep hold

theorem Fed.step (hI : Fed inputs s) (hc : OnBag (Feeds inputs) s e) (h : step s e = some t) :
    Fed inputs t := by
  refine ⟨.step hI.reached (hI.inletCounted hc) h, ?_, ?_⟩
  · intro hnew
    have hold : s.mem.executed = false := by
      by_contra hexec
      cases hnew.symm.trans (executed_step h (by simpa using hexec))
    rcases (hI.before hold).step hc h with ⟨-, hU⟩ | ⟨hexec, -⟩
    · exact hU
    · cases hnew.symm.trans hexec
  · refine hI.onward (I := fun r => r.plain.Ordered k (fun _ p => p) (inputs.map fun _ => ())) hc h
      ⟨[], [], rfl, rfl, .fresh⟩ ?_
    intro hexec
    obtain ⟨pump, hpump⟩ : ∃ pump, OnBag (Answers inputs pump) s e := by
      cases ha : s.act e with
      | none => exact ⟨fun _ p => p, fun a ha' => by cases ha.symm.trans ha'⟩
      | some a =>
        obtain ⟨pump, hans⟩ := (hc a ha).answers
        exact ⟨pump, fun a' ha' => Option.some.inj (ha.symm.trans ha') ▸ hans⟩
    rcases hI.turn hexec hpump h with ⟨heq, -⟩ | hturn
    · exact heq ▸ hI.round hexec
    · exact ((hI.round hexec).turn (Carousel.turn_plain hturn)).1

theorem fed (h : (machine V k 1).ReachableBy (OnBag (Feeds inputs)) s) : Fed inputs s :=
  h.invariant (I := Fed inputs)
    ⟨.init, fun _ => ⟨.inl rfl, rfl, rfl, rfl⟩, fun hexec => by cases hexec⟩
    fun _ hI hc hs => hI.step hc hs

/-- **One worker retires no line beside an inlet token**: every run of it
meets the condition under which everything is delivered. -/
theorem one_worker_counted (h : (machine V k 1).ReachableBy (OnBag (Feeds inputs)) s) :
    (machine V k 1).ReachableBy (OnBag InletCounted) s ∧
      ∀ e, OnBag (Feeds inputs) s e → OnBag InletCounted s e :=
  ⟨(fed h).reached, fun _ hc => (fed h).inletCounted hc⟩

theorem Served.step (hI : Served inputs pump s) (hc : OnBag (Answers inputs pump) s e)
    (h : step s e = some t) : Served inputs pump t := by
  have hfeeds : OnBag (Feeds inputs) s e := fun a ha => (hc a ha).feeds
  refine ⟨hI.toFed.step hfeeds h, hI.onward hfeeds h ⟨[], [], rfl, rfl, .fresh⟩ fun hexec => ?_⟩
  rcases hI.turn hexec hc h with ⟨heq, -⟩ | hturn
  · exact heq ▸ hI.ordered hexec
  · exact ((hI.ordered hexec).turn hturn).1

theorem served (h : (machine V k 1).ReachableBy (OnBag (Answers inputs pump)) s) :
    Served inputs pump s :=
  h.invariant (I := Served inputs pump)
    ⟨⟨.init, fun _ => ⟨.inl rfl, rfl, rfl, rfl⟩, fun hexec => by cases hexec⟩,
      fun hexec => by cases hexec⟩
    fun _ hI hc hs => hI.step hc hs

/-! ## The end of the run -/

/-- What is left to do, in steps. -/
def remaining (inputs : List V) (s : Pool (program V k 1) 1) : Nat :=
  13 * (Seen inputs s).weight k + rest (s.workers first)

theorem rest_le (w : Worker (program V k n)) : rest w ≤ 12 := by
  cases w with
  | running u f => cases f <;> simp
  | signal u pc => cases pc <;> simp
  | _ => simp

theorem Served.remaining_lt (hI : Served inputs pump s) (hexec : s.mem.executed = true)
    (hc : OnBag (Answers inputs pump) s e) (h : ThreadPool.step s e = some t) :
    remaining inputs t < remaining inputs s := by
  unfold remaining
  rcases hI.turn hexec hc h with ⟨heq, hlt⟩ | hturn
  · rw [heq]
    omega
  · have hlt := ((hI.ordered hexec).turn hturn).2
    have hrest := rest_le (t.workers first)
    omega

/-- A routine can return what it should, and `malloc` some address. -/
theorem answered (inputs : List V) (pump : Nat → Option V → Option V) {m : Mem V}
    {fs : Multiset (Frame V)} (hB : Blocks k m.heap fs) (f : Frame V) : ∃ c,
      (pipelineLoop k n m f c).isSome = true ∧
        ∀ p, c = .returns p → ∀ q ∈ f.answer inputs pump m, p = q := by
  have hrun : (pipelineLoop k n m f .run).isSome = true → ∃ c,
      (pipelineLoop k n m f c).isSome = true ∧
      ∀ p, c = .returns p → ∀ q ∈ f.answer inputs pump m, p = q :=
    fun h => ⟨.run, h, fun p hp => by cases hp⟩
  cases f with
  | restart d v l =>
    obtain ⟨a, ha⟩ := hB.owned.fresh
    refine ⟨.malloc a, by simp [pipelineLoop, ha], ?_⟩
    intro p hp
    cases hp
  | inlet d =>
    refine ⟨.returns inputs[m.injected]?, ?_, ?_⟩
    · simp only [pipelineLoop]
      cases inputs[m.injected]? <;> rfl
    · rintro _ ⟨⟩ q hq
      exact Option.some.inj hq
  | pump d =>
    refine ⟨.returns (pump d.block.currentStage.toNat d.block.product), rfl, ?_⟩
    rintro _ ⟨⟩ q hq
    exact Option.some.inj hq
  | outlet d =>
    refine ⟨.returns none, rfl, ?_⟩
    rintro _ ⟨⟩ q hq
    cases hq
  | enter d | dropState d | freeState d | advance d p l =>
    apply hrun
    simp only [pipelineLoop]
    cases m.heap d.addr <;> rfl
  | gate d =>
    apply hrun
    simp only [pipelineLoop]
    split
    · rfl
    · split <;> rfl
  | retire =>
    apply hrun
    simp only [pipelineLoop]
    split <;> rfl
  | _ => exact hrun rfl

/-- **The worker can go on** until it has exited. -/
theorem goes_on (h : (machine V k 1).Reachable s) (hw : s.workers first ≠ .exited) :
    ∃ e t, OnBag (Answers inputs pump) s e ∧ ThreadPool.step s e = some t := by
  have hloop : (s.threadLoop first).isSome = true →
      ∃ e t, OnBag (Answers inputs pump) s e ∧ ThreadPool.step s e = some t := by
    intro hsome
    obtain ⟨t, ht⟩ := Option.isSome_iff_exists.mp hsome
    refine ⟨.loop first, t, ?_, ht⟩
    intro a ha
    cases ha
  cases hwork : s.workers first with
  | exited => exact absurd hwork hw
  | running u f =>
    obtain ⟨c, hsome, hans⟩ := answered inputs pump (sound h).blocks f
    have hc : OnBag (Answers inputs pump) s (.unit first c) := by
      intro a ha
      simp only [Pool.act, hwork, Option.some.injEq] at ha
      subst ha
      cases c with
      | returns p => exact hans p rfl
      | run | malloc => trivial
    obtain ⟨t, ht⟩ := Option.isSome_iff_exists.mp (runUnit_isSome hwork hsome)
    exact ⟨.unit first c, t, hc, ht⟩
  | signal u pc =>
    apply hloop
    cases pc with
    | lock =>
      -- nobody else could hold the lock
      have hmutex := (balance h).mutex
      have hstage : s.relay.stage first = .hand := congrArg Worker.stage hwork
      rw [tally_first, hstage] at hmutex
      have hfree : s.locked = false := Bool.toNat_eq_zero.mp hmutex.symm
      simp [Pool.threadLoop, hwork, hfree]
    | _ => simp [Pool.threadLoop, hwork]
  | popping =>
    apply hloop
    simp only [Pool.threadLoop, hwork]
    cases s.workQueue <;> rfl
  | popped u =>
    apply hloop
    simp only [Pool.threadLoop, hwork]
    cases u.func <;> rfl
  | asleep | ran u =>
    apply hloop
    simp [Pool.threadLoop, hwork]

/-- What one worker makes of `inputs`. -/
structure CompleteMap (inputs : List V) (pump : Nat → Option V → Option V)
    (s : Pool (program V k 1) 1) : Prop where
  /-- The outlet gets the values of the products, in their order. -/
  in_order : outletValues s.mem.log <+: inputs.map (through pump k)
  /-- The pool is told once, with the inlet dry and all values deposited. -/
  told_once : ∀ e t, OnBag (Answers inputs pump) s e → (machine V k 1).step s e = some t →
    s.terminates < t.terminates → s.terminates = 0 ∧ s.mem.dry = true ∧
      outletValues s.mem.log = inputs.map (through pump k) ∧
      ∀ l, s.mem.delivered l = s.mem.given l
  /-- The worker can go on until it has exited, -/
  goes_on : s.workers first ≠ .exited → ∃ e t, OnBag (Answers inputs pump) s e ∧
    (machine V k 1).step s e = some t
  /-- and not for ever, once `pipeline_execute` was called. -/
  ends : s.mem.executed = true → ∀ es t, (machine V k 1).run s es = some t →
    (machine V k 1).Meets (OnBag (Answers inputs pump)) s es →
    es.length ≤ 26 * (inputs.length * (k + 4)) + 116
  /-- Then everything was delivered and the queue is empty. -/
  complete : s.workers first = .exited →
    outletValues s.mem.log = inputs.map (through pump k) ∧ s.terminates = 1 ∧ s.workQueue = []

/-- **One worker makes the pipeline a complete map** that keeps the order,
whatever the number of pumps and of products. -/
theorem complete_map (h : (machine V k 1).ReachableBy (OnBag (Answers inputs pump)) s) :
    CompleteMap inputs pump s := by
  have hI := served h
  have hr := hI.reached.reachable
  refine ⟨?_, ?_, goes_on hr, ?_, ?_⟩
  · cases hexec : s.mem.executed with
    | true => exact (hI.ordered hexec).out_begins
    | false =>
      rw [(hI.before hexec).log]
      exact List.nil_prefix
  · intro e t hc hs hcall
    have hI' := hI.step hc hs
    have hexec : t.mem.executed = true := by
      by_contra hnew
      have := (hI'.before (by simpa using hnew)).calls
      omega
    have hord := hI'.ordered hexec
    have hone : t.terminates = 1 := by
      have hle : t.terminates ≤ 1 := hord.calls_le
      omega
    -- the step that tells the pool calls no routine
    have hlog : t.mem.log = s.mem.log := by
      rcases bag_step hs with ⟨-, heq⟩ | ⟨a, -, hb⟩
      · exact congrArg (fun b : Bag (program V k 1) => b.mem.log) heq
      · exact log_of_call hb hcall
    have hC := (sound hI'.reached).counts
    obtain ⟨hdry, -, hnone, -⟩ := (told hI'.reached).drained hC (by omega)
    have hdeposited : ∀ l, t.mem.delivered l = t.mem.given l := by
      intro l
      have hzero : load (Frame.depositing l) t.bag.frames = 0 := by
        apply load_eq_zero.mpr
        intro f hf
        have := (hnone f hf).2
        have := depositing_le l f
        omega
      have := hC.deposits l
      change load (Frame.depositing l) t.bag.frames + t.mem.delivered l = t.mem.given l at this
      omega
    have hout : outletValues t.mem.log = inputs.map (through pump k) := hord.out_eq hone
    simp only [Mem.dry, Mem.delivered, Mem.given, hlog] at hdry hdeposited ⊢
    exact ⟨by omega, hdry, hlog ▸ hout, hdeposited⟩
  · intro hexec es t hrun hes
    have hle := Machine.run_le (I := fun s => Served inputs pump s ∧ s.mem.executed = true)
      (μ := remaining inputs) (fun hI hc hs => ⟨⟨hI.1.step hc hs, executed_step hs hI.2⟩,
        hI.1.remaining_lt hI.2 hc hs⟩) ⟨hI, hexec⟩ hes hrun
    have hweight := (hI.ordered hexec).weight_le
    have hrest := rest_le (s.workers first)
    unfold remaining at hle
    omega
  · intro hgone
    have hexec : s.mem.executed = true := by
      by_contra hnew
      rcases (hI.before (by simpa using hnew)).worker with hw | hw <;> cases hgone.symm.trans hw
    have hord := hI.ordered hexec
    have hleft : signals s.workQueue + 1 = s.terminates := by
      apply (balance hr).left_over (by decide)
      intro i
      obtain rfl : i = first := Subsingleton.elim _ _
      simp [Pool.relay, hgone]
    have hone : s.terminates = 1 := by
      have hle : s.terminates ≤ 1 := hord.calls_le
      omega
    obtain ⟨-, -, hnone, -⟩ := (told hI.reached).drained (sound h).counts (by omega)
    exact ⟨hord.out_eq hone, hone, queue_nil hnone (by omega)⟩

end Pool

/-- One pump and two products: the inlet token waits once. -/
def twoProducts : List (Event (program Nat 1 1) 1) :=
  .client (.execute 0) :: take first ++ go first 3 ++ .unit first (.returns (some 7)) ::
    .unit first (.malloc 1) :: go first 4 ++ .loop first :: take first ++ go first 3 ++
    .unit first (.returns (some 8)) :: .unit first (.malloc 2) :: go first 4 ++ .loop first ::
    take first ++ go first 2 ++ .unit first (.returns (some 17)) :: go first 3 ++ .loop first ::
    take first ++ go first 4 ++ .loop first ::
    take first ++ go first 2 ++ .unit first (.returns (some 18)) :: go first 3 ++ .loop first ::
    take first ++ deposit first ++ go first 1 ++ .loop first :: take first ++ go first 3 ++
    dryUp first ++ take first ++ deposit first ++ go first 1 ++ List.replicate 8 (.loop first)

theorem complete_map_two :
    let s := (machine Nat 1 1).final twoProducts (by decide)
    s.workers first = .exited ∧ outletValues s.mem.log = [some 17, some 18] ∧
      CompleteMap [7, 8] (fun _ p => p.map (· + 10)) s :=
  ⟨by decide, by decide, complete_map
    ((machine Nat 1 1).reachableBy_final twoProducts (by decide) (by decide +kernel))⟩

end Loomlib.Pipeline
