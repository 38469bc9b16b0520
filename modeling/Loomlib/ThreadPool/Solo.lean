import Loomlib.ThreadPool.Bag

/-!
# ThreadPool — Solo

Stretches of a run in which one worker moves and the others stand still.
Where the worker is, what is queued and the memory say what it can do next,
so a run is told step by step for any number of workers.
-/

namespace Loomlib.ThreadPool

variable {P : Program} {n : Nat}

/-- It is in the activation `f` of some unit. -/
def Worker.In (f : P.Frame) (w : Worker P) : Prop :=
  ∃ u, w = .running u f

/-- Worker `i` is where `W` says and the others are where `K` says, `q` is
queued, and nobody was told to go. -/
structure Stands (K W : Worker P → Prop) (i : Fin n) (q : List (Func P.Data)) (m : P.Mem)
    (s : Pool P n) : Prop where
  worker : W (s.workers i)
  others : ∀ j, j ≠ i → K (s.workers j)
  queue : s.workQueue.map WorkUnit.func = q
  mem : s.mem = m
  calls : s.terminates = 0

/-- A run whose steps meet `D` leads there. -/
def Solo (D : Bag P → Act P → Prop) (m₀ : P.Mem) (K W : Worker P → Prop) (i : Fin n)
    (q : List (Func P.Data)) (m : P.Mem) : Prop :=
  ∃ s, (machine P n m₀).ReachableBy (OnBag D) s ∧ Stands K W i q m s

section Steps

variable {D : Bag P → Act P → Prop} {m₀ m m' : P.Mem} {K W : Worker P → Prop} {i j : Fin n}
  {q : List (Func P.Data)} {f g : P.Frame} {c : P.Choice} {d : P.Data}

/-- The worker moves to `w`, and the others do not. -/
theorem Stands.move {s t : Pool P n} (h : Stands K W i q m s) {w : Worker P}
    (hw : t.workers = Function.update s.workers i w) (hc : t.terminates = s.terminates) :
    Stands K (· = w) i (t.workQueue.map WorkUnit.func) t.mem t := by
  refine ⟨by rw [hw, Function.update_self], fun j hj => ?_, rfl, rfl, hc.trans h.calls⟩
  rw [hw, Function.update_of_ne hj]
  exact h.others j hj

theorem onBag_loop (s : Pool P n) : OnBag D s (.loop i) := by
  intro a ha
  cases ha

theorem onBag_unit {s : Pool P n} {u : WorkUnit P.Data} (hw : s.workers i = .running u f)
    (hD : D s.bag (.unit f c)) : OnBag D s (.unit i c) := by
  intro a ha
  simp only [Pool.act, hw, Option.some.injEq] at ha
  exact ha ▸ hD

theorem onBag_client {s : Pool P n} {x : P.Client} (hD : D s.bag (.client x)) :
    OnBag D s (.client x) := by
  intro a ha
  cases ha
  exact hD

/-- In the beginning all workers are about to pop. -/
theorem Solo.new (i : Fin n) : Solo D m₀ (· = .popping) (· = .popping) i [] m₀ :=
  ⟨_, .init, rfl, fun _ _ => rfl, rfl, rfl, rfl⟩

/-- A client changes the memory. -/
theorem Solo.client {x : P.Client} (h : Solo D m₀ K W i q m) (hp : P.client m x = some (m', none))
    (hD : ∀ b : Bag P, b.mem = m → D b (.client x)) : Solo D m₀ K W i q m' := by
  obtain ⟨s, hr, hw, hothers, hq, rfl, hc⟩ := h
  refine ⟨{ s with mem := m' }, hr.step (e := .client x) (onBag_client (hD _ rfl)) ?_,
    hw, hothers, hq, rfl, hc⟩
  simp [machine, step, Pool.runClient, hp]

/-- A client pushes a unit, while all workers wait for one. -/
theorem Solo.clientPush {x : P.Client} (h : Solo D m₀ (· = .popping) (· = .popping) i q m)
    (hp : P.client m x = some (m', some (.push d)))
    (hD : ∀ b : Bag P, b.mem = m → D b (.client x)) :
    Solo D m₀ (· = .popping) (· = .popping) i (q ++ [.call d]) m' := by
  obtain ⟨s, hr, hw, hothers, rfl, rfl, hc⟩ := h
  refine ⟨({ s with mem := m' } : Pool P n).serve (.push d),
    hr.step (e := .client x) (onBag_client (hD _ rfl)) ?_, ?_, ?_, List.map_append .., rfl, hc⟩
  · simp [machine, step, Pool.runClient, hp]
  · simp [Pool.serve, Pool.threadPoolPush, hw, Worker.wake]
  · intro j hj
    simp [Pool.serve, Pool.threadPoolPush, hothers j hj, Worker.wake]

/-- The worker takes the first unit and calls its function. -/
theorem Solo.take (h : Solo D m₀ K (· = .popping) i (.call d :: q) m) :
    Solo D m₀ K (Worker.In (P.call d)) i q m := by
  obtain ⟨s, hr, hs⟩ := h
  obtain ⟨u, rest, hqueue, hf, rfl⟩ := List.map_eq_cons_iff.mp hs.queue
  obtain rfl := hs.mem
  let popped : Pool P n :=
    { s with workQueue := rest, popped := s.popped ++ [(u, i)] }.setWorker i (.popped u)
  have hpop : step s (.loop i) = some popped := by
    simp [step, Pool.threadLoop, hs.worker, hqueue, popped]
  have hpopped : Stands K (· = .popped u) i (rest.map WorkUnit.func) s.mem popped :=
    hs.move (t := popped) rfl rfl
  let started : Pool P n :=
    { popped with started := popped.started ++ [u.id] }.setWorker i (.running u (P.call d))
  have hstart : step popped (.loop i) = some started := by
    simp [step, Pool.threadLoop, hpopped.worker, hf, started]
  have hstarted : Stands K (· = .running u (P.call d)) i (rest.map WorkUnit.func) s.mem started :=
    hpopped.move (t := started) rfl rfl
  exact ⟨started, (hr.step (onBag_loop s) hpop).step (onBag_loop popped) hstart,
    ⟨u, hstarted.worker⟩, hstarted.others, rfl, rfl, hstarted.calls⟩

/-- Another worker takes the first unit, and stands still from then on. -/
theorem Solo.lend (h : Solo D m₀ (· = .popping) W i (.call d :: q) m) (hj : j ≠ i) :
    Solo D m₀ (fun _ => True) W i q m := by
  obtain ⟨s, hr, hw, hothers, hq, hm, hc⟩ := h
  obtain ⟨u, rest, hqueue, -, rfl⟩ := List.map_eq_cons_iff.mp hq
  refine ⟨{ s with workQueue := rest, popped := s.popped ++ [(u, j)] }.setWorker j (.popped u),
    hr.step (e := .loop j) (onBag_loop s) ?_, ?_, fun _ _ => trivial, rfl, hm, hc⟩
  · simp [machine, step, Pool.threadLoop, hothers j hj, hqueue]
  · simpa [Pool.setWorker, hj.symm] using hw

section Unit

variable (h : Solo D m₀ K (Worker.In f) i q m) (hD : ∀ b : Bag P, b.mem = m → D b (.unit f c))
include h hD

/-- The unit goes on. -/
theorem Solo.go (hp : P.step m f c = some (m', .go g)) :
    Solo D m₀ K (Worker.In g) i q m' := by
  obtain ⟨s, hr, ⟨u, hw⟩, hothers, rfl, rfl, hc⟩ := h
  refine ⟨{ s with mem := m' }.setWorker i (.running u g),
    hr.step (e := .unit i c) (onBag_unit hw (hD _ rfl)) ?_, ⟨u, Function.update_self ..⟩, ?_, rfl,
    rfl, hc⟩
  · simp [machine, step, Pool.runUnit, hw, hp]
  · intro j hj
    simpa [Pool.setWorker, hj] using hothers j hj

/-- The unit pushes another one. -/
theorem Solo.push (hK : ∀ w : Worker P, K w → K w.wake)
    (hp : P.step m f c = some (m', .request (.push d) g)) :
    Solo D m₀ K (Worker.In g) i (q ++ [.call d]) m' := by
  obtain ⟨s, hr, ⟨u, hw⟩, hothers, rfl, rfl, hc⟩ := h
  refine ⟨(({ s with mem := m' } : Pool P n).serve (.push d)).setWorker i (.running u g),
    hr.step (e := .unit i c) (onBag_unit hw (hD _ rfl)) ?_, ⟨u, Function.update_self ..⟩, ?_,
    List.map_append .., rfl, hc⟩
  · simp [machine, step, Pool.runUnit, hw, hp]
  · intro j hj
    simpa [Pool.setWorker, hj, Pool.serve, Pool.threadPoolPush] using hK _ (hothers j hj)

/-- The unit returns and is freed. -/
theorem Solo.ret (hp : P.step m f c = some (m', .ret)) :
    Solo D m₀ K (· = .popping) i q m' := by
  obtain ⟨s, hr, hs⟩ := h
  obtain ⟨u, hw⟩ := hs.worker
  obtain rfl := hs.mem
  obtain rfl := hs.queue
  let ran : Pool P n := { s with mem := m', finished := s.finished ++ [u.id] }.setWorker i (.ran u)
  have hret : step s (.unit i c) = some ran := by
    simp [step, Pool.runUnit, hw, hp, ran]
  have hran : Stands K (· = .ran u) i (s.workQueue.map WorkUnit.func) m' ran :=
    hs.move (t := ran) rfl rfl
  let freed : Pool P n := { ran with freed := ran.freed ++ [u.id] }.setWorker i .popping
  have hfree : step ran (.loop i) = some freed := by
    simp [step, Pool.threadLoop, hran.worker, freed]
  exact ⟨freed, (hr.step (onBag_unit hw (hD _ rfl)) hret).step (onBag_loop ran) hfree,
    hran.move (t := freed) rfl rfl⟩

/-- The unit has the workers told to go. -/
theorem Solo.tell (hp : P.step m f c = some (m', .request .terminate g)) :
    ∃ s e t, (machine P n m₀).ReachableBy (OnBag D) s ∧ OnBag D s e ∧ step s e = some t ∧
      s.terminates < t.terminates ∧ s.mem = m := by
  obtain ⟨s, hr, ⟨u, hw⟩, -, -, rfl, -⟩ := h
  refine ⟨s, .unit i c, (({ s with mem := m' } : Pool P n).serve .terminate).setWorker i
    (.running u g), hr, onBag_unit hw (hD _ rfl), ?_, Nat.lt_succ_self _, rfl⟩
  simp [step, Pool.runUnit, hw, hp]

end Unit

/-- With all workers about to pop and nothing queued the bag is empty. -/
theorem Stands.empty {s : Pool P n} (h : Stands (· = .popping) (· = .popping) i [] m s) :
    s.bag.frames = 0 := by
  have hidle : ∀ j, s.workers j = .popping := by
    intro j
    by_cases hj : j = i
    · exact hj ▸ h.worker
    · exact h.others j hj
  have hqueue : s.workQueue = [] := List.map_eq_nil_iff.mp h.queue
  simp only [Pool.bag, hqueue, List.map_nil, List.sum_nil, zero_add, tally]
  exact Finset.sum_eq_zero fun j _ => by rw [hidle j]; rfl

end Steps

end Loomlib.ThreadPool
