import Loomlib.ThreadPool.Model

/-!
# ThreadPool — Steps

What one step of the pool can do, said once: `step_cases` inverts `step`
into the relation `Step`, and every invariant is a case analysis on it.
-/

namespace Loomlib.ThreadPool

variable {P : Program} {n : Nat}

/-- The steps of a pool, with their guards and their effects. -/
inductive Step (s : Pool P n) : Event P n → Pool P n → Prop where
  | sleep {i} (hw : s.workers i = .popping) (hq : s.workQueue = []) :
      Step s (.loop i) (s.setWorker i .asleep)
  | take {i u rest} (hw : s.workers i = .popping) (hq : s.workQueue = u :: rest) :
      Step s (.loop i)
        ({ s with workQueue := rest, popped := s.popped ++ [(u, i)] }.setWorker i (.popped u))
  | wakeUp {i} (hw : s.workers i = .asleep) : Step s (.loop i) (s.setWorker i .popping)
  | receive {i u} (hw : s.workers i = .popped u) (hf : u.func = .termSig) :
      Step s (.loop i) (s.setWorker i (.signal u .lock))
  | start {i u d} (hw : s.workers i = .popped u) (hf : u.func = .call d) :
      Step s (.loop i)
        ({ s with started := s.started ++ [u.id] }.setWorker i (.running u (P.call d)))
  | free {i u} (hw : s.workers i = .ran u) :
      Step s (.loop i) ({ s with freed := s.freed ++ [u.id] }.setWorker i .popping)
  | sigLock {i u} (hw : s.workers i = .signal u .lock) (hl : s.locked = false) :
      Step s (.loop i) ({ s with locked := true }.setWorker i (.signal u .test))
  | sigTest {i u} (hw : s.workers i = .signal u .test) :
      Step s (.loop i) (s.setWorker i (.signal u (if 1 < s.numThreads then .push else .decr)))
  | sigPush {i u} (hw : s.workers i = .signal u .push) :
      Step s (.loop i) ((s.threadPoolPush .termSig).setWorker i (.signal u .decr))
  | sigDecr {i u} (hw : s.workers i = .signal u .decr) :
      Step s (.loop i)
        ({ s with numThreads := s.numThreads - 1 }.setWorker i (.signal u .unlock))
  | sigUnlock {i u} (hw : s.workers i = .signal u .unlock) :
      Step s (.loop i) ({ s with locked := false }.setWorker i (.signal u .free))
  | sigFree {i u} (hw : s.workers i = .signal u .free) :
      Step s (.loop i) ({ s with freed := s.freed ++ [u.id] }.setWorker i .exited)
  | go {i c u f m f'} (hw : s.workers i = .running u f) (hp : P.step s.mem f c = some (m, .go f')) :
      Step s (.unit i c) ({ s with mem := m }.setWorker i (.running u f'))
  | request {i c u f m r f'} (hw : s.workers i = .running u f)
      (hp : P.step s.mem f c = some (m, .request r f')) :
      Step s (.unit i c) (({ s with mem := m }.serve r).setWorker i (.running u f'))
  | ret {i c u f m} (hw : s.workers i = .running u f) (hp : P.step s.mem f c = some (m, .ret)) :
      Step s (.unit i c)
        ({ s with mem := m, finished := s.finished ++ [u.id] }.setWorker i (.ran u))
  | client {x m} (hp : P.client s.mem x = some (m, none)) :
      Step s (.client x) { s with mem := m }
  | clientRequest {x m r} (hp : P.client s.mem x = some (m, some r)) :
      Step s (.client x) ({ s with mem := m }.serve r)

/-- **Step inversion**: a step of the machine is one of `Step`. -/
theorem step_cases {s t : Pool P n} {e : Event P n} (h : step s e = some t) : Step s e t := by
  cases e with
  | loop i =>
    simp only [step, Pool.threadLoop] at h
    split at h
    case h_1 hw =>
      split at h
      · rename_i hq; cases h; exact .sleep hw hq
      · rename_i hq; cases h; exact .take hw hq
    case h_2 hw => cases h; exact .wakeUp hw
    case h_3 hw =>
      split at h
      · rename_i hf; cases h; exact .receive hw hf
      · rename_i hf; cases h; exact .start hw hf
    case h_4 => cases h
    case h_5 hw => cases h; exact .free hw
    case h_6 hw =>
      split at h
      · cases h
      · rename_i hl; cases h; exact .sigLock hw (by simpa using hl)
    case h_7 hw => cases h; exact .sigTest hw
    case h_8 hw => cases h; exact .sigPush hw
    case h_9 hw => cases h; exact .sigDecr hw
    case h_10 hw => cases h; exact .sigUnlock hw
    case h_11 hw => cases h; exact .sigFree hw
    case h_12 => cases h
  | unit i c =>
    simp only [step, Pool.runUnit] at h
    split at h
    · rename_i hw
      split at h
      · cases h
      · rename_i hp; cases h; exact .go hw hp
      · rename_i hp; cases h; exact .request hw hp
      · rename_i hp; cases h; exact .ret hw hp
    · cases h
  | client x =>
    simp only [step, Pool.runClient] at h
    split at h
    · cases h
    · rename_i hp; cases h; exact .client hp
    · rename_i hp; cases h; exact .clientRequest hp

/-- Where the unit function can step, the pool can. -/
theorem runUnit_isSome {s : Pool P n} {i : Fin n} {u : WorkUnit P.Data} {f : P.Frame} {c : P.Choice}
    (hw : s.workers i = .running u f) (h : (P.step s.mem f c).isSome = true) :
    (s.runUnit i c).isSome = true := by
  obtain ⟨⟨m, o⟩, hstep⟩ := Option.isSome_iff_exists.mp h
  simp only [Pool.runUnit, hw, hstep]
  cases o <;> rfl

/-- Where all workers are gone only a client moves. -/
theorem client_of_exited {s t : Pool P n} {e : Event P n} (hgone : ∀ i, s.workers i = .exited)
    (h : step s e = some t) : ∃ x, e = .client x := by
  cases e with
  | loop i => simp [step, Pool.threadLoop, hgone] at h
  | unit i c => simp [step, Pool.runUnit, hgone] at h
  | client x => exact ⟨x, rfl⟩

/-- A weight that no broadcast changes is not changed by a push. -/
theorem tally_push {f : Worker P → Nat} (hf : ∀ w : Worker P, f w.wake = f w) (s : Pool P n)
    (g : Func P.Data) : tally f (s.threadPoolPush g).workers = tally f s.workers :=
  tally_comp hf s.workers

end Loomlib.ThreadPool
