import Loomlib.ThreadPool.Contract

/-!
# ThreadPool — Late work

Units pushed behind a termination signal. Such a unit is out of reach if
there is a signal in the queue for every worker that has none: each of
these workers then takes a signal before it could take the unit. A push
that finds fewer signals ahead of it leaves a worker that will run it.
-/

namespace Loomlib.ThreadPool

variable {P : Program} {n : Nat} {m : P.Mem}

/-- The call on the pool an event makes. -/
def Pool.request (s : Pool P n) : Event P n → Option (Request P.Data)
  | .loop _ => none
  | .unit i c =>
    match s.workers i with
    | .running _ f =>
      match P.step s.mem f c with
      | some (_, .request r _) => some r
      | _ => none
    | _ => none
  | .client x =>
    match P.client s.mem x with
    | some (_, r) => r
    | none => none

/-- The workers that have not popped a signal yet. -/
def Pool.unsignalled (s : Pool P n) : Nat :=
  (Finset.univ.filter fun i => (s.workers i).NoSignal).card

/-- A unit pushed after a call of `thread_pool_terminate` finds a signal
in the queue for every worker that has none yet. -/
def LatePushCovered (s : Pool P n) (e : Event P n) : Prop :=
  ∀ d, s.request e = some (.push d) → 0 < s.terminates → s.unsignalled ≤ signals s.workQueue

instance (s : Pool P n) (e : Event P n) : Decidable (LatePushCovered s e) :=
  match h : s.request e with
  | some (.push _) =>
    decidable_of_iff (0 < s.terminates → s.unsignalled ≤ signals s.workQueue)
      (by simp [LatePushCovered, h])
  | some .terminate | none => isTrue fun _ hd => nomatch h.symm.trans hd

theorem unsignalled_eq (s : Pool P n) :
    s.unsignalled = tally Stage.awaiting s.relay.stage := by
  rw [Pool.unsignalled, Finset.card_filter]
  apply Finset.sum_congr rfl
  intro i _
  by_cases hd : (s.workers i).NoSignal
  · rw [if_pos hd]
    unfold Worker.NoSignal at hd
    simp [Pool.relay, hd, Stage.awaiting]
  · rw [if_neg hd]
    unfold Worker.NoSignal at hd
    cases hs : (s.workers i).stage <;> simp_all [Pool.relay, Stage.awaiting]

theorem unsignalled_pos {s : Pool P n} {i : Fin n} (hi : (s.workers i).NoSignal) :
    0 < s.unsignalled :=
  Finset.card_pos.mpr ⟨i, by simp [hi]⟩

theorem unsignalled_step {s t : Pool P n} {e : Event P n} (h : step s e = some t) :
    t.unsignalled ≤ s.unsignalled := by
  rw [unsignalled_eq, unsignalled_eq]
  rcases relay_step h with heq | ⟨d, hd⟩
  · rw [heq]
  · exact Relay.awaiting_step hd

/-- A worker that pops a signal has one from then on. -/
theorem unsignalled_take {s : Pool P n} {i : Fin n} {u : WorkUnit P.Data}
    (hw : s.workers i = .popping) (hu : u.func.isSig = true) :
    (s.setWorker i (.popped u)).unsignalled + 1 = s.unsignalled := by
  have hstage : s.relay.stage i = .before := by simp [Pool.relay, hw]
  have hmove := tally_move Stage.awaiting hstage .hand
  rw [unsignalled_eq, unsignalled_eq]
  have hrelay : (s.setWorker i (.popped u)).relay.stage
      = Function.update s.relay.stage i .hand := by
    funext j
    by_cases hj : j = i
    · subst hj; simp [Pool.relay, Pool.setWorker, hu]
    · simp [Pool.relay, Pool.setWorker, hj]
  rw [hrelay]
  simp only [Stage.awaiting] at hmove
  omega

/-! ## Signals are asked for -/

/-- A signal in the history means that `thread_pool_terminate` was called. -/
def Asked (s : Pool P n) : Prop :=
  (∃ u ∈ s.pushed, u.func = .termSig) → 0 < s.terminates

theorem asked_step {s t : Pool P n} {e : Event P n} (hH : History s) (hh : Hands s)
    (hI : Asked s) (h : step s e = some t) : Asked t := by
  have hserve : ∀ {p : Pool P n}, Asked p → ∀ r, Asked (p.serve r) := fun {p} hI' r => by
    intro hasks
    obtain ⟨u, hu, hf⟩ := hasks
    cases r with
    | push d =>
      rcases List.mem_append.mp hu with hu | hu
      · exact hI' ⟨u, hu, hf⟩
      · simp only [List.mem_singleton] at hu
        subst hu
        cases hf
    | terminate => exact Nat.succ_pos _
  cases step_cases h with
  | @sigPush i u hw =>
    -- the worker that passes a signal on has popped one
    obtain ⟨g, hg, hf⟩ := hh i (by simp [hw])
    exact fun _ => hI ⟨g, hH.popped_mem hg, hf⟩
  | @request _ _ _ _ m r _ _ _ => exact hserve (p := { s with mem := m }) hI r
  | @clientRequest _ m r _ => exact hserve (p := { s with mem := m }) hI r
  | _ => exact hI

theorem asked {s : Pool P n} (h : (machine P n m).Reachable s) : Asked s :=
  h.invariant (I := Asked) (fun ⟨_, hu, _⟩ => nomatch hu) fun hr hI hs =>
    asked_step (history hr) (hands hr) hI hs

/-- A call of `thread_pool_terminate` leaves a signal in the history. -/
theorem told {s : Pool P n} (h : (machine P n m).Reachable s) (hpos : 0 < s.terminates) :
    ∃ u ∈ s.pushed, u.func = .termSig := by
  revert hpos
  refine h.invariant (I := fun s => 0 < s.terminates → ∃ u ∈ s.pushed, u.func = .termSig) ?_ ?_
  · exact fun hpos => absurd hpos (Nat.lt_irrefl 0)
  · intro s e t _ hI hs
    have hkeep : s.pushed <+: t.pushed ∧ (t.terminates = s.terminates ∨
        ∃ u ∈ t.pushed, u.func = .termSig) := by
      cases step_cases hs with
      | sigPush => exact ⟨List.prefix_append _ _, .inl rfl⟩
      | @request _ _ _ _ _ r | @clientRequest _ _ r =>
        cases r with
        | push => exact ⟨List.prefix_append _ _, .inl rfl⟩
        | terminate =>
          exact ⟨List.prefix_append _ _,
            .inr ⟨_, List.mem_append_right _ (List.mem_singleton_self _), rfl⟩⟩
      | _ => exact ⟨List.prefix_refl _, .inl rfl⟩
    intro hpos
    rcases hkeep.2 with heq | hsig
    · obtain ⟨u, hu, hf⟩ := hI (heq ▸ hpos)
      exact ⟨u, hkeep.1.subset hu, hf⟩
    · exact hsig

/-! ## Units out of reach -/

/-- A unit queued behind a signal has as many signals ahead of it as
workers lack one, and none of its kind has been popped. -/
structure Covered (s : Pool P n) : Prop where
  ahead : ∀ pre u post, s.workQueue = pre ++ u :: post → u.func.isSig = false →
    0 < signals (s.popped.map Prod.fst) + signals pre → s.unsignalled ≤ signals pre
  order : (s.popped.map Prod.fst).Pairwise fun a b => a.func.isSig = true → b.func.isSig = true

/-- A push at the end of the queue. -/
private theorem ahead_push {q pre post : List (WorkUnit P.Data)} {u w : WorkUnit P.Data}
    (h : q ++ [w] = pre ++ u :: post) : (pre = q ∧ u = w) ∨ ∃ post', q = pre ++ u :: post' := by
  rcases List.eq_nil_or_concat post with rfl | ⟨post', v, rfl⟩
  · obtain ⟨h1, h2⟩ := List.append_inj' h rfl
    exact .inl ⟨h1.symm, by simpa using h2.symm⟩
  · rw [List.concat_eq_append, ← List.cons_append, ← List.append_assoc] at h
    exact .inr ⟨post', (List.append_inj' h rfl).1⟩

/-- A step that leaves queue and pops alone keeps units out of reach. -/
private theorem covered_keep {s t : Pool P n} (hI : Covered s) (hq : t.workQueue = s.workQueue)
    (hp : t.popped = s.popped) (hu : t.unsignalled ≤ s.unsignalled) : Covered t where
  ahead pre u post h hf hpos := Nat.le_trans hu (hI.ahead pre u post (hq ▸ h) hf (hp ▸ hpos))
  order := hp ▸ hI.order

/-- So does a push of a signal, and one of a unit that is covered. -/
private theorem covered_push {s t : Pool P n} (hI : Covered s) {w : WorkUnit P.Data}
    (hq : t.workQueue = s.workQueue ++ [w]) (hp : t.popped = s.popped)
    (hu : t.unsignalled ≤ s.unsignalled)
    (hw : w.func.isSig = false → 0 < signals (s.popped.map Prod.fst) + signals s.workQueue →
      s.unsignalled ≤ signals s.workQueue) : Covered t where
  ahead pre u post h hf hpos := by
    rw [hp] at hpos
    rcases ahead_push (hq ▸ h) with ⟨rfl, rfl⟩ | ⟨post', h'⟩
    · exact Nat.le_trans hu (hw hf hpos)
    · exact Nat.le_trans hu (hI.ahead pre u post' h' hf hpos)
  order := hp ▸ hI.order

private theorem covered_take {s : Pool P n} (hI : Covered s) {i : Fin n} {u : WorkUnit P.Data}
    {rest : List (WorkUnit P.Data)} (hw : s.workers i = .popping) (hq : s.workQueue = u :: rest)
    (hle : (s.setWorker i (.popped u)).unsignalled ≤ s.unsignalled) :
    Covered ({ s with workQueue := rest, popped := s.popped ++ [(u, i)] }.setWorker i
      (.popped u)) where
  ahead pre v post hsplit hf hpos := by
    have hqueue : s.workQueue = u :: pre ++ v :: post := by
      rw [hq, List.cons_append]
      exact congrArg _ hsplit
    have hahead := hI.ahead (u :: pre) v post hqueue hf (by simp [Pool.setWorker] at hpos ⊢; omega)
    change (s.setWorker i (.popped u)).unsignalled ≤ signals pre
    cases hu : u.func.isSig with
    | false =>
      simp only [signals_cons, hu, Bool.toNat_false] at hahead
      omega
    | true =>
      have := unsignalled_take hw hu
      simp only [signals_cons, hu, Bool.toNat_true] at hahead
      omega
  order := by
    simp only [Pool.setWorker, List.map_append, List.map_cons, List.map_nil, List.pairwise_append]
    refine ⟨hI.order, List.pairwise_singleton _ _, ?_⟩
    intro a ha b hb hsig
    rw [List.mem_singleton.mp hb]
    by_contra hu
    -- a unit behind a popped signal is not popped while a worker lacks one
    have hpos : 0 < signals (s.popped.map Prod.fst) := List.countP_pos_iff.mpr ⟨a, ha, hsig⟩
    have hnone := hI.ahead [] u rest hq (by simpa using hu) (by simpa using hpos)
    have := unsignalled_pos (s := s) (i := i) (by simp [Worker.NoSignal, hw])
    simp only [signals_nil] at hnone
    omega

theorem covered_step {s t : Pool P n} {e : Event P n} (hr : (machine P n m).Reachable s)
    (hI : Covered s) (hc : LatePushCovered s e) (h : step s e = some t) : Covered t := by
  have hle := unsignalled_step h
  have hpush : ∀ d, s.request e = some (.push d) →
      0 < signals (s.popped.map Prod.fst) + signals s.workQueue →
      s.unsignalled ≤ signals s.workQueue := fun d hd hpos => by
    rw [← signals_append, ← (history hr).fifo] at hpos
    exact hc d hd (asked hr (exists_of_signals_pos hpos))
  cases step_cases h with
  | take hw hq => exact covered_take hI hw hq hle
  | sigPush _ => exact covered_push hI rfl rfl hle fun hf => nomatch hf
  | @request i c u f m r f' hw hp =>
    cases r with
    | push d => exact covered_push hI rfl rfl hle fun _ => hpush d (by simp [Pool.request, hw, hp])
    | terminate => exact covered_push hI rfl rfl hle fun hf => nomatch hf
  | @clientRequest x m r hp =>
    cases r with
    | push d => exact covered_push hI rfl rfl hle fun _ => hpush d (by simp [Pool.request, hp])
    | terminate => exact covered_push hI rfl rfl hle fun hf => nomatch hf
  | _ => exact covered_keep hI rfl rfl hle

theorem covered {s : Pool P n} (h : (machine P n m).ReachableBy LatePushCovered s) : Covered s :=
  h.invariant (I := Covered)
    ⟨fun _ _ _ hq => by simp [machine, threadPoolNew] at hq, List.Pairwise.nil⟩
    fun hr hI hc hs => covered_step hr.reachable hI hc hs

/-- **Work pushed after `thread_pool_terminate` is not done** in a run
whose late pushes are covered: no worker starts a unit that has a signal
before it. -/
theorem late_work_not_started {s : Pool P n}
    (h : (machine P n m).ReachableBy LatePushCovered s) :
    ∀ pre u post d, s.pushed = pre ++ u :: post → u.func = .call d →
      (∃ v ∈ pre, v.func = .termSig) → u.id ∉ s.started := by
  rintro pre u post d hu hd ⟨v, hv, hsig⟩ hstart
  have hH := history h.reachable
  have hpop := popped_of_started h.reachable (hu ▸ by simp) hstart
  obtain ⟨pre', post', hsplit⟩ := List.append_of_mem hpop
  have hnd : (pre ++ u :: post).Nodup := hu ▸ hH.nodup.of_map
  have hmid := List.nodup_middle.mp hnd
  rw [List.nodup_cons, List.mem_append, not_or] at hmid
  -- `u` stands in one place, so what was popped before it is `pre`
  have hsame : pre' = pre := by
    have heq := hH.fifo
    rw [hsplit, hu, List.append_assoc, List.cons_append] at heq
    exact ((List.append_cons_inj_of_notMem hmid.1.1 hmid.1.2).mp heq).1.symm
  have horder := (covered h).order
  rw [hsplit, hsame, List.pairwise_append] at horder
  have := horder.2.2 v hv u (by simp) (by simp [hsig, Func.isSig])
  simp [hd, Func.isSig] at this

/-- A terminate call and a late push on a pool of one worker. -/
def coveredRun : List (Event anyProgram 1) :=
  .client .terminate :: .client (.push 7) :: List.replicate 7 (.loop first)

theorem late_work_not_started_one :
    let s := (machine anyProgram 1 ()).final coveredRun (by decide)
    s.workers 0 = .exited ∧ 1 ∉ s.started :=
  have h : (machine anyProgram 1 ()).ReachableBy LatePushCovered
      ((machine anyProgram 1 ()).final coveredRun (by decide)) :=
    Machine.reachableBy_final coveredRun (by decide) (by decide)
  ⟨by decide, late_work_not_started h [⟨.termSig, 0⟩] ⟨.call (7 : Nat), 1⟩ [] (7 : Nat) rfl rfl
    (by decide)⟩

/-- Two workers: the first passes the signal on behind the late unit,
which the second then runs. -/
theorem late_work_started :
    ∃ s, (machine anyProgram 2 ()).Reachable s ∧
      s.pushed = [⟨.termSig, 0⟩, ⟨.call (7 : Nat), 1⟩, ⟨.termSig, 2⟩] ∧ 1 ∈ s.started :=
  ⟨_, (machine anyProgram 2 ()).reachable_final
    (.client .terminate :: .client (.push (7 : Nat)) :: List.replicate 5 (.loop first) ++
      List.replicate 2 (.loop second)) (by decide), rfl, by decide⟩

end Loomlib.ThreadPool
