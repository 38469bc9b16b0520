import Loomlib.ThreadPool.Solo
import Loomlib.Tree.Passes

/-!
# Tree — Teardown

`tree_free` destroys `tree->lock` and then has `thread_pool_free` wait for
the workers; `pipeline_free` does it in the other order. Here `tree_loop`
takes its critical sections apart: a step to take the lock, one for the
section, and one to release the lock. The thread that uses the tree ends
in `tree_free`, of which the step that destroys the lock is seen. As
workers go through the critical sections only with the lock,
`tree_terminate` is one step, taken when the lock is free.
-/

namespace Loomlib.Tree

open ThreadPool

/-- The control points of `tree_loop` and of its critical sections. -/
inductive LockFrame (ι V : Type) where
  | outside (f : Frame ι V)
  | inside (f : Frame ι V)
  -- about to unlock, and to go on, or to return
  | leaving (f : Option (Frame ι V))

/-- A tree with its lock, and the history: whether a worker has taken or
released the lock after it was destroyed, and whether it was destroyed
while it was held. -/
structure LockMem (ι V : Type) where
  tree : Mem ι V
  locked : Bool
  destroyed : Bool
  usedAfter : Bool
  destroyedHeld : Bool

inductive Caller where
  | execute
  | terminate
  | free
  deriving DecidableEq, Repr

/-- The control points that are critical sections. -/
def Frame.locks {ι V : Type} : Frame ι V → Bool
  | .gate _ | .retire _ => true
  | _ => false

variable {ι V : Type} [DecidableEq ι]

/-- A step outside the critical sections. -/
def stay : Outcome (State ι V) (Frame ι V) → Outcome (State ι V) (LockFrame ι V)
  | .go f => .go (.outside f)
  | .request r f => .request r (.outside f)
  | .ret => .ret

/-- A critical section, before the unlock. -/
def unlock : Outcome (State ι V) (Frame ι V) → Outcome (State ι V) (LockFrame ι V)
  | .go f => .go (.leaving (some f))
  | .request r f => .request r (.leaving (some f))
  | .ret => .go (.leaving none)

/-- One step of `tree_loop`. -/
def lockedLoop (T : Shape ι) (maxThreads : Nat) (m : LockMem ι V) (f : LockFrame ι V)
    (c : Choice V) : Option (LockMem ι V × Outcome (State ι V) (LockFrame ι V)) :=
  match f with
  | .outside f =>
    if f.locks then
      if m.locked then none
      else
        some ({ m with locked := true, usedAfter := m.usedAfter || m.destroyed },
          .go (.inside f))
    else
      match treeLoop T maxThreads m.tree f c with
      | none => none
      | some (t, o) => some ({ m with tree := t }, stay o)
  | .inside f =>
    match treeLoop T maxThreads m.tree f c with
    | none => none
    | some (t, o) => some ({ m with tree := t }, unlock o)
  | .leaving f =>
    some ({ m with locked := false, usedAfter := m.usedAfter || m.destroyed },
      match f with
      | some f => .go (.outside f)
      | none => .ret)

/-- One step of the thread that uses the tree. -/
def caller (T : Shape ι) (m : LockMem ι V) :
    Caller → Option (LockMem ι V × Option (Request (State ι V)))
  | .execute =>
    if m.destroyed then none
    else
      match client T m.tree .execute with
      | none => none
      | some (t, q) => some ({ m with tree := t }, q)
  | .terminate =>
    if m.destroyed || m.locked then none
    else
      match client T m.tree .terminate with
      | none => none
      | some (t, q) => some ({ m with tree := t }, q)
  -- pthread_mutex_destroy (&tree->lock), before thread_pool_free
  | .free =>
    if m.destroyed then none
    else some ({ m with destroyed := true, destroyedHeld := m.locked }, none)

/-- The work units of a tree, with its lock. -/
abbrev lockedProgram (V : Type) (T : Shape ι) (maxThreads : Nat) : Program where
  Data := State ι V
  Frame := LockFrame ι V
  Mem := LockMem ι V
  Choice := Choice V
  Client := Caller
  call := fun state => .outside (.enter state)
  step := lockedLoop T maxThreads
  client := caller T

def lockedNew : LockMem ι V where
  tree := treeNew
  locked := false
  destroyed := false
  usedAfter := false
  destroyedHeld := false

/-- A tree on a pool of `n` workers, and its end. -/
def lockedMachine (V : Type) (T : Shape ι) (n : Nat) :=
  ThreadPool.machine (lockedProgram V T n) n lockedNew

/-! ## Steps -/

variable {T : Shape ι} {n : Nat}

/-- The steps of `tree_loop` with its lock. -/
inductive LockMove (T : Shape ι) (n : Nat) (m : LockMem ι V) :
    LockFrame ι V → LockMem ι V → Outcome (State ι V) (LockFrame ι V) → Prop where
  | acquire {f} (hf : f.locks = true) (hl : m.locked = false) :
      LockMove T n m (.outside f)
        { m with locked := true, usedAfter := m.usedAfter || m.destroyed } (.go (.inside f))
  | plain {f t o} (h : Move T n m.tree f t o) :
      LockMove T n m (.outside f) { m with tree := t } (stay o)
  | body {f t o} (h : Move T n m.tree f t o) :
      LockMove T n m (.inside f) { m with tree := t } (unlock o)
  | release {f} : LockMove T n m (.leaving (some f))
      { m with locked := false, usedAfter := m.usedAfter || m.destroyed } (.go (.outside f))
  | leave : LockMove T n m (.leaving none)
      { m with locked := false, usedAfter := m.usedAfter || m.destroyed } .ret

theorem lockMove_cases {m m' : LockMem ι V} {f : LockFrame ι V} {c : Choice V}
    {o : Outcome (State ι V) (LockFrame ι V)} (h : lockedLoop T n m f c = some (m', o)) :
    LockMove T n m f m' o := by
  cases f with
  | outside f =>
    simp only [lockedLoop] at h
    split at h
    · rename_i hf
      split at h
      · cases h
      · rename_i hl; cases h; exact .acquire hf (by simpa using hl)
    · split at h
      · cases h
      · rename_i ht; cases h; exact .plain (move_cases ht)
  | inside f =>
    simp only [lockedLoop] at h
    split at h
    · cases h
    · rename_i ht; cases h; exact .body (move_cases ht)
  | leaving f =>
    cases f with
    | none => cases h; exact .leave
    | some f => cases h; exact .release

omit [DecidableEq ι] in
/-- The steps of the thread that uses the tree. -/
theorem caller_cases {m m' : LockMem ι V} {x : Caller} {q : Option (Request (State ι V))}
    (h : caller T m x = some (m', q)) : m.destroyed = false ∧
      ((x ≠ .free ∧ ∃ t, m' = { m with tree := t } ∧ ∀ r, q = some r → ∃ d, r = .push d) ∨
        (x = .free ∧ m' = { m with destroyed := true, destroyedHeld := m.locked } ∧ q = none)) := by
  cases x <;> simp only [caller] at h
  case execute =>
    split at h
    · cases h
    · rename_i hd
      split at h
      · cases h
      · rename_i hc
        cases h
        obtain ⟨-, rfl⟩ | ⟨-, -, rfl⟩ := client_cases hc
        · exact ⟨by simpa using hd, .inl ⟨nofun, _, rfl, nofun⟩⟩
        · exact ⟨by simpa using hd,
            .inl ⟨nofun, _, rfl, fun r hr => ⟨_, (Option.some.inj hr).symm⟩⟩⟩
  case terminate =>
    split at h
    · cases h
    · rename_i hd
      split at h
      · cases h
      · rename_i hc
        cases h
        obtain ⟨-, rfl⟩ | ⟨-, -, rfl⟩ := client_cases hc
        · exact ⟨by simp_all, .inl ⟨nofun, _, rfl, nofun⟩⟩
        · exact ⟨by simp_all, .inl ⟨nofun, _, rfl, fun r hr => ⟨_, (Option.some.inj hr).symm⟩⟩⟩
  case free =>
    split at h
    · cases h
    · rename_i hd
      cases h
      exact ⟨by simpa using hd, .inr ⟨rfl, rfl, rfl⟩⟩

/-! ## The lock -/

/-- It holds `tree->lock`. -/
def LockFrame.holding : LockFrame ι V → Nat
  | .outside _ => 0
  | .inside _ | .leaving _ => 1

omit [DecidableEq ι] in
theorem holding_stay (o : Outcome (State ι V) (Frame ι V)) :
    weigh LockFrame.holding ((stay o).frames fun s => .outside (.enter s)) = 0 := by
  cases o with
  | request r f => cases r <;> simp [stay, LockFrame.holding]
  | _ => simp [stay, LockFrame.holding]

omit [DecidableEq ι] in
theorem holding_unlock (o : Outcome (State ι V) (Frame ι V)) :
    weigh LockFrame.holding ((unlock o).frames fun s => .outside (.enter s)) = 1 := by
  cases o with
  | request r f => cases r <;> simp [unlock, LockFrame.holding]
  | _ => simp [unlock, LockFrame.holding]

/-- The lock is held by one activation, or by none. -/
theorem held {s : Pool (lockedProgram V T n) n} (h : (lockedMachine V T n).Reachable s) :
    weigh LockFrame.holding s.bag.frames = s.mem.locked.toNat := by
  refine bag_invariant (I := fun b : Bag (lockedProgram V T n) =>
    weigh LockFrame.holding b.frames = b.mem.locked.toNat) rfl ?_ (reachable_onBag h)
  intro b a b' hI _ hs
  cases hs with
  | @unit m f c m' o r k h =>
    simp only [weigh_cons] at hI
    simp only [weigh_add]
    cases lockMove_cases h with
    | acquire _ hl => simp_all [LockFrame.holding]
    | plain => rwa [holding_stay]
    | body => rwa [holding_unlock]
    | release | leave =>
      simp only [LockFrame.holding] at hI
      have := Bool.toNat_le m.locked
      simp [LockFrame.holding]
      omega
  | client h =>
    obtain ⟨-, ⟨-, t, rfl, -⟩ | ⟨-, rfl, -⟩⟩ := caller_cases h
    · exact hI
    · exact hI
  | clientRequest h =>
    obtain ⟨-, ⟨-, t, rfl, hq⟩ | ⟨-, -, ⟨⟩⟩⟩ := caller_cases h
    obtain ⟨d, rfl⟩ := hq _ rfl
    simpa [LockFrame.holding] using hI

/-! ## The end -/

/-- It is past its last critical section, and pushes no unit that has one. -/
def Frame.Past (T : Shape ι) : Frame ι V → Prop
  | .children s _ i => s.vertice ≠ T.root ∧ (T.children s.vertice).length ≤ i
  | .restart s => s.vertice ≠ T.root
  | .done => True
  | .enter _ | .gate _ | .defer _ | .callRoutine _ | .routine _ | .retire _ => False

def LockFrame.Past (T : Shape ι) : LockFrame ι V → Prop
  | .outside f => f.Past T
  | .inside _ | .leaving _ => False

instance : DecidablePred (LockFrame.Past (V := V) T)
  | .outside (.children _ _ _) => inferInstanceAs (Decidable (_ ∧ _))
  | .outside (.restart _) => inferInstanceAs (Decidable (_ ≠ _))
  | .outside .done => isTrue trivial
  | .outside (.enter _) | .outside (.gate _) | .outside (.defer _) | .outside (.callRoutine _)
  | .outside (.routine _) | .outside (.retire _) | .inside _ | .leaving _ => isFalse id

/-- `tree_free` is called with all workers gone, or with every unit past
its last critical section. -/
def RunDown (s : Pool (lockedProgram V T n) n) : Event (lockedProgram V T n) n → Prop
  | .client .free => (∀ i, s.workers i = .exited) ∨ ∀ f ∈ s.bag.frames, f.Past T
  | _ => True

instance (s : Pool (lockedProgram V T n) n) : ∀ e, Decidable (RunDown s e)
  | .client .free => inferInstanceAs (Decidable (_ ∨ _))
  | .client .execute | .client .terminate | .loop _ | .unit _ _ => isTrue trivial

omit [DecidableEq ι] in
/-- What is past its last critical section stays so. -/
theorem past_move {m m' : LockMem ι V} {f : LockFrame ι V}
    {o : Outcome (State ι V) (LockFrame ι V)} (h : LockMove T n m f m' o) (hf : f.Past T) :
    (∀ g ∈ o.frames fun s => .outside (.enter s), g.Past T) ∧ m'.usedAfter = m.usedAfter := by
  cases h with
  | @acquire f hlock => cases f <;> first | exact absurd hf id | cases hlock
  | plain h =>
    refine ⟨?_, rfl⟩
    cases h with
    | @child s p i v hv =>
      have := (List.getElem?_eq_some_iff.mp hv).1
      exact absurd hf.2 (by omega)
    | lastChild => simpa [stay, LockFrame.Past, Frame.Past] using hf.1
    | restart hs => exact absurd hs hf
    | leave | done => simp [stay]
    | _ => exact absurd hf id
  | body | release | leave => exact absurd hf id

/-- What holds of the lock before and after it is destroyed. -/
structure Safe (s : Pool (lockedProgram V T n) n) : Prop where
  usedAfter : s.mem.usedAfter = false
  destroyedHeld : s.mem.destroyedHeld = false
  ended : s.mem.destroyed = true → (∀ i, s.workers i = .exited) ∨ ∀ f ∈ s.bag.frames, f.Past T

/-- Workers that are all gone hold no lock. -/
theorem free_of_gone {s : Pool (lockedProgram V T n) n} (hgone : ∀ i, s.workers i = .exited) :
    weigh LockFrame.holding s.bag.frames = 0 := by
  refine (weigh_bag (fun _ => rfl) s).trans (tally_eq_zero.mpr fun i => ?_)
  rw [hgone i]
  rfl

omit [DecidableEq ι] in
/-- A unit that is past its last critical section does not hold the lock. -/
theorem holding_of_past {f : LockFrame ι V} (hf : f.Past T) : f.holding = 0 := by
  cases f with
  | outside f => rfl
  | inside f | leaving f => exact absurd hf id

omit [DecidableEq ι] in
/-- A step of a worker destroys nothing, and uses the lock after its
destruction only if it was destroyed before. -/
theorem flags_move {m m' : LockMem ι V} {f : LockFrame ι V}
    {o : Outcome (State ι V) (LockFrame ι V)} (h : LockMove T n m f m' o) :
    m'.destroyed = m.destroyed ∧ m'.destroyedHeld = m.destroyedHeld ∧
      (m.destroyed = false → m'.usedAfter = m.usedAfter) := by
  cases h <;> simp +contextual

theorem Safe.workerStep {s t : Pool (lockedProgram V T n) n} {e : Event (lockedProgram V T n) n}
    (hI : Safe s) (h : ThreadPool.step s e = some t) (hworker : ∀ x, e ≠ .client x) : Safe t := by
  -- after the destruction a worker that moves has a unit past its last section
  have hpast : s.bag.mem.destroyed = true → ∀ f ∈ s.bag.frames, f.Past T := by
    intro hd
    rcases hI.ended hd with hgone | hpast
    · obtain ⟨x, rfl⟩ := client_of_exited hgone h
      exact absurd rfl (hworker x)
    · exact hpast
  have hused : s.bag.mem.usedAfter = false := hI.usedAfter
  have hheld : s.bag.mem.destroyedHeld = false := hI.destroyedHeld
  suffices hsafe : t.bag.mem.usedAfter = false ∧ t.bag.mem.destroyedHeld = false ∧
      (t.bag.mem.destroyed = true → ∀ f ∈ t.bag.frames, f.Past T) from
    ⟨hsafe.1, hsafe.2.1, fun hd => .inr (hsafe.2.2 hd)⟩
  rcases bag_step h with ⟨-, heq⟩ | ⟨a, ha, hb⟩
  · rw [heq]
    exact ⟨hused, hheld, hpast⟩
  · have hunit : ∀ x, a ≠ .client x := by
      rintro x rfl
      cases e with
      | client y => exact hworker y rfl
      | loop i => cases ha
      | unit i c =>
        simp only [Pool.act] at ha
        split at ha <;> cases ha
    generalize s.bag = b at *
    generalize t.bag = b' at *
    cases hb with
    | @unit m f c m' o r k hs =>
      have hmove := lockMove_cases hs
      obtain ⟨hd', hh', hu'⟩ := flags_move hmove
      cases hd : m.destroyed with
      | true =>
        obtain ⟨hf, hr⟩ := Multiset.forall_mem_cons.mp (hpast hd)
        obtain ⟨hnext, hu⟩ := past_move hmove hf
        refine ⟨hu.trans hused, hh'.trans hheld, fun _ g hg => ?_⟩
        exact (Multiset.mem_add.mp hg).elim (hnext g) (hr g)
      | false =>
        refine ⟨(hu' hd).trans hused, hh'.trans hheld, fun hd1 => ?_⟩
        rw [hd', hd] at hd1
        cases hd1
    | client | clientRequest => exact absurd rfl (hunit _)

theorem Safe.callerStep {s t : Pool (lockedProgram V T n) n} {x : Caller}
    (hr : (lockedMachine V T n).Reachable s) (hI : Safe s) (hc : RunDown s (.client x))
    (h : ThreadPool.step s (.client x) = some t) : Safe t := by
  cases ThreadPool.step_cases h with
  | client hp =>
    obtain ⟨hd, ⟨-, tr, rfl, -⟩ | ⟨rfl, rfl, -⟩⟩ := caller_cases hp
    · refine ⟨hI.usedAfter, hI.destroyedHeld, fun hd' => ?_⟩
      cases (hd.symm.trans hd' : false = true)
    · refine ⟨hI.usedAfter, ?_, fun _ => hc⟩
      have hzero : weigh LockFrame.holding s.bag.frames = 0 :=
        hc.elim free_of_gone fun hpast =>
          weigh_eq_zero.mpr fun f hf => holding_of_past (hpast f hf)
      rw [held hr] at hzero
      exact Bool.toNat_eq_zero.mp hzero
  | clientRequest hp =>
    obtain ⟨hd, ⟨-, tr, rfl, hq⟩ | ⟨-, -, ⟨⟩⟩⟩ := caller_cases hp
    obtain ⟨d, rfl⟩ := hq _ rfl
    refine ⟨hI.usedAfter, hI.destroyedHeld, fun hd' => ?_⟩
    cases (hd.symm.trans hd' : false = true)

/-- **The lock outlives its users** in every run in which `tree_free` is
called with all workers gone, or with every unit past its last critical
section. -/
theorem lock_outlives_users {s : Pool (lockedProgram V T n) n}
    (h : (lockedMachine V T n).ReachableBy RunDown s) :
    s.mem.usedAfter = false ∧ s.mem.destroyedHeld = false := by
  have hsafe : Safe s := by
    refine h.invariant ⟨rfl, rfl, fun hd => absurd hd Bool.false_ne_true⟩ ?_
    intro s e t hr hI hc hs
    cases e with
    | client x => exact hI.callerStep hr.reachable hc hs
    | loop i => exact hI.workerStep (e := .loop i) hs nofun
    | unit i c => exact hI.workerStep (e := .unit i c) hs nofun
  exact ⟨hsafe.usedAfter, hsafe.destroyedHeld⟩

/-! ## Whatever the tree -/

/-- The lock is not used after it is destroyed, nor destroyed while it is
held, and with it destroyed all workers have exited. -/
structure LockKept (s : Pool (lockedProgram V T n) n) : Prop where
  usedAfter : s.mem.usedAfter = false
  destroyedHeld : s.mem.destroyedHeld = false
  joined : s.mem.destroyed = true → ∀ i, s.workers i = .exited

/-- `tree_free` right after `tree_execute`: a worker takes the lock that is
gone. -/
theorem lock_gone (V : Type) (T : Shape ι) (i : Fin n) :
    ∃ s : Pool (lockedProgram V T n) n, (lockedMachine V T n).Reachable s ∧
      s.mem.usedAfter = true := by
  have hnew : Solo (P := lockedProgram V T n) (n := n) (fun _ _ => True) lockedNew (· = .popping)
      (· = .popping) i [] lockedNew := .new _
  have hqueued := hnew.clientPush (x := Caller.execute) rfl fun _ _ => trivial
  have hfreed := hqueued.client (x := Caller.free) rfl fun _ _ => trivial
  have hgate := hfreed.take.go (c := Choice.run)
    (g := LockFrame.outside (.gate ⟨T.root, none, 0⟩)) (fun _ _ => trivial)
    (by simp only [lockedLoop, Frame.locks, treeLoop, if_true]; rfl)
  obtain ⟨s, hr, hs⟩ := hgate.go (c := Choice.run)
    (g := LockFrame.inside (.gate ⟨T.root, none, 0⟩)) (fun _ _ => trivial) rfl
  exact ⟨s, hr.reachable, by rw [hs.mem]; rfl⟩

/-- **The lock is pulled from under the workers** of every tree, unless it
has none. -/
theorem lock_kept_iff :
    (∀ s : Pool (lockedProgram V T n) n, (lockedMachine V T n).Reachable s → LockKept s) ↔
      n = 0 := by
  constructor
  · intro hall
    by_contra hn
    obtain ⟨s, hr, hused⟩ := lock_gone V T (⟨0, Nat.pos_of_ne_zero hn⟩ : Fin n)
    exact absurd ((hall s hr).usedAfter.symm.trans hused) Bool.false_ne_true
  · rintro rfl s hr
    have hgone : ∀ s : Pool (lockedProgram V T 0) 0, ∀ i, s.workers i = .exited := fun _ i =>
      i.elim0
    have hsafe := lock_outlives_users (hr.always (C := RunDown) fun s _ e => by
      cases e with
      | client x => cases x <;> first | trivial | exact .inl (hgone s)
      | loop i | unit i c => trivial)
    exact ⟨hsafe.1, hsafe.2, fun _ => hgone s⟩

/-! ## Runs -/

section Runs

variable {ι : Type} [DecidableEq ι] {T : Shape ι} {n : Nat} (i : Fin n)

/-- Worker `i` takes the first unit of the queue and calls its function. -/
def lockedTake : List (Event (lockedProgram Unit T n) n) := [.loop i, .loop i]

/-- `c` steps of the function worker `i` is in, to which nothing answers. -/
def lockedGo (c : Nat) : List (Event (lockedProgram Unit T n) n) :=
  List.replicate c (.unit i .run)

end Runs

/-- The root's token is given up under `terminated`; then the tree is
freed. -/
def runDownRun : List (Event (lockedProgram Unit chain 1) 1) :=
  .client .execute :: .client .terminate :: lockedTake first ++ lockedGo first 4 ++
    [.loop first, .client .free, .loop first]

example :
    let s := (lockedMachine Unit chain 1).final runDownRun (by decide)
    s.mem.destroyed = true ∧ s.mem.usedAfter = false ∧ s.mem.destroyedHeld = false :=
  ⟨by decide, lock_outlives_users
    ((lockedMachine Unit chain 1).reachableBy_final runDownRun (by decide) (by decide))⟩

/-- `tree_free` right after `tree_execute`: the worker takes a lock that is
gone. A little later: the worker holds it. -/
theorem lock_destroyed_early :
    (∃ s, (lockedMachine Unit chain 1).Reachable s ∧ s.mem.usedAfter = true) ∧
    ∃ s, (lockedMachine Unit chain 1).Reachable s ∧ s.mem.destroyedHeld = true :=
  ⟨⟨_, (lockedMachine Unit chain 1).reachable_final (.client .execute :: .client .free ::
      lockedTake first ++ lockedGo first 2) (by decide), by decide⟩,
    ⟨_, (lockedMachine Unit chain 1).reachable_final (.client .execute :: lockedTake first ++
      lockedGo first 2 ++ [.client .free]) (by decide), by decide⟩⟩

end Loomlib.Tree
