import Loomlib.Pipeline.Model
import Loomlib.ThreadPool.Bag

/-!
# Pipeline — Steps

What one step of `pipeline_loop` can do, said once: `move_cases` inverts
it into the relation `Move`, and every invariant is a case analysis on it.
`client_cases` does the same for the client, and `bagMove_cases` for the
steps of both on the bag of a pipeline.
-/

namespace Loomlib.Pipeline

open ThreadPool (Request Outcome Bag Act)

variable {V : Type} {k n : Nat}

/-- The block the next step of `pipeline_loop` goes through. -/
def Frame.through : Frame V → Option (Ref (State V))
  | .enter d | .dropState d | .freeState d | .advance d _ _ => some d
  | _ => none

/-- The steps of `pipeline_loop`, the two kinds of fault first. -/
inductive Move (k n : Nat) (m : Mem V) :
    Frame V → Mem V → Outcome (Ref (State V)) (Frame V) → Prop where
  | dead {f d} (hf : f.through = some d) (hd : m.heap d.addr = none) :
      Move k n m f { m with fault := true } (.go f)
  | wrap (ha : m.activeLines = 0) : Move k n m .retire { m with fault := true } (.go .retire)
  | enterInlet {d b} (hb : m.heap d.addr = some b) (hst : b.currentStage < 0) :
      Move k n m (.enter d) m (.go (.gate ⟨d.addr, b⟩))
  | enterPump {d b} (hb : m.heap d.addr = some b) (hst : 0 ≤ b.currentStage)
      (hk : b.currentStage < k) : Move k n m (.enter d) m (.go (.callPump ⟨d.addr, b⟩))
  | enterOutlet {d b} (hb : m.heap d.addr = some b) (hst : 0 ≤ b.currentStage)
      (hk : k ≤ b.currentStage) : Move k n m (.enter d) m (.go (.callOutlet ⟨d.addr, b⟩))
  | terminated {d} (ht : m.terminated = true) : Move k n m (.gate d) m (.go (.dropState d))
  | full {d} (ht : m.terminated = false) (hfull : n < m.activeLines) :
      Move k n m (.gate d) m (.go (.defer d))
  | open {d} (ht : m.terminated = false) (hroom : m.activeLines ≤ n) :
      Move k n m (.gate d) { m with activeLines := m.activeLines + 1 } (.go (.callInlet d))
  | dropState {d b} (hb : m.heap d.addr = some b) :
      Move k n m (.dropState d) (m.store d.addr none) .ret
  | defer {d} : Move k n m (.defer d) m (.request (.push d) .done)
  | callInlet {d} : Move k n m (.callInlet d) (m.record .inlet) (.go (.inlet d))
  | inlet {d v} :
      Move k n m (.inlet d) (m.record (.inletRet (some v))) (.go (.restart d v m.injected))
  | dry {d} : Move k n m (.inlet d) (m.record (.inletRet none)) (.go (.freeState d))
  | restart {d v l a} (ha : m.heap a = none) :
      Move k n m (.restart d v l) (m.store a (some ⟨none, d.block.currentStage, 0⟩))
        (.go (.pushInlet d ⟨a, none, d.block.currentStage, 0⟩ v l))
  | pushInlet {d d' v l} :
      Move k n m (.pushInlet d d' v l) m (.request (.push d') (.advance d (some v) l))
  | callPump {d} :
      Move k n m (.callPump d)
        (m.record (.pump d.block.currentStage.toNat d.block.line d.block.product)) (.go (.pump d))
  | pump {d p} :
      Move k n m (.pump d) (m.record (.pumpRet d.block.currentStage.toNat d.block.line p))
        (.go (.advance d p d.block.line))
  | callOutlet {d} :
      Move k n m (.callOutlet d) (m.record (.outlet d.block.line d.block.product))
        (.go (.outlet d))
  | outlet {d} :
      Move k n m (.outlet d) (m.record (.outletRet d.block.line)) (.go (.freeState d))
  | freeState {d b} (hb : m.heap d.addr = some b) :
      Move k n m (.freeState d) (m.store d.addr none) (.go .retire)
  | retire {a} (ha : m.activeLines = a + 2) :
      Move k n m .retire { m with activeLines := a + 1 } (.go .done)
  | retireLast (ha : m.activeLines = 1) :
      Move k n m .retire { m with activeLines := 0 } (.request .terminate .done)
  | advance {d p l b} (hb : m.heap d.addr = some b) :
      Move k n m (.advance d p l) (m.store d.addr (some ⟨p, b.currentStage + 1, l⟩))
        (.go (.push ⟨d.addr, p, b.currentStage + 1, l⟩))
  | push {d} : Move k n m (.push d) m (.request (.push d) .done)
  | done : Move k n m .done m .ret

theorem move_cases {m m' : Mem V} {f : Frame V} {c : Choice V}
    {o : Outcome (Ref (State V)) (Frame V)} (h : pipelineLoop k n m f c = some (m', o)) :
    Move k n m f m' o := by
  cases f <;> simp only [pipelineLoop] at h
  case enter d =>
    split at h
    · rename_i hd; cases h; exact .dead rfl hd
    · rename_i b hb
      cases h
      by_cases h0 : b.currentStage < 0
      · rw [if_pos h0]; exact .enterInlet hb h0
      · rw [if_neg h0]
        by_cases hk : b.currentStage < k
        · rw [if_pos hk]; exact .enterPump hb (by omega) hk
        · rw [if_neg hk]; exact .enterOutlet hb (by omega) (by omega)
  case gate d =>
    split at h
    · rename_i ht; cases h; exact .terminated ht
    · rename_i ht
      simp only [Bool.not_eq_true] at ht
      split at h
      · rename_i hfull; cases h; exact .full ht hfull
      · rename_i hroom; cases h; exact .open ht (by omega)
  case dropState d | freeState d | advance d p l =>
    split at h
    · rename_i hd; cases h; exact .dead rfl hd
    · rename_i hb; cases h; constructor; exact hb
  case inlet d =>
    split at h
    · cases h; exact .inlet
    · cases h; exact .dry
    · cases h
  case restart d v l =>
    split at h
    · split at h
      · rename_i ha
        cases h
        exact .restart (Option.isNone_iff_eq_none.mp ha)
      · cases h
    · cases h
  case pump d | outlet d =>
    split at h
    · cases h; constructor
    · cases h
  case retire =>
    split at h
    · rename_i ha; cases h; exact .wrap ha
    · rename_i a ha
      cases h
      cases a with
      | zero => exact .retireLast ha
      | succ a => exact .retire ha
  all_goals cases h; constructor

/-- The two steps of the client. -/
theorem client_cases {m m' : Mem V} {x : Client} {q : Option (Request (Ref (State V)))}
    (h : client m x = some (m', q)) :
    (x = .terminate ∧ m' = { m with terminated := true } ∧ q = none) ∨
    ∃ a, x = .execute a ∧ m.executed = false ∧ m.heap a = none ∧
      m' = { m.store a (some ⟨none, -1, 0⟩) with executed := true } ∧
      q = some (.push ⟨a, none, -1, 0⟩) := by
  cases x with
  | terminate => cases h; exact .inl ⟨rfl, rfl, rfl⟩
  | execute a =>
    simp only [client] at h
    split at h
    · cases h
    · rename_i hnot
      cases h
      simp only [Bool.or_eq_true, not_or, Bool.not_eq_true, Option.isSome_eq_false_iff,
        Option.isNone_iff_eq_none] at hnot
      exact .inr ⟨a, rfl, hnot.1, hnot.2, rfl, rfl⟩

/-- The steps of the bag of a pipeline. -/
inductive BagMove (k n : Nat) :
    Bag (program V k n) → Act (program V k n) → Bag (program V k n) → Prop where
  | unit {m f c m' o r calls} (h : Move k n m f m' o) :
      BagMove k n ⟨m, f ::ₘ r, calls⟩ (.unit f c) ⟨m', o.frames .enter + r, calls + o.calls⟩
  | terminate {m r calls} :
      BagMove k n ⟨m, r, calls⟩ (.client .terminate) ⟨{ m with terminated := true }, r, calls⟩
  | execute {m a r calls} (hnew : m.executed = false) (ha : m.heap a = none) :
      BagMove k n ⟨m, r, calls⟩ (.client (.execute a))
        ⟨{ m.store a (some ⟨none, -1, 0⟩) with executed := true },
          .enter ⟨a, none, -1, 0⟩ ::ₘ r, calls⟩

theorem bagMove_cases {b b' : Bag (program V k n)} {a : Act (program V k n)}
    (h : Bag.Step b a b') : BagMove k n b a b' := by
  cases h with
  | unit h => exact .unit (move_cases h)
  | client h =>
    obtain ⟨rfl, rfl, -⟩ | ⟨a, -, -, -, -, ⟨⟩⟩ := client_cases h
    exact .terminate
  | clientRequest h =>
    obtain ⟨-, -, ⟨⟩⟩ | ⟨a, rfl, hnew, ha, rfl, ⟨⟩⟩ := client_cases h
    exact .execute hnew ha

end Loomlib.Pipeline
