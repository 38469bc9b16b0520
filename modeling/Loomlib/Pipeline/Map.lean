import Loomlib.Pipeline.Drain
import Loomlib.Pipeline.Lines
import Loomlib.Pipeline.Single
import Mathlib.Data.List.Perm.Subperm

/-!
# Pipeline — Map

What a pipeline computes on any number of workers. Where the pumps are
functions of the product, the outlet is called with the values of the
inlet's products behind all pumps, with each of them once at most, in
whatever order the workers come to them: an unordered map. One worker
keeps the order, two do not.
-/

namespace Loomlib.Pipeline

open ThreadPool

variable {V : Type} {k n : Nat} {pump : Nat → Option V → Option V}

/-- The pumps are functions of the product. What the inlet returns, and
whether the pipeline is terminated, is left open. -/
def Computes (pump : Nat → Option V → Option V) (_ : Bag (program V k n)) :
    Act (program V k n) → Prop
  | .unit (.pump d) (.returns p) => p = pump d.block.currentStage.toNat d.block.product
  | _ => True

instance [DecidableEq V] (b : Bag (program V k n)) : ∀ a, Decidable (Computes pump b a)
  | .unit (.pump d) (.returns p) =>
    inferInstanceAs (Decidable (p = pump d.block.currentStage.toNat d.block.product))
  | .unit (.pump _) .run | .unit (.pump _) (.malloc _) => isTrue trivial
  | .unit (.enter _) _ | .unit (.gate _) _ | .unit (.dropState _) _ | .unit (.defer _) _
  | .unit (.callInlet _) _ | .unit (.inlet _) _ | .unit (.restart ..) _ | .unit (.pushInlet ..) _
  | .unit (.callPump _) _ | .unit (.callOutlet _) _ | .unit (.outlet _) _ | .unit (.freeState _) _
  | .unit .retire _ | .unit (.advance ..) _ | .unit (.push _) _ | .unit .done _ | .client _ =>
    isTrue trivial

/-! ## What the pumps returned -/

/-- An activation inside a pump has called it with the product of its
block. -/
def Frame.Asked (log : List (Routine V)) : Frame V → Prop
  | .pump d => .pump d.block.currentStage.toNat d.block.line d.block.product ∈ log
  | _ => True

theorem Frame.Asked.snoc {log : List (Routine V)} {f : Frame V} (h : f.Asked log)
    (r : Routine V) : f.Asked (log ++ [r]) := by
  cases f with
  | pump d => exact List.mem_append_left _ h
  | _ => trivial

/-- Every return of a pump answers a call of it. -/
structure Answered (pump : Nat → Option V → Option V) (log : List (Routine V))
    (fs : Multiset (Frame V)) : Prop where
  asked : ∀ f ∈ fs, f.Asked log
  returned : ∀ i l q, .pumpRet i l q ∈ log → ∃ p, .pump i l p ∈ log ∧ q = pump i p

section Move

variable {m : Mem V} {f g : Frame V} {r : Multiset (Frame V)}

private theorem Answered.keep (hI : Answered pump m.log (f ::ₘ r)) {gs : Multiset (Frame V)}
    (hg : ∀ g ∈ gs, g.Asked m.log) : Answered pump m.log (gs + r) where
  asked g hmem := (Multiset.mem_add.mp hmem).elim (hg g)
    fun hr => hI.asked g (Multiset.mem_cons_of_mem hr)
  returned := hI.returned

private theorem Answered.record (hI : Answered pump m.log (f ::ₘ r)) {e : Routine V}
    (hg : g.Asked (m.log ++ [e]))
    (he : ∀ i l q, e = .pumpRet i l q → ∃ p, .pump i l p ∈ m.log ∧ q = pump i p) :
    Answered pump (m.log ++ [e]) (g ::ₘ r) where
  asked f' hmem := by
    rcases Multiset.mem_cons.mp hmem with rfl | hr
    · exact hg
    · exact (hI.asked f' (Multiset.mem_cons_of_mem hr)).snoc e
  returned i l q hmem := by
    have hold : ∃ p, .pump i l p ∈ m.log ∧ q = pump i p := by
      rcases List.mem_append.mp hmem with hlog | hlast
      · exact hI.returned i l q hlog
      · exact he i l q (List.mem_singleton.mp hlast).symm
    obtain ⟨p, hp, hq⟩ := hold
    exact ⟨p, List.mem_append_left _ hp, hq⟩

theorem Answered.move {m' : Mem V} {o : Outcome (Ref (State V)) (Frame V)} (h : Move k n m f m' o)
    (hpump : ∀ d, f = .pump d → ∀ e, m'.log = m.log ++ [e] →
      e = .pumpRet d.block.currentStage.toNat d.block.line
        (pump d.block.currentStage.toNat d.block.product))
    (hI : Answered pump m.log (f ::ₘ r)) : Answered pump m'.log (o.frames .enter + r) := by
  have hasked := hI.asked f (Multiset.mem_cons_self _ _)
  cases h with
  | callPump =>
    refine hI.record (List.mem_append_right _ (List.mem_singleton_self _)) ?_
    intro i l q he
    cases he
  | @pump d p =>
    refine hI.record trivial ?_
    intro i l q he
    obtain ⟨rfl, rfl, rfl⟩ := Routine.pumpRet.inj (he.symm.trans (hpump d rfl _ rfl))
    exact ⟨_, hasked, rfl⟩
  | callInlet | inlet | dry | callOutlet | outlet =>
    refine hI.record trivial ?_
    intro i l q he
    cases he
  | dead => exact hI.keep (by simpa using hasked)
  | _ => exact hI.keep (by simp [Frame.Asked])

end Move

theorem pumps_answered {s : Pool (program V k n) n}
    (h : (machine V k n).ReachableBy (OnBag (Computes pump)) s) :
    Answered pump s.mem.log s.bag.frames := by
  refine sound_invariant (I := fun b => Answered pump b.mem.log b.frames) ⟨nofun, nofun⟩ ?_ h
  intro b a b' _ hI hc hs
  cases hs with
  | @unit m f c m' o r calls hstep =>
    refine hI.move (move_cases hstep) ?_
    rintro d rfl e he
    rcases c with _ | _ | p
    · cases hstep
    · cases hstep
    · cases hstep
      obtain rfl : _ = e := List.cons.inj (List.append_cancel_left he) |>.1
      rw [show p = _ from hc]
  | client hx =>
    obtain ⟨-, rfl, -⟩ | ⟨a, -, -, -, -, ⟨⟩⟩ := client_cases hx
    exact hI
  | clientRequest hx =>
    obtain ⟨-, -, ⟨⟩⟩ | ⟨a, -, -, -, rfl, ⟨⟩⟩ := client_cases hx
    refine ⟨?_, hI.returned⟩
    intro f hf
    rcases Multiset.mem_cons.mp hf with rfl | hf
    · trivial
    · exact hI.asked f hf

/-! ## The values of the lines -/

theorem Yields.mono {log log' : List (Routine V)} (hpre : log <+: log') {l i : Nat} {p : Option V}
    (h : Yields log l i p) : Yields log' l i p := by
  obtain ⟨rest, rfl⟩ := hpre
  induction rest using List.reverseRecOn with
  | nil => exact (List.append_nil log).symm ▸ h
  | append_singleton rest r ih => exact List.append_assoc log rest [r] ▸ ih.snoc r

/-- What was called was allowed by what came before. -/
private theorem allowed_of_mem {log : List (Routine V)} (h : Justified (Allowed k) log)
    {r : Routine V} (hr : r ∈ log) : ∃ pre, pre <+: log ∧ Allowed k pre r := by
  obtain ⟨pre, post, rfl⟩ := List.append_of_mem hr
  refine ⟨pre, List.prefix_append _ _, h pre r ?_⟩
  exact ⟨post, by simp⟩

/-- **The value of a line behind `i` pumps** is that of its product. -/
theorem yields_through {log : List (Routine V)} {fs : Multiset (Frame V)}
    (hA : Answered pump log fs) (hJ : Justified (Allowed k) log) {l i : Nat} {p : Option V}
    (h : Yields log l i p) : ∃ v, (products log)[l]? = some v ∧ p = through pump i v := by
  induction i generalizing p with
  | zero =>
    obtain ⟨v, rfl, hv⟩ := h
    exact ⟨v, hv, rfl⟩
  | succ i ih =>
    obtain ⟨q, hq, rfl⟩ := hA.returned i l p h
    obtain ⟨pre, hpre, -, hyields, -⟩ := allowed_of_mem hJ hq
    obtain ⟨v, hv, rfl⟩ := ih (hyields.mono hpre)
    exact ⟨v, hv, rfl⟩

/-! ## The outlet -/

/-- The lines the outlet was called for. -/
def outletLines (log : List (Routine V)) : List Nat :=
  log.filterMap fun r => match r with
    | .outlet l _ => some l
    | _ => none

theorem count_outletLines (m : Mem V) (l : Nat) : (outletLines m.log).count l = m.given l := by
  unfold outletLines Mem.given
  induction m.log with
  | nil => rfl
  | cons r log ih =>
    rcases r with _ | _ | _ | _ | ⟨l', p⟩ | _
    case outlet => simp [List.count_cons, List.countP_cons, ih]
    all_goals simpa using ih

/-- The outlet gets the values of its lines. -/
theorem outletValues_eq {log : List (Routine V)} {f : Nat → Option V}
    (h : ∀ l p, .outlet l p ∈ log → p = f l) : outletValues log = (outletLines log).map f := by
  induction log with
  | nil => rfl
  | cons r log ih =>
    have ih := ih fun l p hp => h l p (List.mem_cons_of_mem _ hp)
    unfold outletValues outletLines at ih ⊢
    rcases r with _ | _ | _ | _ | ⟨l', p⟩ | _
    case outlet => simp [ih, h l' p (List.mem_cons_self ..)]
    all_goals simpa using ih

/-- The value of line `l`. -/
def lineValue (pump : Nat → Option V → Option V) (k : Nat) (log : List (Routine V)) (l : Nat) :
    Option V :=
  (products log)[l]?.bind (through pump k)

theorem map_products (pump : Nat → Option V → Option V) (k : Nat) (m : Mem V) :
    (products m.log).map (through pump k)
      = (List.range m.injected).map (lineValue pump k m.log) := by
  rw [injected_eq]
  refine List.ext_getElem (by simp) ?_
  intro i hi _
  simp only [List.length_map] at hi
  simp [lineValue, hi]

section Lines

variable {s : Pool (program V k n) n}

theorem given_le_one (h : (machine V k n).Reachable s) (l : Nat) : s.mem.given l ≤ 1 := by
  have hC := (sound h).counts
  have hproducts := hC.products l
  have hdeposits := hC.deposits l
  have hle := load_mono (depositing_le_carries l) s.bag.frames
  have hone : s.mem.returned l ≤ 1 := by
    unfold Mem.returned
    split <;> omega
  change _ = s.mem.returned l at hproducts
  change _ = s.mem.given l at hdeposits
  omega

theorem nodup_outletLines (h : (machine V k n).Reachable s) : (outletLines s.mem.log).Nodup := by
  refine List.nodup_iff_count_le_one.mpr ?_
  intro l
  rw [count_outletLines]
  exact given_le_one h l

/-- The outlet is called with the value of the line. -/
theorem outlet_value (h : (machine V k n).ReachableBy (OnBag (Computes pump)) s) {l : Nat}
    {p : Option V} (hp : .outlet l p ∈ s.mem.log) :
    ∃ v, (products s.mem.log)[l]? = some v ∧ p = through pump k v := by
  have hJ := (lines h.reachable).allowed
  obtain ⟨pre, hpre, hyields, -⟩ := allowed_of_mem hJ hp
  exact yields_through (pumps_answered h) hJ (hyields.mono hpre)

theorem outletLines_lt (h : (machine V k n).ReachableBy (OnBag (Computes pump)) s) {l : Nat}
    (hl : l ∈ outletLines s.mem.log) : l < s.mem.injected := by
  have hpos : 0 < s.mem.given l := by
    rw [← count_outletLines]
    exact List.count_pos_iff.mpr hl
  obtain ⟨p, hp⟩ := given_pos.mp hpos
  obtain ⟨v, hv, -⟩ := outlet_value h hp
  rw [injected_eq]
  exact (List.getElem?_eq_some_iff.mp hv).1

/-- When nothing moves and nothing is left, every line has been there. -/
theorem mem_outletLines (h : (machine V k n).Reachable s) (hrest : s.Halted)
    (hq : s.workQueue = []) {l : Nat} (hl : l < s.mem.injected) : l ∈ outletLines s.mem.log := by
  have hS := settled h hrest
  have honce := hS.once l hl
  have hnone : queued (Frame.carries l) s = 0 := by
    rw [queued_sum, hq]
    rfl
  have hgiven := hS.given l
  refine List.count_pos_iff.mp ?_
  rw [count_outletLines]
  omega

end Lines

/-- What a pipeline makes of its products. -/
structure UnorderedMap (pump : Nat → Option V → Option V) (s : Pool (program V k n) n) : Prop where
  /-- The outlet is called with the value of the line. -/
  value : ∀ l p, .outlet l p ∈ s.mem.log →
    ∃ v, (products s.mem.log)[l]? = some v ∧ p = through pump k v
  /-- Every value comes out once at most, -/
  once : (outletValues s.mem.log).Subperm ((products s.mem.log).map (through pump k))
  /-- and has come out when nothing moves and nothing is left in the queue. -/
  complete : s.Halted → s.workQueue = [] →
    (outletValues s.mem.log).Perm ((products s.mem.log).map (through pump k))

/-- **A pipeline is an unordered map**, on any number of workers, under
every schedule, and terminated or not. -/
theorem unordered_map {s : Pool (program V k n) n}
    (h : (machine V k n).ReachableBy (OnBag (Computes pump)) s) : UnorderedMap pump s := by
  have hr := h.reachable
  have hnodup := nodup_outletLines hr
  have hout : outletValues s.mem.log
      = (outletLines s.mem.log).map (lineValue pump k s.mem.log) := by
    refine outletValues_eq ?_
    intro l p hp
    obtain ⟨v, hv, rfl⟩ := outlet_value h hp
    simp only [lineValue, hv, Option.bind_some]
  refine ⟨fun l p hp => outlet_value h hp, ?_, ?_⟩
  · rw [hout, map_products]
    obtain ⟨ls, hperm, hsub⟩ := hnodup.subperm fun l hl => List.mem_range.mpr (outletLines_lt h hl)
    exact ⟨_, hperm.map _, hsub.map _⟩
  · intro hrest hq
    rw [hout, map_products]
    refine List.Perm.map _ ((List.perm_ext_iff_of_nodup hnodup List.nodup_range).mpr ?_)
    intro l
    rw [List.mem_range]
    exact ⟨outletLines_lt h, mem_outletLines hr hrest hq⟩

/-- Two workers and two products: the worker with the first line stops at
the outlet, and the second line overtakes it. -/
def overtaken : List (Event (program Nat 0 2) 2) :=
  .client (.execute 0) :: take first ++ go first 3 ++ .unit first (.returns (some 7)) ::
    .unit first (.malloc 1) :: go first 4 ++ .loop first :: take second ++ go second 3 ++
    .unit second (.returns (some 8)) :: .unit second (.malloc 2) :: go second 4 ++
    .loop second :: take first ++ go first 1 ++ take second ++ go second 3 ++ dryUp second ++
    take second ++ deposit second ++ go second 1 ++ .loop second :: go first 1 ++
    .unit first (.returns none) :: go first 3 ++ List.replicate 9 (.loop first) ++
    List.replicate 7 (.loop second)

/-- Every value comes out, and not in order. -/
theorem unordered_map_overtaken :
    let s := (machine Nat 0 2).final overtaken (by decide)
    s.Halted ∧ outletValues s.mem.log = [some 8, some 7] ∧ products s.mem.log = [7, 8] ∧
      UnorderedMap (fun _ p => p) s :=
  ⟨by decide, by decide, by decide, unordered_map
    ((machine Nat 0 2).reachableBy_final overtaken (by decide) (by decide))⟩

end Loomlib.Pipeline
