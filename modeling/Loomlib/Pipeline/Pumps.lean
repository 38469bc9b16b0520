import Loomlib.AsyncList.Contents

/-!
# Pipeline — Pumps

The two arrays of `pipeline_add_pump`, and what they have in common with
the array of `async_list_add`: count, capacity and block agree through
every growth step, so each store has room and no element is lost.

Each call takes `pipe->lock` first and gives it back last. `assert (pipe)`
and `assert (routine)` hold of what callers pass.
-/

namespace Loomlib.Pipeline

open Block AsyncList

/-- The fields of `struct pipeline` that `pipeline_add_pump` uses. -/
structure Pumps (ρ δ : Type) where
  pump : Option (Block ρ)
  pumpData : Option (Block δ)
  numPumps : Nat
  maxPumps : Nat
  deriving DecidableEq, Repr

namespace Pumps

variable {ρ δ : Type}

/-- What `pipeline_new` leaves. -/
def zeroed : Pumps ρ δ := ⟨none, none, 0, 0⟩

/-- The two branches that allocate. `granted` says for each array whether
there is memory; the first two calls of `malloc` are not checked. -/
def reserve (p : Pumps ρ δ) (granted : Bool × Bool) : Except Stop (Pumps ρ δ) :=
  if 0 = p.maxPumps then
    .ok { p with
      maxPumps := 1
      pump := if granted.1 then some (malloc 1) else none
      pumpData := if granted.2 then some (malloc 1) else none }
  else if p.maxPumps ≤ p.numPumps then do
    let p := { p with maxPumps := p.maxPumps * 2 % word }
    Build.debug.assert granted.1
    let p := { p with pump := some (realloc p.pump (slotsOf p.maxPumps)) }
    Build.debug.assert granted.2
    return { p with pumpData := some (realloc p.pumpData (slotsOf p.maxPumps)) }
  else .ok p

def pipelineAddPump (p : Pumps ρ δ) (routine : ρ) (data : δ) (granted : Bool × Bool) :
    Except Stop (Pumps ρ δ) := do
  let p ← reserve p granted
  let pump ← store p.pump p.numPumps routine
  let pumpData ← store p.pumpData p.numPumps data
  return { p with pump := pump, pumpData := pumpData, numPumps := (p.numPumps + 1) % word }

/-- `pipeline_add_pump` for each routine with its data, all memory granted. -/
def pipelineAddPumps (p : Pumps ρ δ) (calls : List (ρ × δ)) : Except Stop (Pumps ρ δ) :=
  calls.foldlM (fun p c => pipelineAddPump p c.1 c.2 (true, true)) p

variable {p : Pumps ρ δ} {calls : List (ρ × δ)}

/-- The two arrays hold what the calls were given, in step. -/
structure Holds (p : Pumps ρ δ) (calls : List (ρ × δ)) : Prop where
  count : p.numPumps = calls.length
  pump : Grown p.pump (calls.map Prod.fst) p.maxPumps
  pumpData : Grown p.pumpData (calls.map Prod.snd) p.maxPumps

theorem Holds.new : Holds (zeroed : Pumps ρ δ) [] :=
  ⟨rfl, .null, .null⟩

/-- A malloc'ed slot is enough for the first item. -/
theorem ready_malloc {α : Type} : Ready (some (malloc 1 : Block α)) [] 1 :=
  ⟨.nil _, room_malloc, .one⟩

theorem Holds.reserve (h : Holds p calls) (hn : 2 * (8 * (calls.length + 1)) ≤ word) :
    ∃ p', reserve p (true, true) = .ok p' ∧ p'.numPumps = calls.length ∧
      Ready p'.pump (calls.map Prod.fst) p'.maxPumps ∧
      Ready p'.pumpData (calls.map Prod.snd) p'.maxPumps := by
  unfold Pumps.reserve
  rw [h.count]
  by_cases hnew : 0 = p.maxPumps
  · rw [if_pos hnew]
    have hnil : calls = [] := by
      by_contra hne
      have hle := (h.pump.capacity (by simpa using hne)).le
      have hpos := List.length_pos_iff.mpr hne
      rw [List.length_map] at hle
      omega
    subst hnil
    exact ⟨_, rfl, rfl, ready_malloc, ready_malloc⟩
  · rw [if_neg hnew]
    by_cases hfull : p.maxPumps ≤ calls.length
    · rw [if_pos hfull]
      obtain ⟨hcap, hbytes⟩ := h.pump.next .one (by simpa using hn) (by simpa using hfull)
      obtain ⟨hcap', hbytes'⟩ := h.pumpData.next .one (by simpa using hn) (by simpa using hfull)
      rw [if_pos (Ne.symm hnew)] at hcap hbytes hcap' hbytes'
      exact ⟨_, rfl, rfl, h.pump.realloc hcap hbytes, h.pumpData.realloc hcap' hbytes'⟩
    · rw [if_neg hfull]
      exact ⟨p, rfl, h.count, h.pump.ready (by simpa using hfull),
        h.pumpData.ready (by simpa using hfull)⟩

theorem Holds.add (h : Holds p calls) (hn : 2 * (8 * (calls.length + 1)) ≤ word) (routine : ρ)
    (data : δ) : ∃ p', pipelineAddPump p routine data (true, true) = .ok p' ∧
      Holds p' (calls ++ [(routine, data)]) := by
  obtain ⟨r, hr, hcount, hpump, hdata⟩ := h.reserve hn
  obtain ⟨q, hq, hgrown⟩ := hpump.store routine
  obtain ⟨q', hq', hgrown'⟩ := hdata.store data
  rw [List.length_map] at hq hq'
  refine ⟨⟨q, q', (r.numPumps + 1) % word, r.maxPumps⟩, ?_, ?_, ?_, ?_⟩
  · simp only [pipelineAddPump, hr, hcount, hq, hq', bind, Except.bind, pure, Except.pure]
  · rw [List.length_append, hcount]
    exact Nat.mod_eq_of_lt (by omega)
  · simpa using hgrown
  · simpa using hgrown'

/-- **Every pump is kept with its data**, whatever the number of growth
steps. -/
theorem Holds.adds (h : Holds p calls) (more : List (ρ × δ))
    (hn : 2 * (8 * (calls.length + more.length)) ≤ word) :
    ∃ p', pipelineAddPumps p more = .ok p' ∧ Holds p' (calls ++ more) := by
  induction more generalizing p calls with
  | nil => exact ⟨p, rfl, by simpa using h⟩
  | cons c more ih =>
    obtain ⟨routine, data⟩ := c
    rw [List.length_cons] at hn
    obtain ⟨p₁, hadd, h₁⟩ := h.add (by omega) routine data
    have hlen : (calls ++ [(routine, data)]).length = calls.length + 1 := List.length_append
    obtain ⟨p₂, hadds, h₂⟩ := ih h₁ (by omega)
    refine ⟨p₂, ?_, by simpa using h₂⟩
    rw [pipelineAddPumps, List.foldlM_cons, hadd]
    exact hadds

/-- What becomes of the pumps: the `i`-th slots of the two arrays are from
the `i`-th call, and every store was inside the blocks last requested. -/
structure Kept (calls : List (ρ × δ)) : Prop where
  kept : ∃ p, pipelineAddPumps zeroed calls = .ok p ∧ Holds p calls
  inside : ∀ pre c, pre ++ [c] <+: calls → ∃ p p', pipelineAddPumps zeroed pre = .ok p ∧
    Pumps.reserve p (true, true) = .ok p' ∧ p'.numPumps < room p'.pump ∧
    p'.numPumps < room p'.pumpData

theorem kept_of_le (hn : 2 * (8 * calls.length) ≤ word) : Kept calls where
  kept := by
    have hadds := Holds.new.adds calls (by simpa using hn)
    rwa [List.nil_append] at hadds
  inside pre c hpre := by
    have hle := hpre.length_le
    rw [List.length_append, List.length_singleton] at hle
    obtain ⟨p, hp, hholds⟩ := Holds.new.adds pre (by simp; omega)
    rw [List.nil_append] at hholds
    obtain ⟨p', hp', hcount, hpump, hdata⟩ := hholds.reserve (by omega)
    have hlt := hpump.lt_room
    have hlt' := hdata.lt_room
    rw [List.length_map] at hlt hlt'
    exact ⟨p, p', hp, hp', hcount ▸ hlt, hcount ▸ hlt'⟩

end Pumps

/-- **The growable arrays keep every element** as long as the doubled byte
size can be represented, whether they start with two slots or with one, and
never store outside their block. -/
theorem arrays_keep_elements {α ρ δ : Type} (items : List α) (calls : List (ρ × δ))
    (hitems : 2 * (8 * items.length) ≤ word) (hcalls : 2 * (8 * calls.length) ≤ word) :
    AsyncList.Kept items ∧ Pumps.Kept calls :=
  ⟨AsyncList.kept_of_le hitems, Pumps.kept_of_le hcalls⟩

/-- Three items fill a list of four slots but one, and three pumps two
arrays of four. -/
theorem arrays_keep_three :
    (AsyncList.Kept [5, 6, 7] ∧ Pumps.Kept [(1, 2), (3, 4), (5, 6)]) ∧
    asyncListAdds .debug AsyncList.zeroed [5, 6, 7]
      = .ok ⟨some [some 5, some 6, some 7, none], 3, 4⟩ ∧
    Pumps.pipelineAddPumps Pumps.zeroed [(1, 2), (3, 4), (5, 6)]
      = .ok ⟨some [some 1, some 3, some 5, none], some [some 2, some 4, some 6, none], 3, 4⟩ :=
  ⟨arrays_keep_elements [5, 6, 7] [(1, 2), (3, 4), (5, 6)] (by decide) (by decide), rfl, rfl⟩

end Loomlib.Pipeline
