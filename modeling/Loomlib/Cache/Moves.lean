import Loomlib.Core.History
import Loomlib.Cache.Slots

/-!
# Cache — Moves

What moves through the cache. An object is stored with the write of its
slot and leaves the cache with the write that clears it: a step that makes
neither write leaves the queue alone, whatever else it does.
-/

namespace Loomlib.Cache

variable {ι α : Type}

/-! ## What is observed -/

/-- A write of a slot. -/
inductive Moved (α : Type) where
  | stored (ptr : α)
  | reused (ptr : α)
  deriving DecidableEq, Repr

/-- The next write of `table[counter++ % nmemb] = ...` is that of the slot. -/
def Left.writesSlot (counterFirst : Bool) : Left → Bool
  | .both => !counterFirst
  | .counter => false
  | .slot => true

/-- The write of a slot that a step makes. -/
def moves (s : State ι α) : Event ι α → List (Moved α)
  | .step t _ counterFirst =>
    match s.pc t with
    | .alloc (.clear (some ptr) _ left) =>
      if left.writesSlot counterFirst then [.reused ptr] else []
    | .free ptr (.store _ left) => if left.writesSlot counterFirst then [.stored ptr] else []
    | _ => []
  | _ => []

/-- The objects that were stored, in this order. -/
def stored (ms : List (Moved α)) : List α :=
  ms.filterMap fun m => match m with
    | .stored ptr => some ptr
    | .reused _ => none

/-- The objects that were taken out again, in this order. -/
def reused (ms : List (Moved α)) : List α :=
  ms.filterMap fun m => match m with
    | .reused ptr => some ptr
    | .stored _ => none

@[simp] theorem stored_nil : stored ([] : List (Moved α)) = [] := rfl

@[simp] theorem reused_nil : reused ([] : List (Moved α)) = [] := rfl

@[simp] theorem stored_append (ms ms' : List (Moved α)) :
    stored (ms ++ ms') = stored ms ++ stored ms' := List.filterMap_append

@[simp] theorem reused_append (ms ms' : List (Moved α)) :
    reused (ms ++ ms') = reused ms ++ reused ms' := List.filterMap_append

@[simp] theorem stored_take (ptr : Option α) : stored (ptr.map Moved.reused).toList = [] := by
  cases ptr <;> rfl

@[simp] theorem reused_take (ptr : Option α) :
    reused (ptr.map Moved.reused).toList = ptr.toList := by
  cases ptr <;> rfl

@[simp] theorem stored_put (ptr : α) : stored [.stored ptr] = [ptr] := rfl

@[simp] theorem reused_put (ptr : α) : reused [.stored ptr] = [] := rfl

section Moves

variable {s : State ι α} {t : ι} {obj : Option α} {first : Bool}

theorem moves_alloc {p : AllocPC α} (hpc : s.pc t = .alloc p)
    (hp : ∀ ptr head left, p ≠ .clear ptr head left) : moves s (.step t obj first) = [] := by
  simp only [moves, hpc]
  split
  · rename_i heq
    exact absurd (PC.alloc.inj heq) (hp _ _ _)
  · rename_i heq
    cases heq
  · rfl

theorem moves_free {ptr : α} {p : FreePC} (hpc : s.pc t = .free ptr p)
    (hp : ∀ tail left, p ≠ .store tail left) : moves s (.step t obj first) = [] := by
  simp only [moves, hpc]
  split
  · rename_i heq
    cases heq
  · rename_i heq
    exact absurd (PC.free.inj heq).2 (hp _ _)
  · rfl

theorem moves_clear {ptr : Option α} {head : Nat} {left : Left}
    (hpc : s.pc t = .alloc (.clear ptr head left)) :
    moves s (.step t obj first)
      = if left.writesSlot first then (ptr.map Moved.reused).toList else [] := by
  cases ptr <;> simp [moves, hpc]

theorem moves_store {ptr : α} {tail : Nat} {left : Left}
    (hpc : s.pc t = .free ptr (.store tail left)) :
    moves s (.step t obj first) = if left.writesSlot first then [.stored ptr] else [] := by
  simp only [moves, hpc]

end Moves

/-! ## One step -/

section Step

variable [DecidableEq ι] {nmemb w : Nat} {s s' : State ι α} {a : Nat} {q : List α} {t : ι}

/-- What a step makes of the queue `q`. -/
def Files (nmemb w : Nat) (s' : State ι α) (q : List α) (ms : List (Moved α)) : Prop :=
  ∃ a' q', Slots nmemb w s' a' q' ∧ q ++ stored ms = reused ms ++ q'

omit [DecidableEq ι] in
private theorem Files.same {ms : List (Moved α)} (hms : ms = []) (h : Slots nmemb w s' a q) :
    Files nmemb w s' q ms :=
  ⟨a, q, h, by rw [hms]; exact List.append_nil q⟩

theorem Slots.allocStep [DecidableEq α] {p : AllocPC α} {obj : Option α} {first : Bool}
    (h : Slots nmemb w s a q) (hpc : s.pc t = .alloc p)
    (hs : s.allocStep nmemb w t obj first p = some s') :
    Files nmemb w s' q (moves s (.step t obj first)) := by
  have hlocal := hpc ▸ h.locals t
  cases p with
  | acquire =>
    simp only [State.allocStep] at hs
    split at hs
    · rename_i hfree
      cases hs
      apply Files.same (a := a) (moves_alloc hpc (by simp))
      exact h.quiet rfl rfl hpc rfl rfl trivial ((hfree ▸ h.headLock).acquire rfl)
        (h.tailLock.stay hpc rfl)
    · cases hs
  | testHead =>
    cases hs
    apply Files.same (a := a) (moves_alloc hpc (by simp))
    exact h.goto hpc rfl rfl rfl rfl (h.head_eq hpc rfl rfl)
  | testSlot hd =>
    obtain rfl : hd = a % 2 ^ w := hlocal
    cases hs
    cases htab : s.table (a % 2 ^ w % nmemb) with
    | none =>
      apply Files.same (a := a) (moves_alloc hpc (by simp))
      exact h.goto hpc rfl rfl rfl rfl trivial
    | some x =>
      apply Files.same (a := a) (moves_alloc hpc (by simp))
      refine h.goto hpc rfl rfl rfl rfl ?_
      rintro rfl
      rw [mod_slot, h.window.front] at htab
      cases htab
  | releaseEmpty =>
    cases hs
    apply Files.same (a := a) (moves_alloc hpc (by simp))
    exact h.quiet rfl rfl hpc rfl rfl trivial (h.headLock.release hpc rfl rfl)
      (h.tailLock.stay hpc rfl)
  | callAlloc =>
    simp only [State.allocStep] at hs
    cases obj with
    | none =>
      cases hs
      apply Files.same (a := a) (moves_alloc hpc (by simp))
      exact h.goto hpc rfl rfl rfl rfl trivial
    | some x =>
      obtain ⟨-, hs⟩ := Option.ite_none_left_eq_some.mp hs
      cases hs
      apply Files.same (a := a) (moves_alloc hpc (by simp))
      exact h.quiet rfl rfl hpc rfl rfl trivial (h.headLock.stay hpc rfl)
        (h.tailLock.stay hpc rfl)
  | ptrHead =>
    cases hs
    apply Files.same (a := a) (moves_alloc hpc (by simp))
    exact h.goto hpc rfl rfl rfl rfl ⟨h.head_eq hpc rfl rfl, hlocal⟩
  | ptrSlot hd =>
    obtain ⟨rfl, hne⟩ : hd = a % 2 ^ w ∧ q ≠ [] := hlocal
    cases hs
    apply Files.same (a := a) (moves_alloc hpc (by simp))
    refine h.goto hpc rfl rfl rfl rfl ⟨?_, hne⟩
    rw [mod_slot, h.window.front]
  | clearHead ptr =>
    cases hs
    apply Files.same (a := a) (moves_alloc hpc (by simp))
    exact h.goto hpc rfl rfl rfl rfl ⟨hlocal.1, hlocal.2, h.head_eq hpc rfl rfl⟩
  | clear ptr hd left =>
    cases left with
    | both =>
      obtain ⟨hq, hne, rfl⟩ : q.head? = ptr ∧ q ≠ [] ∧ hd = a % 2 ^ w := hlocal
      obtain ⟨x, q, rfl⟩ := List.exists_cons_of_ne_nil hne
      cases hq
      cases first with
      | true =>
        cases hs
        apply Files.same (a := a) (moves_clear hpc)
        exact h.bumpHead hpc rfl rfl rfl rfl (.inl rfl) ⟨rfl, hne, rfl, rfl⟩
      | false =>
        cases hs
        refine ⟨a + 1, q, h.clear hpc rfl rfl rfl rfl (.inl rfl) ?_, ?_⟩
        · intro _
          exact ⟨Option.some_ne_none _, incr_mod a⟩
        · rw [moves_clear hpc]
          exact List.append_nil _
    | counter =>
      obtain ⟨-, hcount⟩ : ptr ≠ none ∧ incr w hd = a % 2 ^ w := hlocal
      cases hs
      apply Files.same (a := a) (moves_clear hpc)
      exact h.bumpHead hpc rfl rfl rfl rfl (.inr hcount) trivial
    | slot =>
      obtain ⟨hq, hne, rfl, hcount⟩ :
        q.head? = ptr ∧ q ≠ [] ∧ hd = a % 2 ^ w ∧ s.head = incr w hd := hlocal
      obtain ⟨x, q, rfl⟩ := List.exists_cons_of_ne_nil hne
      cases hq
      cases hs
      have hnext : s.head = (a + 1) % 2 ^ w := hcount.trans (incr_mod a)
      refine ⟨a + 1, q, h.clear hpc rfl rfl rfl rfl (.inr hnext) fun _ => trivial, ?_⟩
      rw [moves_clear hpc]
      exact List.append_nil _
  | release ptr =>
    cases hs
    apply Files.same (a := a) (moves_alloc hpc (by simp))
    exact h.quiet rfl rfl hpc rfl rfl trivial (h.headLock.release hpc rfl rfl)
      (h.tailLock.stay hpc rfl)

theorem Slots.freeStep {ptr : α} {p : FreePC} {obj : Option α} {first : Bool}
    (h : Slots nmemb w s a q) (hpc : s.pc t = .free ptr p)
    (hs : s.freeStep nmemb w t first ptr p = some s') :
    Files nmemb w s' q (moves s (.step t obj first)) := by
  have hlocal := hpc ▸ h.locals t
  cases p with
  | acquire =>
    simp only [State.freeStep] at hs
    split at hs
    · rename_i hfree
      cases hs
      apply Files.same (a := a) (moves_free hpc (by simp))
      exact h.quiet rfl rfl hpc rfl rfl trivial (h.headLock.stay hpc rfl)
        ((hfree ▸ h.tailLock).acquire rfl)
    · cases hs
  | testTail =>
    cases hs
    apply Files.same (a := a) (moves_free hpc (by simp))
    exact h.goto hpc rfl rfl rfl rfl (h.tail_eq hpc rfl rfl)
  | testSlot tl =>
    obtain rfl : tl = (a + q.length) % 2 ^ w := hlocal
    cases hs
    cases htab : s.table ((a + q.length) % 2 ^ w % nmemb) with
    | some x =>
      apply Files.same (a := a) (moves_free hpc (by simp))
      exact h.goto hpc rfl rfl rfl rfl trivial
    | none =>
      apply Files.same (a := a) (moves_free hpc (by simp))
      exact h.goto hpc rfl rfl rfl rfl htab
  | storeTail =>
    cases hs
    apply Files.same (a := a) (moves_free hpc (by simp))
    exact h.goto hpc rfl rfl rfl rfl ⟨hlocal, h.tail_eq hpc rfl rfl⟩
  | store tl left =>
    cases left with
    | both =>
      obtain ⟨hfree, rfl⟩ : s.table (slot nmemb w (a + q.length)) = none ∧
        tl = (a + q.length) % 2 ^ w := hlocal
      cases first with
      | true =>
        cases hs
        apply Files.same (a := a) (moves_store hpc)
        exact h.bumpTail hpc rfl rfl rfl rfl (.inl rfl) ⟨hfree, rfl, rfl⟩
      | false =>
        cases hs
        refine ⟨a, q ++ [ptr], h.store hpc rfl rfl rfl rfl hfree (.inl rfl) ?_, ?_⟩
        · intro _
          rw [PC.Local, incr_mod, List.length_append]
          rfl
        · rw [moves_store hpc]
          rfl
    | counter =>
      have hcount : incr w tl = (a + q.length) % 2 ^ w := hlocal
      cases hs
      apply Files.same (a := a) (moves_store hpc)
      exact h.bumpTail hpc rfl rfl rfl rfl (.inr hcount) trivial
    | slot =>
      obtain ⟨hfree, rfl, hcount⟩ : s.table (slot nmemb w (a + q.length)) = none ∧
        tl = (a + q.length) % 2 ^ w ∧ s.tail = incr w tl := hlocal
      cases hs
      have hnext : s.tail = (a + q.length + 1) % 2 ^ w := hcount.trans (incr_mod _)
      refine ⟨a, q ++ [ptr], h.store hpc rfl rfl rfl rfl hfree (.inr hnext) fun _ => trivial, ?_⟩
      rw [moves_store hpc]
      rfl
  | release | releaseFull =>
    cases hs
    apply Files.same (a := a) (moves_free hpc (by simp))
    exact h.quiet rfl rfl hpc rfl rfl trivial (h.headLock.stay hpc rfl)
      (h.tailLock.release hpc rfl rfl)
  | callFree =>
    cases hs
    apply Files.same (a := a) (moves_free hpc (by simp))
    exact h.quiet rfl rfl hpc rfl rfl trivial (h.headLock.stay hpc rfl)
      (h.tailLock.stay hpc rfl)

/-- **Every step keeps the queue**: it takes the first object, or adds one
behind the last, or leaves it alone. -/
theorem Slots.step [DecidableEq α] (h : Slots nmemb w s a q) {e : Event ι α}
    (hs : Cache.step nmemb w s e = some s') : Files nmemb w s' q (moves s e) := by
  cases e with
  | alloc t =>
    simp only [Cache.step] at hs
    split at hs
    · rename_i hpc
      cases hs
      apply Files.same (a := a) rfl
      exact h.goto hpc rfl rfl rfl rfl trivial
    · cases hs
  | free t ptr =>
    simp only [Cache.step] at hs
    split at hs
    · cases hs
      exact Files.same rfl h
    · rename_i x hpc
      obtain ⟨-, hs⟩ := Option.ite_none_right_eq_some.mp hs
      cases hs
      apply Files.same (a := a) rfl
      exact h.quiet rfl rfl hpc rfl rfl trivial (h.headLock.stay hpc rfl)
        (h.tailLock.stay hpc rfl)
    · cases hs
  | step t obj first =>
    simp only [Cache.step] at hs
    split at hs
    · cases hs
    · rename_i hpc
      exact h.allocStep hpc hs
    · rename_i hpc
      exact h.freeStep hpc hs

omit [DecidableEq ι] in
theorem Slots.new : Slots nmemb w (cacheNew : State ι α) 0 [] where
  window := .empty _ _
  head := .inr (Nat.zero_mod _).symm
  tail := .inr (Nat.zero_mod _).symm
  locals _ := trivial
  headLock _ := iff_of_false nofun nofun
  tailLock _ := iff_of_false nofun nofun

end Step

end Loomlib.Cache
