import Loomlib.Cache.Model
import Loomlib.Core.Mutex
import Loomlib.Core.Tally
import Loomlib.Core.Window

/-!
# Cache — Slots

Where the objects of a shared cache are. The cached ones are a queue in
the slots of the positions from `a` on, counted without wrapping; the
counters are these positions modulo `2 ^ w`, except between the two writes
that move one of them. The two ends meet in slots only: the head end looks
at the oldest entry, which the tail end does not touch, and the tail end
waits for an empty slot, which the head end only makes emptier.
-/

namespace Loomlib.Cache

variable {ι α : Type} [DecidableEq ι] [DecidableEq α] {nmemb w : Nat}

/-- The slot of a position. -/
def slot (nmemb w p : Nat) : Nat := p % 2 ^ w % nmemb

@[simp] theorem mod_slot (p : Nat) : p % 2 ^ w % nmemb = slot nmemb w p := rfl

@[simp] theorem incr_mod (p : Nat) : incr w (p % 2 ^ w) = (p + 1) % 2 ^ w :=
  Nat.mod_add_mod ..

/-- Inside the head end. -/
def PC.inHead : PC α → Bool
  | .alloc .acquire | .alloc .callAlloc => false
  | .alloc _ => true
  | _ => false

/-- Inside the tail end. -/
def PC.inTail : PC α → Bool
  | .free _ .acquire | .free _ .callFree => false
  | .free _ _ => true
  | _ => false

/-- Between the write of the head counter and that of its slot. -/
def PC.midHead : PC α → Bool
  | .alloc (.clear _ _ .counter) | .alloc (.clear _ _ .slot) => true
  | _ => false

/-- Between the write of the tail counter and that of its slot. -/
def PC.midTail : PC α → Bool
  | .free _ (.store _ .counter) | .free _ (.store _ .slot) => true
  | _ => false

/-- What a thread knows at its control point, of a cache whose queue `q`
starts at the position `a`. -/
def PC.Local (nmemb w : Nat) (c : Store α) (a : Nat) (q : List α) : PC α → Prop
  | .alloc (.testSlot head) => head = a % 2 ^ w
  | .alloc .ptrHead => q ≠ []
  | .alloc (.ptrSlot head) => head = a % 2 ^ w ∧ q ≠ []
  | .alloc (.clearHead ptr) => q.head? = ptr ∧ q ≠ []
  | .alloc (.clear ptr head .both) => q.head? = ptr ∧ q ≠ [] ∧ head = a % 2 ^ w
  | .alloc (.clear ptr head .slot) =>
    q.head? = ptr ∧ q ≠ [] ∧ head = a % 2 ^ w ∧ c.head = incr w head
  | .alloc (.clear ptr head .counter) => ptr ≠ none ∧ incr w head = a % 2 ^ w
  | .free _ (.testSlot tail) => tail = (a + q.length) % 2 ^ w
  | .free _ .storeTail => c.table (slot nmemb w (a + q.length)) = none
  | .free _ (.store tail .both) =>
    c.table (slot nmemb w (a + q.length)) = none ∧ tail = (a + q.length) % 2 ^ w
  | .free _ (.store tail .slot) =>
    c.table (slot nmemb w (a + q.length)) = none ∧ tail = (a + q.length) % 2 ^ w ∧
      c.tail = incr w tail
  | .free _ (.store tail .counter) => incr w tail = (a + q.length) % 2 ^ w
  | _ => True

omit [DecidableEq α] in
/-- What another thread knows stands as long as its end of the cache does. -/
theorem PC.Local.frame {c c' : Store α} {a a' : Nat} {q q' : List α} {x : PC α}
    (hx : x.Local nmemb w c a q)
    (hhead : x.inHead = true → a' = a ∧ c'.head = c.head ∧ (q ≠ [] → q'.head? = q.head?))
    (htail : x.inTail = true → a' + q'.length = a + q.length ∧ c'.tail = c.tail ∧
      (c.table (slot nmemb w (a + q.length)) = none →
        c'.table (slot nmemb w (a + q.length)) = none)) :
    x.Local nmemb w c' a' q' := by
  have hne : x.inHead = true → q ≠ [] → q' ≠ [] := by
    rintro hin hq rfl
    exact hq (List.head?_eq_none_iff.mp ((hhead hin).2.2 hq).symm)
  unfold PC.Local at hx ⊢
  split at hx <;> simp only [PC.inHead, PC.inTail] at * <;> grind

structure Slots (nmemb w : Nat) (s : State ι α) (a : Nat) (q : List α) : Prop where
  window : Window (slot nmemb w) s.table a q
  head : (∃ t, (s.pc t).midHead = true) ∨ s.head = a % 2 ^ w
  tail : (∃ t, (s.pc t).midTail = true) ∨ s.tail = (a + q.length) % 2 ^ w
  locals : ∀ t, (s.pc t).Local nmemb w s.toStore a q
  headLock : Mutex s.headLock PC.inHead s.pc
  tailLock : Mutex s.tailLock PC.inTail s.pc

namespace Slots

variable {s s' : State ι α} {a a' : Nat} {q q' : List α} {t : ι} {x y : PC α}

omit [DecidableEq α] in
/-- A step of one thread that leaves the end of the others alone. -/
theorem update (h : Slots nmemb w s a q) (hpc : s'.pc = Function.update s.pc t y)
    (window : Window (slot nmemb w) s'.table a' q')
    (head : (∃ u, (s'.pc u).midHead = true) ∨ s'.head = a' % 2 ^ w)
    (tail : (∃ u, (s'.pc u).midTail = true) ∨ s'.tail = (a' + q'.length) % 2 ^ w)
    (hlocal : y.Local nmemb w s'.toStore a' q')
    (headLock : Mutex s'.headLock PC.inHead s'.pc) (tailLock : Mutex s'.tailLock PC.inTail s'.pc)
    (hhead : ∀ u, u ≠ t → (s.pc u).inHead = true →
      a' = a ∧ s'.head = s.head ∧ (q ≠ [] → q'.head? = q.head?))
    (htail : ∀ u, u ≠ t → (s.pc u).inTail = true →
      a' + q'.length = a + q.length ∧ s'.tail = s.tail ∧
        (s.table (slot nmemb w (a + q.length)) = none →
          s'.table (slot nmemb w (a + q.length)) = none)) : Slots nmemb w s' a' q' where
  window := window
  head := head
  tail := tail
  headLock := headLock
  tailLock := tailLock
  locals u := by
    by_cases hu : u = t
    · subst hu; rw [hpc, Function.update_self]; exact hlocal
    · rw [hpc, Function.update_of_ne hu]
      exact (h.locals u).frame (hhead u hu) (htail u hu)

omit [DecidableEq α] in
/-- A step that touches neither the table nor the counters. -/
theorem quiet (h : Slots nmemb w s a q) (hpc : s'.pc = Function.update s.pc t y)
    (hstore : s'.toStore = s.toStore)
    (hx : s.pc t = x) (hmid : (x.midHead && !y.midHead) = false)
    (hmid' : (x.midTail && !y.midTail) = false)
    (hlocal : y.Local nmemb w s.toStore a q)
    (headLock : Mutex s'.headLock PC.inHead s'.pc)
    (tailLock : Mutex s'.tailLock PC.inTail s'.pc) : Slots nmemb w s' a q :=
  h.update hpc (hstore ▸ h.window)
    (by rw [hstore, hpc]; exact h.head.imp_left (exists_update hx hmid))
    (by rw [hstore, hpc]; exact h.tail.imp_left (exists_update hx hmid'))
    (hstore ▸ hlocal) headLock tailLock
    (fun _ _ _ => ⟨rfl, by rw [hstore], fun _ => rfl⟩)
    (fun _ _ _ => ⟨rfl, by rw [hstore], fun hn => by rw [hstore]; exact hn⟩)

omit [DecidableEq α] in
/-- A step within an end, or outside both. -/
theorem goto (h : Slots nmemb w s a q) (hx : s.pc t = x) (hh : y.inHead = x.inHead)
    (ht : y.inTail = x.inTail) (hmid : (x.midHead && !y.midHead) = false)
    (hmid' : (x.midTail && !y.midTail) = false)
    (hlocal : y.Local nmemb w s.toStore a q) : Slots nmemb w (s.goto t y) a q :=
  h.quiet rfl rfl hx hmid hmid' hlocal (h.headLock.stay hx hh) (h.tailLock.stay hx ht)

omit [DecidableEq ι] [DecidableEq α] in
/-- The head counter, as the thread inside the head end reads it. -/
theorem head_eq (h : Slots nmemb w s a q) (hx : s.pc t = x) (hin : x.inHead = true)
    (hmid : x.midHead = false) : s.head = a % 2 ^ w := by
  subst hx
  apply h.head.resolve_left
  intro hbusy
  obtain ⟨u, hu⟩ := hbusy
  have huin : (s.pc u).inHead = true := by
    unfold PC.midHead at hu
    split at hu <;> simp_all [PC.inHead]
  rw [h.headLock.unique huin hin, hmid] at hu
  cases hu

omit [DecidableEq ι] [DecidableEq α] in
/-- The tail counter, as the thread inside the tail end reads it. -/
theorem tail_eq (h : Slots nmemb w s a q) (hx : s.pc t = x) (hin : x.inTail = true)
    (hmid : x.midTail = false) : s.tail = (a + q.length) % 2 ^ w := by
  subst hx
  apply h.tail.resolve_left
  intro hbusy
  obtain ⟨u, hu⟩ := hbusy
  have huin : (s.pc u).inTail = true := by
    unfold PC.midTail at hu
    split at hu <;> simp_all [PC.inTail]
  rw [h.tailLock.unique huin hin, hmid] at hu
  cases hu

/-! ## The writes -/

omit [DecidableEq α] in
/-- The head end writes its counter. -/
theorem bumpHead (h : Slots nmemb w s a q) {v : Nat} (hx : s.pc t = x)
    (hin : x.inHead = true) (hy : y.inHead = true) (hy' : y.inTail = x.inTail)
    (hmid : (x.midTail && !y.midTail) = false)
    (hcounter : y.midHead = true ∨ v = a % 2 ^ w)
    (hlocal : y.Local nmemb w { s.toStore with head := v } a q) :
    Slots nmemb w ({ s with head := v }.goto t y) a q :=
  h.update rfl h.window (hcounter.imp_left fun hm => ⟨t, by simpa [State.goto] using hm⟩)
    (h.tail.imp_left (exists_update hx hmid)) hlocal (h.headLock.stay hx (hy.trans hin.symm))
    (h.tailLock.stay hx hy')
    (fun _ hu huin => absurd (h.headLock.unique huin (hx ▸ hin)) hu)
    (fun _ _ _ => ⟨rfl, rfl, id⟩)

omit [DecidableEq α] in
/-- The tail end writes its counter. -/
theorem bumpTail (h : Slots nmemb w s a q) {v : Nat} (hx : s.pc t = x)
    (hin : x.inTail = true) (hy : y.inTail = true) (hy' : y.inHead = x.inHead)
    (hmid : (x.midHead && !y.midHead) = false)
    (hcounter : y.midTail = true ∨ v = (a + q.length) % 2 ^ w)
    (hlocal : y.Local nmemb w { s.toStore with tail := v } a q) :
    Slots nmemb w ({ s with tail := v }.goto t y) a q :=
  h.update rfl h.window (h.head.imp_left (exists_update hx hmid))
    (hcounter.imp_left fun hm => ⟨t, by simpa [State.goto] using hm⟩) hlocal
    (h.headLock.stay hx hy') (h.tailLock.stay hx (hy.trans hin.symm))
    (fun _ _ _ => ⟨rfl, rfl, fun _ => rfl⟩)
    (fun _ hu huin => absurd (h.tailLock.unique huin (hx ▸ hin)) hu)

omit [DecidableEq α] in
/-- An empty slot stays empty when a slot is cleared. -/
private theorem clear_none {table : Nat → Option α} {i : Nat} (h : table i = none) (j : Nat) :
    Function.update table j none i = none := by
  by_cases hij : i = j
  · subst hij; exact Function.update_self ..
  · rw [Function.update_of_ne hij]; exact h

omit [DecidableEq α] in
/-- The head end clears its slot, which takes the oldest entry. -/
theorem clear {e : α} (h : Slots nmemb w s a (e :: q)) (hx : s.pc t = x)
    (hin : x.inHead = true) (hy : y.inHead = true) (hy' : y.inTail = x.inTail)
    (hmid : (x.midTail && !y.midTail) = false)
    (hcounter : y.midHead = true ∨ s.head = (a + 1) % 2 ^ w)
    (hlocal : ∀ c, y.Local nmemb w c (a + 1) q) :
    Slots nmemb w ({ s with
      table := Function.update s.table (a % 2 ^ w % nmemb) none }.goto t y) (a + 1) q := by
  have hend : a + 1 + q.length = a + (e :: q).length := by simp; omega
  refine h.update rfl h.window.pop ?_ ?_ (hlocal _) (h.headLock.stay hx (hy.trans hin.symm))
    (h.tailLock.stay hx hy') (fun u hu huin => absurd (h.headLock.unique huin (hx ▸ hin)) hu)
    (fun u _ _ => ⟨hend, rfl, fun hn => clear_none hn _⟩)
  · exact hcounter.imp_left fun hm => ⟨t, by simpa [State.goto] using hm⟩
  · apply (h.tail.imp_left (exists_update hx hmid)).imp_right
    intro htail
    rw [hend]
    exact htail

omit [DecidableEq α] in
/-- The tail end stores in its slot, which was empty. -/
theorem store {e : α} (h : Slots nmemb w s a q) (hx : s.pc t = x)
    (hin : x.inTail = true) (hy : y.inTail = true) (hy' : y.inHead = x.inHead)
    (hmid : (x.midHead && !y.midHead) = false)
    (hfree : s.table (slot nmemb w (a + q.length)) = none)
    (hcounter : y.midTail = true ∨ s.tail = (a + q.length + 1) % 2 ^ w)
    (hlocal : ∀ c, y.Local nmemb w c a (q ++ [e])) :
    Slots nmemb w ({ s with
      table := Function.update s.table ((a + q.length) % 2 ^ w % nmemb) (some e) }.goto t y)
      a (q ++ [e]) := by
  have hhead := h.head.imp_left (exists_update hx hmid)
  refine h.update rfl (h.window.push hfree e) hhead ?_ (hlocal _)
    (h.headLock.stay hx hy') (h.tailLock.stay hx (hy.trans hin.symm))
    (fun u _ _ => ⟨rfl, rfl, ?_⟩)
    (fun u hu huin => absurd (h.tailLock.unique huin (hx ▸ hin)) hu)
  · rw [List.length_append]
    exact hcounter.imp_left fun hm => ⟨t, by simpa [State.goto] using hm⟩
  · intro hne
    obtain ⟨b, l, rfl⟩ := List.exists_cons_of_ne_nil hne
    rfl

end Slots

end Loomlib.Cache
