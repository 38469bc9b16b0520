import Loomlib.Core.Mutex
import Loomlib.LinkedQueue.Steps

/-!
# LinkedQueue — Shape

The heap invariant of the queue. From `head` a chain of nodes carries the
items linked and not yet taken; `tail` is the end of the chain, unless a
push has linked its node and not moved `tail` yet, when it may be any
address, freed ones included. A push owns its node until it links it, a
pop owns the old dummy from moving `head` until it frees it. `Local` says
what a thread knows at its control point.

The step lemma asks only that no two threads are inside the same end of
the queue. Locks give this for beta and gamma.
-/

namespace Loomlib.LinkedQueue

variable {ι α : Type} [DecidableEq ι]

/-- Inside the tail end: from reading `tail` until it is released. -/
def PC.inTail : PC α → Bool
  | .push (.readTail _ _) | .push (.setNext _ _ _) | .push (.setTail _) | .push .release => true
  | _ => false

/-- Inside the head end: from the test of `head->next` until it is
released, except while asleep. -/
def PC.inHead : PC α → Bool
  | .pop _ .acquire | .pop _ .asleep | .pop _ .woken | .pop _ (.free _ _) => false
  | .pop _ _ => true
  | _ => false

/-- The node only this thread refers to. -/
def PC.owns : PC α → Option Nat
  | .push (.setItem _ new) | .push (.acquire _ new) | .push (.readTail _ new)
  | .push (.setNext _ new _) => some new
  | .pop _ (.release _ temp) | .pop _ (.free _ temp) => some temp
  | _ => none

theorem PC.owns_wake (x : PC α) : x.wake.owns = x.owns := by
  unfold wake
  split <;> rfl

/-- Its node is linked and `tail` not moved yet. -/
def PC.linking : PC α → Bool
  | .push (.setTail _) => true
  | _ => false

/-- What a thread knows at its control point, of a queue whose chain goes
from `head` through `rest`. -/
def PC.Local (h : Heap (Option α)) (head tail : Nat) (rest : List (Nat × Option α)) :
    PC α → Prop
  | .push (.setItem _ new) => h new = some ⟨none, none⟩
  | .push (.acquire item new) | .push (.readTail item new) => h new = some ⟨item, none⟩
  | .push (.setNext item new tl) => h new = some ⟨item, none⟩ ∧ tl = tail
  | .push (.setTail new) => endOf head rest = new
  | .pop _ (.testNext hd) | .pop _ (.loopNext hd) => hd = head
  | .pop _ .itemHead => rest ≠ []
  | .pop _ (.itemNext hd) => hd = head ∧ rest ≠ []
  | .pop _ (.itemRead next) => ∃ item, rest.head? = some (next, item)
  | .pop _ (.setTemp item) => ∃ next, rest.head? = some (next, item)
  | .pop _ (.advanceHead item temp) => (∃ next, rest.head? = some (next, item)) ∧ temp = head
  | .pop _ (.advanceNext item temp hd) =>
    (∃ next, rest.head? = some (next, item)) ∧ temp = head ∧ hd = head
  | .pop _ (.setHead item temp next) => rest.head? = some (next, item) ∧ temp = head
  | .pop _ (.release _ temp) | .pop _ (.free _ temp) => h temp ≠ none
  | _ => True

/-- What a thread owns is live. -/
theorem PC.Local.live {h : Heap (Option α)} {head tail : Nat} {rest : List (Nat × Option α)}
    {x : PC α} (hx : x.Local h head tail rest) {a : Nat} (ha : x.owns = some a) : h a ≠ none := by
  revert hx ha
  unfold PC.Local PC.owns
  split <;> intro hx ha <;> simp_all

/-- What a pop is going to read is the dummy, the first node after it, or
its own. -/
theorem PC.Local.reads {h : Heap (Option α)} {head tail : Nat} {rest : List (Nat × Option α)}
    {x : PC α} (hx : x.Local h head tail rest) {a : Nat} (ha : x.reads = some a) :
    a = head ∨ (∃ item, rest.head? = some (a, item)) ∨ h a ≠ none := by
  revert hx ha
  unfold PC.Local PC.reads
  split <;> intro hx ha <;> simp_all

/-- Where it takes `next` to be there, an item is. -/
theorem PC.Local.follows {h : Heap (Option α)} {head tail : Nat} {rest : List (Nat × Option α)}
    {x : PC α} (hx : x.Local h head tail rest) {a : Nat} (ha : x.follows = some a) :
    a = head ∧ rest ≠ [] := by
  revert hx ha
  unfold PC.Local PC.follows
  split <;> intro hx ha <;> simp_all
  rintro rfl
  obtain ⟨⟨next, hq⟩, -⟩ := hx
  cases hq

/-- What another thread knows stands as long as its node, and the end of
the queue it is inside of, stand. -/
theorem PC.Local.frame {h h' : Heap (Option α)} {head head' tail tail' : Nat}
    {rest rest' : List (Nat × Option α)} {x : PC α} (hx : x.Local h head tail rest)
    (hown : ∀ a, x.owns = some a → h' a = h a)
    (htail : x.inTail = true → tail' = tail ∧ endOf head' rest' = endOf head rest)
    (hhead : x.inHead = true → head' = head ∧ (rest ≠ [] → rest'.head? = rest.head?)) :
    x.Local h' head' tail' rest' := by
  have hsome : x.inHead = true → ∀ a i, rest.head? = some (a, i) → rest'.head? = some (a, i) := by
    intro hin a i hq
    exact ((hhead hin).2 (by rintro rfl; cases hq)).trans hq
  have hne : x.inHead = true → rest ≠ [] → rest' ≠ [] := by
    rintro hin hrest rfl
    exact hrest (List.head?_eq_none_iff.mp ((hhead hin).2 hrest).symm)
  unfold PC.Local at hx ⊢
  split at hx <;> simp only [PC.owns, PC.inTail, PC.inHead] at * <;> grind

/-- The addresses of the chain. -/
abbrev nodes (head : Nat) (rest : List (Nat × Option α)) : List Nat :=
  head :: rest.map Prod.fst

/-- The list in the heap holds what was linked and not taken, and every
thread is right about its part of it. -/
structure Shape (s : Queue ι α) (x : Option α) (rest : List (Nat × Option α)) : Prop where
  chain : Chain s.heap (s.head, x) rest
  nodup : (nodes s.head rest).Nodup
  linked : s.linked = s.taken ++ rest.map Prod.snd
  tail : (∃ t, (s.pc t).linking = true) ∨ endOf s.head rest = s.tail
  locals : ∀ t, (s.pc t).Local s.heap s.head s.tail rest
  owned : ∀ t a, (s.pc t).owns = some a → a ∉ nodes s.head rest
  apart : ∀ t u a, (s.pc t).owns = some a → (s.pc u).owns = some a → t = u
  sound : s.fault = false

/-- No two threads are inside the same end. -/
structure Exclusive (s : Queue ι α) : Prop where
  tail : ∀ t u, (s.pc t).inTail = true → (s.pc u).inTail = true → t = u
  head : ∀ t u, (s.pc t).inHead = true → (s.pc u).inHead = true → t = u

theorem PC.inTail_of_linking {x : PC α} (hx : x.linking = true) : x.inTail = true := by
  unfold PC.linking at hx
  split at hx
  · rfl
  · cases hx

namespace Shape

variable {s s' : Queue ι α} {x x' : Option α} {rest rest' : List (Nat × Option α)} {t : ι}
  {p y : PC α}

/-- A step of one thread that leaves the others' nodes and their end of
the queue alone. -/
theorem update (h : Shape s x rest) (hpc : s'.pc = Function.update s.pc t y)
    (chain : Chain s'.heap (s'.head, x') rest') (nodup : (nodes s'.head rest').Nodup)
    (linked : s'.linked = s'.taken ++ rest'.map Prod.snd)
    (tail : (∃ u, (s'.pc u).linking = true) ∨ endOf s'.head rest' = s'.tail)
    (sound : s'.fault = false)
    (hlocal : y.Local s'.heap s'.head s'.tail rest')
    (hfresh : ∀ a, y.owns = some a →
      a ∉ nodes s'.head rest' ∧ ∀ u, u ≠ t → (s.pc u).owns ≠ some a)
    (hown : ∀ u, u ≠ t → ∀ a, (s.pc u).owns = some a →
      s'.heap a = s.heap a ∧ a ∉ nodes s'.head rest')
    (htail : ∀ u, u ≠ t → (s.pc u).inTail = true →
      s'.tail = s.tail ∧ endOf s'.head rest' = endOf s.head rest)
    (hhead : ∀ u, u ≠ t → (s.pc u).inHead = true →
      s'.head = s.head ∧ (rest ≠ [] → rest'.head? = rest.head?)) : Shape s' x' rest' where
  chain := chain
  nodup := nodup
  linked := linked
  tail := tail
  sound := sound
  locals u := by
    by_cases hu : u = t
    · subst hu; rw [hpc, Function.update_self]; exact hlocal
    · rw [hpc, Function.update_of_ne hu]
      exact (h.locals u).frame (fun a ha => (hown u hu a ha).1) (htail u hu) (hhead u hu)
  owned u a ha := by
    by_cases hu : u = t
    · subst hu; rw [hpc, Function.update_self] at ha; exact (hfresh a ha).1
    · rw [hpc, Function.update_of_ne hu] at ha; exact (hown u hu a ha).2
  apart u v a hu hv := by
    rw [hpc] at hu hv
    by_cases hut : u = t <;> by_cases hvt : v = t
    · rw [hut, hvt]
    · subst hut
      rw [Function.update_self] at hu
      rw [Function.update_of_ne hvt] at hv
      exact absurd hv ((hfresh a hu).2 v hvt)
    · subst hvt
      rw [Function.update_self] at hv
      rw [Function.update_of_ne hut] at hu
      exact absurd hu ((hfresh a hv).2 u hut)
    · rw [Function.update_of_ne hut] at hu
      rw [Function.update_of_ne hvt] at hv
      exact h.apart u v a hu hv

omit [DecidableEq ι] in
/-- The locks and the returned pops are no part of the shape. -/
theorem relock (h : Shape s x rest) (hl tl : Option ι) (r : List (Return α)) :
    Shape { s with headLock := hl, tailLock := tl, returned := r } x rest :=
  ⟨h.chain, h.nodup, h.linked, h.tail, h.locals, h.owned, h.apart, h.sound⟩

/-- A step that changes no more than its thread's control point, and links
and owns nothing new. -/
theorem goto (h : Shape s x rest) (hp : s.pc t = p) (hlink : (p.linking && !y.linking) = false)
    (hlocal : y.Local s.heap s.head s.tail rest) (hown : y.owns = none ∨ y.owns = p.owns) :
    Shape (s.goto t y) x rest := by
  subst hp
  have hown : ∀ a, y.owns = some a → (s.pc t).owns = some a := by
    intro a ha
    rcases hown with hnone | heq
    · cases hnone.symm.trans ha
    · exact heq.symm.trans ha
  exact h.update rfl h.chain h.nodup h.linked
    (h.tail.imp_left (exists_update rfl hlink)) h.sound hlocal
    (fun a ha => ⟨h.owned t a (hown a ha), fun u hu hua => hu (h.apart u t a hua (hown a ha))⟩)
    (fun u _ a ha => ⟨rfl, h.owned u a ha⟩) (fun _ _ _ => ⟨rfl, rfl⟩)
    (fun _ _ _ => ⟨rfl, fun _ => rfl⟩)

/-! ## The steps that write -/

/-- `calloc` -/
theorem alloc (h : Shape s x rest) {item : Option α} {a : Nat} (hpc : s.pc t = .push (.alloc item))
    (hfree : s.heap a = none) :
    Shape ({ s with heap := Function.update s.heap a (some ⟨none, none⟩) }.goto t
      (.push (.setItem item a))) x rest := by
  have hnew : a ∉ nodes s.head rest := by
    intro hm
    exact h.chain.allocated hm hfree
  have hnone : ∀ u, (s.pc u).owns ≠ some a := by
    intro u hu
    exact (h.locals u).live hu hfree
  refine h.update rfl (h.chain.frame hnew _) h.nodup h.linked
    (h.tail.imp_left (exists_update hpc rfl)) h.sound
    (Function.update_self ..) ?_ ?_
    (fun _ _ _ => ⟨rfl, rfl⟩) (fun _ _ _ => ⟨rfl, fun _ => rfl⟩)
  · intro b hb
    cases hb
    exact ⟨hnew, fun u _ => hnone u⟩
  · intro u _ b hb
    have hba : b ≠ a := by
      intro heq
      subst heq
      exact hnone u hb
    exact ⟨Function.update_of_ne hba _ _, h.owned u b hb⟩

/-- A write to the thread's own node. -/
theorem own (h : Shape s x rest) {a : Nat} {nd : Node (Option α)} (hp : s.pc t = p)
    (hlink : (p.linking && !y.linking) = false) (ha : p.owns = some a) (hy : y.owns = some a)
    (hlocal : y.Local (Function.update s.heap a (some nd)) s.head s.tail rest) :
    Shape ({ s with heap := Function.update s.heap a (some nd) }.goto t y) x rest := by
  subst hp
  have hnew := h.owned t a ha
  refine h.update rfl (h.chain.frame hnew _) h.nodup h.linked
    (h.tail.imp_left (exists_update rfl hlink)) h.sound
    hlocal ?_ ?_
    (fun _ _ _ => ⟨rfl, rfl⟩) (fun _ _ _ => ⟨rfl, fun _ => rfl⟩)
  · intro b hb
    cases hy.symm.trans hb
    exact ⟨hnew, fun u hu hua => hu (h.apart u t a hua ha)⟩
  · intro u hu b hb
    have hba : b ≠ a := by
      intro heq
      subst heq
      exact hu (h.apart u t b hb ha)
    exact ⟨Function.update_of_ne hba _ _, h.owned u b hb⟩

/-- `queue->tail->next = new`: nobody else is between the two writes of a
push, so `tail` is the end of the chain. -/
theorem setNext (h : Shape s x rest) (he : Exclusive s) {item : Option α} {new tail : Nat}
    (hpc : s.pc t = .push (.setNext item new tail)) :
    Shape ({ s.store tail (fun nd => { nd with next := some new }) with
      linked := s.linked ++ [item] }.goto t (.push (.setTail new))) x (rest ++ [(new, item)]) := by
  obtain ⟨hnd, rfl⟩ : s.heap new = some ⟨item, none⟩ ∧ tail = s.tail := by
    simpa [hpc, PC.Local] using h.locals t
  have hnew : new ∉ nodes s.head rest := h.owned t new (by rw [hpc]; rfl)
  have hend : endOf s.head rest = s.tail := by
    apply h.tail.resolve_left
    intro hlinking
    obtain ⟨u, hu⟩ := hlinking
    obtain rfl := he.tail u t (PC.inTail_of_linking hu) (by rw [hpc]; rfl)
    rw [hpc] at hu
    cases hu
  obtain ⟨nd, htail⟩ := Option.ne_none_iff_exists'.mp
    (h.chain.allocated (a := s.tail) (hend ▸ endOf_mem _ _))
  have hmem : s.tail ∈ nodes s.head rest := hend ▸ endOf_mem _ _
  have hstore : s.store s.tail (fun nd => { nd with next := some new })
      = { s with heap := Function.update s.heap s.tail (some { nd with next := some new }) } := by
    simp [Queue.store, htail]
  rw [hstore]
  have hnodes : nodes s.head (rest ++ [(new, item)]) = nodes s.head rest ++ [new] := by
    simp [nodes]
  have hchain : Chain (Function.update s.heap s.tail (some { nd with next := some new }))
      (s.head, x) (rest ++ [(new, item)]) := by
    rw [← hend] at htail ⊢
    exact h.chain.link (q := (new, item)) h.nodup hnd hnew htail
  have hnodup : (nodes s.head (rest ++ [(new, item)])).Nodup := by
    rw [hnodes]
    refine List.nodup_append.mpr ⟨h.nodup, List.nodup_singleton _, ?_⟩
    rintro a ha b hb rfl
    exact hnew (List.mem_singleton.mp hb ▸ ha)
  refine h.update rfl hchain hnodup ?_ (.inl ⟨t, ?_⟩) h.sound (endOf_append _ _ _) nofun
    ?_ ?_ (fun u _ _ => ⟨rfl, ?_⟩)
  · simp [Queue.goto, h.linked]
  · simp [Queue.goto, PC.linking]
  · intro u hu b hb
    have hb' := h.owned u b hb
    have hbt : b ≠ s.tail := by
      intro heq
      subst heq
      exact hb' hmem
    have hbn : b ≠ new := by
      rintro rfl
      exact hu (h.apart u t b hb (by rw [hpc]; rfl))
    refine ⟨Function.update_of_ne hbt _ _, ?_⟩
    intro hm
    rcases List.mem_append.mp (hnodes ▸ hm) with hm | hm
    · exact hb' hm
    · exact hbn (List.mem_singleton.mp hm)
  · intro u hu hin
    exact absurd (he.tail u t hin (by rw [hpc]; rfl)) hu
  · intro hne
    obtain ⟨q, qs, rfl⟩ := List.exists_cons_of_ne_nil hne
    rfl

/-- `queue->tail = new` -/
theorem setTail (h : Shape s x rest) (he : Exclusive s) {new : Nat}
    (hpc : s.pc t = .push (.setTail new)) (hlocal : y.Local s.heap s.head new rest)
    (hy : y.owns = none) : Shape ({ s with tail := new }.goto t y) x rest := by
  have hend : endOf s.head rest = new := by
    simpa [hpc, PC.Local] using h.locals t
  refine h.update rfl h.chain h.nodup h.linked (.inr hend) h.sound hlocal
    ?_ (fun u _ a ha => ⟨rfl, h.owned u a ha⟩)
    ?_ (fun _ _ _ => ⟨rfl, fun _ => rfl⟩)
  · intro a ha
    cases hy.symm.trans ha
  · intro u hu hin
    exact absurd (he.tail u t hin (by rw [hpc]; rfl)) hu

/-- `queue->head = queue->head->next`: the old dummy is the thread's, the
node of the item is the new dummy. -/
theorem setHead (h : Shape s x rest) (he : Exclusive s) {w : Bool} {item : Option α}
    {temp next : Nat} (hpc : s.pc t = .pop w (.setHead item temp next))
    (hy : y = .pop w (.release item temp) ∨ y = .pop w (.free item temp)) :
    ∃ rest', Shape ({ s with head := next, taken := s.taken ++ [item] }.goto t y) item rest' := by
  obtain ⟨hrest, rfl⟩ : rest.head? = some (next, item) ∧ temp = s.head := by
    simpa [hpc, PC.Local] using h.locals t
  cases rest with
  | nil => cases hrest
  | cons q rest' =>
  cases hrest
  have hhead : s.head ∉ nodes next rest' := (List.nodup_cons.mp h.nodup).1
  have howns : y.owns = some s.head := by rcases hy with rfl | rfl <;> rfl
  refine ⟨rest', h.update rfl h.chain.2 (List.nodup_cons.mp h.nodup).2 ?_
    (h.tail.imp_left (exists_update hpc rfl)) h.sound ?_ ?_
    (fun u _ a ha => ⟨rfl, fun hm => h.owned u a ha (List.mem_cons_of_mem _ hm)⟩)
    (fun _ _ _ => ⟨rfl, rfl⟩) ?_⟩
  · simp [Queue.goto, h.linked]
  · have hlive : s.heap s.head ≠ none := h.chain.allocated List.mem_cons_self
    rcases hy with rfl | rfl <;> exact hlive
  · intro a ha
    cases howns.symm.trans ha
    exact ⟨hhead, fun u _ hua => h.owned u _ hua List.mem_cons_self⟩
  · intro u hu hin
    exact absurd (he.head u t hin (by rw [hpc]; rfl)) hu

/-- `free (temp)` -/
theorem free (h : Shape s x rest) {w : Bool} {item : Option α} {temp : Nat}
    (hpc : s.pc t = .pop w (.free item temp)) :
    Shape ({ s with heap := Function.update s.heap temp none }.goto t .idle) x rest := by
  have howns : (s.pc t).owns = some temp := by rw [hpc]; rfl
  refine h.update rfl (h.chain.frame (h.owned t temp howns) _) h.nodup h.linked
    (h.tail.imp_left (exists_update hpc rfl)) h.sound trivial nofun
    ?_ (fun _ _ _ => ⟨rfl, rfl⟩) (fun _ _ _ => ⟨rfl, fun _ => rfl⟩)
  intro u hu b hb
  have hbt : b ≠ temp := by
    intro heq
    subst heq
    exact hu (h.apart u t b hb howns)
  exact ⟨Function.update_of_ne hbt _ _, h.owned u b hb⟩

omit [DecidableEq ι] in
/-- `loomlib_cond_broadcast` -/
theorem wake (h : Shape s x rest) : Shape { s with pc := fun u => (s.pc u).wake } x rest := by
  have hlink : ∀ y : PC α, y.wake.linking = y.linking := by
    intro y; unfold PC.wake; split <;> rfl
  have hlocal : ∀ y : PC α, y.Local s.heap s.head s.tail rest →
      y.wake.Local s.heap s.head s.tail rest := by
    intro y hy
    unfold PC.wake
    split
    · trivial
    · exact hy
  exact {
    chain := h.chain, nodup := h.nodup, linked := h.linked, sound := h.sound
    tail := by simpa only [hlink] using h.tail
    locals := fun t => hlocal _ (h.locals t)
    owned := fun t a ha => h.owned t a (PC.owns_wake _ ▸ ha)
    apart := fun t u a ht hu => h.apart t u a (PC.owns_wake _ ▸ ht) (PC.owns_wake _ ▸ hu) }

/-! ## Every step -/

omit [DecidableEq ι] in
theorem reads_live (h : Shape s x rest) {a : Nat} (ha : (s.pc t).reads = some a) :
    s.heap a ≠ none := by
  rcases (h.locals t).reads ha with rfl | ⟨item, hq⟩ | hlive
  · exact h.chain.allocated List.mem_cons_self
  · cases rest with
    | nil => cases hq
    | cons q rest =>
      cases hq
      exact h.chain.allocated (List.mem_cons_of_mem _ List.mem_cons_self)
  · exact hlive

omit [DecidableEq ι] in
theorem follows_next (h : Shape s x rest) {a : Nat} (ha : (s.pc t).follows = some a)
    {nd : Node (Option α)} (hnd : s.heap a = some nd) : nd.next ≠ none := by
  obtain ⟨rfl, hne⟩ := (h.locals t).follows ha
  obtain ⟨q, rest, rfl⟩ := List.exists_cons_of_ne_nil hne
  cases h.chain.head.symm.trans hnd
  exact Option.some_ne_none _

/-- **Every step keeps the shape**, provided no two threads were inside
the same end. -/
theorem move (h : Shape s x rest) (he : Exclusive s) {fl : Flavour} (hpc : s.pc t = p)
    (hm : Move fl s t p s') : ∃ x' rest', Shape s' x' rest' := by
  have hlocal := hpc ▸ h.locals t
  -- what is read through `head`
  have hhead : ∀ {nd}, s.heap s.head = some nd → nd.next = rest.head?.map Prod.fst := by
    intro nd hnd
    cases h.chain.head.symm.trans hnd
    rfl
  have hne : ∀ {nd next}, s.heap s.head = some nd → nd.next = some next → rest ≠ [] := by
    rintro nd next hnd hn rfl
    cases (hhead hnd).symm.trans hn
  -- the steps that write nothing, or only a lock
  have hgoto : ∀ {y : PC α} {hl tl r}, (p.linking && !y.linking) = false →
      (y.owns = none ∨ y.owns = p.owns) → y.Local s.heap s.head s.tail rest →
      ∃ x' rest', Shape
        ({ s with headLock := hl, tailLock := tl, returned := r }.goto t y) x' rest' :=
    fun {y hl tl r} hlink hown hy => ⟨x, rest, (h.relock hl tl r).goto hpc hlink hy hown⟩
  cases hm with
  | dead hx hd => exact absurd hd (h.reads_live (hpc ▸ hx))
  | noNext hx hnd hn => exact absurd hn (h.follows_next (hpc ▸ hx) hnd)
  | alloc ha => exact ⟨x, rest, h.alloc hpc ha⟩
  | setItem | setItemAlpha =>
    have hnew : s.heap _ = some ⟨none, none⟩ := hlocal
    simp only [Queue.store, hnew]
    exact ⟨x, rest, h.own hpc rfl rfl rfl (Function.update_self ..)⟩
  | lockTail => exact hgoto rfl (.inr rfl) hlocal
  | readTail => exact hgoto rfl (.inr rfl) ⟨hlocal, rfl⟩
  | setNext => exact ⟨x, _, h.setNext he hpc⟩
  | setTail | setTailAlpha => exact ⟨x, rest, h.setTail he hpc trivial rfl⟩
  | broadcast =>
    have hwake : (s.pc t).wake = .push .broadcast := by rw [hpc]; rfl
    exact ⟨x, rest, h.wake.goto hwake rfl trivial (.inl rfl)⟩
  | testHead | loopHead => exact hgoto rfl (.inl rfl) rfl
  | testItem hnd hn | loopItem hnd hn =>
    obtain rfl : _ = s.head := hlocal
    exact hgoto rfl (.inl rfl) (hne hnd hn)
  | itemHead => exact hgoto rfl (.inl rfl) ⟨rfl, hlocal⟩
  | itemNext hnd hn =>
    obtain ⟨rfl, -⟩ : _ = s.head ∧ rest ≠ [] := hlocal
    obtain ⟨q, hq, rfl⟩ := Option.map_eq_some_iff.mp ((hhead hnd).symm.trans hn)
    exact hgoto rfl (.inl rfl) ⟨q.2, hq⟩
  | @itemRead w a nd hnd =>
    obtain ⟨item, hq⟩ : ∃ item, rest.head? = some (a, item) := hlocal
    cases rest with
    | nil => cases hq
    | cons q rest =>
      cases hq
      cases h.chain.2.head.symm.trans hnd
      exact hgoto rfl (.inl rfl) ⟨a, rfl⟩
  | setTemp => exact hgoto rfl (.inl rfl) ⟨hlocal, rfl⟩
  | advanceHead => exact hgoto rfl (.inl rfl) ⟨hlocal.1, hlocal.2, rfl⟩
  | @advanceNext w item temp a nd next hnd hn =>
    obtain ⟨⟨next', hq⟩, rfl, rfl⟩ :
      (∃ next, rest.head? = some (next, item)) ∧ temp = s.head ∧ a = s.head := hlocal
    cases (congrArg (Option.map Prod.fst) hq).symm.trans ((hhead hnd).symm.trans hn)
    exact hgoto rfl (.inl rfl) ⟨hq, rfl⟩
  | setHead => exact ⟨_, h.setHead he hpc (.inl rfl)⟩
  | setHeadAlpha => exact ⟨_, h.setHead he hpc (.inr rfl)⟩
  | unlockHead => exact hgoto rfl (.inr rfl) hlocal
  | free hnd => exact ⟨x, rest, (h.free hpc).relock _ _ _⟩
  | _ => exact hgoto rfl (.inl rfl) trivial

theorem step (h : Shape s x rest) (he : Exclusive s) {fl : Flavour} {e : Event ι α}
    (hs : LinkedQueue.step fl s e = some s') : ∃ x' rest', Shape s' x' rest' :=
  h.move he rfl (move_cases hs)

omit [DecidableEq ι] in
theorem new : Shape (queueNew : Queue ι α) none [] where
  chain := by simp [Chain, queueNew]
  nodup := List.nodup_singleton _
  linked := rfl
  tail := .inr rfl
  locals _ := trivial
  owned := nofun
  apart := nofun
  sound := rfl

end Shape

end Loomlib.LinkedQueue
