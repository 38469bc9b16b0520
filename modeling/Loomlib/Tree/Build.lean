import Loomlib.AsyncList.Model
import Loomlib.Core.Machine
import Mathlib.Logic.Function.Basic

/-!
# Tree — Build

`tree_add_root`, `tree_add_child` and `tree_terminate`, called one after the
other by one thread, on any trees and vertices. Each takes a lock after its
checks for NULL; the branches that give up behind that point return with
the lock held, and whoever needs it next waits for ever.
-/

namespace Loomlib.TreeBuild

open AsyncList (asyncListNew asyncListAdd)

/-- The fields of `struct tree` that these calls use; `locked` is
`tree->lock`, held by the caller. -/
structure Tree (υ : Type) where
  root : Option υ
  terminated : Bool
  locked : Bool

/-- The fields of `struct vertice`. -/
structure Vertice (υ : Type) where
  children : Option (AsyncList υ)
  locked : Bool

/-- All trees and vertices, by their addresses. -/
structure World (τ υ : Type) where
  trees : τ → Tree υ
  vertices : υ → Vertice υ

/-- A call, a NULL argument being `none`; `granted` says whether
`async_list_new` and the `realloc` of `async_list_add` find the memory. -/
inductive Call (τ υ : Type) where
  | addRoot (tree : Option τ) (root : Option υ)
  | addChild (parent child : Option υ) (granted : Bool × Bool)
  | terminate (tree : Option τ)
  deriving DecidableEq, Repr

/-- How a call ends: it returns, it waits for a lock that its own thread
holds, or the process is stopped inside `async_list_add`. -/
inductive Result where
  | returned (b : Bool)
  | blocked
  | stopped
  deriving DecidableEq, Repr

variable {τ υ : Type} [DecidableEq τ] [DecidableEq υ]

namespace World

def setTree (w : World τ υ) (t : τ) (x : Tree υ) : World τ υ :=
  { w with trees := Function.update w.trees t x }

def setVertice (w : World τ υ) (v : υ) (x : Vertice υ) : World τ υ :=
  { w with vertices := Function.update w.vertices v x }

def treeAddRoot (w : World τ υ) (tree : Option τ) (root : Option υ) : World τ υ × Result :=
  match tree, root with
  | some t, some r =>
    if (w.trees t).locked then (w, .blocked)
    -- return false, behind pthread_mutex_lock
    else if (w.trees t).root.isSome then
      (w.setTree t { w.trees t with locked := true }, .returned false)
    else (w.setTree t { w.trees t with root := some r }, .returned true)
  | _, _ => (w, .returned false)

def treeAddChild (w : World τ υ) (parent child : Option υ) (granted : Bool × Bool) :
    World τ υ × Result :=
  match parent, child with
  | some p, some c =>
    if (w.vertices p).locked then (w, .blocked)
    else
      match (w.vertices p).children.or (asyncListNew granted.1) with
      -- return false, behind pthread_mutex_lock
      | none => (w.setVertice p { w.vertices p with locked := true }, .returned false)
      | some l =>
        match asyncListAdd .debug l c granted.2 with
        | .error _ => (w, .stopped)
        | .ok l => (w.setVertice p { w.vertices p with children := some l }, .returned true)
  | _, _ => (w, .returned false)

def treeTerminate (w : World τ υ) (tree : Option τ) : World τ υ × Result :=
  match tree with
  | some t =>
    if (w.trees t).locked then (w, .blocked)
    else (w.setTree t { w.trees t with terminated := true }, .returned true)
  | none => (w, .returned false)

def call (w : World τ υ) : Call τ υ → World τ υ × Result
  | .addRoot tree root => w.treeAddRoot tree root
  | .addChild parent child granted => w.treeAddChild parent child granted
  | .terminate tree => w.treeTerminate tree

/-- No lock is held. -/
def Unlocked (w : World τ υ) : Prop :=
  (∀ t, (w.trees t).locked = false) ∧ ∀ v, (w.vertices v).locked = false

/-- The roots, the flags and the children lists are the same. -/
def Same (w w' : World τ υ) : Prop :=
  (∀ t, (w'.trees t).root = (w.trees t).root ∧ (w'.trees t).terminated = (w.trees t).terminated) ∧
    ∀ v, (w'.vertices v).children = (w.vertices v).children

/-- The trees are those of `tree_new`, the vertices those of
`tree_new_vertice`. -/
def fresh : World τ υ where
  trees := fun _ => ⟨none, false, false⟩
  vertices := fun _ => ⟨none, false⟩

end World

open World

/-- The calls of one thread. A call that does not return is the last. -/
def machine (τ υ : Type) [DecidableEq τ] [DecidableEq υ] : Machine (World τ υ) (Call τ υ) where
  init := fresh
  step := fun w c => match w.call c with
    | (w', .returned _) => some w'
    | _ => none

/-- The call leaves the locks alone, and if it fails everything else; it
does not wait for a lock. -/
def Clean (w : World τ υ) (c : Call τ υ) : Prop :=
  match w.call c with
  | (w', .returned b) => w'.Unlocked ∧ (b = false → w.Same w')
  | (_, .blocked) => False
  | (_, .stopped) => True

/-- It is no `tree_add_root` on a tree that has a root, and no
`tree_add_child` whose `async_list_new` fails. -/
def Accepted (w : World τ υ) : Call τ υ → Prop
  | .addRoot (some t) (some _) => (w.trees t).root = none
  | .addChild (some p) (some _) granted =>
    (w.vertices p).children = none → granted.1 = true
  | _ => True

/-! ## Which calls are clean -/

section Unlocked

variable {w : World τ υ}

omit [DecidableEq τ] [DecidableEq υ] in
theorem World.Same.refl (w : World τ υ) : w.Same w :=
  ⟨fun _ => ⟨rfl, rfl⟩, fun _ => rfl⟩

omit [DecidableEq υ] in
theorem World.Unlocked.setTree (h : w.Unlocked) (t : τ) {x : Tree υ} (hx : x.locked = false) :
    (w.setTree t x).Unlocked := by
  refine ⟨fun u => ?_, h.2⟩
  by_cases hu : u = t
  · subst hu
    simpa [World.setTree] using hx
  · simpa [World.setTree, hu] using h.1 u

omit [DecidableEq τ] in
theorem World.Unlocked.setVertice (h : w.Unlocked) (v : υ) {x : Vertice υ}
    (hx : x.locked = false) : (w.setVertice v x).Unlocked := by
  refine ⟨h.1, fun u => ?_⟩
  by_cases hu : u = v
  · subst hu
    simpa [World.setVertice] using hx
  · simpa [World.setVertice, hu] using h.2 u

omit [DecidableEq υ] in
/-- A tree whose lock is kept. -/
theorem not_unlocked_setTree (w : World τ υ) (t : τ) {x : Tree υ} (hx : x.locked = true) :
    ¬ (w.setTree t x).Unlocked := by
  intro h
  have hfree := h.1 t
  simp [World.setTree, hx] at hfree

omit [DecidableEq τ] in
/-- A vertice whose lock is kept. -/
theorem not_unlocked_setVertice (w : World τ υ) (v : υ) {x : Vertice υ} (hx : x.locked = true) :
    ¬ (w.setVertice v x).Unlocked := by
  intro h
  have hfree := h.2 v
  simp [World.setVertice, hx] at hfree

theorem clean_addRoot (h : w.Unlocked) (tree : Option τ) (root : Option υ) :
    Clean w (.addRoot tree root) ↔ Accepted w (.addRoot tree root) := by
  unfold Clean World.call World.treeAddRoot
  cases tree with
  | none => exact iff_of_true ⟨h, fun _ => .refl w⟩ trivial
  | some t =>
    cases root with
    | none => exact iff_of_true ⟨h, fun _ => .refl w⟩ trivial
    | some r =>
      simp only [h.1 t, Bool.false_eq_true, if_false]
      cases hroot : (w.trees t).root with
      | none => exact iff_of_true ⟨h.setTree t rfl, fun hb => by cases hb⟩ hroot
      | some r' =>
        apply iff_of_false
        · intro hclean
          exact not_unlocked_setTree w t rfl hclean.1
        · intro hnone
          cases hroot.symm.trans hnone

theorem clean_addChild (h : w.Unlocked) (parent child : Option υ) (granted : Bool × Bool) :
    Clean w (.addChild parent child granted) ↔ Accepted w (.addChild parent child granted) := by
  unfold Clean World.call World.treeAddChild
  cases parent with
  | none => exact iff_of_true ⟨h, fun _ => .refl w⟩ trivial
  | some p =>
    cases child with
    | none => exact iff_of_true ⟨h, fun _ => .refl w⟩ trivial
    | some c =>
      simp only [h.2 p, Bool.false_eq_true, if_false]
      cases hl : (w.vertices p).children.or (asyncListNew granted.1) with
      | none =>
        obtain ⟨hnone, hnew⟩ := Option.or_eq_none_iff.mp hl
        apply iff_of_false
        · intro hclean
          exact not_unlocked_setVertice w p rfl hclean.1
        · intro hacc
          rw [asyncListNew, if_pos (hacc hnone)] at hnew
          cases hnew
      | some l =>
        have hacc : Accepted w (.addChild (some p) (some c) granted) := by
          intro hnone
          rw [hnone, Option.none_or, asyncListNew] at hl
          by_contra hg
          rw [if_neg hg] at hl
          cases hl
        refine iff_of_true ?_ hacc
        cases hadd : asyncListAdd .debug l c granted.2 with
        | error e => simp only [hadd]
        | ok l' =>
          simp only [hadd]
          exact ⟨h.setVertice p rfl, fun hb => by cases hb⟩

theorem clean_terminate (h : w.Unlocked) (tree : Option τ) :
    Clean w (.terminate tree) ↔ Accepted w (.terminate tree) := by
  unfold Clean World.call World.treeTerminate
  cases tree with
  | none => exact iff_of_true ⟨h, fun _ => .refl w⟩ trivial
  | some t =>
    simp only [h.1 t, Bool.false_eq_true, if_false]
    exact iff_of_true ⟨h.setTree t rfl, fun hb => by cases hb⟩ trivial

/-- With all locks free a call is clean if and only if it does not give up
behind a lock. -/
theorem clean_iff (h : w.Unlocked) (c : Call τ υ) : Clean w c ↔ Accepted w c := by
  cases c with
  | addRoot tree root => exact clean_addRoot h tree root
  | addChild parent child granted => exact clean_addChild h parent child granted
  | terminate tree => exact clean_terminate h tree

/-- A clean call that returns leaves no lock held. -/
theorem unlocked_of_clean {w' : World τ υ} {c : Call τ υ} (hc : Clean w c)
    (hs : (machine τ υ).step w c = some w') : w'.Unlocked := by
  unfold Clean at hc
  change (match w.call c with
    | (w', .returned _) => some w'
    | _ => none) = some w' at hs
  split at hs
  · rename_i hcall
    cases hs
    rw [hcall] at hc
    exact hc.1
  · cases hs

end Unlocked

/-- **A failed call leaves everything as it was** in exactly the sequences
without a `tree_add_root` on a tree that has a root and without a
`tree_add_child` whose `async_list_new` fails. -/
theorem clean_iff_accepted (calls : List (Call τ υ)) :
    (machine τ υ).Meets Clean fresh calls ↔ (machine τ υ).Meets Accepted fresh calls :=
  Machine.meets_congr (fun _ c h => clean_iff h c) (fun _ hc hs => unlocked_of_clean hc hs)
    ⟨fun _ => rfl, fun _ => rfl⟩ calls

/-- A second root is refused with `tree->lock` held, so `tree_terminate`
never returns; and where `async_list_new` fails the parent's lock is kept,
so the next `tree_add_child` never returns. -/
theorem failure_keeps_lock :
    ¬ (machine Nat Nat).Meets Clean fresh [.addRoot (some 0) (some 1), .addRoot (some 0) (some 2)] ∧
    ¬ (machine Nat Nat).Meets Clean fresh [.addChild (some 1) (some 2) (false, true)] ∧
    (∃ w, (machine Nat Nat).run fresh [.addRoot (some 0) (some 1), .addRoot (some 0) (some 2)]
      = some w ∧ (w.call (.terminate (some 0))).2 = .blocked) ∧
    ∃ w, (machine Nat Nat).run fresh [.addChild (some 1) (some 2) (false, true)] = some w ∧
      (w.call (.addChild (some 1) (some 3) (true, true))).2 = .blocked := by
  refine ⟨?_, ?_, ⟨_, rfl, rfl⟩, _, rfl, rfl⟩
  · rintro ⟨-, h⟩
    obtain ⟨⟨hfree, -⟩, -⟩ := h _ rfl
    exact absurd (hfree.1 0) (by decide)
  · rintro ⟨⟨hfree, -⟩, -⟩
    exact absurd (hfree.2 1) (by decide)

end Loomlib.TreeBuild
