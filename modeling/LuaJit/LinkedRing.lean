/-
**Doubly linked rings in a heap.**

The nodes of a ring are laid out by two functions, of which one leads forwards and the other one backwards
from the head of the ring to itself.  Either direction is a path, and a node is inserted or taken out by
two writes, one to each direction.

Main definitions:

* `LinkedRing.Seg` — a path from one node through a list of nodes to another one;
* `LinkedRing.Ring` — a ring with its head and its other nodes.

Main results:

* `LinkedRing.Seg.insert`, `LinkedRing.Seg.unlink` — a node in a path, and one that is taken out;
* `LinkedRing.Ring.insert`, `LinkedRing.Ring.unlink` — the same for a ring.
-/

import Mathlib

set_option relaxedAutoImplicit false
set_option autoImplicit false

namespace LinkedRing

variable {α : Type*} {next next' prev : α → Option α} {a b c d h : α} {l m : List α}

/-! ### Paths -/

/-- The successors lead from a node through the list to another node. -/
@[grind =]
def Seg (next : α → Option α) : α → List α → α → Prop
  | a, [], b => next a = some b
  | a, c :: l, b => next a = some c ∧ Seg next c l b

theorem seg_append : Seg next a (l ++ c :: m) b ↔ Seg next a l c ∧ Seg next c m b := by
  induction l generalizing a with
  | nil => exact Iff.rfl
  | cons d l ih =>
      rw [List.cons_append, Seg, Seg, ih, and_assoc]

/-- Only the successors of the nodes before the end matter. -/
theorem Seg.congr (hs : Seg next a l b) (heq : ∀ x ∈ a :: l, next' x = next x) : Seg next' a l b := by
  induction l generalizing a with
  | nil =>
      rw [Seg] at hs ⊢
      rw [heq a List.mem_cons_self, hs]
  | cons c l ih =>
      obtain ⟨hc, hl⟩ := hs
      refine ⟨?_, ih hl fun x hx => heq x (List.mem_cons_of_mem _ hx)⟩
      rw [heq a List.mem_cons_self, hc]

/-- The first node of a path. -/
theorem Seg.next_first (hs : Seg next a l b) : next a = some (l.headD b) := by
  cases l with
  | nil => exact hs
  | cons c l => exact hs.1

/-- The last node of a path. -/
theorem Seg.next_last (hs : Seg next a l b) : next (l.getLastD a) = some b := by
  induction l generalizing a with
  | nil => exact hs
  | cons c l ih =>
      rw [List.getLastD_cons]
      exact ih hs.2

theorem getLastD_mem (a : α) (l : List α) : l.getLastD a ∈ a :: l := by
  induction l generalizing a with
  | nil => exact List.mem_cons_self
  | cons c l ih =>
      rw [List.getLastD_cons]
      exact List.mem_cons_of_mem _ (ih c)

section Update

variable [DecidableEq α]

/-- A write to a node that is not on the path. -/
theorem Seg.update (hs : Seg next a l b) (hx : c ∉ a :: l) (q : Option α) :
    Seg (Function.update next c q) a l b :=
  hs.congr fun _ hy => Function.update_of_ne (ne_of_mem_of_not_mem hy hx) ..

/-- The last node of a path leads elsewhere. -/
theorem Seg.retarget (hs : Seg next a l b) (hnd : (a :: l).Nodup) (d : α) :
    Seg (Function.update next (l.getLastD a) (some d)) a l d := by
  induction l generalizing a with
  | nil =>
      rw [Seg, List.getLastD_nil, Function.update_self]
  | cons c l ih =>
      obtain ⟨ha, hnd⟩ := List.nodup_cons.mp hnd
      rw [List.getLastD_cons]
      refine ⟨?_, ih hs.2 hnd⟩
      rw [Function.update_of_ne (ne_of_mem_of_not_mem (getLastD_mem c l) ha).symm, hs.1]

/-- A node is inserted into a path. -/
theorem Seg.insert (hs : Seg next a (l ++ m) b) (hnd : (a :: (l ++ m)).Nodup) (hc : c ∉ a :: (l ++ m)) :
    Seg (Function.update (Function.update next c (some (m.headD b))) (l.getLastD a) (some c)) a (l ++ c :: m) b := by
  have hal : (a :: l).Nodup := hnd.sublist (by simp)
  have hx : l.getLastD a ∈ a :: (l ++ m) := by
    rw [← List.cons_append]
    exact List.mem_append_left _ (getLastD_mem a l)
  have hxc : l.getLastD a ≠ c := ne_of_mem_of_not_mem hx hc
  have hs' := hs.update hc (some (m.headD b))
  rw [seg_append]
  cases m with
  | nil =>
      rw [List.append_nil] at hs'
      refine ⟨hs'.retarget hal c, ?_⟩
      rw [Seg, Function.update_of_ne hxc.symm, Function.update_self, List.headD_nil]
  | cons d m =>
      rw [seg_append] at hs'
      refine ⟨hs'.1.retarget hal c, ?_, ?_⟩
      · rw [Function.update_of_ne hxc.symm, Function.update_self, List.headD_cons]
      · have hxm : l.getLastD a ∉ d :: m := by
          rw [← List.cons_append] at hnd
          exact (List.disjoint_of_nodup_append hnd) (getLastD_mem a l)
        exact hs'.2.update hxm _

/-- A node is taken out of a path. -/
theorem Seg.unlink (hs : Seg next a (l ++ c :: m) b) (hnd : (a :: (l ++ c :: m)).Nodup) :
    Seg (Function.update next (l.getLastD a) (next c)) a (l ++ m) b := by
  obtain ⟨hl, hm⟩ := seg_append.mp hs
  have hal : (a :: l).Nodup := hnd.sublist (by simp)
  rw [← List.cons_append] at hnd
  have hx : l.getLastD a ∉ c :: m := (List.disjoint_of_nodup_append hnd) (getLastD_mem a l)
  rw [hm.next_first]
  cases m with
  | nil =>
      rw [List.append_nil]
      exact hl.retarget hal b
  | cons d m =>
      rw [seg_append]
      refine ⟨hl.retarget hal d, hm.2.update (fun h => hx (List.mem_cons_of_mem _ h)) _⟩

end Update

/-! ### Rings -/

/-- The ring with the head `h` and the other nodes in their order. -/
structure Ring (next prev : α → Option α) (h : α) (l : List α) : Prop where
  forward : Seg next h l h
  backward : Seg prev h l.reverse h
  nodup : (h :: l).Nodup

namespace Ring

theorem nodup_reverse (hr : Ring next prev h l) : (h :: l.reverse).Nodup := by
  have hn := hr.nodup
  rw [List.nodup_cons] at hn ⊢
  exact ⟨fun hm => hn.1 (List.mem_reverse.mp hm), List.nodup_reverse.mpr hn.2⟩

/-- The neighbours of a node. -/
theorem neighbours (hr : Ring next prev h (l ++ c :: m)) :
    next c = some (m.headD h) ∧ prev c = some (l.getLastD h) := by
  refine ⟨((seg_append.mp hr.forward).2).next_first, ?_⟩
  have hb := hr.backward
  rw [List.reverse_append, List.reverse_cons, List.append_assoc, List.singleton_append] at hb
  have hp := ((seg_append.mp hb).2).next_first
  rwa [List.headD_eq_head?_getD, List.head?_reverse, ← List.getLastD_eq_getLast?] at hp

/-- The nodes next to a node lead back to it. -/
theorem neighbours_back (hr : Ring next prev h (l ++ c :: m)) :
    prev (m.headD h) = some c ∧ next (l.getLastD h) = some c := by
  refine ⟨?_, ((seg_append.mp hr.forward).1).next_last⟩
  have hb := hr.backward
  rw [List.reverse_append, List.reverse_cons, List.append_assoc, List.singleton_append] at hb
  have hp := ((seg_append.mp hb).1).next_last
  rwa [List.getLastD_eq_getLast?, List.getLast?_reverse, ← List.headD_eq_head?_getD] at hp

variable [DecidableEq α]

/-- A write to a node that is not on the ring. -/
theorem update (hr : Ring next prev h l) (hc : c ∉ h :: l) (q p : Option α) :
    Ring (Function.update next c q) (Function.update prev c p) h l where
  forward := hr.forward.update hc q
  backward := hr.backward.update (by rwa [List.mem_cons, List.mem_reverse, ← List.mem_cons]) p
  nodup := hr.nodup

/-- A node is inserted behind the head. -/
theorem insert (hr : Ring next prev h l) (hc : c ∉ h :: l) :
    Ring (Function.update (Function.update next c (some (l.headD h))) h (some c))
      (Function.update (Function.update prev c (some h)) (l.headD h) (some c)) h (c :: l) where
  forward := Seg.insert (l := []) hr.forward hr.nodup hc
  backward := by
    have hb := Seg.insert (l := l.reverse) (m := []) (c := c) (by rw [List.append_nil]; exact hr.backward)
      (by rw [List.append_nil]; exact hr.nodup_reverse)
      (by
        rw [List.append_nil, List.mem_cons, List.mem_reverse, ← List.mem_cons]
        exact hc)
    rwa [List.headD_nil, List.getLastD_eq_getLast?, List.getLast?_reverse, ← List.headD_eq_head?_getD,
      ← List.reverse_cons] at hb
  nodup := by
    have hn := hr.nodup
    rw [List.mem_cons, not_or] at hc
    rw [List.nodup_cons, List.nodup_cons, List.mem_cons, not_or]
    rw [List.nodup_cons] at hn
    exact ⟨⟨Ne.symm hc.1, hn.1⟩, hc.2, hn.2⟩

/-- A node is taken out. -/
theorem unlink (hr : Ring next prev h (l ++ c :: m)) :
    Ring (Function.update next (l.getLastD h) (next c)) (Function.update prev (m.headD h) (prev c)) h (l ++ m) where
  forward := hr.forward.unlink hr.nodup
  backward := by
    have hb := hr.backward
    have hn := hr.nodup_reverse
    rw [List.reverse_append, List.reverse_cons, List.append_assoc, List.singleton_append] at hb hn
    have hu := hb.unlink hn
    rwa [List.getLastD_eq_getLast?, List.getLast?_reverse, ← List.headD_eq_head?_getD,
      ← List.reverse_append] at hu
  nodup := hr.nodup.sublist (by simp)

end Ring

end LinkedRing
