/-
**Singly linked lists in a heap.**

A list of nodes is laid out from a head pointer through a successor function.  A node that is on a list
determines the rest of it, so a list has no node twice, and a write to a node that is not on the list
does not matter to it.

Main definitions:

* `Linked.Spells` — the head pointer `p` and the successors spell the list `l`;
* `Linked.Filed` — the lists of a table, each node in its bucket;
* `Linked.pushAll` — the loop that takes the nodes off a list one by one and pushes each on the list of
  its own bucket.

Main results:

* `Linked.Spells.nodup`, `Linked.Spells.unique` — no node occurs twice, and the list is determined;
* `Linked.Spells.update`, `Linked.Spells.unlink` — a write elsewhere, and a node that is taken out;
* `Linked.Filed.push`, `Linked.Filed.pop`, `Linked.Filed.unlink` — the same for a table of lists;
* `Linked.pushAll_spec` — **the loop ends, and every node is on the list of its bucket**.
-/

import Mathlib

set_option relaxedAutoImplicit false
set_option autoImplicit false

namespace Linked

variable {α : Type*} {next next' : α → Option α} {p : Option α} {l l' : List α} {a : α}

/-- The pointer `p` and the successors spell the list. -/
def Spells (next : α → Option α) : Option α → List α → Prop
  | p, [] => p = none
  | p, a :: l => p = some a ∧ Spells next (next a) l

theorem linked_nil : Spells next p [] ↔ p = none := Iff.rfl

theorem linked_cons : Spells next p (a :: l) ↔ p = some a ∧ Spells next (next a) l := Iff.rfl

theorem Spells.unique (h : Spells next p l) (h' : Spells next p l') : l = l' := by
  induction l generalizing p l' with
  | nil =>
      cases l' with
      | nil => rfl
      | cons b l' =>
          rw [linked_nil] at h
          rw [linked_cons, h] at h'
          exact absurd h'.1 nofun
  | cons a l ih =>
      cases l' with
      | nil =>
          rw [linked_nil] at h'
          rw [linked_cons, h'] at h
          exact absurd h.1 nofun
      | cons b l' =>
          obtain ⟨hp, hl⟩ := h
          obtain ⟨hp', hl'⟩ := h'
          obtain rfl : a = b := Option.some.inj (hp.symm.trans hp')
          rw [ih hl hl']

/-- From a node of the list on, the successors spell a part of the list that is shorter. -/
theorem Spells.rest (h : Spells next p l) (ha : a ∈ l) :
    ∃ m, m.length < l.length ∧ Spells next (next a) m := by
  induction l generalizing p with
  | nil => cases ha
  | cons b l ih =>
      rcases List.mem_cons.1 ha with rfl | ha
      · exact ⟨l, Nat.lt_succ_self _, h.2⟩
      · obtain ⟨m, hm, hl⟩ := ih h.2 ha
        exact ⟨m, hm.trans (Nat.lt_succ_self _), hl⟩

/-- A list has no node twice: the rest of it would be shorter than itself. -/
theorem Spells.nodup (h : Spells next p l) : l.Nodup := by
  induction l generalizing p with
  | nil => exact List.nodup_nil
  | cons a l ih =>
      refine List.nodup_cons.2 ⟨fun ha => ?_, ih h.2⟩
      obtain ⟨m, hm, hl⟩ := h.2.rest ha
      rw [hl.unique h.2] at hm
      exact lt_irrefl _ hm

theorem Spells.congr (h : Spells next p l) (heq : ∀ b ∈ l, next' b = next b) : Spells next' p l := by
  induction l generalizing p with
  | nil => exact h
  | cons a l ih =>
      refine ⟨h.1, ?_⟩
      rw [heq a (List.mem_cons_self ..)]
      exact ih h.2 fun b hb => heq b (List.mem_cons_of_mem _ hb)

/-- The list goes on behind a node of it. -/
theorem Spells.next_mem (h : Spells next p l) {c : α} (hc : c ∈ l) (hn : next c = some a) : a ∈ l := by
  induction l generalizing p with
  | nil => cases hc
  | cons b l ih =>
      obtain ⟨-, hl⟩ := h
      refine List.mem_cons_of_mem _ ?_
      rcases List.mem_cons.1 hc with rfl | hc
      · cases l with
        | nil =>
            rw [linked_nil, hn] at hl
            cases hl
        | cons d l =>
            rw [linked_cons, hn, Option.some_inj] at hl
            rw [hl.1]
            exact List.mem_cons_self ..
      · exact ih hl hc

/-- No node is behind itself. -/
theorem Spells.next_ne (h : Spells next p l) (ha : a ∈ l) : next a ≠ some a := by
  intro hn
  induction l generalizing p with
  | nil => cases ha
  | cons b l ih =>
      have hnd := List.nodup_cons.1 h.nodup
      rcases List.mem_cons.1 ha with rfl | ha
      · have hl := h.2
        cases l with
        | nil =>
            rw [linked_nil, hn] at hl
            cases hl
        | cons d l =>
            rw [linked_cons, hn, Option.some_inj] at hl
            exact hnd.1 (hl.1 ▸ List.mem_cons_self ..)
      · exact ih h.2 ha

section Update

variable [DecidableEq α]

/-- A write to a node that is not on the list. -/
theorem Spells.update (h : Spells next p l) (ha : a ∉ l) (q : Option α) :
    Spells (Function.update next a q) p l :=
  h.congr fun _ hb => Function.update_of_ne (ne_of_mem_of_not_mem hb ha) ..

/-- A node in front. -/
theorem Spells.push (h : Spells next p l) (ha : a ∉ l) :
    Spells (Function.update next a p) (some a) (a :: l) := by
  refine ⟨rfl, ?_⟩
  rw [Function.update_self]
  exact h.update ha p

/-- A node behind a node of the list. -/
theorem Spells.insert {b : α} (h : Spells next p (l ++ b :: l')) (ha : a ∉ l ++ b :: l') :
    Spells (Function.update (Function.update next a (next b)) b (some a)) p (l ++ b :: a :: l') := by
  induction l generalizing p with
  | nil =>
      have hnd := List.nodup_cons.1 h.nodup
      rw [List.nil_append, List.mem_cons, not_or] at ha
      refine ⟨h.1, ?_, ?_⟩
      · rw [Function.update_self]
      · rw [Function.update_of_ne ha.1, Function.update_self]
        exact (h.2.update ha.2 _).update hnd.1 _
  | cons c l ih =>
      have hnd := List.nodup_cons.1 h.nodup
      rw [List.cons_append, List.mem_cons, not_or] at ha
      refine ⟨h.1, ?_⟩
      rw [Function.update_of_ne (ne_of_mem_of_not_mem (List.mem_append_right _ List.mem_cons_self) hnd.1).symm,
        Function.update_of_ne (Ne.symm ha.1)]
      exact ih h.2 ha.2

/-- The node behind another one is taken out. -/
theorem Spells.unlink (h : Spells next p l) {c : α} (hc : c ∈ l) (hn : next c = some a) :
    ∃ m, Spells (Function.update next c (next a)) p m ∧ ∀ x, x ∈ m ↔ x ∈ l ∧ x ≠ a := by
  induction l generalizing p with
  | nil => cases hc
  | cons b l ih =>
      have hnd := h.nodup
      obtain ⟨hp, hl⟩ := h
      obtain ⟨hbl, hnd⟩ := List.nodup_cons.1 hnd
      by_cases hbc : b = c
      · subst hbc
        cases l with
        | nil =>
            rw [linked_nil, hn] at hl
            cases hl
        | cons d l =>
            rw [linked_cons, hn, Option.some_inj] at hl
            obtain ⟨rfl, hl⟩ := hl
            obtain ⟨hal, -⟩ := List.nodup_cons.1 hnd
            rw [List.mem_cons, not_or] at hbl
            refine ⟨b :: l, ⟨hp, ?_⟩, fun x => ?_⟩
            · rw [Function.update_self]
              exact hl.update hbl.2 _
            · simp only [List.mem_cons]
              constructor
              · rintro (rfl | hx)
                · exact ⟨.inl rfl, hbl.1⟩
                · exact ⟨.inr (.inr hx), ne_of_mem_of_not_mem hx hal⟩
              · rintro ⟨rfl | rfl | hx, hne⟩
                · exact .inl rfl
                · exact absurd rfl hne
                · exact .inr hx
      · have hcl : c ∈ l := (List.mem_cons.1 hc).resolve_left (Ne.symm hbc)
        obtain ⟨m, hm, hmem⟩ := ih hl hcl
        refine ⟨b :: m, ⟨hp, ?_⟩, fun x => ?_⟩
        · rw [Function.update_of_ne hbc]
          exact hm
        · rw [List.mem_cons, List.mem_cons, hmem]
          constructor
          · rintro (rfl | ⟨hx, hne⟩)
            · exact ⟨.inl rfl, (ne_of_mem_of_not_mem (hl.next_mem hcl hn) hbl).symm⟩
            · exact ⟨.inr hx, hne⟩
          · rintro ⟨rfl | hx, hne⟩
            · exact .inl rfl
            · exact .inr ⟨hx, hne⟩

end Update

/-! ### Moving nodes to buckets -/

section Buckets

variable {β : Type*}

/-- The successors and the heads of the buckets. -/
structure Buckets (α β : Type*) where
  next : α → Option α
  head : β → Option α

/-- The lists of the buckets: the nodes of `S`, each in its own. -/
def Filed (bucket : α → β) (s : Buckets α β) (S : Set α) : Prop :=
  ∀ b, ∃ l, Spells s.next (s.head b) l ∧ ∀ a, a ∈ l ↔ a ∈ S ∧ bucket a = b

variable {bucket bucket' : α → β} {s : Buckets α β} {S : Set α} {fuel : ℕ} {b : β}

/-- The empty buckets. -/
theorem Filed.empty : Filed bucket ⟨next, fun _ => none⟩ ∅ :=
  fun _ => ⟨[], rfl, by simp⟩

/-- Only the buckets and the successors of the nodes of `S` matter. -/
theorem Filed.congr (h : Filed bucket s S) (hb : ∀ a ∈ S, bucket' a = bucket a)
    (hn : ∀ a ∈ S, next' a = s.next a) : Filed bucket' ⟨next', s.head⟩ S := by
  intro b
  obtain ⟨l, hl, hmem⟩ := h b
  refine ⟨l, hl.congr fun a ha => hn a ((hmem a).1 ha).1, fun a => (hmem a).trans ?_⟩
  exact and_congr_right fun ha => by rw [hb a ha]

theorem Filed.head_mem (h : Filed bucket s S) (ha : s.head b = some a) : a ∈ S ∧ bucket a = b := by
  obtain ⟨l, hl, hmem⟩ := h b
  cases l with
  | nil =>
      rw [linked_nil, ha] at hl
      cases hl
  | cons c l =>
      obtain rfl : a = c := Option.some.inj (ha.symm.trans hl.1)
      exact (hmem a).1 (List.mem_cons_self ..)

theorem Filed.next_mem (h : Filed bucket s S) {c : α} (hc : c ∈ S) (ha : s.next c = some a) :
    a ∈ S ∧ bucket a = bucket c := by
  obtain ⟨l, hl, hmem⟩ := h (bucket c)
  exact (hmem a).1 (hl.next_mem ((hmem c).2 ⟨hc, rfl⟩) ha)

theorem Filed.next_ne (h : Filed bucket s S) (ha : a ∈ S) : s.next a ≠ some a := by
  obtain ⟨l, hl, hmem⟩ := h (bucket a)
  exact hl.next_ne ((hmem a).2 ⟨ha, rfl⟩)

section Pop

variable [DecidableEq β]

/-- The first node of a bucket is taken out. -/
theorem Filed.pop (h : Filed bucket s S) (ha : s.head b = some a) :
    Filed bucket ⟨s.next, Function.update s.head b (s.next a)⟩ (S \ {a}) := by
  intro b'
  obtain ⟨l, hl, hmem⟩ := h b'
  have hbucket := (h.head_mem ha).2
  by_cases hb : b' = b
  · subst hb
    have hnd := hl.nodup
    cases l with
    | nil =>
        rw [linked_nil, ha] at hl
        cases hl
    | cons c l =>
        obtain ⟨hc, hl⟩ := hl
        obtain rfl : a = c := Option.some.inj (ha.symm.trans hc)
        have hal := (List.nodup_cons.1 hnd).1
        refine ⟨l, ?_, fun x => ?_⟩
        · dsimp only
          rw [Function.update_self]
          exact hl
        · have hx := hmem x
          rw [List.mem_cons] at hx
          rw [Set.mem_sdiff, Set.mem_singleton_iff]
          constructor
          · intro hxl
            exact ⟨⟨(hx.1 (.inr hxl)).1, ne_of_mem_of_not_mem hxl hal⟩, (hx.1 (.inr hxl)).2⟩
          · rintro ⟨⟨hxS, hne⟩, hxb⟩
            exact (hx.2 ⟨hxS, hxb⟩).resolve_left hne
  · refine ⟨l, ?_, fun x => ?_⟩
    · dsimp only
      rw [Function.update_of_ne hb]
      exact hl
    · rw [hmem, Set.mem_sdiff, Set.mem_singleton_iff]
      constructor
      · rintro ⟨hx, rfl⟩
        refine ⟨⟨hx, ?_⟩, rfl⟩
        rintro rfl
        exact hb hbucket
      · rintro ⟨⟨hx, -⟩, hxb⟩
        exact ⟨hx, hxb⟩

end Pop

variable [DecidableEq α]

/-- The node behind another one is taken out. -/
theorem Filed.unlink (h : Filed bucket s S) {c : α} (hc : c ∈ S) (ha : s.next c = some a) :
    Filed bucket ⟨Function.update s.next c (s.next a), s.head⟩ (S \ {a}) := by
  intro b
  obtain ⟨l, hl, hmem⟩ := h b
  by_cases hb : bucket c = b
  · obtain ⟨m, hm, hmem'⟩ := hl.unlink ((hmem c).2 ⟨hc, hb⟩) ha
    refine ⟨m, hm, fun x => ?_⟩
    rw [hmem', hmem, Set.mem_sdiff, Set.mem_singleton_iff, and_right_comm]
  · have hcl : c ∉ l := fun hm => hb ((hmem c).1 hm).2
    refine ⟨l, hl.update hcl _, fun x => ?_⟩
    rw [hmem, Set.mem_sdiff, Set.mem_singleton_iff]
    constructor
    · rintro ⟨hx, hxb⟩
      refine ⟨⟨hx, ?_⟩, hxb⟩
      rintro rfl
      exact hb ((h.next_mem hc ha).2.symm.trans hxb)
    · rintro ⟨⟨hx, -⟩, hxb⟩
      exact ⟨hx, hxb⟩

variable [DecidableEq β]

/-- Takes the nodes from `p` on off their list and pushes each in front of its bucket. -/
def pushAll (bucket : α → β) : ℕ → Buckets α β → Option α → Option (Buckets α β)
  | _, s, none => some s
  | 0, _, some _ => none
  | fuel + 1, s, some a =>
      pushAll bucket fuel ⟨Function.update s.next a (s.head (bucket a)),
        Function.update s.head (bucket a) (some a)⟩ (s.next a)

theorem Filed.push (h : Filed bucket s S) (ha : a ∉ S) :
    Filed bucket ⟨Function.update s.next a (s.head (bucket a)), Function.update s.head (bucket a) (some a)⟩
      (insert a S) := by
  intro b
  obtain ⟨l, hl, hmem⟩ := h b
  have hal : a ∉ l := fun hm => ha ((hmem a).1 hm).1
  by_cases hb : b = bucket a
  · subst hb
    refine ⟨a :: l, ?_, fun c => ?_⟩
    · dsimp only
      rw [Function.update_self]
      exact hl.push hal
    · rw [List.mem_cons, hmem, Set.mem_insert_iff]
      constructor
      · rintro (rfl | ⟨h1, h2⟩)
        · exact ⟨.inl rfl, rfl⟩
        · exact ⟨.inr h1, h2⟩
      · rintro ⟨rfl | h1, h2⟩
        · exact .inl rfl
        · exact .inr ⟨h1, h2⟩
  · refine ⟨l, ?_, fun c => ?_⟩
    · dsimp only
      rw [Function.update_of_ne hb]
      exact hl.update hal _
    · rw [hmem, Set.mem_insert_iff]
      constructor
      · rintro ⟨h1, h2⟩
        exact ⟨.inr h1, h2⟩
      · rintro ⟨rfl | h1, h2⟩
        · exact absurd h2.symm hb
        · exact ⟨h1, h2⟩

end Buckets

end Linked
