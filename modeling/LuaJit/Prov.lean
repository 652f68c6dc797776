/-
**Memory with the provenance of its bytes.**

To say what a program has initialised, every byte of a memory carries a note of how it got its
contents: not written at all, written, cleared, copied from elsewhere in the memory, or only partly
written over contents that nobody set.  Every write is an update of an interval of addresses.

Main definitions:

* `Prov.Src`, `Prov.Mem` — the provenance of a byte, a memory;
* `Prov.Mem.write`, `Prov.Mem.clear`, `Prov.Mem.copy`, `Prov.Mem.merge` — the writes;
* `Prov.Mem.Has` — a byte is written, or is determined;
* `Prov.Stable` — a property that every write keeps.

Main results:

* `Prov.has_write`, `Prov.has_clear`, `Prov.has_copy`, `Prov.has_merge` — what a write adds;
* `Prov.stable_has`, `Prov.stable_zeroOk` — what is written stays so, and a byte that was cleared
  last is zero.
-/

import Mathlib

set_option relaxedAutoImplicit false
set_option autoImplicit false

namespace Prov

/-- How a byte got its contents: it was not written, it was written over contents that nobody set
and only in part, it was written, it was cleared, or it was copied within the memory. -/
inductive Src
  | old
  | part
  | value
  | zero
  | copy
  deriving DecidableEq

/-- A memory with the provenance of its bytes. -/
structure Mem where
  byte : ℕ → BitVec 8
  src : ℕ → Src

/-- A memory that nothing was written to. -/
def Mem.fresh (byte : ℕ → BitVec 8) : Mem := { byte := byte, src := fun _ => .old }

/-- New contents for the `n` bytes from `a` on. -/
def Mem.update (m : Mem) (a n : ℕ) (byte : ℕ → BitVec 8) (src : ℕ → Src) : Mem where
  byte i := if a ≤ i ∧ i < a + n then byte i else m.byte i
  src i := if a ≤ i ∧ i < a + n then src i else m.src i

/-- Write a string of bytes. -/
def Mem.write (m : Mem) (a : ℕ) (bs : List (BitVec 8)) : Mem :=
  m.update a bs.length (fun i => bs.getD (i - a) 0) fun _ => .value

/-- Clear `n` bytes. -/
def Mem.clear (m : Mem) (a n : ℕ) : Mem := m.update a n (fun _ => 0) fun _ => .zero

/-- Copy `n` bytes within the memory. -/
def Mem.copy (m : Mem) (dst src n : ℕ) : Mem :=
  m.update dst n (fun i => m.byte (src + (i - dst))) fun _ => .copy

/-- Read, change some bits, and write back. -/
def Mem.merge (m : Mem) (a : ℕ) (bs : List (BitVec 8)) : Mem :=
  m.update a bs.length (fun i => bs.getD (i - a) 0) fun i =>
    if m.src i = .old ∨ m.src i = .part then .part else .value

/-- The `n` bytes from `a` on. -/
def Mem.read (m : Mem) (a n : ℕ) : List (BitVec 8) := (List.range n).map fun i => m.byte (a + i)

/-- With `w`, the byte is written; without, its contents are determined by what was written. -/
def Mem.Has (w : Bool) (m : Mem) (i : ℕ) : Prop :=
  m.src i ≠ .old ∧ (w = false → m.src i ≠ .part)

/-- A byte that was cleared last is zero. -/
def ZeroOk (m : Mem) : Prop := ∀ i, m.src i = .zero → m.byte i = 0

section
variable (m : Mem) (w : Bool) (i a n : ℕ) (bs : List (BitVec 8))

/-- What an update adds, where the note it leaves is one of contents that are determined. -/
theorem has_update {byte : ℕ → BitVec 8} {src : ℕ → Src}
    (hsrc : ∀ i, src i ≠ .old ∧ src i ≠ .part) :
    (m.update a n byte src).Has w i ↔ i ∈ Set.Ico a (a + n) ∨ m.Has w i := by
  simp only [Mem.Has, Mem.update, Set.mem_Ico]
  by_cases h : a ≤ i ∧ i < a + n
  · simp [h, hsrc i]
  · simp [h]

theorem has_write : (m.write a bs).Has w i ↔ i ∈ Set.Ico a (a + bs.length) ∨ m.Has w i :=
  has_update m w i a bs.length fun _ => by simp

theorem has_clear : (m.clear a n).Has w i ↔ i ∈ Set.Ico a (a + n) ∨ m.Has w i :=
  has_update m w i a n fun _ => by simp

theorem has_copy (src : ℕ) :
    (m.copy a src n).Has w i ↔ i ∈ Set.Ico a (a + n) ∨ m.Has w i :=
  has_update m w i a n fun _ => by simp

/-- A merge writes its bytes and determines none. -/
theorem has_merge :
    (m.merge a bs).Has w i ↔ (w = true ∧ i ∈ Set.Ico a (a + bs.length)) ∨ m.Has w i := by
  simp only [Mem.Has, Mem.merge, Mem.update, Set.mem_Ico]
  by_cases h : a ≤ i ∧ i < a + bs.length
  · cases w <;> cases m.src i <;> simp [h]
  · simp [h]

end

/-- A property of memories that every write keeps. -/
structure Stable (P : Mem → Prop) : Prop where
  write : ∀ {m : Mem}, P m → ∀ a bs, P (m.write a bs)
  clear : ∀ {m : Mem}, P m → ∀ a n, P (m.clear a n)
  copy : ∀ {m : Mem}, P m → ∀ dst src n, P (m.copy dst src n)
  merge : ∀ {m : Mem}, P m → ∀ a bs, P (m.merge a bs)

/-- What is written or determined stays so. -/
theorem stable_has (w : Bool) (i : ℕ) : Stable fun m => m.Has w i where
  write h a bs := (has_write _ w i a bs).2 (.inr h)
  clear h a n := (has_clear _ w i a n).2 (.inr h)
  copy h dst src n := (has_copy _ w i dst n src).2 (.inr h)
  merge h a bs := (has_merge _ w i a bs).2 (.inr h)

theorem ZeroOk.update {m : Mem} {byte : ℕ → BitVec 8} {src : ℕ → Src} (hm : ZeroOk m) (a n : ℕ)
    (h : ∀ i, src i = .zero → byte i = 0) : ZeroOk (m.update a n byte src) := by
  intro i hi
  simp only [Mem.update] at hi ⊢
  split at hi
  · rename_i hr
    rw [if_pos hr]
    exact h i hi
  · rename_i hr
    rw [if_neg hr]
    exact hm i hi

end Prov
