/-
**Argument registers of the ARM procedure call standard.**

Arguments come in four kinds: a word or an aligned pair of words for the core registers, a single or
a double for the VFP registers.  Core registers are given out in order, a pair starts at an even one;
a single may fill the upper half of a double register whose lower half an earlier single took.  What
does not fit goes to the stack, a pair or a double at an even word; once a VFP argument is there, no
register is filled up any more.

Main definitions:

* `Aapcs.State` — the next core register, stack word and VFP register, and the half that is free;
* `Aapcs.alloc`, `Aapcs.run` — the places of the words of an argument, and of a list of arguments.

Main results:

* `Aapcs.run_append` — arguments are placed from left to right;
* `Aapcs.stack_mem_run` — the words on the stack lie below the next stack word;
* `Aapcs.last_stack_mem_run` — and the last of them is right below it.
-/

import LuaJit.Align

set_option relaxedAutoImplicit false
set_option autoImplicit false

namespace Aapcs

/-! ### Places and kinds -/

/-- Where a word of an argument is: a core register, a single-precision register or a word of the
stack. -/
inductive Place where
  | gpr (r : ℕ)
  | vfp (s : ℕ)
  | stack (k : ℕ)
  deriving DecidableEq

/-- The kinds of arguments. -/
inductive Kind where
  | word
  | pair
  | single
  | double
  deriving DecidableEq

/-- The state of the allocation.  `half` is a double register whose upper half is free. -/
@[ext] structure State where
  ncrn : ℕ
  nsaa : ℕ
  nd : ℕ
  half : Option ℕ
  ncrn_le : ncrn ≤ 4
  nd_le : nd ≤ 8
  half_lt : ∀ k, half = some k → k < nd

/-- Nothing has been placed. -/
def State.init : State where
  ncrn := 0
  nsaa := 0
  nd := 0
  half := none
  ncrn_le := by omega
  nd_le := by omega
  half_lt := by simp

namespace State

variable (s : State)

/-- The next core register is taken. -/
def takeGpr (h : s.ncrn < 4) : State :=
  { s with ncrn := s.ncrn + 1, ncrn_le := h }

/-- The next even pair of core registers is taken. -/
def takePair (h : Align.up 2 s.ncrn < 4) : State :=
  { s with
    ncrn := Align.up 2 s.ncrn + 2
    ncrn_le := by have := Align.dvd_up 2 s.ncrn; lia }

/-- The next words of the stack are taken, after rounding to a multiple of `n`. -/
def takeStack (n : ℕ) : State :=
  { s with nsaa := Align.up n s.nsaa + n }

/-- No core register is left. -/
def noGpr : State :=
  { s with ncrn := 4, ncrn_le := le_rfl }

/-- The upper half of a register is filled, or may not be filled any more. -/
def noHalf : State :=
  { s with half := none, half_lt := by simp }

/-- A double register is taken as a whole. -/
def takeDouble (h : s.nd < 8) : State :=
  { s with
    nd := s.nd + 1
    nd_le := h
    half_lt := fun k hk => Nat.lt_succ_of_lt (s.half_lt k hk) }

/-- The lower half of a double register is taken. -/
def takeSingle (h : s.nd < 8) : State :=
  { s with
    nd := s.nd + 1
    half := some s.nd
    nd_le := h
    half_lt := by rintro k ⟨rfl⟩; omega }

end State

/-! ### Allocation -/

/-- The places of the words of an argument, the lower word first. -/
def alloc (s : State) : Kind → State × List Place
  | .word =>
      if h : s.ncrn < 4 then (s.takeGpr h, [.gpr s.ncrn])
      else (s.takeStack 1, [.stack (Align.up 1 s.nsaa)])
  | .pair =>
      if h : Align.up 2 s.ncrn < 4 then
        (s.takePair h, [.gpr (Align.up 2 s.ncrn), .gpr (Align.up 2 s.ncrn + 1)])
      else
        (s.noGpr.takeStack 2, [.stack (Align.up 2 s.nsaa), .stack (Align.up 2 s.nsaa + 1)])
  | .single =>
      match s.half with
      | some k => (s.noHalf, [.vfp (2 * k + 1)])
      | none =>
          if h : s.nd < 8 then (s.takeSingle h, [.vfp (2 * s.nd)])
          else (s.takeStack 1, [.stack (Align.up 1 s.nsaa)])
  | .double =>
      if h : s.nd < 8 then (s.takeDouble h, [.vfp (2 * s.nd), .vfp (2 * s.nd + 1)])
      else
        (s.noHalf.takeStack 2, [.stack (Align.up 2 s.nsaa), .stack (Align.up 2 s.nsaa + 1)])

/-- A list of arguments is placed from left to right. -/
def run (s : State) : List Kind → State × List Place
  | [] => (s, [])
  | k :: ks => ((run (alloc s k).1 ks).1, (alloc s k).2 ++ (run (alloc s k).1 ks).2)

@[simp] theorem run_nil (s : State) : run s [] = (s, []) := rfl

@[simp] theorem run_cons_fst (s : State) (k : Kind) (ks : List Kind) :
    (run s (k :: ks)).1 = (run (alloc s k).1 ks).1 := rfl

@[simp] theorem run_cons_snd (s : State) (k : Kind) (ks : List Kind) :
    (run s (k :: ks)).2 = (alloc s k).2 ++ (run (alloc s k).1 ks).2 := rfl

theorem run_append (s : State) (ks ls : List Kind) :
    (run s (ks ++ ls)).1 = (run (run s ks).1 ls).1 := by
  induction ks generalizing s with
  | nil => rfl
  | cons k ks ih => exact ih _

@[simp] theorem up_one (n : ℕ) : Align.up 1 n = n := by
  unfold Align.up
  lia

/-! ### Words on the stack -/

/-- An argument takes no word of the stack, or aligned words of the stack only. -/
theorem alloc_cases (s : State) (k : Kind) :
    ((alloc s k).1.nsaa = s.nsaa ∧ ∀ j, Place.stack j ∉ (alloc s k).2) ∨
      ∃ n, 0 < n ∧ (alloc s k).1.nsaa = Align.up n s.nsaa + n ∧
        (alloc s k).2 = (List.range n).map fun i => Place.stack (Align.up n s.nsaa + i) := by
  cases k with
  | word =>
      simp only [alloc]
      split
      · exact .inl ⟨rfl, by simp⟩
      · exact .inr ⟨1, by omega, rfl, rfl⟩
  | pair =>
      simp only [alloc]
      split
      · exact .inl ⟨rfl, by simp⟩
      · exact .inr ⟨2, by omega, rfl, rfl⟩
  | single =>
      simp only [alloc]
      split
      · exact .inl ⟨rfl, by simp⟩
      · split
        · exact .inl ⟨rfl, by simp⟩
        · exact .inr ⟨1, by omega, rfl, rfl⟩
  | double =>
      simp only [alloc]
      split
      · exact .inl ⟨rfl, by simp⟩
      · exact .inr ⟨2, by omega, rfl, rfl⟩

theorem nsaa_le_alloc (s : State) (k : Kind) : s.nsaa ≤ (alloc s k).1.nsaa := by
  rcases alloc_cases s k with ⟨h, -⟩ | ⟨n, hn, h, -⟩
  · exact h.ge
  · have := Align.le_up (b := s.nsaa) hn
    omega

theorem nsaa_le_run (s : State) (ks : List Kind) : s.nsaa ≤ (run s ks).1.nsaa := by
  induction ks generalizing s with
  | nil => exact le_rfl
  | cons k ks ih => exact (nsaa_le_alloc s k).trans (ih _)

/-- A word of the stack that an argument takes lies below the next one. -/
theorem stack_mem_alloc {s : State} {k : Kind} {j : ℕ} (h : Place.stack j ∈ (alloc s k).2) :
    j < (alloc s k).1.nsaa := by
  rcases alloc_cases s k with ⟨-, hno⟩ | ⟨n, -, hn, hp⟩
  · exact absurd h (hno j)
  · rw [hp, List.mem_map] at h
    obtain ⟨i, hi, hj⟩ := h
    rw [List.mem_range] at hi
    injection hj with hj
    lia

/-- An argument that takes words of the stack takes the one right below the next one. -/
theorem last_stack_mem_alloc (s : State) (k : Kind) :
    (alloc s k).1.nsaa = s.nsaa ∨
      ∃ j, (alloc s k).1.nsaa = j + 1 ∧ Place.stack j ∈ (alloc s k).2 := by
  rcases alloc_cases s k with ⟨h, -⟩ | ⟨n, hn, h, hp⟩
  · exact .inl h
  · refine .inr ⟨Align.up n s.nsaa + (n - 1), by lia, ?_⟩
    rw [hp]
    exact List.mem_map_of_mem (List.mem_range.2 (by lia))

theorem stack_mem_run {s : State} {ks : List Kind} {j : ℕ} (h : Place.stack j ∈ (run s ks).2) :
    j < (run s ks).1.nsaa := by
  induction ks generalizing s with
  | nil => simp at h
  | cons k ks ih =>
      rw [run_cons_snd, List.mem_append] at h
      cases h with
      | inl h => exact (stack_mem_alloc h).trans_le (nsaa_le_run _ ks)
      | inr h => exact ih h

theorem last_stack_mem_run (s : State) (ks : List Kind) :
    (run s ks).1.nsaa = s.nsaa ∨
      ∃ j, (run s ks).1.nsaa = j + 1 ∧ Place.stack j ∈ (run s ks).2 := by
  induction ks generalizing s with
  | nil => exact .inl rfl
  | cons k ks ih =>
      rw [run_cons_fst, run_cons_snd]
      rcases ih (alloc s k).1 with h | ⟨j, hj, hm⟩
      · rcases last_stack_mem_alloc s k with h' | ⟨j, hj, hm⟩
        · exact .inl (h.trans h')
        · exact .inr ⟨j, h.trans hj, List.mem_append_left _ hm⟩
      · exact .inr ⟨j, hj, List.mem_append_right _ hm⟩

/-- All words of the stack lie below a bound exactly if the next one does not lie above it. -/
theorem forall_stack_lt_iff (ks : List Kind) (n : ℕ) :
    (∀ j, Place.stack j ∈ (run .init ks).2 → j < n) ↔ (run .init ks).1.nsaa ≤ n := by
  constructor
  · intro h
    rcases last_stack_mem_run .init ks with h0 | ⟨j, hj, hm⟩
    · rw [h0]
      exact Nat.zero_le n
    · have := h j hm
      omega
  · intro h j hj
    exact (stack_mem_run hj).trans_le h

end Aapcs
