/-
**Linear congruential generators modulo a power of two.**

If the factor is 1 modulo 4 and the summand is odd, then the steps go through all residues: two to the
power of `k` steps add two to the power of `k`, up to higher bits, so the bits of a residue can be set
one after another.

Main definitions:

* `Lcg.step`, `Lcg.iter` — a step, and many steps.

Main results:

* `Lcg.iter_two_pow` — two to the power of `k` steps;
* `Lcg.exists_iter_modEq` — **every residue is reached from every state**.
-/

import Mathlib

set_option relaxedAutoImplicit false
set_option autoImplicit false

namespace Lcg

variable {a c : ℤ}

/-- A step of the generator. -/
def step (a c x : ℤ) : ℤ := a * x + c

def iter (a c : ℤ) : ℕ → ℤ → ℤ
  | 0, x => x
  | n + 1, x => iter a c n (step a c x)

theorem iter_add (a c : ℤ) (m n : ℕ) (x : ℤ) : iter a c (m + n) x = iter a c n (iter a c m x) := by
  induction m generalizing x with
  | zero => rw [Nat.zero_add, iter]
  | succ m ih => rw [Nat.succ_add, iter, iter, ih]

/-- Two to the power of `k` steps are a step again: its factor is 1 but for higher bits, and its summand
has the lowest bit at `k`. -/
theorem iter_two_pow (ha : 4 ∣ a - 1) (hc : ¬2 ∣ c) (k : ℕ) :
    ∃ s t : ℤ, ∀ x, iter a c (2 ^ k) x = (1 + 2 ^ (k + 2) * s) * x + 2 ^ k * (1 + 2 * t) := by
  induction k with
  | zero =>
    obtain ⟨s, hs⟩ := ha
    refine ⟨s, (c - 1) / 2, fun x => ?_⟩
    have hc' : c = 1 + 2 * ((c - 1) / 2) := by lia
    have ha' : a = 1 + 2 ^ (0 + 2) * s := by lia
    calc iter a c (2 ^ 0) x = a * x + c := rfl
      _ = (1 + 2 ^ (0 + 2) * s) * x + c := by rw [← ha']
      _ = (1 + 2 ^ (0 + 2) * s) * x + 2 ^ 0 * (1 + 2 * ((c - 1) / 2)) := by rw [pow_zero, one_mul, ← hc']
  | succ k ih =>
    obtain ⟨s, t, h⟩ := ih
    refine ⟨s + 2 ^ (k + 1) * s ^ 2, t + 2 ^ k * s * (1 + 2 * t), fun x => ?_⟩
    rw [pow_succ, mul_two, iter_add, h, h]
    ring

/-- **Every residue is reached.** -/
theorem exists_iter_modEq (ha : 4 ∣ a - 1) (hc : ¬2 ∣ c) (k : ℕ) (x y : ℤ) :
    ∃ n, iter a c n x ≡ y [ZMOD 2 ^ k] := by
  induction k with
  | zero => exact ⟨0, by simpa using Int.modEq_one⟩
  | succ k ih =>
    obtain ⟨n, hn⟩ := ih
    obtain ⟨d, hd⟩ := hn.dvd
    -- the difference is an even or an odd multiple
    obtain ⟨e, rfl⟩ | ⟨e, rfl⟩ : (∃ e, d = 2 * e) ∨ ∃ e, d = 2 * e + 1 := Int.even_or_odd' d |>.elim
      fun e he => he.elim (fun h => .inl ⟨e, h⟩) fun h => .inr ⟨e, h⟩
    · refine ⟨n, (Int.modEq_iff_dvd).2 ⟨e, ?_⟩⟩
      rw [hd]
      ring
    · obtain ⟨s, t, h⟩ := iter_two_pow ha hc k
      refine ⟨n + 2 ^ k, (Int.modEq_iff_dvd).2 ⟨e - t - 2 * s * iter a c n x, ?_⟩⟩
      rw [iter_add, h]
      linear_combination hd

end Lcg
