/-
**Base-128 numbers.**

A natural number is written as its digits of base 128, the least significant one first, and every digit but
the last has 128 added.  The length of a number is that of its binary numeral divided by seven.

Main definitions:

* `Leb128.encode`, `Leb128.decode` — writing and reading.

Main results:

* `Leb128.decode_encode` — **a number is read back, whatever follows**;
* `Leb128.encode_length` — its length;
* `Leb128.encode_set_last` — two numbers that agree below the last digit.
-/

import Mathlib

set_option relaxedAutoImplicit false
set_option autoImplicit false

namespace Leb128

/-- The bytes of a number. -/
@[grind =]
def encode (n : ℕ) : List UInt8 :=
  if n < 128 then [UInt8.ofNat n] else UInt8.ofNat (n % 128 + 128) :: encode (n / 128)

/-- The number at the start of some bytes, and the bytes behind it. -/
def decode : List UInt8 → Option (ℕ × List UInt8)
  | [] => none
  | c :: p =>
    if c.toNat < 128 then some (c.toNat, p)
    else (decode p).map fun r => (c.toNat - 128 + 128 * r.1, r.2)

theorem encode_of_lt {n : ℕ} (h : n < 128) : encode n = [UInt8.ofNat n] := by
  rw [encode, if_pos h]

theorem encode_of_le {n : ℕ} (h : 128 ≤ n) :
    encode n = UInt8.ofNat (n % 128 + 128) :: encode (n / 128) := by
  rw [encode, if_neg (by omega)]

theorem toNat_ofNat {n : ℕ} (h : n < 256) : (UInt8.ofNat n).toNat = n := by
  rw [UInt8.toNat_ofNat', Nat.mod_eq_of_lt h]

/-- Reading what was written. -/
theorem decode_encode (n : ℕ) (rest : List UInt8) : decode (encode n ++ rest) = some (n, rest) := by
  induction n using Nat.strongRecOn with
  | ind n ih =>
      by_cases h : n < 128
      · have hbyte := toNat_ofNat (n := n) (by omega)
        rw [encode_of_lt h, List.singleton_append, decode, hbyte, if_pos h]
      · have hbyte := toNat_ofNat (n := n % 128 + 128) (by omega)
        rw [encode_of_le (by lia), List.cons_append, decode, hbyte, if_neg (by lia), ih _ (by lia),
          Option.map_some]
        congr 2
        dsimp only
        lia

theorem encode_ne_nil (n : ℕ) : encode n ≠ [] := by
  rw [encode]
  split <;> exact List.cons_ne_nil _ _

/-- Seven binary digits to a byte. -/
theorem encode_length (n : ℕ) : (encode n).length = n.log2 / 7 + 1 := by
  induction n using Nat.strongRecOn with
  | ind n ih =>
      by_cases h : n < 128
      · rw [encode_of_lt h, List.length_singleton]
        have hlog : n.log2 < 7 := by
          by_cases h0 : n = 0
          · rw [h0]
            decide
          · exact (Nat.log2_lt h0).mpr h
        rw [Nat.div_eq_of_lt hlog]
      · have hdiv : (n / 128).log2 + 7 = n.log2 := by
          have hpow : n / 128 = n / 2 ^ 7 := rfl
          have hle : 7 ≤ n.log2 := (Nat.le_log2 (by omega)).mpr (by omega)
          rw [hpow, Nat.log2_eq_log_two, Nat.log_div_base_pow, ← Nat.log2_eq_log_two]
          lia
        rw [encode_of_le (by omega), List.length_cons, ih _ (by lia)]
        lia

theorem encode_length_le {n k : ℕ} (h : n < 128 ^ (k + 1)) : (encode n).length ≤ k + 1 := by
  rw [encode_length]
  by_cases h0 : n = 0
  · rw [h0]
    exact Nat.succ_le_succ (Nat.zero_le _)
  · have hpow : (128 : ℕ) ^ (k + 1) = 2 ^ (7 * (k + 1)) := by rw [Nat.pow_mul]
    have hlog := (Nat.log2_lt h0).mpr (hpow ▸ h)
    lia

/-- The first byte has the lowest digit. -/
theorem encode_head (n : ℕ) : ∃ c p, encode n = c :: p ∧ c.toNat % 128 = n % 128 := by
  by_cases h : n < 128
  · exact ⟨_, _, encode_of_lt h, by rw [toNat_ofNat (by omega)]⟩
  · refine ⟨_, _, encode_of_le (by omega), ?_⟩
    rw [toNat_ofNat (by omega)]
    lia

/-- Two numbers of the same length that agree below the last digit differ in the last byte only. -/
theorem encode_set_last {k : ℕ} : ∀ {m n : ℕ}, 128 ^ k ≤ m → 128 ^ k ≤ n → n < 128 ^ (k + 1) →
    m < 128 ^ (k + 1) → m % 128 ^ k = n % 128 ^ k →
    encode n = (encode m).dropLast ++ [UInt8.ofNat (n / 128 ^ k)] := by
  induction k with
  | zero =>
      intro m n _ _ hn hm _
      rw [encode_of_lt (by omega), encode_of_lt (by omega), pow_zero, Nat.div_one]
      rfl
  | succ k ih =>
      intro m n hm hn hn' hm' hmod
      have hk : 0 < 128 ^ k := Nat.pow_pos (by decide)
      rw [pow_succ] at hm hn hm' hn'
      have hmodk : m / 128 % 128 ^ k = n / 128 % 128 ^ k := by
        have hdiv := congrArg (· / 128) hmod
        simp only [pow_succ, Nat.mul_comm _ 128, Nat.mod_mul_right_div_self] at hdiv
        exact hdiv
      have hlow : m % 128 = n % 128 := by
        have hdvd : 128 ∣ 128 ^ (k + 1) := Dvd.intro_left _ (pow_succ 128 k).symm
        have := congrArg (· % 128) hmod
        simpa only [Nat.mod_mod_of_dvd _ hdvd] using this
      have hrec := ih (m := m / 128) (n := n / 128) ((Nat.le_div_iff_mul_le (by decide)).mpr hm)
        ((Nat.le_div_iff_mul_le (by decide)).mpr hn) ((Nat.div_lt_iff_lt_mul (by decide)).mpr hn')
        ((Nat.div_lt_iff_lt_mul (by decide)).mpr hm') hmodk
      have hdiv : n / 128 / 128 ^ k = n / 128 ^ (k + 1) := by
        rw [Nat.div_div_eq_div_mul, pow_succ, Nat.mul_comm]
      rw [encode_of_le (n := n) (by nlinarith), encode_of_le (n := m) (by nlinarith), hrec, hlow,
        List.dropLast_cons_of_ne_nil (encode_ne_nil _), hdiv, List.cons_append]

end Leb128
