/-
**The 64 bit integer helpers compute what they are for.**

Division and modulo are checked: the division of C is undefined for a divisor that is zero and for a
quotient that does not fit, and both are caught before it is evaluated.  The loops of the power halve the
exponent in each round, and the squares and the product so far always make up the power.

Main definitions:

* `Carith.cdivs`, `Carith.cmods`, `Carith.cdivu`, `Carith.cmodu` — the operators of C, where they are defined;
* `Carith.divi64C`, `Carith.modi64C`, `Carith.divu64C`, `Carith.modu64C` — the helpers over them;
* `Carith.powEvenC`, `Carith.powOddC`, `Carith.powu64C` — the power, with a count of the rounds.

Main results:

* `Carith.powu64C_eq`, `Carith.powu64_toNat` — the loops end, with the power;
* `Carith.powi64_neg` — negative exponents;
* `Carith.helpers` — **all helpers, for all operands**.
-/

import LuaJit.Carith

set_option relaxedAutoImplicit false
set_option autoImplicit false

namespace Carith

/-! ### Division -/

/-- The smallest `int64_t`. -/
def intMin : BitVec 64 := 0x8000000000000000#64

/-- `a / b` and `a % b` for `int64_t`: undefined for a zero divisor and where the quotient does not fit. -/
def cdivs (a b : BitVec 64) : Option (BitVec 64) :=
  if b = 0 ∨ a = intMin ∧ b = -1 then none else some (a.sdiv b)

def cmods (a b : BitVec 64) : Option (BitVec 64) :=
  if b = 0 ∨ a = intMin ∧ b = -1 then none else some (a.srem b)

/-- `a / b` and `a % b` for `uint64_t`. -/
def cdivu (a b : BitVec 64) : Option (BitVec 64) := if b = 0 then none else some (a / b)

def cmodu (a b : BitVec 64) : Option (BitVec 64) := if b = 0 then none else some (a % b)

/-- `lj_carith_divu64`. -/
def divu64C (a b : BitVec 64) : Option (BitVec 64) := if b = 0 then some divUndef else cdivu a b

/-- `lj_carith_divi64`. -/
def divi64C (a b : BitVec 64) : Option (BitVec 64) :=
  if b = 0 ∨ a = divUndef ∧ b = -1 then some divUndef else cdivs a b

/-- `lj_carith_modu64`. -/
def modu64C (a b : BitVec 64) : Option (BitVec 64) := if b = 0 then some divUndef else cmodu a b

/-- `lj_carith_modi64`. -/
def modi64C (a b : BitVec 64) : Option (BitVec 64) :=
  if b = 0 then some divUndef else if a = divUndef ∧ b = -1 then some 0 else cmods a b

variable (a b x k : BitVec 64)

theorem divu64C_eq : divu64C a b = some (divu64 a b) := by
  rw [divu64C, divu64, cdivu]
  split
  · rfl
  · next h => rfl

theorem modu64C_eq : modu64C a b = some (modu64 a b) := by
  rw [modu64C, modu64, cmodu]
  split
  · rfl
  · next h => rfl

theorem divi64C_eq : divi64C a b = some (divi64 a b) := by
  rw [divi64C, divi64, cdivs]
  split
  · rfl
  · next h => exact if_neg h

theorem modi64C_eq : modi64C a b = some (modi64 a b) := by
  rw [modi64C, modi64]
  split
  · rfl
  · next h0 =>
      split
      · rfl
      · next h => exact if_neg fun h' => h'.elim h0 h

/-- The quotient and the remainder make up the dividend; the remainder is smaller than the divisor and has
the sign of the dividend. -/
theorem divi64_modi64 {b : BitVec 64} (hb : b ≠ 0) :
    a = b * divi64 a b + modi64 a b ∧ (modi64 a b).toInt.natAbs < b.toInt.natAbs ∧
      (0 ≤ a.toInt → 0 ≤ (modi64 a b).toInt) ∧ (a.toInt ≤ 0 → (modi64 a b).toInt ≤ 0) := by
  have hb0 : b.toInt ≠ 0 := fun h => hb (BitVec.eq_of_toInt_eq h)
  rw [divi64, modi64, if_neg hb]
  by_cases h : a = divUndef ∧ b = -1
  · obtain ⟨rfl, rfl⟩ := h
    rw [if_pos (.inr ⟨rfl, rfl⟩), if_pos ⟨rfl, rfl⟩]
    decide
  · rw [if_neg (fun h' => h'.elim hb h), if_neg h]
    refine ⟨?_, ?_, ?_, ?_⟩
    · apply BitVec.eq_of_toInt_eq
      rw [BitVec.toInt_add, BitVec.toInt_mul, BitVec.toInt_sdiv, BitVec.toInt_srem]
      simp only [Int.mul_bmod_bmod, Int.bmod_add_bmod, Int.mul_tdiv_add_tmod]
      exact (BitVec.toInt_bmod_cancel a).symm
    · rw [BitVec.toInt_srem, Int.natAbs_tmod]
      exact Nat.mod_lt _ (Int.natAbs_pos.mpr hb0)
    · intro ha
      rw [BitVec.toInt_srem]
      exact Int.tmod_nonneg _ ha
    · intro ha
      rw [BitVec.toInt_srem, ← Int.neg_neg a.toInt, Int.neg_tmod]
      have := Int.tmod_nonneg b.toInt (show 0 ≤ -a.toInt by omega)
      omega

theorem divu64_modu64 {b : BitVec 64} (hb : b ≠ 0) : a = b * divu64 a b + modu64 a b ∧ modu64 a b < b := by
  rw [divu64, modu64, if_neg hb, if_neg hb]
  have hpos : 0 < b.toNat := Nat.pos_of_ne_zero fun h => hb (BitVec.eq_of_toNat_eq h)
  constructor
  · apply BitVec.eq_of_toNat_eq
    rw [BitVec.toNat_add, BitVec.toNat_mul, BitVec.toNat_udiv, BitVec.toNat_umod, Nat.mod_add_mod, Nat.div_add_mod,
      Nat.mod_eq_of_lt a.isLt]
  · rw [BitVec.lt_def, BitVec.toNat_umod]
    exact Nat.mod_lt _ hpos

/-! ### The power -/

/-- `for (; (k & 1) == 0; k >>= 1) x *= x`, with a bound on the rounds. -/
def powEvenC : ℕ → BitVec 64 → BitVec 64 → Option (BitVec 64 × BitVec 64)
  | 0, _, _ => none
  | fuel + 1, x, k => if k &&& 1 = 0 then powEvenC fuel (x * x) (k >>> 1) else some (x, k)

/-- The second loop, from an exponent that is not zero, with the multiplication behind it. -/
def powOddC : ℕ → BitVec 64 → BitVec 64 → BitVec 64 → Option (BitVec 64)
  | 0, _, _, _ => none
  | fuel + 1, x, y, k =>
    let x := x * x
    if k = 1 then some (y * x)
    else powOddC fuel x (if k &&& 1 = 0 then y else y * x) (k >>> 1)

/-- `lj_carith_powu64`: nothing if a loop goes on for more than 64 rounds. -/
def powu64C (x k : BitVec 64) : Option (BitVec 64) :=
  if k = 0 then some 1
  else do
    let (x, k) ← powEvenC 64 x k
    if k >>> 1 = 0 then some x else powOddC 64 x x (k >>> 1)

variable {x k}

theorem and_one_iff : k &&& 1 = 0 ↔ k.toNat % 2 = 0 := by
  have h1 : (k &&& 1).toNat = k.toNat % 2 := by
    rw [BitVec.toNat_and]
    exact Nat.and_two_pow_sub_one_eq_mod _ 1
  rw [← h1]
  exact ⟨fun h => by rw [h]; rfl, fun h => BitVec.eq_of_toNat_eq h⟩

theorem toNat_shift_one : (k >>> 1).toNat = k.toNat / 2 := by
  rw [BitVec.toNat_ushiftRight, Nat.shiftRight_eq_div_pow]

/-- The value modulo `2 ^ 64`. -/
theorem toNat_mul_self : (x * x).toNat ≡ x.toNat ^ 2 [MOD 2 ^ 64] := by
  rw [BitVec.toNat_mul, sq]
  exact Nat.mod_modEq _ _

/-- An even exponent is halved for a square. -/
theorem powEvenC_spec {fuel : ℕ} : ∀ {x k : BitVec 64}, k ≠ 0 → k.toNat < 2 ^ fuel →
    ∃ x' k', powEvenC fuel x k = some (x', k') ∧ powEven fuel x k = (x', k') ∧ k'.toNat % 2 = 1 ∧
      k'.toNat ≤ k.toNat ∧ x'.toNat ^ k'.toNat ≡ x.toNat ^ k.toNat [MOD 2 ^ 64] := by
  induction fuel with
  | zero =>
      intro x k h0 h
      exact absurd (BitVec.eq_of_toNat_eq (show k.toNat = 0 by omega)) h0
  | succ fuel ih =>
      intro x k h0 h
      rw [pow_succ] at h
      rw [powEvenC, powEven]
      by_cases heven : k &&& 1 = 0
      · have hmod := and_one_iff.mp heven
        have hpos : k.toNat ≠ 0 := fun h => h0 (BitVec.eq_of_toNat_eq h)
        have hne : k >>> 1 ≠ 0 := by
          intro hk
          have := congrArg BitVec.toNat hk
          rw [toNat_shift_one] at this
          have hz : (0 : BitVec 64).toNat = 0 := rfl
          lia
        obtain ⟨x', k', hC, hP, hodd, hle, hpow⟩ := ih (x := x * x) hne (by rw [toNat_shift_one]; omega)
        rw [toNat_shift_one] at hle hpow
        refine ⟨x', k', ?_, ?_, hodd, by lia, ?_⟩
        · rw [if_pos heven, hC]
        · rw [if_pos heven, hP]
        · have hk : k.toNat = 2 * (k.toNat / 2) := by lia
          rw [hk, pow_mul]
          exact hpow.trans (toNat_mul_self.pow _)
      · have hodd : k.toNat % 2 = 1 := by
          have hne : ¬k.toNat % 2 = 0 := fun h => heven (and_one_iff.mpr h)
          lia
        refine ⟨x, k, ?_, ?_, hodd, Nat.le_refl _, Nat.ModEq.refl _⟩
        · rw [if_neg heven]
        · rw [if_neg heven]

/-- The product so far, and the rest of the power: the exponent counts squares of `x`. -/
theorem powOddC_spec {fuel : ℕ} : ∀ {x y k : BitVec 64}, k ≠ 0 → k.toNat < 2 ^ fuel →
    ∃ r, powOddC fuel x y k = some r ∧ powOdd fuel x y k = r ∧
      r.toNat ≡ y.toNat * (x.toNat ^ 2) ^ k.toNat [MOD 2 ^ 64] := by
  induction fuel with
  | zero =>
      intro x y k h0 h
      exact absurd (BitVec.eq_of_toNat_eq (show k.toNat = 0 by omega)) h0
  | succ fuel ih =>
      intro x y k h0 h
      rw [pow_succ] at h
      have hmulx : ∀ z : BitVec 64, (z * (x * x)).toNat ≡ z.toNat * x.toNat ^ 2 [MOD 2 ^ 64] := by
        intro z
        rw [BitVec.toNat_mul]
        exact (Nat.mod_modEq _ _).trans ((Nat.ModEq.refl _).mul toNat_mul_self)
      rw [powOddC, powOdd]
      by_cases h1 : k = 1
      · have hk : k.toNat = 1 := by rw [h1]; rfl
        refine ⟨y * (x * x), ?_, ?_, ?_⟩
        · rw [if_pos h1]
        · rw [if_pos h1]
        · rw [hk, pow_one]
          exact hmulx y
      · have hk0 : k.toNat ≠ 0 := fun h => h0 (BitVec.eq_of_toNat_eq h)
        have hk1 : k.toNat ≠ 1 := fun h => h1 (BitVec.eq_of_toNat_eq h)
        have hne : k >>> 1 ≠ 0 := by
          intro hk
          have := congrArg BitVec.toNat hk
          rw [toNat_shift_one] at this
          have hz : (0 : BitVec 64).toNat = 0 := rfl
          lia
        obtain ⟨r, hC, hP, hpow⟩ := ih (x := x * x) (y := if k &&& 1 = 0 then y else y * (x * x)) hne
          (by rw [toNat_shift_one]; lia)
        refine ⟨r, ?_, ?_, ?_⟩
        · rw [if_neg h1]
          exact hC
        · rw [if_neg h1]
          exact hP
        · rw [toNat_shift_one] at hpow
          refine hpow.trans ?_
          have hsq : ((x * x).toNat ^ 2) ^ (k.toNat / 2) ≡ ((x.toNat ^ 2) ^ 2) ^ (k.toNat / 2) [MOD 2 ^ 64] :=
            (toNat_mul_self.pow 2).pow _
          by_cases heven : k &&& 1 = 0
          · have hmod := and_one_iff.mp heven
            have hk : k.toNat = 2 * (k.toNat / 2) := by lia
            rw [if_pos heven]
            conv_rhs => rw [hk, pow_mul]
            exact (Nat.ModEq.refl _).mul hsq
          · have hodd : k.toNat % 2 = 1 := by
              have hne' : ¬k.toNat % 2 = 0 := fun h => heven (and_one_iff.mpr h)
              lia
            have hk : k.toNat = 1 + 2 * (k.toNat / 2) := by lia
            rw [if_neg heven]
            conv_rhs => rw [hk, pow_add, pow_one, pow_mul, ← Nat.mul_assoc]
            exact (hmulx y).mul hsq

/-- The loops end, and compute the power. -/
theorem powu64C_eq (x k : BitVec 64) :
    powu64C x k = some (powu64 x k) ∧ (powu64 x k).toNat = x.toNat ^ k.toNat % 2 ^ 64 := by
  rw [powu64C, powu64]
  by_cases h0 : k = 0
  · rw [if_pos h0, if_pos h0, h0]
    exact ⟨rfl, rfl⟩
  · obtain ⟨x', k', hC, hP, hodd, hle, hpow⟩ := powEvenC_spec (x := x) h0 k.isLt
    rw [if_neg h0, if_neg h0, hC, hP]
    dsimp only [bind, Option.bind]
    by_cases h1 : k' >>> 1 = 0
    · have hk' : k'.toNat = 1 := by
        have := congrArg BitVec.toNat h1
        rw [toNat_shift_one] at this
        have hz : (0 : BitVec 64).toNat = 0 := rfl
        lia
      rw [hk', pow_one] at hpow
      rw [if_pos h1, if_pos h1]
      refine ⟨rfl, ?_⟩
      rw [← hpow, Nat.mod_eq_of_lt x'.isLt]
    · obtain ⟨r, hC', hP', hpow'⟩ := powOddC_spec (x := x') (y := x') h1 (BitVec.isLt _)
      rw [if_neg h1, if_neg h1, hC', hP']
      refine ⟨rfl, ?_⟩
      have hk' : 2 * (k'.toNat / 2) + 1 = k'.toNat := by lia
      rw [toNat_shift_one, ← pow_mul, Nat.mul_comm, ← pow_succ, hk'] at hpow'
      have hmod := hpow'.trans hpow
      rw [Nat.ModEq, Nat.mod_eq_of_lt r.isLt] at hmod
      exact hmod

/-! ### Signed powers -/

/-- The quotient of one and a power of a number other than zero, one and minus one is truncated to zero. -/
theorem one_tdiv_pow {z : ℤ} {n : ℕ} (hz : 2 ≤ z.natAbs) (hn : n ≠ 0) : Int.tdiv 1 (z ^ n) = 0 := by
  have hpow : 2 ≤ (z ^ n).natAbs := by
    rw [Int.natAbs_pow]
    calc 2 = 2 ^ 1 := rfl
      _ ≤ 2 ^ n := Nat.pow_le_pow_right (by decide) (Nat.one_le_iff_ne_zero.mpr hn)
      _ ≤ z.natAbs ^ n := Nat.pow_le_pow_left hz n
  rw [← Int.natAbs_eq_zero, Int.natAbs_tdiv]
  exact Nat.div_eq_of_lt (by rw [Int.natAbs_one]; omega)

/-- A negative exponent. -/
theorem powi64_neg (x : BitVec 64) {k : BitVec 64} (hk : k.toInt < 0) :
    (powi64 x k).toInt = if x = 0 then 2 ^ 63 - 1 else Int.tdiv 1 (x.toInt ^ k.toInt.natAbs) := by
  have h0 : (0 : BitVec 64).toInt = 0 := rfl
  have hk0 : k ≠ 0 := by
    rintro rfl
    exact absurd hk (by decide)
  have hslt : k.slt 0 = true := by
    rw [BitVec.slt, decide_eq_true_eq, h0]
    exact hk
  have hn : k.toInt.natAbs ≠ 0 := by omega
  have hpar : k &&& 1 = 0 ↔ Even k.toInt.natAbs := by
    rw [and_one_iff, Int.natAbs_even, Int.even_iff, BitVec.toInt_eq_toNat_cond]
    split <;> lia
  rw [powi64, if_neg hk0, if_pos hslt]
  by_cases hx0 : x = 0
  · rw [if_pos hx0, if_pos hx0]
    rfl
  · rw [if_neg hx0, if_neg hx0]
    by_cases hx1 : x = 1
    · have h1 : x.toInt = 1 := by rw [hx1]; rfl
      rw [if_pos hx1, h1, one_pow]
      rfl
    · rw [if_neg hx1]
      by_cases hxm : x = -1
      · have h1 : x.toInt = -1 := by rw [hxm]; rfl
        rw [if_pos hxm, h1]
        by_cases heven : k &&& 1 = 0
        · rw [if_pos heven, (hpar.mp heven).neg_one_pow]
          rfl
        · rw [if_neg heven, (Nat.not_even_iff_odd.mp fun h => heven (hpar.mpr h)).neg_one_pow]
          rfl
      · have hne0 : x.toInt ≠ 0 := fun h => hx0 (BitVec.eq_of_toInt_eq h)
        have hne1 : x.toInt ≠ 1 := fun h => hx1 (BitVec.eq_of_toInt_eq h)
        have hnem : x.toInt ≠ -1 := fun h => hxm (BitVec.eq_of_toInt_eq h)
        rw [if_neg hxm, one_tdiv_pow (by lia) hn]
        rfl

theorem powi64_nonneg (x : BitVec 64) {k : BitVec 64} (hk : 0 ≤ k.toInt) : powi64 x k = powu64 x k := by
  have h0 : (0 : BitVec 64).toInt = 0 := rfl
  have hslt : ¬k.slt 0 = true := by
    rw [BitVec.slt, decide_eq_true_eq, h0]
    omega
  rw [powi64, powu64]
  by_cases hk0 : k = 0
  · rw [if_pos hk0, if_pos hk0]
  · rw [if_neg hk0, if_neg hslt, if_neg hk0]

/-- **The 64 bit integer helpers.**  The power is that of the integers modulo `2 ^ 64`, its loops end, and
negative exponents give the truncated quotient, saturated for zero; division and modulo never evaluate an
undefined operation, and make up the dividend for all divisors but zero. -/
theorem helpers :
    (∀ x k : BitVec 64, powu64C x k = some (powu64 x k) ∧ (powu64 x k).toNat = x.toNat ^ k.toNat % 2 ^ 64 ∧
      (0 ≤ k.toInt → powi64 x k = powu64 x k) ∧
      (k.toInt < 0 →
        (powi64 x k).toInt = if x = 0 then 2 ^ 63 - 1 else Int.tdiv 1 (x.toInt ^ k.toInt.natAbs))) ∧
    (∀ a b : BitVec 64, divi64C a b = some (divi64 a b) ∧ modi64C a b = some (modi64 a b) ∧
      divu64C a b = some (divu64 a b) ∧ modu64C a b = some (modu64 a b)) ∧
    ∀ a b : BitVec 64, b ≠ 0 →
      (a = b * divi64 a b + modi64 a b ∧ (modi64 a b).toInt.natAbs < b.toInt.natAbs ∧
        (0 ≤ a.toInt → 0 ≤ (modi64 a b).toInt) ∧ (a.toInt ≤ 0 → (modi64 a b).toInt ≤ 0)) ∧
      a = b * divu64 a b + modu64 a b ∧ modu64 a b < b := by
  refine ⟨fun x k => ?_, fun a b => ?_, fun a b hb => ⟨divi64_modi64 a hb, divu64_modu64 a hb⟩⟩
  · obtain ⟨hC, hpow⟩ := powu64C_eq x k
    exact ⟨hC, hpow, powi64_nonneg x, powi64_neg x⟩
  · exact ⟨divi64C_eq a b, modi64C_eq a b, divu64C_eq a b, modu64C_eq a b⟩

/-- The quotient that does not fit. -/
theorem helpers_intMin : intMin = -1 * divi64 intMin (-1) + modi64 intMin (-1) :=
  (helpers.2.2 intMin (-1) (by decide)).1.1

end Carith
