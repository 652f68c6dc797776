/-
**Operands are encoded exactly, but for four distances.**

A value that passes its check has a pattern within its field, which decodes to the value; the
patterns of an instruction do not meet, since its fields are free.  The checks of a distance let the
first one through that does not fit: its pattern is empty, or has a bit of the next field.

Main results:

* `Dasm.putImm_exact`, `Dasm.patchrel_exact` — what the checks admit is encoded exactly, or is an edge;
* `Dasm.Built.addOp`, `Dasm.Built.correct_iff` — an instruction with all of its operands;
* `Dasm.assemble_correct_iff` — **all emitted words are correct exactly when no distance is an edge**.
-/

import LuaJit.DasmArm
import LuaJit.ArmFuse

set_option relaxedAutoImplicit false
set_option autoImplicit false

namespace Dasm

/-! ### Words -/

theorem toInt_sshiftRight (n : Word) (k : ℕ) : (n.sshiftRight k).toInt = n.toInt / 2 ^ k := by
  rw [BitVec.toInt_sshiftRight, Int.shiftRight_eq_div_pow]
  rfl

/-- A word without bits above `k`. -/
theorem range_of_sshiftRight {n : Word} {k : ℕ} (h : n.sshiftRight k = 0) :
    0 ≤ n.toInt ∧ n.toInt < 2 ^ k := by
  have h' : n.toInt / 2 ^ k = 0 := by
    rw [← toInt_sshiftRight, h]
    rfl
  have hpos : (0 : ℤ) < 2 ^ k := by positivity
  have hdiv := Int.mul_ediv_add_emod n.toInt (2 ^ k)
  rw [h', mul_zero, zero_add] at hdiv
  exact ⟨hdiv ▸ Int.emod_nonneg _ hpos.ne', hdiv ▸ Int.emod_lt_of_pos _ hpos⟩

theorem toNat_of_nonneg {n : Word} (h : 0 ≤ n.toInt) : (n.toNat : ℤ) = n.toInt := by
  rw [BitVec.toInt_eq_toNat_cond] at h ⊢
  split at h
  · rw [if_pos (by assumption)]
  · have := n.isLt
    omega

theorem toNat_absWord (n : Word) : (absWord n).toNat = n.toInt.natAbs := by
  rw [absWord]
  split
  · rename_i h
    have := toNat_of_nonneg h
    lia
  · rename_i h
    rw [BitVec.toNat_neg]
    rw [BitVec.toInt_eq_toNat_cond] at h ⊢
    have := n.isLt
    split at h <;> lia

theorem ones_toNat {k : ℕ} (hk : k < 32) : (ones k).toNat = 2 ^ k - 1 := by
  have hpow : 2 ^ k < 2 ^ 32 := Nat.pow_lt_pow_right (by decide) hk
  have hpos : 0 < 2 ^ k := Nat.pow_pos (by decide)
  have h1 : (1#32 <<< k).toNat = 2 ^ k := by
    rw [BitVec.toNat_shiftLeft, BitVec.toNat_ofNat, Nat.mod_eq_of_lt (a := 1) (by decide),
      Nat.one_shiftLeft, Nat.mod_eq_of_lt hpow]
  rw [ones, BitVec.toNat_sub, h1]
  change (2 ^ 32 - 1 + 2 ^ k) % 2 ^ 32 = _
  lia

theorem getLsbD_ones {k : ℕ} (hk : k < 32) (i : ℕ) : (ones k).getLsbD i = decide (i < k) := by
  rw [BitVec.getLsbD, ones_toNat hk, Nat.testBit_two_pow_sub_one]

/-- The bits of a field that is shifted. -/
theorem getLsbD_shifted_ones {bits shift : ℕ} (hb : bits < 32) (h : bits + shift ≤ 32) (i : ℕ) :
    (ones bits <<< shift).getLsbD i = (decide (shift ≤ i) && decide (i < bits + shift)) := by
  rw [BitVec.getLsbD_shiftLeft, getLsbD_ones hb]
  by_cases h1 : i < shift
  · simp [h1]
  · by_cases h2 : i < bits + shift
    · simp [h1, h2, show i < 32 by omega, show i - shift < bits by lia, show shift ≤ i by omega]
    · simp [h1, h2, show ¬i - shift < bits by lia]

/-- A field is read off the bits of its mask. -/
theorem extract_and {w m : Word} {s k : ℕ} (h : m.extractLsb' s k = BitVec.allOnes k) :
    (w &&& m).extractLsb' s k = w.extractLsb' s k := by
  rw [BitVec.extractLsb'_and, h, BitVec.and_allOnes]

/-- A field within the word. -/
def Field.InWord : Field → Prop
  | imm _ bits shift _ => bits < 32 ∧ bits + shift ≤ 32
  | _ => True

theorem Field.decode_congr (f : Field) {w w' : Word}
    (hf : f.InWord)
    (h : w &&& f.mask = w' &&& f.mask) : f.decode w = f.decode w' := by
  have key : ∀ s k, f.mask.extractLsb' s k = BitVec.allOnes k →
      w.extractLsb' s k = w'.extractLsb' s k := by
    intro s k hm
    rw [← extract_and (w := w) hm, ← extract_and (w := w') hm, h]
  have hbit : f.mask.getLsbD 23 = true → w.getLsbD 23 = w'.getLsbD 23 := by
    intro hm
    have := congrArg (fun x => x.getLsbD 23) h
    simpa only [BitVec.getLsbD_and, hm, Bool.and_true] using this
  cases f with
  | imm scale bits shift sgn =>
    have hfield : (w >>> shift) &&& ones bits = (w' >>> shift) &&& ones bits := by
      refine BitVec.eq_of_getLsbD_eq fun i _ => ?_
      have hi := congrArg (fun x => x.getLsbD (shift + i)) h
      simp only [Field.mask, BitVec.getLsbD_and, getLsbD_shifted_ones hf.1 hf.2] at hi
      simp only [BitVec.getLsbD_and, BitVec.getLsbD_ushiftRight, getLsbD_ones hf.1]
      by_cases hib : i < bits
      · simpa [hib, show shift + i < bits + shift by omega] using hi
      · simp [hib]
    simp only [Field.decode, hfield]
  | imm12 => simp only [Field.decode, key 0 8 (by decide), key 8 4 (by decide)]
  | imm16 => simp only [Field.decode, key 16 4 (by decide), key 0 12 (by decide)]
  | l8 =>
    simp only [Field.decode, key 8 4 (by decide), key 0 4 (by decide), hbit (by decide)]
  | l12 => simp only [Field.decode, key 0 12 (by decide), hbit (by decide)]
  | v8 => simp only [Field.decode, key 0 8 (by decide), hbit (by decide)]
  | rel24 => simp only [Field.decode, key 0 24 (by decide)]

/-! ### Fields -/

/-- A pattern within its field, that decodes to a value. -/
structure Fits (f : Field) (x : Word) (v : ℤ) : Prop where
  frame : x &&& ~~~f.mask = 0
  value : f.decode x = v

/-- The bits of a small word lie in a mask. -/
theorem and_not_mask {x m : Word} {k : ℕ} (hk : k < 32) (hx : x.toNat < 2 ^ k)
    (hm : ones k &&& ~~~m = 0) : x &&& ~~~m = 0 := by
  have hself : x &&& ones k = x := by
    refine BitVec.eq_of_toNat_eq ?_
    rw [BitVec.toNat_and, ones_toNat hk, Nat.and_two_pow_sub_one_eq_mod, Nat.mod_eq_of_lt hx]
  rw [← hself, BitVec.and_assoc, hm]
  exact BitVec.and_zero

theorem and_or_right (a b m : Word) : (a ||| b) &&& m = (a &&& m) ||| (b &&& m) := by
  refine BitVec.eq_of_getLsbD_eq fun i _ => ?_
  simp only [BitVec.getLsbD_and, BitVec.getLsbD_or, Bool.and_or_distrib_right]

theorem withSign_frame {n x m : Word} (hx : x &&& ~~~m = 0) (hm : 0x00800000#32 &&& ~~~m = 0) :
    withSign n x &&& ~~~m = 0 := by
  rw [withSign]
  split
  · rw [and_or_right, hx, hm]
    exact BitVec.or_zero
  · exact hx

theorem withSign_extract {n x : Word} {s k : ℕ} (h : (0x00800000#32).extractLsb' s k = 0) :
    (withSign n x).extractLsb' s k = x.extractLsb' s k := by
  rw [withSign]
  split
  · rw [BitVec.extractLsb'_or, h]
    exact BitVec.zero_or
  · rfl

theorem withSign_bit {n x : Word} (hx : x.getLsbD 23 = false) :
    (withSign n x).getLsbD 23 = decide (0 ≤ n.toInt) := by
  rw [withSign]
  split
  · rename_i h
    rw [BitVec.getLsbD_or]
    simp [h]
  · rename_i h
    rw [hx]
    simp [h]

theorem getLsbD_of_toNat_lt {x : Word} {k i : ℕ} (hx : x.toNat < 2 ^ k) (hi : k ≤ i) :
    x.getLsbD i = false := by
  rw [BitVec.getLsbD]
  exact Nat.testBit_lt_two_pow (lt_of_lt_of_le hx (Nat.pow_le_pow_right (by decide) hi))

/-- The value with its sign. -/
theorem signed_value {n : Word} {x : ℕ} (hx : x = n.toInt.natAbs) :
    (if decide (0 ≤ n.toInt) = true then (x : ℤ) else -x) = n.toInt := by
  by_cases h : 0 ≤ n.toInt
  · rw [if_pos (by simpa using h)]
    lia
  · rw [if_neg (by simpa using h)]
    lia

theorem extract_low {x : Word} {k : ℕ} (hx : x.toNat < 2 ^ k) : (x.extractLsb' 0 k).toNat = x.toNat := by
  rw [BitVec.extractLsb'_toNat, Nat.shiftRight_zero, Nat.mod_eq_of_lt hx]

theorem fits_l12 {n : Word} (h : n.toInt.natAbs < 4096) : Fits .l12 (Field.l12.patch n) n.toInt := by
  have hx : (absWord n).toNat < 2 ^ 12 := by
    rw [toNat_absWord]
    exact h
  constructor
  · exact withSign_frame (and_not_mask (by decide) hx (by decide)) (by decide)
  · have hlow : (withSign n (absWord n)).extractLsb' 0 12 = (absWord n).extractLsb' 0 12 :=
      withSign_extract (by decide)
    rw [Field.decode, Field.patch, withSign_bit (getLsbD_of_toNat_lt hx (by decide)), hlow,
      extract_low hx]
    exact signed_value (toNat_absWord n)

theorem fits_v8 {n : Word} {m : Word} (h : m.toInt.natAbs < 256) (hn : n.toInt = 4 * m.toInt) :
    Fits .v8 (Field.v8.patch m) n.toInt := by
  have hx : (absWord m).toNat < 2 ^ 8 := by
    rw [toNat_absWord]
    exact h
  constructor
  · exact withSign_frame (and_not_mask (by decide) hx (by decide)) (by decide)
  · have hlow : (withSign m (absWord m)).extractLsb' 0 8 = (absWord m).extractLsb' 0 8 :=
      withSign_extract (by decide)
    have hv := signed_value (toNat_absWord m)
    rw [Field.decode, Field.patch, withSign_bit (getLsbD_of_toNat_lt hx (by decide)), hlow,
      extract_low hx, hn]
    split at hv
    · rename_i hpos
      rw [if_pos hpos, hv]
    · rename_i hneg
      rw [if_neg hneg, ← hv]
      ring

/-- The split of 8 bits. -/
def split8 (x : Word) : Word := (x &&& 0x0f#32) ||| ((x &&& 0xf0#32) <<< 4)

theorem split8_high (x : Word) : (split8 x).extractLsb' 8 4 = x.extractLsb' 4 4 := by
  refine BitVec.eq_of_getLsbD_eq fun i hi => ?_
  simp only [split8, BitVec.getLsbD_extractLsb', BitVec.getLsbD_or, BitVec.getLsbD_shiftLeft,
    BitVec.getLsbD_and]
  interval_cases i <;> simp

theorem split8_low (x : Word) : (split8 x).extractLsb' 0 4 = x.extractLsb' 0 4 := by
  refine BitVec.eq_of_getLsbD_eq fun i hi => ?_
  simp only [split8, BitVec.getLsbD_extractLsb', BitVec.getLsbD_or, BitVec.getLsbD_shiftLeft,
    BitVec.getLsbD_and]
  interval_cases i <;> simp

theorem split8_free (x : Word) {i : ℕ} (hi : i < 32) (hm : (0x00000f0f#32).getLsbD i = false) :
    (split8 x).getLsbD i = false := by
  simp only [split8, BitVec.getLsbD_or, BitVec.getLsbD_shiftLeft, BitVec.getLsbD_and]
  interval_cases i <;> simp_all

theorem split8_extract {x w : Word} (hx : x.toNat < 2 ^ 8) (h₁ : w.extractLsb' 8 4 = x.extractLsb' 4 4)
    (h₀ : w.extractLsb' 0 4 = x.extractLsb' 0 4) :
    (w.extractLsb' 8 4 ++ w.extractLsb' 0 4).toNat = x.toNat := by
  rw [h₁, h₀, BitVec.extractLsb'_append_extractLsb'_eq_extractLsb' (by decide)]
  exact extract_low hx

theorem fits_l8 {n : Word} (h : n.toInt.natAbs < 256) : Fits .l8 (Field.l8.patch n) n.toInt := by
  have hx : (absWord n).toNat < 2 ^ 8 := by
    rw [toNat_absWord]
    exact h
  have hfree : split8 (absWord n) &&& ~~~Field.l8.mask = 0 := by
    refine BitVec.eq_of_getLsbD_eq fun i hi => ?_
    by_cases hm : (0x00000f0f#32).getLsbD i = false
    · rw [BitVec.getLsbD_and, split8_free _ hi hm]
      simp
    · have : (~~~Field.l8.mask).getLsbD i = false := by
        revert hm
        interval_cases i <;> decide
      rw [BitVec.getLsbD_and, this]
      simp
  constructor
  · exact withSign_frame hfree (by decide)
  · have h₁ : (withSign n (split8 (absWord n))).extractLsb' 8 4 = (absWord n).extractLsb' 4 4 :=
      (withSign_extract (by decide)).trans (split8_high _)
    have h₀ : (withSign n (split8 (absWord n))).extractLsb' 0 4 = (absWord n).extractLsb' 0 4 :=
      (withSign_extract (by decide)).trans (split8_low _)
    change Field.l8.decode (withSign n (split8 (absWord n))) = n.toInt
    rw [Field.decode, withSign_bit (split8_free _ (by decide) (by decide)), split8_extract hx h₁ h₀]
    exact signed_value (toNat_absWord n)

/-- The value of a rotated constant. -/
theorem fits_rotated {n : Word} {j : ℕ} (hj : j < 16) (h : (n.rotateLeft (2 * j)).toNat ≤ 255) :
    Fits .imm12 (n.rotateLeft (2 * j) + (BitVec.ofNat 32 j <<< 8)) n.toInt := by
  have hv : (n.rotateLeft (2 * j) + (BitVec.ofNat 32 j <<< 8)).toNat =
      (n.rotateLeft (2 * j)).toNat + 256 * j := by
    rw [BitVec.toNat_add, BitVec.toNat_shiftLeft, BitVec.toNat_ofNat, Nat.shiftLeft_eq]
    lia
  constructor
  · refine and_not_mask (k := 12) (by decide) ?_ (by decide)
    rw [hv]
    lia
  · have hlow : ((n.rotateLeft (2 * j) + (BitVec.ofNat 32 j <<< 8)).extractLsb' 0 8).setWidth 32 =
        n.rotateLeft (2 * j) := by
      refine BitVec.eq_of_toNat_eq ?_
      rw [BitVec.toNat_setWidth, BitVec.extractLsb'_toNat, hv, Nat.shiftRight_zero]
      lia
    have hrot : ((n.rotateLeft (2 * j) + (BitVec.ofNat 32 j <<< 8)).extractLsb' 8 4).toNat = j := by
      rw [BitVec.extractLsb'_toNat, hv, Nat.shiftRight_eq_div_pow]
      lia
    rw [Field.decode, hlow, hrot, ArmAsm.rotateRight_rotateLeft n (by omega)]

/-- The loop has rotated the constant by two bits for each step. -/
theorem fits_imm12_loop {n : Word} (i : ℕ) {x : Word} (hi : i ≤ 16)
    (h : dasmImm12Loop (n.rotateLeft (2 * (16 - i))) i = some x) : Fits .imm12 x n.toInt := by
  induction i with
  | zero => cases h
  | succ i ih =>
    rw [dasmImm12Loop] at h
    split at h
    · rename_i hle
      obtain rfl := Option.some.inj h
      rw [show 15 - i = 16 - (i + 1) by lia]
      refine fits_rotated (by lia) ?_
      simpa [BitVec.ule] using hle
    · cases i with
      | zero => cases h
      | succ i =>
        have hstep : (n.rotateLeft (2 * (16 - (i + 2))) <<< 2 ||| n.rotateLeft (2 * (16 - (i + 2))) >>> 30) =
            n.rotateLeft (2 * (16 - (i + 1))) := by
          rw [show 16 - (i + 1) = 16 - (i + 2) + 1 by lia, ← ArmAsm.rotateLeft_two n (by lia)]
          rfl
        rw [hstep] at h
        exact ih (by omega) h

theorem fits_imm12 {n : Word} (h : (dasmImm12 n).isSome = true) :
    Fits .imm12 (Field.imm12.patch n) n.toInt := by
  obtain ⟨x, hx⟩ := Option.isSome_iff_exists.1 h
  rw [Field.patch, hx]
  refine fits_imm12_loop 16 le_rfl ?_
  rw [Nat.sub_self, Nat.mul_zero, ArmAsm.rotateLeft_zero]
  exact hx

/-- The split of 16 bits. -/
theorem fits_imm16 {n : Word} (h : n.toNat < 2 ^ 16) : Fits .imm16 (Field.imm16.patch n) n.toInt := by
  constructor
  · refine BitVec.eq_of_getLsbD_eq fun i hi => ?_
    simp only [Field.patch, Field.mask, BitVec.getLsbD_or, BitVec.getLsbD_shiftLeft, BitVec.getLsbD_and]
    interval_cases i <;> simp
  · have h₁ : (Field.imm16.patch n).extractLsb' 16 4 = n.extractLsb' 12 4 := by
      refine BitVec.eq_of_getLsbD_eq fun i hi => ?_
      simp only [Field.patch, BitVec.getLsbD_extractLsb', BitVec.getLsbD_or, BitVec.getLsbD_shiftLeft,
        BitVec.getLsbD_and]
      interval_cases i <;> simp
    have h₀ : (Field.imm16.patch n).extractLsb' 0 12 = n.extractLsb' 0 12 := by
      refine BitVec.eq_of_getLsbD_eq fun i hi => ?_
      simp only [Field.patch, BitVec.getLsbD_extractLsb', BitVec.getLsbD_or, BitVec.getLsbD_shiftLeft,
        BitVec.getLsbD_and]
      interval_cases i <;> simp
    rw [Field.decode, h₁, h₀, BitVec.extractLsb'_append_extractLsb'_eq_extractLsb' (by decide),
      extract_low h]
    refine toNat_of_nonneg ?_
    rw [BitVec.toInt_eq_toNat_of_lt (by omega)]
    omega

/-- The lowest bits of a word, as a remainder. -/
theorem and_ones_toNat (n : Word) {k : ℕ} (hk : k < 32) : (n &&& ones k).toNat = n.toNat % 2 ^ k := by
  rw [BitVec.toNat_and, ones_toNat hk, Nat.and_two_pow_sub_one_eq_mod]

theorem toNat_emod (n : Word) {k : ℕ} (hk : k ≤ 32) : ((n.toNat % 2 ^ k : ℕ) : ℤ) = n.toInt % 2 ^ k := by
  obtain ⟨d, hd⟩ : (2 : ℤ) ^ k ∣ 2 ^ 32 := pow_dvd_pow 2 hk
  rw [BitVec.toInt_eq_toNat_cond]
  push_cast
  split
  · rfl
  · rw [show (4294967296 : ℤ) = 2 ^ k * d by rw [← hd]; norm_num, Int.sub_mul_emod_self_left]

/-- A multiple of a scale. -/
theorem toInt_of_and_ones {n : Word} {k : ℕ} (hk : k < 32) (h : n &&& ones k = 0) :
    n.toInt = n.toInt / 2 ^ k * 2 ^ k := by
  have hmod : n.toInt % 2 ^ k = 0 := by
    rw [← toNat_emod n hk.le, ← and_ones_toNat n hk, h]
    rfl
  have := Int.ediv_mul_add_emod n.toInt (2 ^ k)
  lia

theorem fits_rel24 {n : Word} (h₂ : n &&& 3 = 0) (h : (n + 0x02000000#32).sshiftRight 26 = 0) :
    Fits .rel24 (Field.rel24.patch n) n.toInt := by
  have hmul := toInt_of_and_ones (n := n) (k := 2) (by decide) h₂
  have hrange := range_of_sshiftRight h
  have hn : -2 ^ 25 ≤ n.toInt ∧ n.toInt < 2 ^ 25 := by
    rw [BitVec.toInt_add] at hrange
    have hc : (0x02000000#32 : Word).toInt = 2 ^ 25 := by decide
    rw [hc, Int.bmod_def] at hrange
    have := BitVec.le_toInt n
    have := BitVec.toInt_lt (x := n)
    split at hrange <;> lia
  have hq : (n.sshiftRight 2).toInt = n.toInt / 4 := toInt_sshiftRight n 2
  have hand : (n.sshiftRight 2 &&& 0x00ffffff#32).toNat = (n.sshiftRight 2).toNat % 2 ^ 24 :=
    and_ones_toNat (k := 24) _ (by decide)
  constructor
  · rw [Field.patch, BitVec.and_assoc]
    exact BitVec.and_zero
  · have hext : (Field.rel24.patch n).extractLsb' 0 24 = (n.sshiftRight 2).setWidth 24 := by
      refine BitVec.eq_of_toNat_eq ?_
      rw [extract_low (by rw [Field.patch, hand]; lia), Field.patch, hand, BitVec.toNat_setWidth]
    rw [Field.decode, hext, BitVec.toInt_setWidth, Int.bmod_def]
    rw [BitVec.toInt_eq_toNat_cond] at hq
    have := (n.sshiftRight 2).isLt
    split at hq <;> split <;> lia

/-- Division by a scale keeps the sign, and does not grow. -/
theorem ediv_bounds (a : ℤ) (k : ℕ) : (0 ≤ a → 0 ≤ a / 2 ^ k ∧ a / 2 ^ k ≤ a) ∧
    (a < 0 → a ≤ a / 2 ^ k ∧ a / 2 ^ k < 0) := by
  have hpos : (0 : ℤ) < 2 ^ k := by positivity
  have hone : (1 : ℤ) ≤ 2 ^ k := hpos
  refine ⟨fun h => ⟨Int.ediv_nonneg h hpos.le, Int.ediv_le_self _ h⟩,
    fun h => ⟨?_, Int.ediv_neg_of_neg_of_pos h hpos⟩⟩
  rw [Int.le_ediv_iff_mul_le hpos]
  nlinarith

/-- An immediate that is scaled and shifted. -/
theorem fits_imm {n : Word} {scale bits shift : ℕ} {sgn : Bool} (hs : scale < 32) (hb : bits < 32)
    (h : bits + shift ≤ 32) (hscale : n &&& ones scale = 0)
    (hr : if sgn = true then -2 ^ bits ≤ 2 * n.toInt ∧ 2 * n.toInt < 2 ^ bits
      else 0 ≤ n.toInt ∧ n.toInt < 2 ^ bits) :
    Fits (.imm scale bits shift sgn) ((Field.imm scale bits shift sgn).patch n) n.toInt := by
  have hmul := toInt_of_and_ones hs hscale
  have hq : (n.sshiftRight scale).toInt = n.toInt / 2 ^ scale := toInt_sshiftRight n scale
  have hfield : (n.sshiftRight scale &&& ones bits) <<< shift >>> shift &&& ones bits =
      n.sshiftRight scale &&& ones bits := by
    refine BitVec.eq_of_getLsbD_eq fun i _ => ?_
    simp only [BitVec.getLsbD_and, BitVec.getLsbD_ushiftRight, BitVec.getLsbD_shiftLeft, getLsbD_ones hb]
    by_cases hi : i < bits
    · simp [hi, show shift + i < 32 by lia]
    · simp [hi]
  have hu : (((n.sshiftRight scale &&& ones bits).toNat : ℕ) : ℤ) = n.toInt / 2 ^ scale % 2 ^ bits := by
    rw [and_ones_toNat _ hb, toNat_emod _ hb.le, hq]
  constructor
  · refine BitVec.eq_of_getLsbD_eq fun i _ => ?_
    simp only [Field.patch, Field.mask, BitVec.getLsbD_and, BitVec.getLsbD_not, BitVec.getLsbD_shiftLeft,
      getLsbD_ones hb]
    by_cases hi : i - shift < bits
    · by_cases hi' : i < shift <;> simp [hi, hi']
    · simp [hi]
  · have hb := ediv_bounds n.toInt scale
    simp only [Field.decode, Field.patch, hfield, hu]
    generalize n.toInt / 2 ^ scale = q at *
    have hpow : (0 : ℤ) < 2 ^ bits := by positivity
    cases sgn with
    | false =>
      simp only [Bool.false_eq_true, if_false, false_and] at hr ⊢
      rw [Int.emod_eq_of_lt (hb.1 hr.1).1 (by lia)]
      exact hmul.symm
    | true =>
      simp only [if_true, true_and] at hr ⊢
      by_cases hn : 0 ≤ n.toInt
      · have := hb.1 hn
        rw [Int.emod_eq_of_lt this.1 (by lia), if_neg (by lia)]
        exact hmul.symm
      · have := hb.2 (by omega)
        have hmod : q % 2 ^ bits = q + 2 ^ bits := by
          rw [← Int.add_emod_right, Int.emod_eq_of_lt (by lia) (by lia)]
        rw [hmod, if_pos (by lia), add_sub_cancel_right]
        exact hmul.symm

/-! ### Checked operands -/

theorem bits_lt (ins : Word) : bits ins < 32 := (ins.extractLsb' 5 5).isLt

theorem scale_lt (ins : Word) : scale ins < 32 := (ins.extractLsb' 10 5).isLt

/-- The signed check is one of a biased value. -/
theorem range_of_biased {n : Word} {k : ℕ} (h₀ : 0 < k) (hk : k < 32)
    (h : (n + (1#32 <<< (k - 1))).sshiftRight k = 0) : -2 ^ k ≤ 2 * n.toInt ∧ 2 * n.toInt < 2 ^ k := by
  have hrange := range_of_sshiftRight h
  obtain ⟨k, rfl⟩ : ∃ j, k = j + 1 := ⟨k - 1, by lia⟩
  have hpow : (2 : ℤ) ^ k ≤ 2 ^ 30 := pow_le_pow_right₀ (by decide) (by omega)
  have hpos : (0 : ℤ) < 2 ^ k := by positivity
  have hbias : (1#32 <<< k).toInt = 2 ^ k := by
    have hnat : (1#32 <<< k).toNat = 2 ^ k := by
      rw [BitVec.toNat_shiftLeft, BitVec.toNat_ofNat, Nat.mod_eq_of_lt (a := 1) (by decide),
        Nat.one_shiftLeft, Nat.mod_eq_of_lt (Nat.pow_lt_pow_right (by decide) (by omega))]
    have hlt : (2 : ℕ) ^ k ≤ 2 ^ 30 := Nat.pow_le_pow_right (by decide) (by omega)
    rw [BitVec.toInt_eq_toNat_of_lt (by lia), hnat]
    push_cast
    rfl
  rw [Nat.add_sub_cancel, BitVec.toInt_add, hbias, Int.bmod_def, pow_succ] at hrange
  rw [pow_succ]
  have := BitVec.le_toInt n
  have := BitVec.toInt_lt (x := n)
  split at hrange <;> lia

/-- The check of a magnitude. -/
theorem natAbs_of_sshiftRight {n : Word} {k j : ℕ} (hk : k ≤ j)
    (h : (absWord n).sshiftRight k = 0) : n.toInt.natAbs < 2 ^ j := by
  have hrange := range_of_sshiftRight h
  have hnat := toNat_of_nonneg hrange.1
  have hle : (2 : ℤ) ^ k ≤ 2 ^ j := pow_le_pow_right₀ (by decide) hk
  rw [← toNat_absWord]
  zify
  lia

theorem toInt_quarter {n : Word} (h : n &&& 3 = 0) : n.toInt = 4 * (n.sshiftRight 2).toInt := by
  have hmul := toInt_of_and_ones (n := n) (k := 2) (by decide) h
  rw [toInt_sshiftRight]
  omega

theorem immField_inWord {ins : Word} (h : WFImm ins) : (immField ins).InWord := by
  rw [immField]
  split
  · rename_i ha
    rw [WFImm, ha] at h
    exact ⟨bits_lt ins, h.1⟩
  all_goals trivial

theorem relField_inWord (ins : Word) : (relField ins).InWord := by
  rw [relField]
  split_ifs <;> trivial

/-- What `dasm_put` admits is encoded exactly. -/
theorem putImm_exact {ins n m : Word} (hwf : WFImm ins) (h : putImm ins n = .ok m) :
    Fits (immField ins) ((immField ins).patch m) n.toInt := by
  rw [WFImm] at hwf
  rw [putImm] at h
  rw [immField]
  cases ha : action ins
  case imm =>
    simp only [ha] at h hwf ⊢
    split_ifs at h with hscale hs hr hr <;> cases h
    · refine fits_imm (scale_lt ins) (bits_lt ins) hwf.1 (not_not.1 hscale) ?_
      rw [if_pos hs]
      exact range_of_biased (hwf.2 hs) (bits_lt ins) hr
    · refine fits_imm (scale_lt ins) (bits_lt ins) hwf.1 (not_not.1 hscale) ?_
      rw [if_neg hs]
      exact range_of_sshiftRight hr
  case imm16 =>
    simp only [ha] at h hwf ⊢
    rw [hwf.2] at h
    simp only [Bool.false_eq_true, if_false] at h
    split_ifs at h with hscale hr
    cases h
    have hrange := range_of_sshiftRight hr
    have hnat := toNat_of_nonneg hrange.1
    have hle : (2 : ℤ) ^ bits ins ≤ 2 ^ 16 := pow_le_pow_right₀ (by decide) hwf.1
    exact fits_imm16 (by lia)
  case imml8 =>
    simp only [ha] at h hwf ⊢
    change (if (absWord n).sshiftRight (bits ins) = 0 then _ else _) = _ at h
    split at h <;> cases h
    rename_i hr
    exact fits_l8 (natAbs_of_sshiftRight hwf hr)
  case imml12 =>
    simp only [ha] at h hwf ⊢
    change (if (absWord n).sshiftRight (bits ins) = 0 then _ else _) = _ at h
    split at h <;> cases h
    rename_i hr
    exact fits_l12 (natAbs_of_sshiftRight hwf hr)
  case immv8 =>
    simp only [ha] at h hwf ⊢
    split at h
    · cases h
    · rename_i hscale
      change (if (absWord (n.sshiftRight 2)).sshiftRight (bits ins) = 0 then _ else _) = _ at h
      split at h <;> cases h
      rename_i hr
      exact fits_v8 (natAbs_of_sshiftRight hwf hr) (toInt_quarter (not_not.1 hscale))
  all_goals
    simp only [ha] at h ⊢
    split_ifs at h with hr
    cases h
    exact fits_imm12 hr

/-- A pattern that is not the value: it stays within its field, but for bit 12. -/
structure Misses (f : Field) (x : Word) (v : ℤ) : Prop where
  free : f.mask.getLsbD 12 = false
  frame : x &&& ~~~(f.mask ||| 0x1000#32) = 0
  value : f.decode x ≠ v

/-- The first distance that does not fit has an empty pattern, but for its sign and bit 12. -/
theorem edge_misses {f : Field} {n : Word} (h : Edge ⟨f, n.toInt, true⟩) : Misses f (f.patch n) n.toInt := by
  obtain ⟨-, ⟨rfl, hv⟩ | ⟨rfl, hv⟩⟩ := h
  · obtain rfl | rfl : n = 256#32 ∨ n = -256#32 :=
      hv.imp (fun h => BitVec.eq_of_toInt_eq h) (fun h => BitVec.eq_of_toInt_eq h)
    all_goals exact ⟨by decide, by decide, by decide⟩
  · obtain rfl | rfl : n = 4096#32 ∨ n = -4096#32 :=
      hv.imp (fun h => BitVec.eq_of_toInt_eq h) (fun h => BitVec.eq_of_toInt_eq h)
    all_goals exact ⟨by decide, by decide, by decide⟩

/-- What the check of a distance admits is encoded exactly, or is an edge. -/
theorem patchrel_exact {ins n x : Word} (h : patchrel ins n = .ok x) :
    Fits (relField ins) x n.toInt ∧ ¬Edge ⟨relField ins, n.toInt, true⟩ ∨
      Misses (relField ins) x n.toInt ∧ Edge ⟨relField ins, n.toInt, true⟩ := by
  rw [patchrel] at h
  split at h
  · cases h
  rename_i hscale
  have hscale := not_not.1 hscale
  have hmul := toInt_quarter hscale
  cases hf : relField ins
  case rel24 =>
    simp only [hf] at h
    split at h <;> cases h
    exact .inl ⟨fits_rel24 hscale (by assumption), by simp [Edge]⟩
  case l8 =>
    simp only [hf] at h
    split at h <;> cases h
    rename_i hr
    by_cases hv : n.toInt = 256 ∨ n.toInt = -256
    · have hedge : Edge ⟨.l8, n.toInt, true⟩ := ⟨rfl, .inl ⟨rfl, hv⟩⟩
      exact .inr ⟨edge_misses hedge, hedge⟩
    · exact .inl ⟨fits_l8 (by lia), by simpa [Edge] using hv⟩
  case l12 =>
    simp only [hf] at h
    split at h <;> cases h
    rename_i hr
    by_cases hv : n.toInt = 4096 ∨ n.toInt = -4096
    · have hedge : Edge ⟨.l12, n.toInt, true⟩ := ⟨rfl, .inr ⟨rfl, hv⟩⟩
      exact .inr ⟨edge_misses hedge, hedge⟩
    · exact .inl ⟨fits_l12 (by lia), by simpa [Edge] using hv⟩
  case v8 =>
    simp only [hf] at h
    split at h <;> cases h
    rename_i hr
    exact .inl ⟨fits_v8 (by lia) hmul, by simp [Edge]⟩
  all_goals
    rw [relField] at hf
    split_ifs at hf

/-! ### Instructions -/

/-- A word within a mask, bit by bit. -/
theorem sub_iff {a m : Word} : a &&& ~~~m = 0 ↔ ∀ i < 32, a.getLsbD i = true → m.getLsbD i = true := by
  rw [BitVec.eq_of_getLsbD_eq_iff]
  refine forall₂_congr fun i hi => ?_
  simp [hi]

/-- Two words without a common bit. -/
theorem disjoint_iff {a b : Word} :
    a &&& b = 0 ↔ ∀ i < 32, a.getLsbD i = true → b.getLsbD i = false := by
  rw [BitVec.eq_of_getLsbD_eq_iff]
  refine forall₂_congr fun i hi => ?_
  simp

theorem disjoint_of_sub {a b m : Word} (h : a &&& ~~~b = 0) (hm : b &&& m = 0) : a &&& m = 0 :=
  disjoint_iff.2 fun i hi ha => disjoint_iff.1 hm i hi (sub_iff.1 h i hi ha)

theorem sub_or {a b m : Word} (ha : a &&& ~~~m = 0) (hb : b &&& ~~~m = 0) : (a ||| b) &&& ~~~m = 0 := by
  rw [and_or_right, ha, hb]
  exact BitVec.or_zero

theorem sub_trans {a b c : Word} (h : a &&& ~~~b = 0) (h' : b &&& ~~~c = 0) : a &&& ~~~c = 0 :=
  disjoint_of_sub h h'

theorem sub_or_left (a b : Word) : a &&& ~~~(a ||| b) = 0 :=
  sub_iff.2 fun i _ h => by rw [BitVec.getLsbD_or, h, Bool.true_or]

theorem sub_or_right (a b : Word) : b &&& ~~~(a ||| b) = 0 :=
  sub_iff.2 fun i _ h => by rw [BitVec.getLsbD_or, h, Bool.or_true]

theorem or_and_of_left {w x m : Word} (h : w &&& m = 0) : (w ||| x) &&& m = x &&& m := by
  rw [and_or_right, h]
  exact BitVec.zero_or

theorem or_and_of_right {w x m : Word} (h : x &&& m = 0) : (w ||| x) &&& m = w &&& m := by
  rw [and_or_right, h]
  exact BitVec.or_zero

/-- An instruction that is built up to now, where `occ` are the bits in use.  After an edge there can be
one more bit, which no edge is within. -/
structure Built (occ : Word) (i : Item) (w : Word) : Prop where
  inWord : ∀ o ∈ i.ops, o.field.InWord
  masks : i.mask &&& ~~~occ = 0
  bits : w &&& ~~~(occ ||| 0x1000#32) = 0
  exact : (∀ o ∈ i.ops, ¬Edge o) → w &&& ~~~occ = 0 ∧ Correct i w
  edge : (∃ o ∈ i.ops, Edge o) → ∃ o ∈ i.ops, o.field.decode w ≠ o.value

/-- **The exact condition for one instruction.** -/
theorem Built.correct_iff {occ : Word} {i : Item} {w : Word} (h : Built occ i w) :
    Correct i w ↔ ∀ o ∈ i.ops, ¬Edge o := by
  refine ⟨fun hc => ?_, fun hn => (h.exact hn).2⟩
  by_contra hn
  push Not at hn
  obtain ⟨o, ho, hv⟩ := h.edge hn
  exact hv (hc.value o ho)

/-- An instruction without operands. -/
theorem built_word (w : Word) : Built w ⟨w, []⟩ w where
  inWord := by simp
  masks := by
    change 0#32 &&& _ = 0
    exact BitVec.zero_and
  bits := sub_or_left w _
  exact _ := ⟨by simp, ⟨by simp, rfl⟩⟩
  edge h := by simp at h

theorem sub_allOnes (w : Word) : w &&& ~~~(BitVec.allOnes 32) = 0 :=
  sub_iff.2 fun i hi _ => by rw [BitVec.getLsbD_allOnes, decide_eq_true hi]

theorem Built.weaken {occ : Word} {i : Item} {w : Word} (h : Built occ i w) :
    Built (BitVec.allOnes 32) i w where
  inWord := h.inWord
  masks := sub_allOnes _
  bits := sub_trans (sub_allOnes w) (sub_or_left _ _)
  exact hn := ⟨sub_allOnes w, (h.exact hn).2⟩
  edge := h.edge

/-- Each mask is a part of the mask of the instruction. -/
theorem mask_sub {i : Item} {o : Operand} (h : o ∈ i.ops) : o.field.mask &&& ~~~i.mask = 0 := by
  obtain ⟨t, ops⟩ := i
  dsimp only at h
  rw [Item.mask]
  dsimp only
  induction ops with
  | nil => cases h
  | cons o' ops ih =>
    rw [List.foldr_cons]
    cases h with
    | head => exact sub_or_left _ _
    | tail _ h => exact sub_trans (ih h) (sub_or_right _ _)

theorem bit12_only {m : Word} (h : m.getLsbD 12 = false) :
    ∀ i < 32, (0x1000#32).getLsbD i = true → m.getLsbD i = false := by
  intro i hi hb
  have : i = 12 := by
    revert hb
    interval_cases i <;> decide
  rw [this, h]

/-- One more operand in a free field. -/
theorem Built.addOp {occ : Word} {i : Item} {w : Word} (hB : Built occ i w) {o : Operand} {x : Word}
    (hin : o.field.InWord) (hfree : occ &&& o.field.mask = 0)
    (hx : Fits o.field x o.value ∧ ¬Edge o ∨ Misses o.field x o.value ∧ Edge o) :
    Built (occ ||| o.field.mask) { i with ops := o :: i.ops } (w ||| x) := by
  have hmask : ({ i with ops := o :: i.ops } : Item).mask = o.field.mask ||| i.mask := rfl
  have hocc := sub_or_left occ o.field.mask
  have hown := sub_or_right occ o.field.mask
  have hall := sub_or_left (occ ||| o.field.mask) 0x1000#32
  -- the other operands are not changed by a pattern within the field
  have hother : x &&& ~~~o.field.mask = 0 → ∀ o' ∈ i.ops, o'.field.decode (w ||| x) = o'.field.decode w := by
    intro hsub o' ho'
    refine Field.decode_congr _ (hB.inWord o' ho') (or_and_of_right (disjoint_of_sub hsub ?_))
    rw [BitVec.and_comm]
    exact disjoint_of_sub (sub_trans (mask_sub ho') hB.masks) hfree
  have hnew : w &&& o.field.mask = 0 → o.field.decode (w ||| x) = o.field.decode x := fun h =>
    Field.decode_congr _ hin (or_and_of_left h)
  constructor
  · intro o' ho'
    cases ho' with
    | head => exact hin
    | tail _ ho' => exact hB.inWord o' ho'
  · rw [hmask]
    exact sub_or hown (sub_trans hB.masks hocc)
  · have hbit : 0x1000#32 &&& ~~~(occ ||| o.field.mask ||| 0x1000#32) = 0 := sub_or_right _ _
    refine sub_or (sub_trans hB.bits (sub_or (sub_trans hocc hall) hbit)) ?_
    obtain ⟨hx, -⟩ | ⟨hx, -⟩ := hx
    · exact sub_trans hx.frame (sub_trans hown hall)
    · exact sub_trans hx.frame (sub_or (sub_trans hown hall) hbit)
  · intro hn
    obtain ⟨hw, hc⟩ := hB.exact fun o' ho' => hn o' (.tail _ ho')
    obtain ⟨hx, -⟩ | ⟨-, he⟩ := hx
    · refine ⟨sub_or (sub_trans hw hocc) (sub_trans hx.frame hown), ?_, ?_⟩
      · intro o' ho'
        cases ho' with
        | head => exact (hnew (disjoint_of_sub hw hfree)).trans hx.value
        | tail _ ho' => exact (hother hx.frame o' ho').trans (hc.value o' ho')
      · rw [hmask, BitVec.not_or, and_or_right, ← BitVec.and_assoc x, hx.frame]
        have hw' := congrArg (fun v => v &&& ~~~o.field.mask) hc.frame
        simp only [BitVec.and_assoc] at hw'
        rw [BitVec.and_comm (~~~o.field.mask), hw']
        change _ ||| 0#32 &&& _ = _
        rw [BitVec.zero_and, BitVec.or_zero]
    · exact absurd he (hn o (.head _))
  · rintro ⟨o', ho', he'⟩
    obtain ⟨hx, hne⟩ | ⟨hx, -⟩ := hx
    · cases ho' with
      | head => exact absurd he' hne
      | tail _ ho' =>
        obtain ⟨o'', ho'', hv⟩ := hB.edge ⟨o', ho', he'⟩
        exact ⟨o'', .tail _ ho'', fun h => hv ((hother hx.frame o'' ho'').symm.trans h)⟩
    · refine ⟨o, .head _, fun h => hx.value ((hnew ?_).symm.trans h)⟩
      refine disjoint_of_sub hB.bits ?_
      rw [and_or_right, hfree, disjoint_iff.2 (bit12_only hx.free)]
      exact BitVec.or_zero

/-! ### Runs -/

/-- The emitted words and the instructions that are meant; `occ` are the bits in use of the last one. -/
def Emitted (occ : Word) : List Item → List Word → Prop
  | [], [] => True
  | i :: is, w :: ws => Built occ i w ∧ List.Forall₂ (Built (BitVec.allOnes 32)) is ws
  | _, _ => False

theorem Emitted.weaken {occ : Word} {is : List Item} {ws : List Word} (h : Emitted occ is ws) :
    Emitted (BitVec.allOnes 32) is ws := by
  cases is <;> cases ws
  case cons.cons => exact ⟨h.1.weaken, h.2⟩
  all_goals exact h

theorem emitted_iff {is : List Item} {ws : List Word} :
    Emitted (BitVec.allOnes 32) is ws ↔ List.Forall₂ (Built (BitVec.allOnes 32)) is ws := by
  cases is <;> cases ws
  case cons.cons => rw [Emitted, List.forall₂_cons]
  case nil.nil => simp [Emitted]
  all_goals simp [Emitted]

theorem Emitted.push {occ : Word} {is : List Item} {ws : List Word} (h : Emitted occ is ws) (w : Word) :
    Emitted w (⟨w, []⟩ :: is) (w :: ws) :=
  ⟨built_word w, emitted_iff.1 h.weaken⟩

theorem Emitted.addOp {occ : Word} {is : List Item} {ws : List Word} (h : Emitted occ is ws)
    {o : Operand} {x : Word} (hin : o.field.InWord) (hfree : occ &&& o.field.mask = 0)
    (hx : Fits o.field x o.value ∧ ¬Edge o ∨ Misses o.field x o.value ∧ Edge o) :
    Emitted (occ ||| o.field.mask) (addOp o is) (orLast x ws) := by
  cases is <;> cases ws
  case cons.cons => exact ⟨h.1.addOp hin hfree hx, h.2⟩
  all_goals exact h

theorem Emitted.length_eq {occ : Word} {is : List Item} {ws : List Word} (h : Emitted occ is ws) :
    is.length = ws.length :=
  (emitted_iff.1 h.weaken).length_eq

theorem Emitted.pad {is : List Item} {ws : List Word} (h : Emitted (BitVec.allOnes 32) is ws) (mask k : ℕ) :
    Emitted (BitVec.allOnes 32) (padItems mask k is) (pad mask k ws) := by
  induction k generalizing is ws with
  | zero => exact h
  | succ k ih =>
    rw [padItems, Dasm.pad, h.length_eq]
    split
    · exact h
    · exact ih (h.push _).weaken

theorem Emitted.rel {occ : Word} {is : List Item} {ws : List Word} (h : Emitted occ is ws)
    {ins n x : Word} (hfree : occ &&& (relField ins).mask = 0) (hx : patchrel ins n = .ok x) :
    Emitted (occ ||| (relField ins).mask) (Dasm.addOp ⟨relField ins, n.toInt, true⟩ is) (orLast x ws) :=
  h.addOp (o := ⟨relField ins, n.toInt, true⟩) (relField_inWord ins) hfree (patchrel_exact hx)

theorem Emitted.imm {occ : Word} {is : List Item} {ws : List Word} (h : Emitted occ is ws)
    {ins n m : Word} (hwf : WFImm ins) (hfree : occ &&& (immField ins).mask = 0)
    (hm : putImm ins n = .ok m) :
    Emitted (occ ||| (immField ins).mask) (Dasm.addOp ⟨immField ins, n.toInt, false⟩ is)
      (orLast ((immField ins).patch m) ws) :=
  h.addOp (o := ⟨immField ins, n.toInt, false⟩) (immField_inWord hwf) hfree
    (.inl ⟨putImm_exact hwf hm, by simp [Edge]⟩)

theorem push_ok {n : Word} {rest : Except Status (List Word)} {b : List Word} (h : push n rest = .ok b) :
    ∃ ns, rest = .ok ns ∧ b = n :: ns := by
  cases rest with
  | error e => cases h
  | ok ns =>
    cases h
    exact ⟨ns, rfl, rfl⟩

/-- **One call**: the two passes read the same list. -/
theorem encode_emitted (E : Env) (p : List Act) {occ : Word} {args links b acc out : List Word}
    {is : List Item} (hwf : WFActs occ p) (hput : put p args links = .ok b) (h : Emitted occ is acc)
    (henc : encode E p b acc = .ok out) :
    Emitted (BitVec.allOnes 32) (items E p args links is) out := by
  induction p generalizing occ args links b acc is with
  | nil =>
    cases henc
    exact h.weaken
  | cons s p ih =>
    cases s with
    | word w => exact ih hwf hput (h.push w) henc
    | act a ins =>
      cases a
      case stop | sect =>
        cases henc
        exact h.weaken
      case esc | ins => exact ih hwf hput h henc
      case relExt =>
        simp only [encode] at henc
        split at henc
        · rename_i x hx
          rw [items, h.length_eq]
          exact ih hwf.2 hput (h.rel hwf.1 hx) henc
        · cases henc
      case align =>
        obtain ⟨b, hb, rfl⟩ := push_ok hput
        exact ih hwf hb (h.weaken.pad _ _) henc
      case relLg | relPc =>
        obtain ⟨b, hb, rfl⟩ := push_ok hput
        simp only [encode] at henc
        split at henc
        · cases henc
        · split at henc
          · rename_i x hx
            rw [items, h.length_eq]
            exact ih hwf.2 hb (h.rel hwf.1 hx) henc
          · cases henc
      case labelLg | labelPc =>
        obtain ⟨b, hb, rfl⟩ := push_ok hput
        exact ih hwf hb h henc
      all_goals
        simp only [put] at hput
        split at hput
        · rename_i m hm
          obtain ⟨b, hb, rfl⟩ := push_ok hput
          exact ih hwf.2.2 hb (h.imm hwf.1 hwf.2.1 hm) henc
        · cases hput

theorem assemble_emitted (E : Env) (cs : List Call) {acc out : List Word} {is : List Item}
    (hwf : ∀ c ∈ cs, WF c.actions) (h : Emitted (BitVec.allOnes 32) is acc)
    (hrun : assemble E cs acc = .ok out) : Emitted (BitVec.allOnes 32) (allItems E cs is) out := by
  induction cs generalizing acc is with
  | nil =>
    cases hrun
    exact h
  | cons c cs ih =>
    rw [assemble] at hrun
    split at hrun
    · cases hrun
    · rename_i b hb
      split at hrun
      · cases hrun
      · rename_i acc' henc
        refine ih (fun c' hc' => hwf c' (.tail _ hc')) ?_ hrun
        exact encode_emitted E _ (hwf c (.head _)) hb h henc

theorem forall₂_correct_iff {is : List Item} {ws : List Word}
    (h : List.Forall₂ (Built (BitVec.allOnes 32)) is ws) :
    List.Forall₂ Correct is ws ↔ ∀ i ∈ is, ∀ o ∈ i.ops, ¬Edge o := by
  induction h with
  | nil => simp
  | cons h _ ih => rw [List.forall₂_cons, h.correct_iff, ih, List.forall_mem_cons]

/-- **All emitted words are correct exactly when no distance is an edge.** -/
theorem assemble_correct_iff (E : Env) (cs : List Call) (hwf : ∀ c ∈ cs, WF c.actions) {out : List Word}
    (hrun : assemble E cs [] = .ok out) :
    List.Forall₂ Correct (allItems E cs []) out ↔ ∀ i ∈ allItems E cs [], ∀ o ∈ i.ops, ¬Edge o :=
  forall₂_correct_iff (emitted_iff.1 (assemble_emitted E cs hwf (by trivial) hrun))

/-- `ldr r1, [r2, #4]`. -/
theorem assemble_correct_iff_ldr :
    List.Forall₂ Correct
        (allItems ⟨id, fun _ _ _ => 0⟩ [⟨[0xe5121000#32, 0x000d8180#32, 0#32], [4#32], []⟩] [])
        [0xe5921004#32] ↔
      ∀ i ∈ allItems ⟨id, fun _ _ _ => 0⟩ [⟨[0xe5121000#32, 0x000d8180#32, 0#32], [4#32], []⟩] [],
        ∀ o ∈ i.ops, ¬Edge o := by
  refine assemble_correct_iff _ _ ?_ rfl
  intro c hc
  obtain rfl := List.mem_singleton.1 hc
  change bits _ ≤ 12 ∧ _ ∧ _
  exact ⟨by decide, by decide, trivial⟩

/-- The positions of the labels in the counterexample: the label stands at the start. -/
def edgeEnv : Env := ⟨fun _ => 0, fun _ _ _ => 0⟩

/-- A label, 62 words, and `ldrd r0` from the label. -/
def edgeCall : Call where
  actions := 0x00080000#32 :: (List.replicate 62 0xe1a00000#32 ++ [0xe14f00d0#32, 0x00071800#32, 0#32])
  args := [0, 0]
  links := [0, 1]

/-- The distance of -256 bytes is admitted, and the word that is emitted has the offset 0. -/
theorem edge_not_correct :
    WF edgeCall.actions ∧ ∃ out, assemble edgeEnv [edgeCall] [] = .ok out ∧
      ¬List.Forall₂ Correct (allItems edgeEnv [edgeCall] []) out := by
  refine ⟨?_, 0xe14f00d0#32 :: List.replicate 62 0xe1a00000#32, by decide, fun h => ?_⟩
  · rw [WF]
    change WFActs 0xe14f00d0#32 [.act .relPc 0x00071800#32]
    exact ⟨by decide, trivial⟩
  · have hitems : allItems edgeEnv [edgeCall] [] =
        ⟨0xe14f00d0#32, [⟨.l8, -256, true⟩]⟩ :: List.replicate 62 ⟨0xe1a00000#32, []⟩ := rfl
    rw [hitems] at h
    cases h with
    | cons h _ => exact absurd (h.value _ (.head _)) (by decide)

end Dasm
