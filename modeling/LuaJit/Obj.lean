/-
**Tagged values and numbers.**

The values of `lj_obj.h`.  A `lua_Number` is its bit pattern, because the table code and the
bytecode dump both look at the bits; equality of numbers is IEEE equality, which differs from
equality of patterns at the two zeros and at the NaNs.  Strings are interned, so a string is given
by its identity; the type of identities is a parameter (an address where addresses are recycled,
the contents where they are not).

Main definitions:

* `Obj.isNaN`, `Obj.numEq`, `Obj.int2num` — numbers as bit patterns;
* `Obj.Num2Int` — `lj_num2int`: exact on the integers that fit, arbitrary elsewhere;
* `Obj.num2intCheck` — the idiom `k = lj_num2int(n); if (n == (lua_Number)k)`;
* `Obj.TValue`, `Obj.objEqual` — tagged values and `lj_obj_equal`.

Main results:

* `Obj.truncConv_int2num` — the truncating conversion is exact on 32 bit integers;
* `Obj.int2num_injective` — different integers are different numbers;
* `Obj.num2intCheck_eq_some_iff` — **the idiom finds exactly the numbers equal to an integer**.
-/

import LuaJit.Double

set_option relaxedAutoImplicit false
set_option autoImplicit false

namespace Obj

/-! ### Numbers -/

/-- The pattern of `-0`. -/
def mzero : BitVec 64 := 0x8000000000000000

/-- Exponent all ones, significand not zero. -/
def isNaN (x : BitVec 64) : Bool := decide (0x7ff * 2 ^ 52 < x.toNat % 2 ^ 63)

def isZero (x : BitVec 64) : Bool := decide (x = 0) || decide (x = mzero)

/-- The C operator `==` on doubles. -/
def numEq (x y : BitVec 64) : Bool :=
  !isNaN x && !isNaN y && (decide (x = y) || (isZero x && isZero y))

/-- The magnitude of a nonzero integer below `2 ^ 53` as the low 63 bits of a double. -/
def natBits (m : ℕ) : ℕ := (1023 + m.log2) * 2 ^ 52 + (m * 2 ^ (52 - m.log2) - 2 ^ 52)

/-- `(lua_Number)k`. -/
def int2num (k : BitVec 32) : BitVec 64 :=
  if k = 0 then 0
  else BitVec.ofNat 64 ((if k.toInt < 0 then 2 ^ 63 else 0) + natBits k.toInt.natAbs)

theorem natBits_eq {m : ℕ} (h0 : m ≠ 0) (hm : m < 2 ^ 53) :
    natBits m = (1023 + m.log2) * 2 ^ 52 + (m * 2 ^ (52 - m.log2) - 2 ^ 52) ∧
      2 ^ 52 ≤ m * 2 ^ (52 - m.log2) ∧ m * 2 ^ (52 - m.log2) < 2 ^ 53 := by
  have hlog : m.log2 < 53 := (Nat.log2_lt h0).2 hm
  have hlo : 2 ^ m.log2 ≤ m := Nat.log2_self_le h0
  have hhi : m < 2 ^ (m.log2 + 1) := Nat.lt_log2_self
  refine ⟨rfl, ?_, ?_⟩
  · calc 2 ^ 52 = 2 ^ m.log2 * 2 ^ (52 - m.log2) := by
          rw [← pow_add]
          congr 1
          lia
      _ ≤ m * 2 ^ (52 - m.log2) := Nat.mul_le_mul_right _ hlo
  · calc m * 2 ^ (52 - m.log2) < 2 ^ (m.log2 + 1) * 2 ^ (52 - m.log2) :=
          Nat.mul_lt_mul_of_pos_right hhi (by positivity)
      _ = 2 ^ 53 := by
          rw [← pow_add]
          congr 1
          lia

theorem natAbs_toInt_le (k : BitVec 32) : k.toInt.natAbs ≤ 2 ^ 31 := by
  have h₁ := BitVec.le_toInt k
  have h₂ := BitVec.toInt_lt (x := k)
  lia

/-- The bit pattern of an integer, field by field. -/
theorem toNat_int2num {k : BitVec 32} (hk : k ≠ 0) :
    (int2num k).toNat = (if k.toInt < 0 then 2 ^ 63 else 0) + natBits k.toInt.natAbs ∧
      natBits k.toInt.natAbs < 1055 * 2 ^ 52 := by
  have h0 : k.toInt.natAbs ≠ 0 := by
    rw [Int.natAbs_ne_zero]
    intro h
    exact hk (BitVec.eq_of_toInt_eq (by simpa using h))
  have hle := natAbs_toInt_le k
  obtain ⟨heq, hlo, hhi⟩ := natBits_eq h0 (by omega)
  have hlog : k.toInt.natAbs.log2 ≤ 31 := by
    have := (Nat.log2_lt h0 (k := 32)).2 (by omega)
    omega
  have hlt : natBits k.toInt.natAbs < 1055 * 2 ^ 52 := by
    rw [heq]
    lia
  refine ⟨?_, hlt⟩
  rw [int2num, if_neg hk, BitVec.toNat_ofNat, Nat.mod_eq_of_lt]
  split <;> lia

theorem isNaN_int2num (k : BitVec 32) : isNaN (int2num k) = false := by
  by_cases hk : k = 0
  · subst hk
    decide
  · obtain ⟨h, hlt⟩ := toNat_int2num hk
    simp only [isNaN, decide_eq_false_iff_not, h]
    split <;> lia

/-- The double precision fields of a pattern. -/
def biasedExp (x : BitVec 64) : ℕ := x.toNat / 2 ^ 52 % 2 ^ 11

/-- The conversion of the targets that truncate and return `INT_MIN` out of range. -/
def truncConv (x : BitVec 64) : BitVec 32 :=
  let e := biasedExp x
  if e < 1023 then 0
  else if 1054 < e then 0x80000000
  else
    let m : ℕ := (2 ^ 52 + x.toNat % 2 ^ 52) / 2 ^ (52 - (e - 1023))
    let z : ℤ := if 2 ^ 63 ≤ x.toNat then -(m : ℤ) else m
    if Dbl.FitsInt32 z then BitVec.ofInt 32 z else 0x80000000

theorem truncConv_int2num (k : BitVec 32) : truncConv (int2num k) = k := by
  by_cases hk : k = 0
  · subst hk
    decide
  have h0 : k.toInt.natAbs ≠ 0 := by
    rw [Int.natAbs_ne_zero]
    intro h
    exact hk (BitVec.eq_of_toInt_eq (by simpa using h))
  obtain ⟨h, hlt⟩ := toNat_int2num hk
  have hle := natAbs_toInt_le k
  obtain ⟨heq, hlo, hhi⟩ := natBits_eq h0 (by omega)
  have hlog : k.toInt.natAbs.log2 ≤ 31 := by
    have := (Nat.log2_lt h0 (k := 32)).2 (by omega)
    omega
  set m := k.toInt.natAbs with hm
  set l := m.log2 with hl
  set p := m * 2 ^ (52 - l) with hp
  -- the fields of the pattern
  have hexp : biasedExp (int2num k) = 1023 + l := by
    rw [biasedExp, h, heq]
    split <;> lia
  have hfrac : 2 ^ 52 + (int2num k).toNat % 2 ^ 52 = p := by
    rw [h, heq]
    split <;> lia
  have hsign : 2 ^ 63 ≤ (int2num k).toNat ↔ k.toInt < 0 := by
    rw [h]
    split <;> lia
  have hdiv : p / 2 ^ (52 - l) = m := Nat.mul_div_cancel _ (by positivity)
  have hz : (if 2 ^ 63 ≤ (int2num k).toNat then -(m : ℤ) else m) = k.toInt := by
    split
    · rename_i hneg
      have := hsign.1 hneg
      lia
    · rename_i hneg
      have : ¬ k.toInt < 0 := fun h => hneg (hsign.2 h)
      lia
  have hsub : 1023 + l - 1023 = l := by lia
  simp only [truncConv, hexp, hfrac, hsub, hdiv, hz]
  rw [if_neg (by lia), if_neg (by lia), if_pos (Dbl.fitsInt32_toInt k), BitVec.ofInt_toInt]

/-- `lj_num2int`: exact on the numbers that are 32 bit integers.  C leaves the rest undefined and
the targets differ. -/
structure Num2Int where
  conv : BitVec 64 → BitVec 32
  exact : ∀ k, conv (int2num k) = k
  mzero : conv mzero = 0

/-- The truncating conversion, as on x86. -/
def Num2Int.trunc : Num2Int where
  conv := truncConv
  exact := truncConv_int2num
  mzero := by decide

theorem int2num_injective : Function.Injective int2num := by
  intro k k' h
  rw [← truncConv_int2num k, h, truncConv_int2num]

theorem int2num_ne_mzero (k : BitVec 32) : int2num k ≠ mzero := by
  intro h
  have h0 : k = 0 := by
    rw [← truncConv_int2num k, h]
    decide
  subst h0
  exact absurd h (by decide)

theorem int2num_eq_zero_iff {k : BitVec 32} : int2num k = 0 ↔ k = 0 :=
  ⟨fun h => int2num_injective (h.trans (by decide)), fun h => by rw [h]; decide⟩

/-- A number equals an integer when it has its pattern, or when both are zero. -/
theorem numEq_int2num_iff {x : BitVec 64} {k : BitVec 32} :
    numEq x (int2num k) = true ↔ x = int2num k ∨ (x = mzero ∧ k = 0) := by
  simp only [numEq, isNaN_int2num, Bool.not_false, Bool.and_true, Bool.and_eq_true,
    Bool.not_eq_true', Bool.or_eq_true, decide_eq_true_eq, isZero, int2num_ne_mzero, or_false,
    int2num_eq_zero_iff]
  constructor
  · rintro ⟨_, h | ⟨rfl | rfl, rfl⟩⟩
    · exact .inl h
    · exact .inl (by decide)
    · exact .inr ⟨rfl, rfl⟩
  · rintro (rfl | ⟨rfl, rfl⟩)
    · exact ⟨isNaN_int2num k, .inl rfl⟩
    · exact ⟨by decide, .inr ⟨.inr rfl, rfl⟩⟩

/-- `k = lj_num2int(n)`, kept if `n == (lua_Number)k`. -/
def num2intCheck (c : Num2Int) (x : BitVec 64) : Option (BitVec 32) :=
  if numEq x (int2num (c.conv x)) then some (c.conv x) else none

/-- The check finds the integer a number equals, whatever the conversion does on the others. -/
theorem num2intCheck_eq_some_iff {c : Num2Int} {x : BitVec 64} {k : BitVec 32} :
    num2intCheck c x = some k ↔ numEq x (int2num k) = true := by
  rw [num2intCheck]
  constructor
  · intro h
    split at h
    · rename_i heq
      rw [Option.some.injEq] at h
      rwa [← h]
    · exact absurd h (by simp)
  · intro h
    have hconv : c.conv x = k := by
      rcases numEq_int2num_iff.1 h with rfl | ⟨rfl, rfl⟩
      · exact c.exact k
      · exact c.mzero
    rw [hconv, if_pos h]

/-! ### Tagged values -/

/-- The collectable objects other than strings. -/
inductive GcType
  | thread | proto | func | trace | cdata | tab | udata
  deriving DecidableEq

/-- `TValue`.  `lightud` and `gco` carry the `gcr` field of the value; `int` occurs under
`LJ_DUALNUM` only. -/
inductive TValue (S : Type)
  | nil
  | bool (b : Bool)
  | lightud (gcr : BitVec 64)
  | str (s : S)
  | gco (it : GcType) (gcr : BitVec 64)
  | num (n : BitVec 64)
  | int (i : BitVec 32)
  deriving DecidableEq

namespace TValue

variable {S : Type}

@[grind =]
def isNil : TValue S → Bool
  | nil => true
  | _ => false

def isStr : TValue S → Bool
  | str _ => true
  | _ => false

@[simp] theorem isNil_eq_true_iff {v : TValue S} : v.isNil = true ↔ v = nil := by
  cases v <;> simp [isNil]

@[simp] theorem isNil_eq_false_iff {v : TValue S} : v.isNil = false ↔ v ≠ nil := by
  cases v <;> simp [isNil]

end TValue

/-- `lj_obj_equal`. -/
def objEqual {S : Type} [DecidableEq S] : TValue S → TValue S → Bool
  | .num x, .num y => numEq x y
  | .num x, .int j => numEq x (int2num j)
  | .int i, .num y => numEq (int2num i) y
  | o₁, o₂ => decide (o₁ = o₂)

end Obj
