/-
**Numbers in dumped bytecode.**

A 32 bit word is written with seven bits to a byte.  The number constants of a prototype have a tag in
front: an integer, or the low word of a number, is written as a 33 bit value with the tag in bit 0.  The
writer has no 33 bit word; it writes a 32 bit word that has the right digits but for the last one, and puts
the last one right.

Main definitions:

* `BcUleb.wuleb128`, `BcUleb.ruleb128` — the codec of words;
* `BcUleb.saveInt`, `BcUleb.saveLo`, `BcUleb.uleb128_33` — that of tagged words;
* `BcUleb.bcwriteKnum`, `BcUleb.bcreadKnum` — the number constants of a prototype.

Main results:

* `BcUleb.uleb_codecs` — **what is written is read back**, and the size of a number before it is written;
* `BcUleb.bcreadKnum_bcwriteKnum` — the number constants are read back.
-/

import LuaJit.Leb128

set_option relaxedAutoImplicit false
set_option autoImplicit false

namespace BcUleb

/-! ### The source -/

/-- `lj_strfmt_wuleb128`. -/
def wuleb128 (v : BitVec 32) : List UInt8 :=
  if 0x80 ≤ v then UInt8.ofNat ((v &&& 0x7f) ||| 0x80).toNat :: wuleb128 (v >>> 7)
  else [UInt8.ofNat v.toNat]
termination_by v.toNat
decreasing_by
  rename_i h
  rw [BitVec.le_def] at h
  rw [BitVec.toNat_ushiftRight, Nat.shiftRight_eq_div_pow]
  exact Nat.div_lt_self (Nat.lt_of_lt_of_le (by decide) h) (by decide)

/-- The loops of the two readers; `sh` is the shift of the next byte.  There is nothing to read behind the
end. -/
def rulebLoop : List UInt8 → BitVec 32 → ℕ → Option (BitVec 32 × List UInt8)
  | [], _, _ => none
  | c :: p, v, sh =>
    let v := v ||| BitVec.ofNat 32 (c &&& 0x7f).toNat <<< sh
    if c ≥ 0x80 then rulebLoop p v (sh + 7) else some (v, p)

/-- `lj_buf_ruleb128`. -/
def ruleb128 : List UInt8 → Option (BitVec 32 × List UInt8)
  | [] => none
  | c :: p =>
    let v := BitVec.ofNat 32 c.toNat
    if 0x80 ≤ v then rulebLoop p (v &&& 0x7f) 7 else some (v, p)

/-- `bcread_uleb128_33`. -/
def uleb128_33 : List UInt8 → Option (BitVec 32 × List UInt8)
  | [] => none
  | c :: p =>
    let v := BitVec.ofNat 32 c.toNat >>> 1
    if 0x40 ≤ v then rulebLoop p (v &&& 0x3f) 6 else some (v, p)

/-- `p[-1] = (p[-1] & 7) | b`. -/
def patchLast (p : List UInt8) (b : BitVec 32) : List UInt8 :=
  p.dropLast ++ [p.getLastD 0 &&& 7 ||| UInt8.ofNat b.toNat]

/-- The end of `bcwrite_knum` for an integer. -/
def saveInt (k : BitVec 32) : List UInt8 :=
  let p := wuleb128 (2 * k ||| k &&& 0x80000000)
  if k.slt 0 then patchLast p (k.sshiftRight 27 &&& 0x18) else p

/-- The low word of a number in `bcwrite_knum`. -/
def saveLo (lo : BitVec 32) : List UInt8 :=
  let p := wuleb128 (1 + (2 * lo ||| lo &&& 0x80000000))
  if lo ≥ 0x80000000 then patchLast p (lo >>> 27 &&& 0x18) else p

/-- A tagged word. -/
def save33 (tag : Bool) (k : BitVec 32) : List UInt8 := if tag then saveLo k else saveInt k

/-- A number constant, with the low and the high word of a number. -/
inductive TValue
  | int (k : BitVec 32)
  | num (lo hi : BitVec 32)
  deriving DecidableEq

/-- The conversions between numbers and integers: whether `num == (lua_Number)k` for `k = lj_num2int(num)`, and
`(lua_Number)k`.  A number that equals an integer is that integer, but for the negative zero. -/
structure NumInt where
  toInt : BitVec 32 → BitVec 32 → Option (BitVec 32)
  ofInt : BitVec 32 → BitVec 32 × BitVec 32
  eq : ∀ {lo hi k : BitVec 32}, toInt lo hi = some k → (lo, hi) ≠ (0, 0x80000000) → ofInt k = (lo, hi)

/-- The body of the loop of `bcwrite_knum`. -/
def writeKnum (B : NumInt) (dualnum : Bool) : TValue → List UInt8
  | .int k => saveInt k
  | .num lo hi =>
    match if dualnum then none else B.toInt lo hi with
    | some k => saveInt k
    | none => saveLo lo ++ wuleb128 hi

/-- `bcwrite_knum`. -/
def bcwriteKnum (B : NumInt) (dualnum : Bool) (ks : List TValue) : List UInt8 := ks.flatMap (writeKnum B dualnum)

/-- `setintV`. -/
def setint (B : NumInt) (dualnum : Bool) (k : BitVec 32) : TValue :=
  if dualnum then .int k else .num (B.ofInt k).1 (B.ofInt k).2

/-- The body of the loop of `bcread_knum`. -/
def readKnum (B : NumInt) (dualnum : Bool) (p : List UInt8) : Option (TValue × List UInt8) := do
  let isnum := p.headD 0 &&& 1
  let (lo, p) ← uleb128_33 p
  if isnum ≠ 0 then do
    let (hi, p) ← ruleb128 p
    return (.num lo hi, p)
  else return (setint B dualnum lo, p)

/-- `bcread_knum`. -/
def bcreadKnum (B : NumInt) (dualnum : Bool) : ℕ → List UInt8 → Option (List TValue × List UInt8)
  | 0, p => some ([], p)
  | n + 1, p => do
    let (o, p) ← readKnum B dualnum p
    let (os, p) ← bcreadKnum B dualnum n p
    return (o :: os, p)

/-- `lj_fls`, for a word that is not zero. -/
def fls (n : BitVec 32) : BitVec 32 := BitVec.ofNat 32 n.toNat.log2

/-- `(lj_fls(n)+8)*9 >> 6`. -/
def ulebSize (n : BitVec 32) : BitVec 32 := ((fls n + 8) * 9) >>> 6

/-! ### The codec of words -/

theorem and_7f (n : ℕ) : n &&& 0x7f = n % 128 := Nat.and_two_pow_sub_one_eq_mod n 7

theorem toNat_and_7f (c : UInt8) : (c &&& 0x7f).toNat = c.toNat % 128 := by
  rw [UInt8.toNat_and]
  exact and_7f _

/-- The bytes of a word. -/
theorem wuleb128_eq (v : BitVec 32) : wuleb128 v = Leb128.encode v.toNat := by
  induction v using wuleb128.induct with
  | case1 v h ih =>
      rw [wuleb128, if_pos h, ih, BitVec.toNat_ushiftRight, Nat.shiftRight_eq_div_pow]
      rw [BitVec.le_def] at h
      have hor : ((v &&& 0x7f) ||| 0x80).toNat = v.toNat % 128 + 128 := by
        rw [BitVec.toNat_or, BitVec.toNat_and]
        have hand : v.toNat &&& (0x7f : BitVec 32).toNat = v.toNat % 128 := and_7f _
        have hlt : v.toNat % 128 < 2 ^ 7 := Nat.mod_lt _ (by decide)
        have hsum := Nat.two_pow_add_eq_or_of_lt hlt 1
        rw [hand, Nat.or_comm, Nat.add_comm (v.toNat % 128)]
        exact hsum.symm
      rw [hor, Leb128.encode_of_le h]
  | case2 v h =>
      rw [BitVec.not_le, BitVec.lt_def] at h
      rw [wuleb128, if_neg (by rw [BitVec.le_def]; exact Nat.not_le.mpr h), Leb128.encode_of_lt h]

/-- The bits of a byte are put above those that are there. -/
theorem or_shift (v : BitVec 32) {x sh : ℕ} (hv : v.toNat < 2 ^ sh) :
    v ||| BitVec.ofNat 32 x <<< sh = BitVec.ofNat 32 (v.toNat + x * 2 ^ sh) := by
  have hv32 := v.isLt
  apply BitVec.eq_of_toNat_eq
  rw [BitVec.toNat_or, BitVec.toNat_shiftLeft, BitVec.toNat_ofNat, BitVec.toNat_ofNat, Nat.shiftLeft_eq]
  by_cases hsh : 32 ≤ sh
  · obtain ⟨d, rfl⟩ := Nat.exists_eq_add_of_le hsh
    have h0 : ∀ y : ℕ, y * 2 ^ (32 + d) % 2 ^ 32 = 0 := by
      intro y
      exact Nat.mod_eq_zero_of_dvd (Dvd.dvd.mul_left (pow_dvd_pow 2 (Nat.le_add_right 32 d)) y)
    rw [h0, Nat.or_zero, Nat.add_mod, h0, Nat.add_zero, Nat.mod_mod, Nat.mod_eq_of_lt hv32]
  · obtain ⟨d, hd⟩ := Nat.exists_eq_add_of_le (Nat.le_of_not_le hsh)
    have hmod : ∀ y : ℕ, y * 2 ^ sh % 2 ^ 32 = 2 ^ sh * (y % 2 ^ d) := by
      intro y
      rw [hd, pow_add, Nat.mul_comm y, Nat.mul_mod_mul_left]
    have hlow : x % 2 ^ 32 % 2 ^ d = x % 2 ^ d := by
      rw [Nat.mod_mod_of_dvd _ (pow_dvd_pow 2 (by omega))]
    have hlt : v.toNat + 2 ^ sh * (x % 2 ^ d) < 2 ^ 32 := by
      have hx : x % 2 ^ d + 1 ≤ 2 ^ d := Nat.mod_lt _ (Nat.pow_pos (by decide))
      have hmul := Nat.mul_le_mul_left (2 ^ sh) hx
      rw [← pow_add, ← hd, Nat.mul_add] at hmul
      lia
    rw [hmod, hlow, Nat.or_comm, ← Nat.two_pow_add_eq_or_of_lt hv, Nat.add_mod, hmod, Nat.mod_eq_of_lt hv32,
      Nat.mod_eq_of_lt hlt, Nat.add_comm]

/-- The bytes are added up at their places. -/
theorem rulebLoop_eq : ∀ {p : List UInt8} {v : BitVec 32} {sh : ℕ}, v.toNat < 2 ^ sh →
    rulebLoop p v sh = (Leb128.decode p).map fun r => (BitVec.ofNat 32 (v.toNat + r.1 * 2 ^ sh), r.2) := by
  intro p
  induction p with
  | nil => intro v sh _; rfl
  | cons c p ih =>
      intro v sh hv
      have hc : c.toNat < 256 := UInt8.toNat_lt c
      rw [rulebLoop, toNat_and_7f, or_shift v hv, Leb128.decode]
      by_cases h : c.toNat < 128
      · rw [if_neg (by rw [ge_iff_le, UInt8.le_iff_toNat_le]; exact Nat.not_le.mpr h), if_pos h, Option.map_some,
          Nat.mod_eq_of_lt h]
      · have hge : c ≥ 0x80 := by
          rw [ge_iff_le, UInt8.le_iff_toNat_le]
          exact Nat.le_of_not_lt h
        have hlt : (BitVec.ofNat 32 (v.toNat + c.toNat % 128 * 2 ^ sh)).toNat < 2 ^ (sh + 7) := by
          rw [BitVec.toNat_ofNat, pow_add]
          refine Nat.lt_of_le_of_lt (Nat.mod_le _ _) ?_
          have hm : c.toNat % 128 + 1 ≤ 128 := Nat.mod_lt _ (by decide)
          have := Nat.mul_le_mul_right (2 ^ sh) hm
          rw [Nat.add_mul] at this
          lia
        rw [if_pos hge, if_neg h, ih hlt, Option.map_map]
        congr 1
        funext r
        dsimp only [Function.comp]
        congr 1
        have hmod : c.toNat % 128 = c.toNat - 128 := by lia
        rw [hmod, BitVec.toNat_ofNat]
        apply BitVec.eq_of_toNat_eq
        rw [BitVec.toNat_ofNat, BitVec.toNat_ofNat, Nat.mod_add_mod, pow_add]
        congr 1
        ring

theorem ruleb128_eq (p : List UInt8) :
    ruleb128 p = (Leb128.decode p).map fun r => (BitVec.ofNat 32 r.1, r.2) := by
  cases p with
  | nil => rfl
  | cons c p =>
      have hc : c.toNat < 256 := UInt8.toNat_lt c
      have hv : (BitVec.ofNat 32 c.toNat).toNat = c.toNat := by
        rw [BitVec.toNat_ofNat, Nat.mod_eq_of_lt (by omega)]
      have hge : (0x80 : BitVec 32) ≤ BitVec.ofNat 32 c.toNat ↔ 128 ≤ c.toNat := by
        have h80 : (0x80 : BitVec 32).toNat = 128 := rfl
        rw [BitVec.le_def, hv, h80]
      rw [ruleb128, Leb128.decode]
      by_cases h : c.toNat < 128
      · rw [if_neg (fun h' => absurd (hge.mp h') (by omega)), if_pos h, Option.map_some]
      · have hand : (BitVec.ofNat 32 c.toNat &&& 0x7f).toNat = c.toNat - 128 := by
          rw [BitVec.toNat_and, hv]
          have h7f : c.toNat &&& (0x7f : BitVec 32).toNat = c.toNat % 128 := and_7f _
          lia
        rw [if_pos (hge.mpr (by omega)), if_neg h, rulebLoop_eq (by rw [hand]; lia), hand, Option.map_map]
        congr 1
        funext r
        dsimp only [Function.comp]
        rw [Nat.mul_comm r.1]
        rfl

/-- The tag is dropped. -/
theorem uleb128_33_eq (p : List UInt8) :
    uleb128_33 p = (Leb128.decode p).map fun r => (BitVec.ofNat 32 (r.1 / 2), r.2) := by
  cases p with
  | nil => rfl
  | cons c p =>
      have hc : c.toNat < 256 := UInt8.toNat_lt c
      have hv : (BitVec.ofNat 32 c.toNat >>> 1).toNat = c.toNat / 2 := by
        rw [BitVec.toNat_ushiftRight, BitVec.toNat_ofNat, Nat.mod_eq_of_lt (by omega), Nat.shiftRight_eq_div_pow]
      have hge : (0x40 : BitVec 32) ≤ BitVec.ofNat 32 c.toNat >>> 1 ↔ 128 ≤ c.toNat := by
        have h40 : (0x40 : BitVec 32).toNat = 64 := rfl
        rw [BitVec.le_def, hv, h40]
        lia
      rw [uleb128_33, Leb128.decode]
      by_cases h : c.toNat < 128
      · rw [if_neg (fun h' => absurd (hge.mp h') (by omega)), if_pos h, Option.map_some]
        congr 2
        apply BitVec.eq_of_toNat_eq
        rw [hv, BitVec.toNat_ofNat, Nat.mod_eq_of_lt (by lia)]
      · have hand : (BitVec.ofNat 32 c.toNat >>> 1 &&& 0x3f).toNat = (c.toNat - 128) / 2 := by
          rw [BitVec.toNat_and, hv]
          have h3f : c.toNat / 2 &&& (0x3f : BitVec 32).toNat = c.toNat / 2 % 64 :=
            Nat.and_two_pow_sub_one_eq_mod _ 6
          lia
        rw [if_pos (hge.mpr (by omega)), if_neg h, rulebLoop_eq (by rw [hand]; lia), hand, Option.map_map]
        congr 1
        funext r
        dsimp only [Function.comp]
        congr 2
        lia

/-! ### Tagged words -/

/-- The sign bit of a word. -/
theorem toNat_and_sign (k : BitVec 32) :
    (k &&& 0x80000000).toNat = if k.toNat < 2 ^ 31 then 0 else 2 ^ 31 := by
  have h31 : (0x80000000 : BitVec 32).toNat = 2 ^ 31 := rfl
  have hk := k.isLt
  rw [BitVec.toNat_and, h31, Nat.and_two_pow, Nat.testBit_eq_decide_div_mod_eq]
  split
  · next h => rw [Nat.div_eq_of_lt h]; rfl
  · next h =>
      have hdiv : k.toNat / 2 ^ 31 = 1 := by lia
      rw [hdiv]
      rfl

/-- Without a sign the doubled word is all there is to write. -/
theorem double_low {k : BitVec 32} (h : k.toNat < 2 ^ 31) :
    (2 * k ||| k &&& 0x80000000).toNat = 2 * k.toNat := by
  have h2 : (2 : BitVec 32).toNat = 2 := rfl
  rw [BitVec.toNat_or, toNat_and_sign, if_pos h, Nat.or_zero, BitVec.toNat_mul, h2, Nat.mod_eq_of_lt (by omega)]

/-- With a sign the doubled word has bit 31 set, and its other bits are right. -/
theorem double_high {k : BitVec 32} (h : ¬k.toNat < 2 ^ 31) :
    2 ^ 31 ≤ (2 * k ||| k &&& 0x80000000).toNat ∧
      (2 * k ||| k &&& 0x80000000).toNat % 2 ^ 31 = 2 * k.toNat % 2 ^ 31 := by
  have h2 : (2 : BitVec 32).toNat = 2 := rfl
  rw [BitVec.toNat_or, toNat_and_sign, if_neg h, BitVec.toNat_mul, h2]
  refine ⟨Nat.right_le_or, ?_⟩
  rw [Nat.or_mod_two_pow, Nat.mod_self, Nat.or_zero, Nat.mod_mod_of_dvd _ (by decide)]

theorem slt_zero_iff (k : BitVec 32) : k.slt 0 = true ↔ ¬k.toNat < 2 ^ 31 := by
  have h0 : (0 : BitVec 32).toInt = 0 := rfl
  have hk := k.isLt
  rw [BitVec.slt, decide_eq_true_eq, h0, BitVec.toInt_eq_toNat_cond]
  split <;> lia

theorem or_bits : ∀ y < 32, y % 8 ||| y &&& 24 = y := by decide

/-- The last byte is put right. -/
theorem patchLast_encode {v N : ℕ} {b : BitVec 32} (hv : 2 ^ 31 ≤ v) (hv' : v < 2 ^ 32) (hN : 2 ^ 32 ≤ N)
    (hN' : N < 2 ^ 33) (hmod : v % 2 ^ 31 = N % 2 ^ 31) (hb : b.toNat = N / 2 ^ 28 &&& 24) :
    patchLast (Leb128.encode v) b = Leb128.encode N := by
  have hself := Leb128.encode_set_last (k := 4) (m := v) (n := v) (by lia) (by lia) (by lia) (by lia) rfl
  have hset := Leb128.encode_set_last (k := 4) (m := v) (n := N) (by lia) (by omega) (by omega) (by lia) (by lia)
  have h128 : 128 ^ 4 = 2 ^ 28 := rfl
  rw [h128] at hself hset
  have hlast : (Leb128.encode v).getLastD 0 = UInt8.ofNat (v / 2 ^ 28) := by
    rw [hself, List.getLastD_concat]
  have hbyte : UInt8.ofNat (v / 2 ^ 28) &&& 7 ||| UInt8.ofNat b.toNat = UInt8.ofNat (N / 2 ^ 28) := by
    apply UInt8.toNat_inj.mp
    have h7 : v / 2 ^ 28 &&& (7 : UInt8).toNat = N / 2 ^ 28 % 8 := by
      have hand : v / 2 ^ 28 &&& (7 : UInt8).toNat = v / 2 ^ 28 % 8 := Nat.and_two_pow_sub_one_eq_mod _ 3
      lia
    have hle : N / 2 ^ 28 &&& 24 ≤ 24 := Nat.and_le_right
    rw [UInt8.toNat_or, UInt8.toNat_and, Leb128.toNat_ofNat (by lia), Leb128.toNat_ofNat (by lia),
      Leb128.toNat_ofNat (by lia), h7, hb]
    exact or_bits _ (by lia)
  rw [patchLast, hlast, hbyte, hset]

/-- An integer has the tag 0. -/
theorem saveInt_eq (k : BitVec 32) : saveInt k = Leb128.encode (2 * k.toNat) := by
  have hk := k.isLt
  rw [saveInt]
  by_cases h : k.toNat < 2 ^ 31
  · rw [if_neg (fun hs => (slt_zero_iff k).mp hs h), wuleb128_eq, double_low h]
  · have hbits : k.sshiftRight 27 &&& (0x18 : BitVec 32) = k >>> 27 &&& (0x18 : BitVec 32) := by
      apply BitVec.eq_of_getLsbD_eq
      intro i hi
      simp only [BitVec.getLsbD_and, BitVec.getLsbD_sshiftRight, BitVec.getLsbD_ushiftRight]
      have h18 : ∀ i < 32, (0x18 : BitVec 32).getLsbD i = true → i < 5 := by decide
      by_cases hlt : i < 5
      · rw [if_pos (by omega), decide_eq_false (by omega)]
        simp
      · have hf : (0x18 : BitVec 32).getLsbD i = false := by
          rw [Bool.eq_false_iff]
          exact fun ht => hlt (h18 i hi ht)
        rw [hf, Bool.and_false, Bool.and_false]
    obtain ⟨hhigh, hmod⟩ := double_high h
    rw [if_pos ((slt_zero_iff k).mpr h), hbits, wuleb128_eq]
    refine patchLast_encode hhigh (BitVec.isLt _) (by omega) (by omega) hmod ?_
    have h18 : (0x18 : BitVec 32).toNat = 24 := rfl
    rw [BitVec.toNat_and, BitVec.toNat_ushiftRight, Nat.shiftRight_eq_div_pow, h18]
    congr 1
    lia

/-- The low word of a number has the tag 1. -/
theorem saveLo_eq (lo : BitVec 32) : saveLo lo = Leb128.encode (2 * lo.toNat + 1) := by
  have hk := lo.isLt
  have h1 : (1 : BitVec 32).toNat = 1 := rfl
  have h31 : (0x80000000 : BitVec 32).toNat = 2 ^ 31 := rfl
  have hge : lo ≥ 0x80000000 ↔ 2 ^ 31 ≤ lo.toNat := by rw [ge_iff_le, BitVec.le_def, h31]
  rw [saveLo]
  by_cases h : lo.toNat < 2 ^ 31
  · rw [if_neg (fun h' => absurd (hge.mp h') (by omega)), wuleb128_eq, BitVec.toNat_add, double_low h, h1, Nat.mod_eq_of_lt (by omega), Nat.add_comm]
  · obtain ⟨hhigh, hmod⟩ := double_high h
    have hlt := (2 * lo ||| lo &&& 0x80000000).isLt
    rw [if_pos (hge.mpr (by omega)), wuleb128_eq, BitVec.toNat_add, h1, Nat.mod_eq_of_lt (by lia)]
    refine patchLast_encode (by lia) (by lia) (by omega) (by omega) (by lia) ?_
    have h18 : (0x18 : BitVec 32).toNat = 24 := rfl
    rw [BitVec.toNat_and, BitVec.toNat_ushiftRight, Nat.shiftRight_eq_div_pow, h18]
    congr 1
    lia

theorem save33_int (k : BitVec 32) : save33 false k = saveInt k := rfl

theorem save33_lo (lo : BitVec 32) : save33 true lo = saveLo lo := rfl

theorem save33_eq (tag : Bool) (k : BitVec 32) : save33 tag k = Leb128.encode (2 * k.toNat + tag.toNat) := by
  cases tag with
  | false => exact saveInt_eq k
  | true => exact saveLo_eq k

/-! ### The codecs -/

theorem ruleb128_wuleb128 (v : BitVec 32) (rest : List UInt8) : ruleb128 (wuleb128 v ++ rest) = some (v, rest) := by
  rw [ruleb128_eq, wuleb128_eq, Leb128.decode_encode, Option.map_some, BitVec.ofNat_toNat, BitVec.setWidth_eq]

theorem wuleb128_length_le (v : BitVec 32) : (wuleb128 v).length ≤ 5 := by
  have hv := v.isLt
  rw [wuleb128_eq]
  exact Leb128.encode_length_le (by omega)

theorem uleb128_33_save33 (tag : Bool) (k : BitVec 32) (rest : List UInt8) :
    uleb128_33 (save33 tag k ++ rest) = some (k, rest) := by
  have hhalf : (2 * k.toNat + tag.toNat) / 2 = k.toNat := by
    have ht : tag.toNat < 2 := Bool.toNat_lt tag
    lia
  rw [uleb128_33_eq, save33_eq, Leb128.decode_encode, Option.map_some, hhalf, BitVec.ofNat_toNat,
    BitVec.setWidth_eq]

/-- The tag is bit 0 of the first byte. -/
theorem save33_tag (tag : Bool) (k : BitVec 32) : ∃ c p, save33 tag k = c :: p ∧ c &&& 1 = if tag then 1 else 0 := by
  obtain ⟨c, p, hp, hc⟩ := Leb128.encode_head (2 * k.toNat + tag.toNat)
  refine ⟨c, p, by rw [save33_eq, hp], ?_⟩
  apply UInt8.toNat_inj.mp
  have h1 : c.toNat &&& (1 : UInt8).toNat = c.toNat % 2 := Nat.and_two_pow_sub_one_eq_mod _ 1
  rw [UInt8.toNat_and, h1]
  cases tag with
  | false =>
      have h0 : (if false then (1 : UInt8) else 0).toNat = 0 := rfl
      have ht : false.toNat = 0 := rfl
      rw [h0]
      lia
  | true =>
      have h0 : (if true then (1 : UInt8) else 0).toNat = 1 := rfl
      have ht : true.toNat = 1 := rfl
      rw [h0]
      lia

theorem size_log : ∀ b < 32, ((BitVec.ofNat 32 b + 8) * 9) >>> 6 = BitVec.ofNat 32 (b / 7 + 1) := by decide

/-- The size of a number is known before it is written. -/
theorem ulebSize_eq {n : BitVec 32} (h : n ≠ 0) : (ulebSize n).toNat = (wuleb128 n).length := by
  have hn := n.isLt
  have hpos : n.toNat ≠ 0 := fun h0 => h (BitVec.eq_of_toNat_eq h0)
  have hlog : n.toNat.log2 < 32 := (Nat.log2_lt hpos).mpr hn
  rw [ulebSize, fls, size_log _ hlog, wuleb128_eq, Leb128.encode_length, BitVec.toNat_ofNat,
    Nat.mod_eq_of_lt (by lia)]

/-- **The codecs of words are inverse.**  A word is read back, whatever follows, and no more than its bytes are
taken; so is a tagged word, whose tag is bit 0 of its first byte; and the size of a number is that of its
bytes. -/
theorem uleb_codecs :
    (∀ (v : BitVec 32) (rest : List UInt8),
      ruleb128 (wuleb128 v ++ rest) = some (v, rest) ∧ (wuleb128 v).length ≤ 5) ∧
    (∀ (tag : Bool) (k : BitVec 32) (rest : List UInt8), uleb128_33 (save33 tag k ++ rest) = some (k, rest) ∧
      ∃ c p, save33 tag k = c :: p ∧ c &&& 1 = if tag then 1 else 0) ∧
    ∀ n : BitVec 32, n ≠ 0 → (ulebSize n).toNat = (wuleb128 n).length :=
  ⟨fun v rest => ⟨ruleb128_wuleb128 v rest, wuleb128_length_le v⟩,
    fun tag k rest => ⟨uleb128_33_save33 tag k rest, save33_tag tag k⟩, fun _ => ulebSize_eq⟩

/-- The largest number. -/
theorem uleb_codecs_large : (ulebSize 0xffffffff).toNat = (wuleb128 0xffffffff).length :=
  uleb_codecs.2.2 0xffffffff (by decide)

/-! ### Number constants -/

/-- The number constants of a build: integers have a type of their own or not, and there is no negative zero. -/
def IsKnum (dualnum : Bool) : TValue → Prop
  | .int _ => dualnum = true
  | .num lo hi => (lo, hi) ≠ (0, 0x80000000)

variable {B : NumInt} {dualnum : Bool}

theorem readKnum_save33 (tag : Bool) (k : BitVec 32) (rest : List UInt8) :
    readKnum B dualnum (save33 tag k ++ rest) =
      if tag then (ruleb128 rest).map fun r => (.num k r.1, r.2) else some (setint B dualnum k, rest) := by
  obtain ⟨c, p, hp, hc⟩ := save33_tag tag k
  have hhead : (save33 tag k ++ rest).headD 0 = c := by rw [hp]; rfl
  rw [readKnum, hhead, hc, uleb128_33_save33]
  cases tag with
  | false => rfl
  | true =>
      rw [if_pos rfl]
      cases h : ruleb128 rest with
      | none => simp [h]
      | some r => simp [h]

theorem readKnum_writeKnum {o : TValue} (h : IsKnum dualnum o) (rest : List UInt8) :
    readKnum B dualnum (writeKnum B dualnum o ++ rest) = some (o, rest) := by
  cases o with
  | int k =>
      have hd : dualnum = true := h
      rw [writeKnum, ← save33_int, readKnum_save33, if_neg (by decide), setint, if_pos hd]
  | num lo hi =>
      rw [writeKnum]
      cases hn : if dualnum then none else B.toInt lo hi with
      | some k =>
          have hd : dualnum = false := by
            cases dualnum with
            | false => rfl
            | true => cases hn
          rw [hd, if_neg (by decide)] at hn
          dsimp only
          rw [← save33_int, readKnum_save33, if_neg (by decide), setint, if_neg (by rw [hd]; decide), B.eq hn h]
      | none =>
          dsimp only
          rw [← save33_lo, List.append_assoc, readKnum_save33, if_pos rfl, ruleb128_wuleb128, Option.map_some]

/-- The number constants of a prototype are read back. -/
theorem bcreadKnum_bcwriteKnum {ks : List TValue} : (∀ o ∈ ks, IsKnum dualnum o) → ∀ rest : List UInt8,
    bcreadKnum B dualnum ks.length (bcwriteKnum B dualnum ks ++ rest) = some (ks, rest) := by
  induction ks with
  | nil => intro _ rest; rfl
  | cons o ks ih =>
      intro h rest
      obtain ⟨ho, hks⟩ := List.forall_mem_cons.mp h
      rw [List.length_cons, bcreadKnum, bcwriteKnum, List.flatMap_cons, List.append_assoc, readKnum_writeKnum ho]
      have hrec := ih hks rest
      rw [bcwriteKnum] at hrec
      simp [hrec]

end BcUleb
