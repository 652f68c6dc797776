/-
**Access to bitfields.**

`lj_cconv_tv_bf` reads a bitfield of a struct, `lj_cconv_bf_tv` writes it.  Both go through a word of
32 bits, whatever the size of the container; the reader shifts the field to the top of the word and
back down again, the writer masks it in.  A packed bitfield that crosses the end of its container is
an error in both.

Main definitions:

* `Bitfield.Info` — the type of a bitfield, and `Bitfield.Info.Ok`, which every bitfield of a struct
  layout meets;
* `Bitfield.tvBf`, `Bitfield.bfTv` — the reader and the writer;
* `Bitfield.Info.reduce` — the value that is left of an integer in a field.

Main results:

* `Bitfield.info_ok_of_layout` — the bitfields of a struct layout;
* `Bitfield.bitfield_lens` — **writing and reading back reduces the value to the field, writing what
  was read changes nothing, a write only changes the bits of the field**, and no shift count reaches
  32.
-/

import LuaJit.Double
import LuaJit.StructLayout

set_option relaxedAutoImplicit false
set_option autoImplicit false

namespace Bitfield

open Layout

/-! ### Bitfields of a struct -/

/-- The type of a bitfield: `CTF_BOOL`, `CTF_UNSIGNED`, the position and the width in bits, and the
size of the container in bytes. -/
structure Info where
  isBool : Bool
  isUnsigned : Bool
  pos : ℕ
  bsz : ℕ
  csz : ℕ
  deriving DecidableEq

/-- What the layout guarantees of a bitfield with a name. -/
structure Info.Ok (bf : Info) : Prop where
  csz_cases : bf.csz = 1 ∨ bf.csz = 2 ∨ bf.csz = 4
  pos_lt : bf.pos < 8 * bf.csz
  bsz_pos : 0 < bf.bsz
  bsz_le : bf.bsz ≤ 8 * bf.csz
  bool_le : bf.isBool = true → bf.bsz = 1
  full : bf.bsz = 8 * bf.csz → bf.pos ≠ 0

/-- The bitfield at a place. -/
def Info.ofPlaced (ty : CTypeRef) (pos bsz csz : ℕ) : Info :=
  { isBool := ty.raw.isBool, isUnsigned := ty.raw.isUnsigned, pos := pos, bsz := bsz, csz := csz }

/-- A bitfield that fills its container does not start at its lowest bit: it would be a regular
field. -/
theorem pos_ne_zero_of_full {ctx : LayoutCtx} {bofs n : ℕ} {ty : CTypeRef} {attr : Attr}
    (hbits : BitsOk true ty n) (hn : n = 8 * ty.raw.size)
    (hreg : ¬ startOffset wrap32 ctx bofs ty (some n) attr (8 * ty.raw.size) %
      alignUnit (effAlign ctx ty attr) = 0) :
    startOffset wrap32 ctx bofs ty (some n) attr (8 * ty.raw.size) % (8 * ty.raw.size) ≠ 0 := by
  have hpos := hbits.named_pos rfl
  unfold startOffset at hreg ⊢
  cases hs : startsNew ctx bofs ty (some n) attr (8 * ty.raw.size) with
  | true =>
      rw [hs, if_pos rfl] at hreg
      exact absurd (Nat.mod_eq_zero_of_dvd (Nat.dvd_sub_mod _)) hreg
  | false =>
      rw [hs, if_neg (by decide)] at hreg
      rw [if_neg (by decide)]
      simp only [startsNew, decide_eq_false_iff_not, not_or, not_and, Nat.not_lt] at hs
      obtain ⟨-, hal, hfit⟩ := hs
      -- the field does not start anew, so it is packed and its alignment is that of a byte
      have hpacked : (attr.packed || ctx.sattr.packed) = true := by
        by_contra hp
        have := hfit (by simpa using hp)
        lia
      have halign : attr.align = 0 := attr.align_eq (by simpa using hal)
      have heff : effAlign ctx ty attr = 0 := by
        unfold effAlign
        simp only [hpacked, true_or, if_true, halign]
        split
        · rename_i h0
          exact absurd h0 (Nat.not_lt_zero _)
        · rfl
      intro h0
      rw [heff] at hreg
      refine hreg (Nat.mod_eq_zero_of_dvd ?_)
      exact (Dvd.intro _ rfl : 8 ∣ 8 * ty.raw.size).trans (Nat.dvd_of_mod_eq_zero h0)

/-- Every bitfield with a name that the layout of the source places is well formed. -/
theorem info_ok_of_layout {ctx : LayoutCtx} {ds : List Decl} {es : List Entry} {L : StructType}
    (hd : declStruct ds = some es) (hL : structLayout wrap32 ctx es = some L) {ty : CTypeRef}
    {bsz : Option ℕ} {attr : Attr} {ofs pos n csz : ℕ}
    (hf : (Entry.field true ty bsz attr, Placed.bits ofs pos n csz) ∈ L.fields) :
    (Info.ofPlaced ty pos n csz).Ok := by
  obtain ⟨⟨st, out⟩, hrun, rfl⟩ := Option.map_eq_some_iff.1 hL
  obtain ⟨hmem, st₀, st₁, hstep⟩ := layoutFields_mem hrun _ hf
  have hok := declStruct_ok hd _ hmem
  simp only [layoutEntry, layoutField] at hstep
  cases hc : containerSize wrap32 ctx st₀.bofs ty with
  | none => rw [hc] at hstep; cases hstep
  | some csz₀ =>
      rw [hc] at hstep
      simp only [Option.some.injEq, Prod.mk.injEq] at hstep
      obtain ⟨-, hp⟩ := hstep
      cases bsz with
      | none => cases hp
      | some m =>
          have hbits : BitsOk true ty m := hok
          rw [containerSize_eq hc, hbits.regularBits_eq] at hp
          simp only [place] at hp
          split at hp
          · cases hp
          · rename_i hreg
            cases hp
            obtain ⟨-, hcsz, -, hlt, -⟩ := place_bits attr hbits
            refine ⟨?_, hlt, hbits.named_pos rfl, ?_, fun hb => ?_, fun hfull => ?_⟩
            · simp only [Info.ofPlaced, hcsz]
              exact hbits.size_cases
            · simp only [Info.ofPlaced, hcsz]
              exact hbits.width_le
            · exact Nat.le_antisymm (hbits.bool_le hb) (hbits.named_pos rfl)
            · simp only [Info.ofPlaced, hcsz] at hfull
              exact pos_ne_zero_of_full hbits hfull fun h0 => hreg ⟨hfull, h0⟩

/-! ### Values -/

/-- An integer as a Lua value: an integer, a number, a boolean, or a cdata of an integer type of 1,
2, 4 or 8 bytes. -/
inductive IntVal
  | int (i : BitVec 32)
  | num (n : ℤ)
  | bool (b : Bool)
  | cdata (lg : Fin 4) (isUnsigned : Bool) (x : BitVec (8 * 2 ^ lg.val))
  deriving DecidableEq

/-- The integer. -/
def IntVal.toInt : IntVal → ℤ
  | .int i => i.toInt
  | .num n => n
  | .bool b => b.toNat
  | .cdata _ true x => x.toNat
  | .cdata _ false x => x.toInt

/-- The conversion of doubles that hold integers to `uint32_t`: exact on the values that fit. -/
structure ToUInt32 where
  conv : ℤ → BitVec 32
  exact : ∀ k : BitVec 32, conv k.toNat = k

/-- What the accessors depend on: `LJ_DUALNUM` and the conversions of doubles. -/
structure Config where
  dualnum : Bool
  toInt32 : Dbl.ToInt32
  toUInt32 : ToUInt32

/-- `lj_cconv_ct_tv` to `int32_t` or `uint32_t`. -/
def convInt (cfg : Config) (isUnsigned : Bool) : IntVal → BitVec 32
  | .int i => i
  | .num n => if isUnsigned then cfg.toUInt32.conv n else cfg.toInt32.conv n
  | .bool b => if b then 1 else 0
  | .cdata _ true x => x.setWidth 32
  | .cdata _ false x => x.signExtend 32

/-- `lj_cconv_ct_tv` to `bool`. -/
def convBool : IntVal → BitVec 32
  | .int i => if i = 0 then 0 else 1
  | .num n => if n = 0 then 0 else 1
  | .bool b => if b then 1 else 0
  | .cdata _ _ x => if x = 0 then 0 else 1

/-! ### The accessors -/

/-- `setintV`. -/
def setInt (cfg : Config) (i : BitVec 32) : IntVal := if cfg.dualnum then .int i else .num i.toInt

/-- The bitfield crosses a container boundary. -/
def Info.crosses (bf : Info) : Bool := decide (8 * bf.csz < bf.pos + bf.bsz)

/-- `lj_cconv_tv_bf`.  `none` is the error for packed bitfields. -/
def tvBf (cfg : Config) (bf : Info) (content : BitVec (8 * bf.csz)) : Option IntVal :=
  let val := content.setWidth 32
  if bf.crosses then none
  else
    let shift := 32 - bf.bsz
    some
      (if bf.isBool then .bool (val >>> bf.pos &&& 1#32 == 1#32)
       else if bf.isUnsigned then
         let val := val <<< (shift - bf.pos) >>> shift
         if cfg.dualnum = false ∨ val.slt 0 then .num val.toNat else .int val
       else setInt cfg ((val <<< (shift - bf.pos)).sshiftRight shift))

/-- The mask of the field. -/
def Info.mask (bf : Info) : BitVec 32 := (1#32 <<< bf.bsz - 1#32) <<< bf.pos

/-- `lj_cconv_bf_tv`. -/
def bfTv (cfg : Config) (bf : Info) (content : BitVec (8 * bf.csz)) (o : IntVal) :
    Option (BitVec (8 * bf.csz)) :=
  let val := if bf.isBool then convBool o else convInt cfg bf.isUnsigned o
  if bf.crosses then none
  else
    let val := val <<< bf.pos &&& bf.mask
    some (((content.setWidth 32 &&& ~~~bf.mask) ||| val).setWidth (8 * bf.csz))

/-- The shift counts of the two accessors. -/
def Info.shiftCounts (bf : Info) : List ℕ :=
  if bf.isBool then [bf.pos, bf.bsz]
  else [32 - bf.bsz, 32 - bf.bsz - bf.pos, bf.pos, bf.bsz]

/-! ### What a write changes -/

variable {bf : Info}

theorem Info.Ok.le_32 (h : bf.Ok) : 8 * bf.csz ≤ 32 := by
  rcases h.csz_cases with h' | h' | h' <;> lia

/-- A field that can be accessed has less than 32 bits. -/
theorem Info.Ok.bsz_lt (h : bf.Ok) (hc : bf.crosses = false) : bf.bsz < 32 := by
  have h1 := h.le_32
  have h2 := h.full
  simp only [Info.crosses, decide_eq_false_iff_not, Nat.not_lt] at hc
  lia

theorem crosses_eq_false (hc : bf.crosses = false) : bf.pos + bf.bsz ≤ 8 * bf.csz := by
  simpa only [Info.crosses, decide_eq_false_iff_not, Nat.not_lt] using hc

theorem getLsbD_low {n : ℕ} (hn : n < 32) (i : ℕ) :
    (1#32 <<< n - 1#32).getLsbD i = decide (i < n) := by
  have hlow : 1#32 <<< n - 1#32 = BitVec.ofNat 32 (2 ^ n - 1) := by
    have hpow : 2 ^ n < 2 ^ 32 := Nat.pow_lt_pow_right (by decide) hn
    have hpos : 0 < 2 ^ n := by positivity
    refine BitVec.eq_of_toNat_eq ?_
    rw [BitVec.toNat_sub, BitVec.toNat_shiftLeft, BitVec.toNat_ofNat]
    simp only [BitVec.toNat_ofNat, Nat.shiftLeft_eq, Nat.one_mod, one_mul]
    rw [Nat.mod_eq_of_lt hpow]
    lia
  rw [hlow, BitVec.getLsbD_ofNat, Nat.testBit_two_pow_sub_one]
  by_cases h : i < n
  · simp [h, show i < 32 by omega]
  · simp [h]

theorem getLsbD_mask (hn : bf.bsz < 32) (i : ℕ) :
    bf.mask.getLsbD i = decide (i < 32 ∧ bf.pos ≤ i ∧ i < bf.pos + bf.bsz) := by
  rw [Info.mask, BitVec.getLsbD_shiftLeft, getLsbD_low hn]
  by_cases h1 : i < 32
  · by_cases h2 : bf.pos ≤ i
    · have h3 : i - bf.pos < bf.bsz ↔ i < bf.pos + bf.bsz := by lia
      simp [h1, h2, h3]
    · have h3 : i < bf.pos := by omega
      simp [h3, h2]
  · simp [h1]

/-- The container after a write, bit by bit. -/
theorem getLsbD_write (h : bf.Ok) (hc : bf.crosses = false) (content : BitVec (8 * bf.csz))
    (val : BitVec 32) (i : ℕ) :
    (((content.setWidth 32 &&& ~~~bf.mask) ||| (val <<< bf.pos &&& bf.mask)).setWidth
        (8 * bf.csz)).getLsbD i =
      if bf.pos ≤ i ∧ i < bf.pos + bf.bsz then val.getLsbD (i - bf.pos)
      else content.getLsbD i := by
  have h32 := h.le_32
  have hend := crosses_eq_false hc
  rw [BitVec.getLsbD_setWidth]
  by_cases hi : i < 8 * bf.csz
  · have hi32 : i < 32 := by omega
    simp only [BitVec.getLsbD_or, BitVec.getLsbD_and, BitVec.getLsbD_not, BitVec.getLsbD_setWidth,
      BitVec.getLsbD_shiftLeft, getLsbD_mask (h.bsz_lt hc), hi, hi32, decide_true, Bool.true_and,
      true_and]
    by_cases hin : bf.pos ≤ i ∧ i < bf.pos + bf.bsz
    · have : ¬ i < bf.pos := by omega
      simp [hin, this]
    · simp [hin]
  · have hout : ¬ (bf.pos ≤ i ∧ i < bf.pos + bf.bsz) := by omega
    rw [if_neg hout, BitVec.getLsbD_of_ge content i (by omega)]
    simp [hi]

/-! ### What is read -/

/-- The bits of the field. -/
def Info.field (bf : Info) (content : BitVec (8 * bf.csz)) : BitVec bf.bsz :=
  content.extractLsb' bf.pos bf.bsz

/-- The value of the bits of the field, by its type. -/
def Info.fieldVal (bf : Info) (x : BitVec bf.bsz) : ℤ :=
  if bf.isBool || bf.isUnsigned then x.toNat else x.toInt

/-- The value that is left of an integer in the field. -/
def Info.reduce (bf : Info) (z : ℤ) : ℤ :=
  if bf.isBool then (if z = 0 then 0 else 1)
  else if bf.isUnsigned then z % 2 ^ bf.bsz
  else z.bmod (2 ^ bf.bsz)

/-- The conversion of the value to a word of 32 bits is defined: a number must be in the range of
`int32_t` or `uint32_t`. -/
def Info.Exact (bf : Info) : IntVal → Prop
  | .num n =>
      if bf.isBool then True else if bf.isUnsigned then 0 ≤ n ∧ n < 2 ^ 32 else Dbl.FitsInt32 n
  | _ => True

/-- The unsigned shifts isolate the field. -/
theorem ushift_field (h : bf.Ok) (hc : bf.crosses = false) (content : BitVec (8 * bf.csz)) :
    (content.setWidth 32 <<< (32 - bf.bsz - bf.pos)) >>> (32 - bf.bsz) =
      (bf.field content).setWidth 32 := by
  have h32 := h.le_32
  have hend := crosses_eq_false hc
  refine BitVec.eq_of_getLsbD_eq fun i hi => ?_
  simp only [BitVec.getLsbD_ushiftRight, BitVec.getLsbD_shiftLeft, BitVec.getLsbD_setWidth,
    Info.field, BitVec.getLsbD_extractLsb', hi, decide_true, Bool.true_and]
  by_cases hn : i < bf.bsz
  · have h1 : 32 - bf.bsz + i < 32 := by lia
    have h2 : ¬ 32 - bf.bsz + i < 32 - bf.bsz - bf.pos := by lia
    have h3 : 32 - bf.bsz + i - (32 - bf.bsz - bf.pos) = bf.pos + i := by lia
    have h4 : bf.pos + i < 32 := by lia
    simp [hn, h1, h2, h3, h4]
  · have h1 : ¬ 32 - bf.bsz + i < 32 := by lia
    simp [hn, h1]

/-- The signed shifts extend the field by its sign. -/
theorem sshift_field (h : bf.Ok) (hc : bf.crosses = false) (content : BitVec (8 * bf.csz)) :
    (content.setWidth 32 <<< (32 - bf.bsz - bf.pos)).sshiftRight (32 - bf.bsz) =
      (bf.field content).signExtend 32 := by
  have h32 := h.le_32
  have hend := crosses_eq_false hc
  have hpos := h.bsz_pos
  have hbit : ∀ j, j < bf.bsz →
      (content.setWidth 32 <<< (32 - bf.bsz - bf.pos)).getLsbD (32 - bf.bsz + j) =
        (bf.field content).getLsbD j := by
    intro j hj
    have h1 : 32 - bf.bsz + j < 32 := by lia
    have h2 : ¬ 32 - bf.bsz + j < 32 - bf.bsz - bf.pos := by lia
    have h3 : 32 - bf.bsz + j - (32 - bf.bsz - bf.pos) = bf.pos + j := by lia
    have h4 : bf.pos + j < 32 := by lia
    simp [Info.field, hj, h1, h2, h3]
  refine BitVec.eq_of_getLsbD_eq fun i hi => ?_
  rw [BitVec.getLsbD_sshiftRight, BitVec.getLsbD_signExtend, BitVec.msb_eq_getLsbD_last,
    BitVec.msb_eq_getLsbD_last]
  have hmsb := hbit (bf.bsz - 1) (by omega)
  rw [show 32 - bf.bsz + (bf.bsz - 1) = 32 - 1 by lia] at hmsb
  rw [hmsb]
  by_cases hn : i < bf.bsz
  · have h1 : 32 - bf.bsz + i < 32 := by lia
    rw [if_pos h1, if_pos hn, hbit i hn]
    simp [hi]
  · have h1 : ¬ 32 - bf.bsz + i < 32 := by lia
    simp [hn, h1, hi]

theorem toNat_of_width_one {n : ℕ} (hn : n = 1) (x : BitVec n) :
    x.toNat = (x.getLsbD 0).toNat := by
  subst hn
  revert x
  decide

/-- The reader returns the value of the field. -/
theorem tvBf_eq (cfg : Config) (h : bf.Ok) (hc : bf.crosses = false)
    (content : BitVec (8 * bf.csz)) :
    ∃ r, tvBf cfg bf content = some r ∧ r.toInt = bf.fieldVal (bf.field content) ∧ bf.Exact r ∧
      (bf.isBool = true → r = .bool ((bf.field content).getLsbD 0)) := by
  have h32 := h.le_32
  have hend := crosses_eq_false hc
  have hlt : bf.bsz ≤ 32 := (h.bsz_lt hc).le
  rw [tvBf, hc, if_neg (by decide)]
  refine ⟨_, rfl, ?_⟩
  cases hb : bf.isBool with
  | true =>
      have hone := h.bool_le hb
      have hbit : ((content.setWidth 32 >>> bf.pos &&& 1#32) == 1#32) =
          (bf.field content).getLsbD 0 := by
        rw [BitVec.and_one_eq_setWidth_ofBool_getLsbD]
        have : ((content.setWidth 32) >>> bf.pos).getLsbD 0 = (bf.field content).getLsbD 0 := by
          simp [Info.field, hone, show bf.pos < 32 by lia]
        rw [this]
        cases (bf.field content).getLsbD 0 <;> rfl
      rw [if_pos rfl, hbit]
      refine ⟨?_, trivial, fun _ => rfl⟩
      rw [Info.fieldVal, hb, Bool.true_or, if_pos rfl, IntVal.toInt, toNat_of_width_one hone]
  | false =>
      rw [if_neg (by decide)]
      cases hu : bf.isUnsigned with
      | true =>
          rw [if_pos rfl, ushift_field h hc]
          have hval : ((bf.field content).setWidth 32).toNat = (bf.field content).toNat :=
            BitVec.toNat_setWidth_of_le hlt
          rw [Info.fieldVal, hb, hu, Bool.false_or, if_pos rfl]
          dsimp only
          split
          · refine ⟨by rw [IntVal.toInt, hval], ?_, fun h' => (by cases h')⟩
            simp only [Info.Exact, hb, hu, if_true, Bool.false_eq_true, if_false]
            have := ((bf.field content).setWidth 32).isLt
            lia
          · rename_i hs
            simp only [not_or, Bool.not_eq_true] at hs
            have hmsb : ((bf.field content).setWidth 32).msb = false := by
              rw [← BitVec.slt_zero_eq_msb]
              exact hs.2
            refine ⟨?_, trivial, fun h' => (by cases h')⟩
            rw [IntVal.toInt, BitVec.toInt_eq_toNat_of_msb hmsb, hval]
      | false =>
          have hfield : bf.fieldVal (bf.field content) = (bf.field content).toInt := by
            rw [Info.fieldVal, hb, hu, Bool.false_or, if_neg (by decide)]
          rw [hfield, if_neg (by decide), sshift_field h hc, setInt]
          have hval : ((bf.field content).signExtend 32).toInt = (bf.field content).toInt :=
            BitVec.toInt_signExtend_of_le hlt
          split
          · exact ⟨hval, trivial, fun h' => (by cases h')⟩
          · refine ⟨hval, ?_, fun h' => (by cases h')⟩
            simp only [Info.Exact, hb, hu, Bool.false_eq_true, if_false]
            exact Dbl.fitsInt32_toInt _

/-! ### What is written -/

/-- The conversion to a word reduces the integer modulo `2 ^ 32`. -/
theorem convInt_eq (cfg : Config) {v : IntVal} (hb : bf.isBool = false) (hv : bf.Exact v) :
    convInt cfg bf.isUnsigned v = BitVec.ofInt 32 v.toInt := by
  cases v with
  | int i => exact BitVec.ofInt_toInt.symm
  | num n =>
      simp only [Info.Exact, hb, Bool.false_eq_true, if_false] at hv
      cases hu : bf.isUnsigned with
      | true =>
          rw [hu, if_pos rfl] at hv
          have hk : ((BitVec.ofInt 32 n).toNat : ℤ) = n := by
            rw [BitVec.toNat_ofInt]
            lia
          have := cfg.toUInt32.exact (BitVec.ofInt 32 n)
          rwa [hk] at this
      | false =>
          rw [hu, if_neg (by decide)] at hv
          have := cfg.toInt32.exact (BitVec.ofInt 32 n)
          rwa [Dbl.toInt_ofInt_of_fits hv] at this
  | bool b => cases b <;> rfl
  | cdata lg isUnsigned x =>
      cases isUnsigned with
      | true =>
          refine BitVec.eq_of_toNat_eq ?_
          simp only [convInt, IntVal.toInt, BitVec.toNat_setWidth, BitVec.toNat_ofInt]
          lia
      | false => rfl

theorem eq_zero_iff_toInt {w : ℕ} (x : BitVec w) : x.toInt = 0 ↔ x = 0 := by
  rw [← BitVec.toInt_inj]
  exact ⟨fun h => by rw [h]; exact BitVec.toInt_zero.symm, fun h => by rw [h]; exact BitVec.toInt_zero⟩

/-- The conversion to `bool` tests for zero. -/
theorem convBool_eq (v : IntVal) : convBool v = if v.toInt = 0 then 0 else 1 := by
  cases v with
  | int i =>
      have h : i = 0 ↔ i.toInt = 0 := (eq_zero_iff_toInt i).symm
      exact if_congr h rfl rfl
  | num n => rfl
  | bool b => cases b <;> rfl
  | cdata lg isUnsigned x =>
      cases isUnsigned with
      | true =>
          have h : x = 0 ↔ (x.toNat : ℤ) = 0 := by
            rw [Int.natCast_eq_zero]
            exact ⟨fun h => by rw [h]; exact BitVec.toNat_zero, fun h => BitVec.eq_of_toNat_eq h⟩
          exact if_congr h rfl rfl
      | false => exact if_congr (eq_zero_iff_toInt x).symm rfl rfl

/-- Truncation of a word that holds an integer. -/
theorem setWidth_ofInt {m n : ℕ} (h : n ≤ m) (z : ℤ) :
    (BitVec.ofInt m z).setWidth n = BitVec.ofInt n z := by
  have hdvd : (2 : ℤ) ^ n ∣ 2 ^ m := pow_dvd_pow 2 h
  have hm : 0 ≤ z % 2 ^ m := Int.emod_nonneg z (by positivity)
  have hn : 0 ≤ z % 2 ^ n := Int.emod_nonneg z (by positivity)
  refine BitVec.eq_of_toNat_eq (Int.natCast_inj.1 ?_)
  rw [BitVec.toNat_setWidth, BitVec.toNat_ofInt, BitVec.toNat_ofInt]
  push_cast
  rw [Int.toNat_of_nonneg hm, Int.toNat_of_nonneg hn, Int.emod_emod_of_dvd z hdvd]

/-- The value that is written: the low bits of the converted integer. -/
def Info.written (cfg : Config) (bf : Info) (v : IntVal) : BitVec bf.bsz :=
  (if bf.isBool then convBool v else convInt cfg bf.isUnsigned v).setWidth bf.bsz

/-- The writer puts the value into the field and leaves all other bits alone. -/
theorem bfTv_eq (cfg : Config) (h : bf.Ok) (hc : bf.crosses = false)
    (content : BitVec (8 * bf.csz)) (v : IntVal) :
    ∃ new, bfTv cfg bf content v = some new ∧ ∀ i, new.getLsbD i =
      if bf.pos ≤ i ∧ i < bf.pos + bf.bsz then (bf.written cfg v).getLsbD (i - bf.pos)
      else content.getLsbD i := by
  rw [bfTv, hc, if_neg (by decide)]
  refine ⟨_, rfl, fun i => ?_⟩
  rw [getLsbD_write h hc]
  split
  · rename_i hi
    rw [Info.written, BitVec.getLsbD_setWidth]
    simp [show i - bf.pos < bf.bsz by lia]
  · rfl

/-- The field after a write. -/
theorem field_of_write {content new : BitVec (8 * bf.csz)} {x : BitVec bf.bsz}
    (hnew : ∀ i, new.getLsbD i =
      if bf.pos ≤ i ∧ i < bf.pos + bf.bsz then x.getLsbD (i - bf.pos) else content.getLsbD i) :
    bf.field new = x := by
  refine BitVec.eq_of_getLsbD_eq fun i hi => ?_
  rw [Info.field, BitVec.getLsbD_extractLsb', hnew, if_pos ⟨by omega, by omega⟩]
  simp [hi]

/-- Writing the bits that are there changes nothing. -/
theorem write_field {content new : BitVec (8 * bf.csz)}
    (hnew : ∀ i, new.getLsbD i =
      if bf.pos ≤ i ∧ i < bf.pos + bf.bsz then (bf.field content).getLsbD (i - bf.pos)
      else content.getLsbD i) : new = content := by
  refine BitVec.eq_of_getLsbD_eq fun i _ => ?_
  rw [hnew]
  split
  · rename_i hin
    have h1 : i - bf.pos < bf.bsz := by lia
    have h2 : bf.pos + (i - bf.pos) = i := by lia
    simp [Info.field, h1, h2]
  · rfl

/-- A value that was read is written back as the bits it was read from. -/
theorem written_of_read {cfg : Config} (h : bf.Ok) (hc : bf.crosses = false) {v : IntVal}
    {x : BitVec bf.bsz} (hval : v.toInt = bf.fieldVal x) (hex : bf.Exact v)
    (hbool : bf.isBool = true → v = .bool (x.getLsbD 0)) : bf.written cfg v = x := by
  have hlt : bf.bsz ≤ 32 := (h.bsz_lt hc).le
  rw [Info.written]
  cases hb : bf.isBool with
  | true =>
      have hone := h.bool_le hb
      rw [if_pos rfl, hbool hb]
      refine BitVec.eq_of_toNat_eq ?_
      rw [toNat_of_width_one hone x, BitVec.toNat_setWidth]
      cases x.getLsbD 0 <;> simp [convBool, hone]
  | false =>
      rw [if_neg (by decide), convInt_eq cfg hb hex, hval, Info.fieldVal, hb, Bool.false_or]
      split
      · rw [setWidth_ofInt hlt, BitVec.ofInt_natCast, BitVec.ofNat_toNat, BitVec.setWidth_eq]
      · rw [setWidth_ofInt hlt, BitVec.ofInt_toInt]

/-- What is read after a write is the reduced value. -/
theorem fieldVal_written {cfg : Config} (h : bf.Ok) (hc : bf.crosses = false) {v : IntVal}
    (hex : bf.Exact v) : bf.fieldVal (bf.written cfg v) = bf.reduce v.toInt := by
  have hlt : bf.bsz ≤ 32 := (h.bsz_lt hc).le
  rw [Info.written, Info.fieldVal, Info.reduce]
  cases hb : bf.isBool with
  | true =>
      have hone := h.bool_le hb
      rw [Bool.true_or, if_pos rfl, if_pos rfl, if_pos rfl, convBool_eq, BitVec.toNat_setWidth, hone]
      split <;> rfl
  | false =>
      simp only [Bool.false_or, Bool.false_eq_true, if_false]
      rw [convInt_eq cfg hb hex, setWidth_ofInt hlt]
      split
      · rw [BitVec.toNat_ofInt]
        exact Int.toNat_of_nonneg (Int.emod_nonneg _ (by positivity))
      · exact BitVec.toInt_ofInt _

/-! ### The lens -/

/-- The shift counts of the accessors stay below 32. -/
theorem shiftCounts_lt (h : bf.Ok) (hc : bf.crosses = false) : ∀ k ∈ bf.shiftCounts, k < 32 := by
  have h1 := h.le_32
  have h2 := h.bsz_lt hc
  have h3 := h.pos_lt
  have h4 := h.bsz_pos
  intro k hk
  unfold Info.shiftCounts at hk
  split at hk <;> simp only [List.mem_cons, List.not_mem_nil, or_false] at hk <;> lia

/-- The conversion to `uint32_t` that saturates. -/
def ToUInt32.saturating : ToUInt32 where
  conv z := if z < 0 then 0 else if 2 ^ 32 ≤ z then -1 else BitVec.ofInt 32 z
  exact k := by
    have h := k.isLt
    rw [if_neg (by omega), if_neg (by omega), BitVec.ofInt_natCast, BitVec.ofNat_toNat,
      BitVec.setWidth_eq]

/-- A target with dual numbers whose conversions saturate. -/
def satConfig : Config :=
  { dualnum := true, toInt32 := Dbl.ToInt32.wrapping, toUInt32 := ToUInt32.saturating }

/-- **Access to bitfields.**  For every bitfield with a name of a struct that the parser accepts, both
accessors raise the error for packed bitfields, or: the shift counts are below 32; writing back what
was read leaves the container unchanged; a write only changes the bits of the field; and it is read
back as the value reduced to the field, where a `bool` field tests for zero and a number must be in
the range of the 32 bit type it is converted to. -/
theorem bitfield_lens (cfg : Config) {ctx : LayoutCtx} {ds : List Decl} {es : List Entry}
    {L : StructType} (hd : declStruct ds = some es) (hL : structLayout wrap32 ctx es = some L)
    {ty : CTypeRef} {bsz : Option ℕ} {attr : Attr} {ofs pos n csz : ℕ}
    (hf : (Entry.field true ty bsz attr, Placed.bits ofs pos n csz) ∈ L.fields) :
    let bf := Info.ofPlaced ty pos n csz
    (∀ content v, tvBf cfg bf content = none ∧ bfTv cfg bf content v = none) ∨
    ((∀ k ∈ bf.shiftCounts, k < 32) ∧ ∀ content,
      (∃ r, tvBf cfg bf content = some r ∧ bfTv cfg bf content r = some content) ∧
      ∀ v, ∃ new, bfTv cfg bf content v = some new ∧
        (∀ i, ¬ (pos ≤ i ∧ i < pos + n) → new.getLsbD i = content.getLsbD i) ∧
        (bf.Exact v → ∃ r, tvBf cfg bf new = some r ∧ r.toInt = bf.reduce v.toInt)) := by
  intro bf
  have h : bf.Ok := info_ok_of_layout hd hL hf
  cases hc : bf.crosses with
  | true =>
      left
      intro content v
      simp only [tvBf, bfTv, hc, if_true, and_self]
  | false =>
      right
      refine ⟨shiftCounts_lt h hc, fun content => ⟨?_, fun v => ?_⟩⟩
      · obtain ⟨r, hr, hval, hex, hbool⟩ := tvBf_eq cfg h hc content
        obtain ⟨new, hw, hnew⟩ := bfTv_eq cfg h hc content r
        rw [written_of_read h hc hval hex hbool] at hnew
        exact ⟨r, hr, by rw [hw, write_field hnew]⟩
      · obtain ⟨new, hw, hnew⟩ := bfTv_eq cfg h hc content v
        refine ⟨new, hw, fun i hi => (hnew i).trans (if_neg hi), fun hex => ?_⟩
        obtain ⟨r, hr, hval, -, -⟩ := tvBf_eq cfg h hc new
        exact ⟨r, hr, by rw [hval, field_of_write hnew, fieldVal_written h hc hex]⟩

/-- `struct { int a:3; }`. -/
theorem bitfield_lens_int3 :
    let bf : Info := { isBool := false, isUnsigned := false, pos := 0, bsz := 3, csz := 4 }
    (∀ content v, tvBf satConfig bf content = none ∧ bfTv satConfig bf content v = none) ∨
    ((∀ k ∈ bf.shiftCounts, k < 32) ∧ ∀ content,
      (∃ r, tvBf satConfig bf content = some r ∧ bfTv satConfig bf content r = some content) ∧
      ∀ v, ∃ new, bfTv satConfig bf content v = some new ∧
        (∀ i, ¬ (0 ≤ i ∧ i < 0 + 3) → new.getLsbD i = content.getLsbD i) ∧
        (bf.Exact v → ∃ r, tvBf satConfig bf new = some r ∧ r.toInt = bf.reduce v.toInt)) :=
  bitfield_lens satConfig
    (show declStruct [.field true intType (some 3) {}] = some [.field true intType (some 3) {}]
      from rfl)
    (show structLayout wrap32 {} _ = some _ from rfl) List.mem_cons_self

/-- `bool`. -/
def boolType : CTypeRef :=
  { links := [], raw := .num true false true 0 1, size_pow := fun _ => ⟨0, rfl⟩
    bool_size := fun _ => rfl }

/-- `unsigned int`. -/
def uintType : CTypeRef :=
  { links := [], raw := .num false false true 2 4, size_pow := fun _ => ⟨2, rfl⟩
    bool_size := fun h => (by cases h) }

/-- Writing 2 to `bool b:1` reads back as 1, which is not 2 modulo 2.  Writing the number
`2 ^ 32 + 1` to `unsigned int a:3` need not read back as 1: the conversion of a number out of range
is not defined. -/
theorem bitfield_not_modular :
    ((Entry.field true boolType (some 1) {}, Placed.bits 0 0 1 1) ∈
        ((structLayout wrap32 {} [.field true boolType (some 1) {}]).map StructType.fields).getD [] ∧
      ((bfTv satConfig (Info.ofPlaced boolType 0 1 1) 0 (.int 2)).bind
        (tvBf satConfig (Info.ofPlaced boolType 0 1 1))).map IntVal.toInt = some 1 ∧
      (2 : ℤ) % 2 ^ 1 ≠ 1) ∧
    ((Entry.field true uintType (some 3) {}, Placed.bits 0 0 3 4) ∈
        ((structLayout wrap32 {} [.field true uintType (some 3) {}]).map StructType.fields).getD [] ∧
      ((bfTv satConfig (Info.ofPlaced uintType 0 3 4) 0 (.num (2 ^ 32 + 1))).bind
        (tvBf satConfig (Info.ofPlaced uintType 0 3 4))).map IntVal.toInt = some 7 ∧
      ((2 : ℤ) ^ 32 + 1) % 2 ^ 3 ≠ 7) :=
  ⟨⟨List.mem_cons_self, by decide, by decide⟩, ⟨List.mem_cons_self, by decide, by decide⟩⟩

end Bitfield
