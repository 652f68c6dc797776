/-
**Constants in registers, for ARM.**

A constant is loaded by one instruction if it can be encoded, also inverted; else by a difference to a
constant that another register holds, by its two halves, or piece by piece.  The register allocator is
a parameter: the registers in use, and the constants that they stand for.

Main definitions:

* `ArmAsm.RaState` — the registers in use and their references;
* `ArmAsm.emitKdelta1`, `ArmAsm.emitKdelta2`, `ArmAsm.orrChain` — the sequences;
* `ArmAsm.emitLoadi`, `ArmAsm.emitOpk` — loading a constant, and an operation with a constant.

Main results:

* `ArmAsm.dataProc_emitIsk12` — every opcode computes the same with an operand of `emit_isk12`;
* `ArmAsm.emitIsk12_window` — eight bits at an even position are encoded as they are;
* `ArmAsm.rest_direct` — and the rest of a difference is not encoded inverted;
* `ArmAsm.constants_exact` — **a constant is loaded exactly, and nothing else changes**.
-/

import LuaJit.ArmFuse

set_option relaxedAutoImplicit false
set_option autoImplicit false

namespace ArmAsm

open Arm

/-! ### Instructions -/

/-- The instructions that load constants: data processing, and the two halves of a register. -/
inductive LoadIns where
  | word (w : MCode)
  | movw (rd : Reg) (imm4 : BitVec 4) (imm12 : BitVec 12)
  | movt (rd : Reg) (imm4 : BitVec 4) (imm12 : BitVec 12)
  deriving DecidableEq

/-- The machine with another value in one register. -/
def setReg (s : Cpu) (d : Reg) (v : BitVec 32) : Cpu := { s with regs := Function.update s.regs d v }

def LoadIns.step (s : Cpu) : LoadIns → Cpu
  | word w => (w.step 0 s).2
  | movw rd imm4 imm12 => setReg s rd ((imm4 ++ imm12).setWidth 32)
  | movt rd imm4 imm12 => setReg s rd ((imm4 ++ imm12) ++ (s.regs rd).extractLsb' 0 16)

def runLoad : List LoadIns → Cpu → Cpu
  | [], s => s
  | w :: ws, s => runLoad ws (w.step s)

theorem runLoad_append (ws ws' : List LoadIns) (s : Cpu) :
    runLoad (ws ++ ws') s = runLoad ws' (runLoad ws s) := by
  induction ws generalizing s with
  | nil => rfl
  | cons w ws ih => exact ih _

/-- `emit_dn` and the like, without a condition. -/
def emitDn (opc : BitVec 4) (rd rn : Reg) (m : Operand) : LoadIns := .word ⟨ccAl, .dp opc false rd rn m⟩

/-! ### The register allocator -/

/-- `REF_NIL`, which stands for the register that holds `L`. -/
def asmrefL : ℕ := 0x7fff

/-- `emit_canremat`. -/
def emitCanremat (ref : ℕ) : Bool := decide (ref < asmrefL)

structure RaState where
  freeset : BitVec 16
  /-- `regcost_ref(as->cost[r])`. -/
  cost : Reg → ℕ
  /-- `ra_iskref(ref) ? ra_krefk(as, ref) : IR(ref)->i`. -/
  krefk : ℕ → BitVec 32
  /-- `as->flags & JIT_F_ARMV6T2`. -/
  armv6t2 : Bool

/-- `RSET_GPR`, from the top. -/
def rsetGpr : List Reg := [12, 11, 10, 9, 8, 7, 6, 5, 4, 3, 2, 1, 0]

/-- `~as->freeset & RSET_GPR`. -/
def RaState.work (as : RaState) : List Reg := rsetGpr.filter fun r => !as.freeset.getLsbD r

/-! ### Loading a constant -/

/-- `lj_ffs(i) & ~1`. -/
def ffsEven (i : BitVec 32) : ℕ := 2 * (i.ctz.toNat / 2)

/-- `255 << sh`. -/
def window (sh : ℕ) : BitVec 32 := 255#32 <<< sh

/-- `emit_isk12(0, n)`, where a failure is the word 0: a plain `r0`. -/
def isk12Word (n : BitVec 32) : Fused := (emitIsk12 0 n).getD ⟨0, .ofReg 0, []⟩

/-- `emit_kdelta1`. -/
def emitKdelta1 (as : RaState) (d : Reg) (i : BitVec 32) (mc : List LoadIns) :
    List Reg → Option (List LoadIns)
  | [] => none
  | r :: work =>
      if emitCanremat (as.cost r) then
        let delta := i - as.krefk (as.cost r)
        match emitIsk12 armiAdd delta with
        | some k =>
            if k.inv = 0 ∧ k.m = .k12 0 0 then some (emitDn armiMov d 0 (.ofReg r) :: mc)
            else some (emitDn (armiAdd ^^^ k.inv) d r k.m :: mc)
        | none => emitKdelta1 as d i mc work
      else emitKdelta1 as d i mc work

/-- `emit_kdelta2`. -/
def emitKdelta2 (as : RaState) (d : Reg) (i : BitVec 32) (mc : List LoadIns) :
    List Reg → Option (List LoadIns)
  | [] => none
  | r :: work =>
      if emitCanremat (as.cost r) then
        let other := as.krefk (as.cost r)
        if other ≠ 0 then
          let delta := i - other
          let inv := if delta.toInt < 0 then armiAdd ^^^ armiSub else 0
          let delta := if delta.toInt < 0 then -delta else delta
          let sh := ffsEven delta
          let k2 := isk12Word (delta &&& window sh)
          match emitIsk12 0 (delta &&& ~~~window sh) with
          | some k =>
              some (emitDn (armiAdd ^^^ k.inv ^^^ inv) d r k.m ::
                emitDn (armiAdd ^^^ k2.inv ^^^ inv) d d k2.m :: mc)
          | none => emitKdelta2 as d i mc work
        else emitKdelta2 as d i mc work
      else emitKdelta2 as d i mc work

theorem getLsbD_window (sh p : ℕ) :
    (window sh).getLsbD p = (decide (p < 32) && decide (sh ≤ p) && decide (p < sh + 8)) := by
  have h255 : ∀ q, (255#32).getLsbD q = decide (q < 8) := fun q => by
    rw [BitVec.getLsbD, show (255#32).toNat = 2 ^ 8 - 1 from rfl, Nat.testBit_two_pow_sub_one]
  rw [window, BitVec.getLsbD_shiftLeft, h255]
  by_cases h : sh ≤ p
  · simp [h, show ¬p < sh by omega, show p - sh < 8 ↔ p < sh + 8 by lia]
  · simp [h, show p < sh by omega]

theorem ffsEven_le (i : BitVec 32) : ffsEven i ≤ i.ctz.toNat ∧ i.ctz.toNat ≤ ffsEven i + 1 := by
  rw [ffsEven]
  lia

/-- The rest has no bit up to the end of the window. -/
theorem rest_low (i : BitVec 32) {p : ℕ} (hp : p < 32) (h : p < ffsEven i + 8) :
    (i &&& ~~~window (ffsEven i)).getLsbD p = false := by
  rw [BitVec.getLsbD_and, BitVec.getLsbD_not, getLsbD_window]
  by_cases hlt : p < ffsEven i
  · rw [BitVec.getLsbD_false_of_lt_ctz (lt_of_lt_of_le hlt (ffsEven_le i).1), Bool.false_and]
  · simp [hp, h, show ffsEven i ≤ p by omega]

/-- The lowest bit is gone. -/
theorem orrChain_lt {i : BitVec 32} (h : i &&& ~~~window (ffsEven i) ≠ 0) :
    (i &&& ~~~window (ffsEven i)).toNat < i.toNat := by
  have hi : i ≠ 0#32 := by
    rintro rfl
    exact h BitVec.zero_and
  have hne : (i &&& ~~~window (ffsEven i)).toNat ≠ i.toNat := by
    intro heq
    have hlt : i.ctz.toNat < 32 := by
      have := BitVec.ctz_lt_iff_ne_zero.2 hi
      exact this
    have hbit := rest_low i hlt (by have := ffsEven_le i; omega)
    rw [BitVec.eq_of_toNat_eq heq, BitVec.getLsbD_true_ctz_of_ne_zero hi] at hbit
    cases hbit
  refine lt_of_le_of_ne ?_ hne
  rw [BitVec.toNat_and]
  exact Nat.and_le_left

/-- The loop at the end of `emit_loadi`. -/
def orrChain (d : Reg) (i : BitVec 32) (mc : List LoadIns) : List LoadIns :=
  let m := isk12Word (i &&& window (ffsEven i))
  if _h : i &&& ~~~window (ffsEven i) = 0 then emitDn (armiMov ^^^ m.inv) d 0 m.m :: mc
  else orrChain d (i &&& ~~~window (ffsEven i)) (emitDn (armiOrr ^^^ m.inv) d d m.m :: mc)
termination_by i.toNat
decreasing_by exact orrChain_lt _h

/-- `ARMI_MOVW|(i & 0x0fff)|((i & 0xf000)<<4)`. -/
def emitMovw (d : Reg) (i : BitVec 32) : LoadIns := .movw d (i.extractLsb' 12 4) (i.extractLsb' 0 12)

/-- `ARMI_MOVT|((i>>16) & 0x0fff)|(((i>>16) & 0xf000)<<4)`. -/
def emitMovt (d : Reg) (i : BitVec 32) : LoadIns := .movt d (i.extractLsb' 28 4) (i.extractLsb' 16 12)

/-- `emit_loadi`. -/
def emitLoadi (as : RaState) (d : Reg) (i : BitVec 32) (mc : List LoadIns) : List LoadIns :=
  match emitIsk12 armiMov i with
  | some k => emitDn (armiMov ^^^ k.inv) d 0 k.m :: mc
  | none =>
      if as.armv6t2 && decide (i.toNat < 0x10000) then emitMovw d i :: mc
      else
        match emitKdelta1 as d i mc as.work with
        | some mc => mc
        | none =>
            if as.armv6t2 then emitMovw d i :: emitMovt d i :: mc
            else
              match emitKdelta2 as d i mc as.work with
              | some mc => mc
              | none => orrChain d i mc

/-- `emit_opk`, where `rk` is the register of `ra_allock`. -/
def emitOpk (opc : BitVec 4) (dest src : Reg) (i : BitVec 32) (rk : Reg) : LoadIns :=
  match emitIsk12 opc i with
  | some k => emitDn (opc ^^^ k.inv) dest src k.m
  | none => emitDn opc dest src (.ofReg rk)

/-! ### What can be encoded -/

/-- The search finds a rotation if there is one. -/
theorem isK12_isSome (x : BitVec 32) {i fuel : ℕ} (hi : i + fuel = 16) :
    (isK12 (x.rotateLeft (2 * i)) i fuel).isSome = true ↔
      ∃ j, i ≤ j ∧ j < 16 ∧ (x.rotateLeft (2 * j)).toNat ≤ 255 := by
  induction fuel generalizing i with
  | zero =>
    rw [isK12]
    constructor
    · intro h
      cases h
    · rintro ⟨j, h₁, h₂, -⟩
      omega
  | succ fuel ih =>
    rw [isK12]
    split
    · rename_i hle
      exact ⟨fun _ => ⟨i, le_rfl, by omega, hle⟩, fun _ => rfl⟩
    · rename_i hgt
      have hnext : (isK12 ((x.rotateLeft (2 * i)).rotateLeft 2) (i + 1) fuel).isSome = true ↔
          ∃ j, i + 1 ≤ j ∧ j < 16 ∧ (x.rotateLeft (2 * j)).toNat ≤ 255 := by
        cases fuel with
        | zero =>
          refine ⟨fun h => (by cases h), ?_⟩
          rintro ⟨j, h₁, h₂, -⟩
          omega
        | succ fuel =>
          rw [rotateLeft_two x (by omega)]
          exact ih (by lia)
      rw [hnext]
      constructor
      · rintro ⟨j, h₁, h⟩
        exact ⟨j, by omega, h⟩
      · rintro ⟨j, h₁, h₂, h₃⟩
        refine ⟨j, ?_, h₂, h₃⟩
        rcases Nat.eq_or_lt_of_le h₁ with rfl | h₁
        · exact absurd h₃ hgt
        · exact h₁

theorem isK12_iff (x : BitVec 32) :
    (isK12 x 0 16).isSome = true ↔ ∃ j < 16, (x.rotateLeft (2 * j)).toNat ≤ 255 := by
  have h := @isK12_isSome x 0 16 rfl
  rw [Nat.mul_zero, rotateLeft_zero] at h
  rw [h]
  simp

theorem toNat_le_255 {x : BitVec 32} (h : ∀ p, 8 ≤ p → p < 32 → x.getLsbD p = false) : x.toNat ≤ 255 := by
  have : x.toNat < 2 ^ 8 := by
    refine Nat.lt_pow_two_of_testBit _ fun p hp => ?_
    by_cases hp' : p < 32
    · exact h p hp hp'
    · exact BitVec.getLsbD_of_ge x p (by omega)
  omega

theorem getLsbD_of_le_255 {x : BitVec 32} (h : x.toNat ≤ 255) {p : ℕ} (hp : 8 ≤ p) :
    x.getLsbD p = false := by
  have hlt : x.toNat < 2 ^ p := by
    have : 2 ^ 8 ≤ 2 ^ p := Nat.pow_le_pow_right (by decide) hp
    omega
  exact Nat.testBit_lt_two_pow hlt

/-- Eight bits at an even position are encoded as they are. -/
theorem isK12_window (x : BitVec 32) {k : ℕ} (hk : k ≤ 16) :
    (isK12 (x &&& window (2 * k)) 0 16).isSome = true := by
  rw [isK12_iff]
  rcases Nat.eq_zero_or_pos k with rfl | hpos
  · refine ⟨0, by decide, toNat_le_255 fun p hp hp' => ?_⟩
    rw [Nat.mul_zero, rotateLeft_zero, BitVec.getLsbD_and, getLsbD_window]
    simp [show ¬p < 8 by omega]
  · refine ⟨16 - k, by omega, toNat_le_255 fun p hp hp' => ?_⟩
    rw [BitVec.getLsbD_rotateLeft, show 2 * (16 - k) % 32 = 32 - 2 * k by lia, Bool.cond_decide]
    split
    · -- the bits below the position come from the window's end
      rw [BitVec.getLsbD_and, getLsbD_window]
      simp
      lia
    · rw [BitVec.getLsbD_and, getLsbD_window]
      simp
      lia

/-- `emit_isk12` on a window. -/
theorem emitIsk12_window (opc : BitVec 4) (x : BitVec 32) {k : ℕ} (hk : k ≤ 16) :
    ∃ m, emitIsk12 opc (x &&& window (2 * k)) = some ⟨0, m, []⟩ ∧
      ∀ regs c, (m.eval regs c).1 = x &&& window (2 * k) := by
  obtain ⟨m, hm⟩ := Option.isSome_iff_exists.1 (isK12_window x hk)
  refine ⟨m, ?_, fun regs c => isK12_spec hm regs c⟩
  rw [emitIsk12, hm]

/-- A clear bit is set in the complement, and rotated into the lowest eight bits. -/
theorem rotated_lt {y : BitVec 32} {j p : ℕ} (hj : j < 16) (hp : p < 32)
    (h : ((~~~y).rotateLeft (2 * j)).toNat ≤ 255) (hy : y.getLsbD p = false) : (p + 2 * j) % 32 < 8 := by
  by_contra hge
  have hbit := getLsbD_of_le_255 h (Nat.le_of_not_lt hge)
  rw [BitVec.getLsbD_rotateLeft, show 2 * j % 32 = 2 * j by lia, Bool.cond_decide] at hbit
  split at hbit
  · rw [show 32 - 2 * j + (p + 2 * j) % 32 = p by lia, BitVec.getLsbD_not, hy] at hbit
    simp [hp] at hbit
  · rw [show (p + 2 * j) % 32 - 2 * j = p by lia, BitVec.getLsbD_not, hy] at hbit
    simp [hp] at hbit
    lia

set_option maxRecDepth 4000 in
/-- The rest of a word without its sign has nine bits in a row that are clear, so it is never encoded
inverted. -/
theorem rest_direct {x : BitVec 32} (hx : x.toInt < 0 → x = BitVec.intMin 32) {f : Fused}
    (h : emitIsk12 0 (x &&& ~~~window (ffsEven x)) = some f) :
    f.inv = 0 ∧ ∀ regs c, (f.m.eval regs c).1 = x &&& ~~~window (ffsEven x) := by
  rw [emitIsk12] at h
  split at h
  · rename_i k hk
    obtain rfl := Option.some.inj h
    exact ⟨rfl, fun regs c => isK12_spec hk regs c⟩
  · rename_i hnone
    exfalso
    rw [if_neg (by decide)] at h
    obtain ⟨k, hk, -⟩ := Option.map_eq_some_iff.1 h
    rw [if_neg (by decide)] at hk
    obtain ⟨j, hj, hle⟩ := (isK12_iff _).1 (Option.isSome_iff_exists.2 ⟨k, hk⟩)
    have h31 : (x &&& ~~~window (ffsEven x)).getLsbD 31 = false := by
      by_cases hneg : x.toInt < 0
      · rw [hx hneg] at hnone
        exact absurd hnone (by decide)
      · have hmsb : x.msb = false := by
          rw [BitVec.msb_eq_toInt]
          simpa using hneg
        rw [BitVec.getLsbD_and, ← BitVec.msb_eq_getLsbD_last, hmsb, Bool.false_and]
    have h₁ := rotated_lt hj (by decide) hle h31
    have h₂ := rotated_lt hj (by decide) hle (rest_low x (p := 7) (by decide) (by omega))
    lia

/-- A word is made of a window and the rest. -/
theorem window_or_rest (x w : BitVec 32) : x &&& ~~~w ||| x &&& w = x := by
  refine BitVec.eq_of_getLsbD_eq fun p hp => ?_
  simp only [BitVec.getLsbD_or, BitVec.getLsbD_and, BitVec.getLsbD_not, hp, decide_true, Bool.true_and]
  cases x.getLsbD p <;> cases w.getLsbD p <;> rfl

theorem window_add_rest (x w : BitVec 32) : (x &&& ~~~w) + (x &&& w) = x := by
  rw [BitVec.add_eq_or_of_and_eq_zero, window_or_rest]
  refine BitVec.eq_of_getLsbD_eq fun p hp => ?_
  simp only [BitVec.getLsbD_and, BitVec.getLsbD_not, hp, decide_true, Bool.true_and]
  cases x.getLsbD p <;> cases w.getLsbD p <;> simp

/-! ### Operations with a constant -/

/-- Adding the negation is subtracting, for the words that are encoded negated. -/
theorem addWithCarry_not_neg (x : BitVec 32) {n : BitVec 32} (h₀ : n ≠ 0) (hm : n ≠ BitVec.intMin 32) :
    addWithCarry x (~~~(-n)) true = addWithCarry x n false := by
  have h₀' : -n ≠ 0 := fun h => h₀ (by simpa using h)
  have hm' : -n ≠ BitVec.intMin 32 := fun h => hm (by
    rw [← BitVec.neg_neg (x := n), h]
    decide)
  rw [← addWithCarry_neg x h₀' hm', BitVec.neg_neg]

/-- **Every opcode computes the same**, and sets the same flags, with an operand of `emit_isk12`. -/
theorem dataProc_emitIsk12 {opc : BitVec 4} {n : BitVec 32} {f : Fused} (h : emitIsk12 opc n = some f)
    (regs : Reg → BitVec 32) (c : Bool) (x : BitVec 32) (sc : Bool) (fl : Flags) :
    dataProc (opc ^^^ f.inv) x (f.m.eval regs c).1 sc fl = dataProc opc x n sc fl := by
  rcases emitIsk12_spec h regs c with ⟨hi, hv⟩ | ⟨hi, hne, h₀, hm, hv⟩
  · have hx : opc ^^^ 0 = opc := BitVec.xor_zero
    rw [hi, hv, hx]
  · rw [hi, hv]
    have hopc : opc ∈ [armiAnd, armiSub, armiAdd, armiAdc, armiSbc, armiCmp, armiCmn, armiMov, armiBic,
        armiMvn] := by
      revert hne
      clear * -
      revert opc
      decide
    simp only [List.mem_cons, List.not_mem_nil, or_false] at hopc
    rcases hopc with rfl | rfl | rfl | rfl | rfl | rfl | rfl | rfl | rfl | rfl
    · rw [if_neg (by decide)]
      exact congrArg (logic · sc fl) (by rw [BitVec.not_not])
    · rw [if_pos (by decide)]
      exact addWithCarry_neg x h₀ hm
    · rw [if_pos (by decide)]
      exact addWithCarry_not_neg x h₀ hm
    · rw [if_neg (by decide)]
      exact congrArg (addWithCarry x · fl.c) (BitVec.not_not)
    · rw [if_neg (by decide)]
      rfl
    · rw [if_pos (by decide)]
      exact addWithCarry_neg x h₀ hm
    · rw [if_pos (by decide)]
      exact addWithCarry_not_neg x h₀ hm
    · rw [if_neg (by decide)]
      exact congrArg (logic · sc fl) (BitVec.not_not)
    · rw [if_neg (by decide)]
      rfl
    · rw [if_neg (by decide)]
      rfl

/-- What an opcode does with the value of its second operand. -/
def dpStep (opc : BitVec 4) (s : Cpu) (d rn : Reg) (y : BitVec 32) (sc : Bool) : Cpu where
  regs :=
    if isTest opc then s.regs
    else Function.update s.regs d (dataProc opc (s.regs rn) y sc s.flags).1
  flags := if isTest opc then (dataProc opc (s.regs rn) y sc s.flags).2 else s.flags

theorem step_emitDn (opc : BitVec 4) (d rn : Reg) (m : Operand) (s : Cpu) :
    (emitDn opc d rn m).step s =
      dpStep opc s d rn (m.eval s.regs s.flags.c).1 (m.eval s.regs s.flags.c).2 := by
  have hal : condHolds ccAl s.flags = true := by
    obtain ⟨n, z, c, v⟩ := s.flags
    revert n z c v
    decide
  simp only [emitDn, LoadIns.step, MCode.step, hal, if_true, Bool.false_or, dpStep]

/-- The inverse of a test is a test. -/
theorem isTest_emitIsk12 {opc : BitVec 4} {n : BitVec 32} {f : Fused} (h : emitIsk12 opc n = some f) :
    isTest (opc ^^^ f.inv) = isTest opc := by
  have hall : ∀ opc : BitVec 4, isTest (opc ^^^ 0) = isTest opc ∧
      isTest (opc ^^^ emitInvai opc) = isTest opc := by decide
  rcases emitIsk12_spec h (fun _ => 0) false with ⟨hi, -⟩ | ⟨hi, -⟩
  · rw [hi]
    exact (hall opc).1
  · rw [hi]
    exact (hall opc).2

/-- An operation with the operand that `emit_isk12` gives. -/
theorem step_isk12 {opc : BitVec 4} {n : BitVec 32} {f : Fused} (h : emitIsk12 opc n = some f)
    (d rn : Reg) (s : Cpu) :
    ∃ sc, (emitDn (opc ^^^ f.inv) d rn f.m).step s = dpStep opc s d rn n sc := by
  refine ⟨(f.m.eval s.regs s.flags.c).2, ?_⟩
  rw [step_emitDn, dpStep, dpStep, isTest_emitIsk12 h, dataProc_emitIsk12 h]

/-! ### Sequences -/

theorem dpStep_add (s : Cpu) (d rn : Reg) (y : BitVec 32) (sc : Bool) :
    dpStep armiAdd s d rn y sc = setReg s d (s.regs rn + y) := by
  change setReg s d (s.regs rn + y + 0#32) = _
  rw [BitVec.add_zero]

theorem dpStep_sub (s : Cpu) (d rn : Reg) (y : BitVec 32) (sc : Bool) :
    dpStep armiSub s d rn y sc = setReg s d (s.regs rn - y) := by
  change setReg s d (addWithCarry (s.regs rn) (~~~y) true).1 = _
  rw [addWithCarry_not]

theorem dpStep_orr (s : Cpu) (d rn : Reg) (y : BitVec 32) (sc : Bool) :
    dpStep armiOrr s d rn y sc = setReg s d (s.regs rn ||| y) := rfl

/-- An operand that is encoded as it is. -/
theorem step_direct {f : Fused} {n : BitVec 32}
    (h : f.inv = 0 ∧ ∀ regs c, (f.m.eval regs c).1 = n) (opc : BitVec 4) (d rn : Reg) (s : Cpu) :
    ∃ sc, (emitDn (opc ^^^ f.inv) d rn f.m).step s = dpStep opc s d rn n sc := by
  have hx : opc ^^^ 0 = opc := BitVec.xor_zero
  refine ⟨(f.m.eval s.regs s.flags.c).2, ?_⟩
  rw [step_emitDn, h.1, h.2, hx]

theorem isk12Word_window (x : BitVec 32) :
    (isk12Word (x &&& window (ffsEven x))).inv = 0 ∧
      ∀ regs c, ((isk12Word (x &&& window (ffsEven x))).m.eval regs c).1 = x &&& window (ffsEven x) := by
  have hk : x.ctz.toNat / 2 ≤ 16 := by
    have hle : x.ctz ≤ 32 := by
      rw [BitVec.ctz_eq_reverse_clz]
      exact BitVec.clz_le
    have : x.ctz.toNat ≤ 32 := hle
    omega
  obtain ⟨m, hm, hv⟩ := emitIsk12_window 0 x hk
  have hword : isk12Word (x &&& window (ffsEven x)) = ⟨0, m, []⟩ := by
    rw [isk12Word, ffsEven, hm]
    rfl
  rw [hword]
  exact ⟨rfl, hv⟩

/-- A move of the constant. -/
theorem step_mov {n : BitVec 32} {f : Fused} (h : emitIsk12 armiMov n = some f) (d rn : Reg) (s : Cpu) :
    (emitDn (armiMov ^^^ f.inv) d rn f.m).step s = setReg s d n := by
  obtain ⟨sc, hs⟩ := step_isk12 h d rn s
  exact hs

/-- The registers that are known to hold constants. -/
def Holds (as : RaState) (s : Cpu) : Prop :=
  ∀ r ∈ as.work, emitCanremat (as.cost r) = true → s.regs r = as.krefk (as.cost r)

/-- Code that loads a constant, and does nothing else, on every machine that a condition holds of. -/
def Loads (P : Cpu → Prop) (d : Reg) (i : BitVec 32) (mc mc' : List LoadIns) : Prop :=
  ∃ code, mc' = code ++ mc ∧ ∀ s, P s → runLoad code s = setReg s d i

theorem Loads.one {P : Cpu → Prop} {d : Reg} {i : BitVec 32} {w : LoadIns} (mc : List LoadIns)
    (h : ∀ s, P s → w.step s = setReg s d i) : Loads P d i mc (w :: mc) :=
  ⟨[w], rfl, h⟩

theorem Loads.two {P : Cpu → Prop} {d : Reg} {i : BitVec 32} {w w' : LoadIns} (mc : List LoadIns)
    (h : ∀ s, P s → w'.step (w.step s) = setReg s d i) : Loads P d i mc (w :: w' :: mc) :=
  ⟨[w, w'], rfl, h⟩

@[simp] theorem setReg_setReg (s : Cpu) (d : Reg) (v v' : BitVec 32) :
    setReg (setReg s d v) d v' = setReg s d v' := by
  rw [setReg, setReg, setReg, Function.update_idem]

@[simp] theorem setReg_regs (s : Cpu) (d : Reg) (v : BitVec 32) : (setReg s d v).regs d = v := by
  simp [setReg]

/-- One step from another constant. -/
theorem emitKdelta1_loads {as : RaState} {P : Cpu → Prop} {work : List Reg} {d : Reg} {i : BitVec 32}
    {mc mc' : List LoadIns}
    (hP : ∀ s, P s → ∀ r ∈ work, emitCanremat (as.cost r) = true → s.regs r = as.krefk (as.cost r))
    (h : emitKdelta1 as d i mc work = some mc') : Loads P d i mc mc' := by
  induction work with
  | nil => cases h
  | cons r work ih =>
    have ih := ih fun s hs r' hr' => hP s hs r' (.tail _ hr')
    rw [emitKdelta1] at h
    split at h
    · rename_i hc
      have hr := fun s hs => hP s hs r (.head _) hc
      dsimp only at h
      split at h
      · rename_i k hk
        split at h
        · rename_i hzero
          obtain rfl := Option.some.inj h
          refine Loads.one _ fun s hs => ?_
          have hdelta : i - as.krefk (as.cost r) = 0 := by
            rcases emitIsk12_spec hk (fun _ => 0) false with ⟨-, hv⟩ | ⟨hi, hne, -⟩
            · rw [← hv, hzero.2]
              rfl
            · exact absurd (hi.symm.trans hzero.1) hne
          have hi : s.regs r = i := by
            rw [hr s hs]
            exact (sub_eq_zero.1 hdelta).symm
          rw [step_emitDn, Operand.eval_ofReg, hi]
          rfl
        · obtain rfl := Option.some.inj h
          refine Loads.one _ fun s hs => ?_
          obtain ⟨sc, hstep⟩ := step_isk12 hk d r s
          rw [hstep, dpStep_add, hr s hs, add_sub_cancel]
      · exact ih h
    · exact ih h

/-- `ARMI_ADD^k^(ARMI_ADD^ARMI_SUB)`. -/
theorem xor_sub (k : BitVec 4) : armiAdd ^^^ k ^^^ (armiAdd ^^^ armiSub) = armiSub ^^^ k := by
  revert k
  decide

theorem xor_zero (k : BitVec 4) : k ^^^ 0 = k := BitVec.xor_zero

/-- The negation of a negative word is negative for one word only. -/
theorem neg_intMin {x : BitVec 32} (h : x.toInt < 0) : (-x).toInt < 0 → -x = BitVec.intMin 32 := by
  intro h'
  by_cases hx : x = BitVec.intMin 32
  · rw [hx]
    decide
  · rw [BitVec.toInt_neg_of_ne_intMin hx] at h'
    omega

/-- Two steps by the rest and by the window of a difference. -/
theorem step_pieces {δ : BitVec 32} {k : Fused} (hmin : δ.toInt < 0 → δ = BitVec.intMin 32)
    (hk : emitIsk12 0 (δ &&& ~~~window (ffsEven δ)) = some k) {opc : BitVec 4}
    {op : BitVec 32 → BitVec 32 → BitVec 32}
    (hop : ∀ s d rn y sc, dpStep opc s d rn y sc = setReg s d (op (s.regs rn) y)) (d r : Reg) (s : Cpu) :
    (emitDn (opc ^^^ (isk12Word (δ &&& window (ffsEven δ))).inv) d d
        (isk12Word (δ &&& window (ffsEven δ))).m).step ((emitDn (opc ^^^ k.inv) d r k.m).step s) =
      setReg s d (op (op (s.regs r) (δ &&& ~~~window (ffsEven δ))) (δ &&& window (ffsEven δ))) := by
  obtain ⟨sc, hs₁⟩ := step_direct (rest_direct hmin hk) opc d r s
  rw [hs₁, hop]
  obtain ⟨sc', hs₂⟩ := step_direct (isk12Word_window δ) opc d d
    (setReg s d (op (s.regs r) (δ &&& ~~~window (ffsEven δ))))
  rw [hs₂, hop, setReg_regs, setReg_setReg]

/-- Two steps from another constant, up or down. -/
theorem emitKdelta2_loads {as : RaState} {P : Cpu → Prop} {work : List Reg} {d : Reg} {i : BitVec 32}
    {mc mc' : List LoadIns}
    (hP : ∀ s, P s → ∀ r ∈ work, emitCanremat (as.cost r) = true → s.regs r = as.krefk (as.cost r))
    (h : emitKdelta2 as d i mc work = some mc') : Loads P d i mc mc' := by
  induction work with
  | nil => cases h
  | cons r work ih =>
    have ih := ih fun s hs r' hr' => hP s hs r' (.tail _ hr')
    rw [emitKdelta2] at h
    split at h
    · rename_i hc
      have hr := fun s hs => hP s hs r (.head _) hc
      dsimp only at h
      split at h
      · split at h
        · rename_i k hk
          obtain rfl := Option.some.inj h
          refine Loads.two _ fun s hs => ?_
          by_cases hneg : (i - as.krefk (as.cost r)).toInt < 0
          · simp only [if_pos hneg] at hk ⊢
            rw [xor_sub k.inv, xor_sub (isk12Word _).inv,
              step_pieces (neg_intMin hneg) hk dpStep_sub d r s, hr s hs, sub_sub, window_add_rest,
              sub_neg_eq_add, add_sub_cancel]
          · simp only [if_neg hneg] at hk ⊢
            rw [xor_zero (armiAdd ^^^ k.inv), xor_zero (armiAdd ^^^ (isk12Word _).inv),
              step_pieces (fun h => absurd h hneg) hk dpStep_add d r s, hr s hs, add_assoc,
              window_add_rest, add_sub_cancel]
        · exact ih h
      · exact ih h
    · exact ih h

/-- The pieces of a constant. -/
theorem orrChain_loads (P : Cpu → Prop) (d : Reg) (i : BitVec 32) (mc : List LoadIns) :
    Loads P d i mc (orrChain d i mc) := by
  induction i, mc using orrChain.induct d with
  | case1 i mc h =>
    rw [orrChain, dif_pos h]
    refine Loads.one _ fun s _ => ?_
    obtain ⟨sc, hs⟩ := step_direct (isk12Word_window i) armiMov d 0 s
    have hi := window_or_rest i (window (ffsEven i))
    rw [h] at hi
    have hi : i &&& window (ffsEven i) = i := BitVec.zero_or.symm.trans hi
    rw [hs, hi]
    rfl
  | case2 i mc m h ih =>
    rw [orrChain, dif_neg h]
    obtain ⟨code, hcode, hrun⟩ := ih
    refine ⟨code ++ [emitDn (armiOrr ^^^ m.inv) d d m.m], ?_, fun s hs => ?_⟩
    · rw [hcode, List.append_assoc]
      rfl
    · obtain ⟨sc, hs⟩ := step_direct (isk12Word_window i) armiOrr d d
        (setReg s d (i &&& ~~~window (ffsEven i)))
      rw [runLoad_append, hrun s ‹_›, runLoad, runLoad, hs, dpStep_orr, setReg_regs, setReg_setReg, window_or_rest]

/-! ### The halves of a register -/

theorem low_half (i : BitVec 32) : i.extractLsb' 12 4 ++ i.extractLsb' 0 12 = i.extractLsb' 0 16 := by
  rw [BitVec.extractLsb'_append_extractLsb'_eq_extractLsb' (by decide)]

theorem step_movw (d : Reg) (i : BitVec 32) (s : Cpu) :
    (emitMovw d i).step s = setReg s d ((i.extractLsb' 0 16).setWidth 32) := by
  rw [emitMovw, LoadIns.step, low_half]

/-- A constant of 16 bits. -/
theorem movw_value {i : BitVec 32} (h : i.toNat < 0x10000) : (i.extractLsb' 0 16).setWidth 32 = i := by
  refine BitVec.eq_of_toNat_eq ?_
  rw [BitVec.toNat_setWidth, BitVec.extractLsb'_toNat, Nat.shiftRight_zero]
  lia

/-- Both halves. -/
theorem step_movt (d : Reg) (i : BitVec 32) (s : Cpu) :
    (emitMovt d i).step ((emitMovw d i).step s) = setReg s d i := by
  have hlow : ((i.extractLsb' 0 16).setWidth 32).extractLsb' 0 16 = i.extractLsb' 0 16 := by
    refine BitVec.eq_of_toNat_eq ?_
    rw [BitVec.extractLsb'_toNat, BitVec.toNat_setWidth, BitVec.extractLsb'_toNat, Nat.shiftRight_zero,
      Nat.shiftRight_zero]
    lia
  have hhigh : i.extractLsb' 28 4 ++ i.extractLsb' 16 12 = i.extractLsb' 16 16 := by
    rw [BitVec.extractLsb'_append_extractLsb'_eq_extractLsb' (by decide)]
  have hall : i.extractLsb' 16 16 ++ i.extractLsb' 0 16 = i := by
    rw [BitVec.extractLsb'_append_extractLsb'_eq_extractLsb' (by decide)]
    exact BitVec.extractLsb'_eq_self
  rw [step_movw, emitMovt, LoadIns.step, hhigh, setReg_regs, hlow, hall, setReg_setReg]

/-! ### All ways to load a constant -/

theorem emitLoadi_loads (as : RaState) (d : Reg) (i : BitVec 32) (mc : List LoadIns) :
    Loads (Holds as) d i mc (emitLoadi as d i mc) := by
  rw [emitLoadi]
  split
  · rename_i k hk
    exact Loads.one mc fun s _ => step_mov hk d 0 s
  · split
    · rename_i hv
      simp only [Bool.and_eq_true, decide_eq_true_eq] at hv
      exact Loads.one mc fun s _ => by rw [step_movw, movw_value hv.2]
    · split
      · rename_i hk
        exact emitKdelta1_loads (fun s hs => hs) hk
      · split
        · exact Loads.two mc fun s _ => step_movt d i s
        · split
          · rename_i hk
            exact emitKdelta2_loads (fun s hs => hs) hk
          · exact orrChain_loads _ d i mc

/-- **A constant is loaded exactly, and nothing else changes; an operand of `emit_isk12` computes the
same.** -/
theorem constants_exact :
    (∀ (as : RaState) (d : Reg) (i : BitVec 32) (mc : List LoadIns),
        ∃ code, emitLoadi as d i mc = code ++ mc ∧
          ∀ s, Holds as s → runLoad code s = { s with regs := Function.update s.regs d i }) ∧
      ∀ (opc : BitVec 4) (n : BitVec 32) (f : Fused), emitIsk12 opc n = some f →
        ∀ (regs : Reg → BitVec 32) (c : Bool) (x : BitVec 32) (sc : Bool) (fl : Flags),
          dataProc (opc ^^^ f.inv) x (f.m.eval regs c).1 sc fl = dataProc opc x n sc fl :=
  ⟨emitLoadi_loads, fun _ _ _ h => dataProc_emitIsk12 h⟩

/-- `r4` holds 0x12345678, and `r0` is loaded with a constant that is 0x00010200 less. -/
theorem constants_exact_delta :
    ∃ code, emitLoadi ⟨0xffef#16, fun _ => 0, fun _ => 0x12345678#32, false⟩ 0 0x12335478#32 [] =
        code ++ [] ∧
      (runLoad code ⟨fun _ => 0x12345678#32, ⟨false, false, false, false⟩⟩).regs 0 = 0x12335478#32 := by
  obtain ⟨code, hcode, hrun⟩ := constants_exact.1 ⟨0xffef#16, fun _ => 0, fun _ => 0x12345678#32, false⟩ 0
    0x12335478#32 []
  refine ⟨code, hcode, ?_⟩
  rw [hrun _ fun r _ _ => rfl]
  rfl

end ArmAsm
