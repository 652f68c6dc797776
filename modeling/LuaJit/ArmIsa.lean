/-
**The ARM data processing instructions: operands, flags and conditions.**

The part of the ARM instruction set that integer comparisons are made of, with the flags exactly as
the architecture defines them.  An instruction word is kept as its fields, addresses count words, and
the program counter is not among the registers.  Nothing here mentions a particular program.

Main definitions:

* `Arm.Flags`, `Arm.condHolds` — the flags, and the sixteen conditions on them;
* `Arm.addWithCarry` — the adder that all arithmetic instructions share;
* `Arm.Operand`, `Arm.Operand.eval` — the flexible second operand with its carry;
* `Arm.MCode`, `Arm.MCode.step` — instruction words and what one of them does;
* `Arm.exec` — running a piece of code until control leaves it.

Main results:

* `Arm.condHolds_xor_one` — the lowest bit of a condition inverts it;
* `Arm.addWithCarry_sign` — **`N ≠ V` says that the exact result is negative, whatever the word is**;
* `Arm.cmp_z`, `Arm.cmp_c`, `Arm.cmp_nv` — what the flags of a comparison say;
* `Arm.addWithCarry_neg` — adding the negated constant sets the same flags;
* `Arm.ult_append`, `Arm.slt_append` — the order of words in two halves;
* `Arm.exec_cons`, `Arm.exec_skip`, `Arm.exec_leave` — running a word, and what a branch jumps over.
-/

import LuaJit.Word

set_option relaxedAutoImplicit false
set_option autoImplicit false

namespace Arm

/-! ### Flags and conditions -/

/-- The condition flags. -/
@[ext]
structure Flags where
  n : Bool
  z : Bool
  c : Bool
  v : Bool
  deriving DecidableEq

/-- The condition that the upper three bits of a condition code name. -/
def condBase (f : Flags) : ℕ → Bool
  | 0 => f.z
  | 1 => f.c
  | 2 => f.n
  | 3 => f.v
  | 4 => f.c && !f.z
  | 5 => f.n == f.v
  | 6 => f.n == f.v && !f.z
  | _ => true

/-- Whether a condition holds.  The lowest bit inverts it, except for the last code. -/
def condHolds (cc : BitVec 4) (f : Flags) : Bool :=
  if cc.getLsbD 0 && cc != 15 then !condBase f (cc.toNat / 2) else condBase f (cc.toNat / 2)

/-- The lowest bit of a condition inverts it. -/
theorem condHolds_xor_one {cc : BitVec 4} (h : cc.toNat < 14) (f : Flags) :
    condHolds (cc ^^^ 1) f = !condHolds cc f := by
  obtain ⟨n, z, c, v⟩ := f
  revert cc n z c v
  decide

/-! ### The adder -/

/-- The sum of two words and a carry, with its flags. -/
def addWithCarry (x y : BitVec 32) (c : Bool) : BitVec 32 × Flags :=
  let r := x + y + (BitVec.ofBool c).setWidth 32
  (r, { n := r.msb
        z := r == 0
        c := decide (2 ^ 32 ≤ x.toNat + y.toNat + c.toNat)
        v := decide (r.toInt ≠ x.toInt + y.toInt + c.toNat) })

theorem addWithCarry_toInt (x y : BitVec 32) (c : Bool) :
    (addWithCarry x y c).1.toInt = (x.toInt + y.toInt + c.toNat).bmod (2 ^ 32) := by
  cases c <;> simp [addWithCarry, BitVec.toInt_add]

@[simp] theorem addWithCarry_n (x y : BitVec 32) (c : Bool) :
    (addWithCarry x y c).2.n = decide ((addWithCarry x y c).1.toInt < 0) := by
  rw [← BitVec.msb_eq_toInt]
  rfl

@[simp] theorem addWithCarry_z (x y : BitVec 32) (c : Bool) :
    (addWithCarry x y c).2.z = ((addWithCarry x y c).1 == 0) := rfl

@[simp] theorem addWithCarry_c (x y : BitVec 32) (c : Bool) :
    (addWithCarry x y c).2.c = decide (2 ^ 32 ≤ x.toNat + y.toNat + c.toNat) := rfl

@[simp] theorem addWithCarry_v (x y : BitVec 32) (c : Bool) :
    (addWithCarry x y c).2.v =
      decide ((addWithCarry x y c).1.toInt ≠ x.toInt + y.toInt + c.toNat) := rfl

/-- `N ≠ V` says that the exact result is negative. -/
theorem addWithCarry_sign (x y : BitVec 32) (c : Bool) :
    ((addWithCarry x y c).2.n == (addWithCarry x y c).2.v) =
      decide (0 ≤ x.toInt + y.toInt + c.toNat) := by
  have hr := addWithCarry_toInt x y c
  have he : -2 ^ 32 ≤ x.toInt + y.toInt + (c.toNat : ℤ) ∧
      x.toInt + y.toInt + (c.toNat : ℤ) < 2 ^ 32 := by
    have hx := BitVec.le_toInt x
    have hx' := @BitVec.toInt_lt 32 x
    have hy := BitVec.le_toInt y
    have hy' := @BitVec.toInt_lt 32 y
    have hc : (c.toNat : ℤ) ≤ 1 := by cases c <;> simp
    lia
  rw [addWithCarry_n, addWithCarry_v, hr, Bool.eq_iff_iff]
  generalize x.toInt + y.toInt + (c.toNat : ℤ) = e at *
  obtain ⟨he, he'⟩ := he
  -- the result is `e`, or off by `2 ^ 32` towards the other sign
  rw [Int.bmod_def]
  simp only [beq_iff_eq, decide_eq_decide, decide_eq_true_eq]
  split <;> lia

theorem addWithCarry_comm (x y : BitVec 32) (c : Bool) : addWithCarry x y c = addWithCarry y x c := by
  simp only [addWithCarry, BitVec.add_comm x y, Nat.add_comm x.toNat y.toNat,
    Int.add_comm x.toInt y.toInt]

/-! ### Comparisons -/

theorem toInt_not (y : BitVec 32) : (~~~y).toInt = -y.toInt - 1 := by
  have hy := y.isLt
  rw [BitVec.toInt_not, BitVec.toInt_eq_toNat_bmod y, Int.bmod_def, Int.bmod_def]
  split <;> split <;> lia

/-- Comparing two words: the flags of their difference. -/
def cmp (x y : BitVec 32) : Flags := (addWithCarry x (~~~y) true).2

theorem addWithCarry_not (x y : BitVec 32) : (addWithCarry x (~~~y) true).1 = x - y := by
  have h : (addWithCarry x (~~~y) true).1 = x + ~~~y + 1#32 := rfl
  rw [h, BitVec.add_assoc, ← BitVec.neg_eq_not_add, BitVec.sub_eq_add_neg]

theorem cmp_z (x y : BitVec 32) : (cmp x y).z = (x == y) := by
  rw [cmp, addWithCarry_z, addWithCarry_not, Bool.eq_iff_iff, beq_iff_eq, beq_iff_eq]
  constructor
  · intro h
    simpa using congrArg (· + y) h
  · rintro rfl
    exact BitVec.sub_self x

theorem cmp_c (x y : BitVec 32) : (cmp x y).c = y.ule x := by
  rw [cmp, addWithCarry_c, BitVec.toNat_not, BitVec.ule]
  have hy := y.isLt
  simp only [Bool.toNat_true, decide_eq_decide]
  lia

theorem cmp_nv (x y : BitVec 32) : ((cmp x y).n == (cmp x y).v) = y.sle x := by
  rw [cmp, addWithCarry_sign, toInt_not, BitVec.sle]
  simp only [Bool.toNat_true, decide_eq_decide]
  omega

/-- Adding the negated word sets the flags of the difference, but for the two words whose negation
is off. -/
theorem addWithCarry_neg (x : BitVec 32) {y : BitVec 32} (h₀ : y ≠ 0)
    (hm : y ≠ BitVec.intMin 32) : addWithCarry x (-y) false = addWithCarry x (~~~y) true := by
  have hval : (addWithCarry x (-y) false).1 = (addWithCarry x (~~~y) true).1 := by
    rw [addWithCarry_not]
    simp [addWithCarry, BitVec.sub_eq_add_neg]
  have hc : (addWithCarry x (-y) false).2.c = (addWithCarry x (~~~y) true).2.c := by
    have hy : 0 < y.toNat := by
      rcases Nat.eq_zero_or_pos y.toNat with h | h
      · exact absurd (BitVec.eq_of_toNat_eq h) h₀
      · exact h
    have hlt := y.isLt
    rw [addWithCarry_c, addWithCarry_c, BitVec.toNat_neg, BitVec.toNat_not,
      Nat.mod_eq_of_lt (by lia), decide_eq_decide]
    simp only [Bool.toNat_false, Bool.toNat_true]
    lia
  have hv : (addWithCarry x (-y) false).2.v = (addWithCarry x (~~~y) true).2.v := by
    rw [addWithCarry_v, addWithCarry_v, hval, BitVec.toInt_neg_of_ne_intMin hm, toInt_not,
      decide_eq_decide]
    simp only [Bool.toNat_false, Bool.toNat_true]
    lia
  refine Prod.ext hval (Flags.ext ?_ ?_ hc hv)
  · rw [addWithCarry_n, addWithCarry_n, hval]
  · rw [addWithCarry_z, addWithCarry_z, hval]

/-! ### Words in two halves -/

section Halves

variable {v w : ℕ} (ah bh : BitVec v) (al bl : BitVec w)

theorem toNat_append : (ah ++ al).toNat = ah.toNat * 2 ^ w + al.toNat := by
  rw [BitVec.toNat_append, ← Nat.shiftLeft_add_eq_or_of_lt al.isLt, Nat.shiftLeft_eq]

/-- The high halves decide, and the low halves if they are equal. -/
theorem ult_append : (ah ++ al).ult (bh ++ bl) = if ah = bh then al.ult bl else ah.ult bh := by
  have ha := al.isLt
  have hb := bl.isLt
  rw [BitVec.ult, toNat_append, toNat_append]
  split
  · next h =>
    subst h
    simp only [BitVec.ult, decide_eq_decide]
    lia
  · next h =>
    have hne : ah.toNat ≠ bh.toNat := fun h' => h (BitVec.eq_of_toNat_eq h')
    simp only [BitVec.ult, decide_eq_decide]
    rcases Nat.lt_or_gt_of_ne hne with hlt | hlt
    · have := Nat.mul_le_mul_right (2 ^ w) hlt
      rw [Nat.succ_mul] at this
      lia
    · have := Nat.mul_le_mul_right (2 ^ w) hlt
      rw [Nat.succ_mul] at this
      lia

theorem append_inj : ah ++ al = bh ++ bl ↔ ah = bh ∧ al = bl := by
  constructor
  · intro h
    have hn := congrArg BitVec.toNat h
    rw [toNat_append, toNat_append] at hn
    have ha := al.isLt
    have hb := bl.isLt
    have hhi : ah.toNat = bh.toNat := by
      have h₁ := congrArg (· / 2 ^ w) hn
      simpa only [Nat.mul_comm _ (2 ^ w), Nat.mul_add_div (Nat.two_pow_pos w),
        Nat.div_eq_of_lt ha, Nat.div_eq_of_lt hb, Nat.add_zero] using h₁
    rw [hhi] at hn
    exact ⟨BitVec.eq_of_toNat_eq hhi, BitVec.eq_of_toNat_eq (Nat.add_left_cancel hn)⟩
  · rintro ⟨rfl, rfl⟩
    rfl

/-- The same for the signed order. -/
theorem slt_append (hv : 0 < v) :
    (ah ++ al).slt (bh ++ bl) = if ah = bh then al.ult bl else ah.slt bh := by
  have hv' : v ≠ 0 := by omega
  rw [BitVec.slt_eq_ult, BitVec.msb_append, BitVec.msb_append, if_neg (by simpa using hv'),
    if_neg (by simpa using hv'), ult_append, BitVec.slt_eq_ult]
  split
  · next h => simp [h]
  · rfl

end Halves

/-! ### The flexible second operand -/

/-- `r0` to `r14`. -/
abbrev Reg := Fin 15

instance neZeroReg : NeZero 15 := ⟨by decide⟩

/-- The link register. -/
def lr : Reg := 14

/-- The shifts. -/
inductive Shift
  | lsl
  | lsr
  | asr
  | ror
  deriving DecidableEq

/-- The value of a shift by `n`, and the carry that comes out of it. -/
def Shift.eval (v : BitVec 32) (n : ℕ) (c : Bool) : Shift → BitVec 32 × Bool
  | .lsl => (v <<< n, if n = 0 then c else decide (n ≤ 32) && v.getLsbD (32 - n))
  | .lsr => (v >>> n, if n = 0 then c else v.getLsbD (n - 1))
  | .asr => (v.sshiftRight n, if n = 0 then c else v.getLsbD (min (n - 1) 31))
  | .ror => (v.rotateRight n, if n = 0 then c else (v.rotateRight n).msb)

/-- The second operand: a rotated eight bit constant, a register shifted by a constant, or a register
shifted by a register. -/
inductive Operand
  | k12 (rot : BitVec 4) (imm : BitVec 8)
  | shImm (m : Reg) (sh : Shift) (n : BitVec 5)
  | shReg (m : Reg) (sh : Shift) (s : Reg)
  deriving DecidableEq

/-- The value of an operand and the carry out of the shifter.  A right shift by the constant zero
stands for a shift by 32, a rotation by it for a rotation through the carry. -/
@[grind =]
def Operand.eval (regs : Reg → BitVec 32) (c : Bool) : Operand → BitVec 32 × Bool
  | .k12 rot imm => Shift.eval (imm.setWidth 32) (2 * rot.toNat) c .ror
  | .shImm m .ror 0 =>
    (regs m >>> 1 ||| (BitVec.ofBool c).setWidth 32 <<< 31, (regs m).getLsbD 0)
  | .shImm m .lsr 0 => Shift.eval (regs m) 32 c .lsr
  | .shImm m .asr 0 => Shift.eval (regs m) 32 c .asr
  | .shImm m sh n => Shift.eval (regs m) n.toNat c sh
  | .shReg m sh s => Shift.eval (regs m) ((regs s).toNat % 256) c sh

/-- The operand that is a plain register. -/
def Operand.ofReg (m : Reg) : Operand := .shImm m .lsl 0

@[simp] theorem Operand.eval_ofReg (regs : Reg → BitVec 32) (c : Bool) (m : Reg) :
    (Operand.ofReg m).eval regs c = (regs m, c) := by
  simp [Operand.ofReg, Operand.eval, Shift.eval]

theorem Operand.eval_shImm (regs : Reg → BitVec 32) (c : Bool) (m : Reg) {sh : Shift} {n : BitVec 5}
    (h : sh = .lsl ∨ n ≠ 0) :
    (Operand.shImm m sh n).eval regs c = Shift.eval (regs m) n.toNat c sh := by
  cases sh with
  | lsl => rfl
  | lsr | asr | ror =>
    have hn : n ≠ 0 := h.resolve_left (by simp)
    unfold Operand.eval
    split <;> simp_all

/-! ### Data processing -/

/-- The flags of a logical result: the carry is that of the shifter, and `V` stays. -/
def logic (r : BitVec 32) (sc : Bool) (f : Flags) : BitVec 32 × Flags :=
  (r, { n := r.msb, z := r == 0, c := sc, v := f.v })

/-- The result of an opcode on its two operands, with the flags that it sets. -/
def dataProc (opc : BitVec 4) (x y : BitVec 32) (sc : Bool) (f : Flags) : BitVec 32 × Flags :=
  match opc.toNat with
  | 0 => logic (x &&& y) sc f
  | 1 => logic (x ^^^ y) sc f
  | 2 => addWithCarry x (~~~y) true
  | 3 => addWithCarry y (~~~x) true
  | 4 => addWithCarry x y false
  | 5 => addWithCarry x y f.c
  | 6 => addWithCarry x (~~~y) f.c
  | 7 => addWithCarry y (~~~x) f.c
  | 8 => logic (x &&& y) sc f
  | 9 => logic (x ^^^ y) sc f
  | 10 => addWithCarry x (~~~y) true
  | 11 => addWithCarry x y false
  | 12 => logic (x ||| y) sc f
  | 13 => logic y sc f
  | 14 => logic (x &&& ~~~y) sc f
  | _ => logic (~~~y) sc f

/-- The opcodes that only set flags: tests and comparisons. -/
def isTest (opc : BitVec 4) : Bool := opc.toNat / 4 == 2

/-! ### Instruction words -/

/-- What an instruction does: data processing, a branch, or a branch that links.  The offset of a
branch counts words. -/
inductive Op
  | dp (opc : BitVec 4) (s : Bool) (rd rn : Reg) (m : Operand)
  | b (off : BitVec 24)
  | bl (off : BitVec 24)
  deriving DecidableEq

/-- An instruction word: its condition and the rest. -/
structure MCode where
  cc : BitVec 4
  op : Op
  deriving DecidableEq

/-- The registers and the flags. -/
structure Cpu where
  regs : Reg → BitVec 32
  flags : Flags

/-- Executing the word at `pc`: the address to go on at, and the machine after it.  The program
counter reads as two words ahead. -/
def MCode.step (pc : ℤ) (w : MCode) (s : Cpu) : ℤ × Cpu :=
  if condHolds w.cc s.flags then
    match w.op with
    | .dp opc setFlags rd rn m =>
      let (y, sc) := m.eval s.regs s.flags.c
      let (r, f) := dataProc opc (s.regs rn) y sc s.flags
      (pc + 1,
        { regs := if isTest opc then s.regs else Function.update s.regs rd r
          flags := if setFlags || isTest opc then f else s.flags })
    | .b off => (pc + 2 + off.toInt, s)
    | .bl off =>
      (pc + 2 + off.toInt, { s with regs := Function.update s.regs lr (BitVec.ofInt 32 (4 * (pc + 1))) })
  else (pc + 1, s)

theorem MCode.step_b (cc : BitVec 4) (off : BitVec 24) (pc : ℤ) (s : Cpu) :
    (MCode.mk cc (.b off)).step pc s =
      (if condHolds cc s.flags then pc + 2 + off.toInt else pc + 1, s) := by
  rw [MCode.step]
  split <;> rfl

theorem MCode.step_bl (cc : BitVec 4) (off : BitVec 24) (pc : ℤ) (s : Cpu) :
    ((MCode.mk cc (.bl off)).step pc s).1 =
      if condHolds cc s.flags then pc + 2 + off.toInt else pc + 1 := by
  rw [MCode.step]
  split <;> rfl

/-- A branch reaches its target if the offset fits. -/
theorem toInt_offset {d : ℤ} (h : -2 ^ 23 ≤ d) (h' : d < 2 ^ 23) :
    (BitVec.ofInt 24 d).toInt = d := by
  rw [BitVec.toInt_ofInt]
  exact Int.bmod_eq_of_le (by omega) (by omega)

/-- Running the words at `pc`, of which those before `tgt` are jumped over, until control leaves them
or goes backwards. -/
@[grind =]
def exec (pc tgt : ℤ) : List MCode → Cpu → ℤ × Cpu
  | [], s => (tgt, s)
  | w :: ws, s =>
    if pc < tgt then exec (pc + 1) tgt ws s
    else if tgt < pc then (tgt, s)
    else exec (pc + 1) (w.step pc s).1 ws (w.step pc s).2

@[simp] theorem exec_nil (pc tgt : ℤ) (s : Cpu) : exec pc tgt [] s = (tgt, s) := rfl

/-- Running a word that control is at. -/
@[simp] theorem exec_cons (pc : ℤ) (w : MCode) (ws : List MCode) (s : Cpu) :
    exec pc pc (w :: ws) s = exec (pc + 1) (w.step pc s).1 ws (w.step pc s).2 := by
  simp [exec]

/-- A word whose condition fails does nothing. -/
theorem exec_cons_of_not {cc : BitVec 4} {op : Op} {s : Cpu} (h : ¬ condHolds cc s.flags) (pc : ℤ)
    (ws : List MCode) : exec pc pc (⟨cc, op⟩ :: ws) s = exec (pc + 1) (pc + 1) ws s := by
  rw [exec_cons, MCode.step, if_neg h]

/-- Jumping over a word. -/
theorem exec_skip {pc tgt : ℤ} (h : pc < tgt) (w : MCode) (ws : List MCode) (s : Cpu) :
    exec pc tgt (w :: ws) s = exec (pc + 1) tgt ws s := by
  simp [exec, h]

/-- A branch that leaves the words on either side ends the run. -/
theorem exec_leave {pc tgt : ℤ} {ws : List MCode} (s : Cpu)
    (h : tgt < pc ∨ pc + ws.length ≤ tgt) : exec pc tgt ws s = (tgt, s) := by
  induction ws generalizing pc with
  | nil => rfl
  | cons w ws ih =>
    rw [List.length_cons] at h
    rcases h with h | h
    · have h' : ¬ pc < tgt := by omega
      simp only [exec, if_neg h', if_pos h]
    · rw [exec_skip (by push_cast at h; omega)]
      exact ih (.inr (by push_cast at h; omega))

end Arm
