/-
**Assembly of integer comparison guards for ARM.**

The assembler works backwards: it emits a guard before the instruction whose result the guard tests,
so a comparison with zero may still be dropped when that instruction sets the flags itself.  The
register allocator is a parameter: the register of each reference, and which references may be fused.
The loads, stores and moves that it inserts set no flags and are left out.

Main definitions:

* `ArmAsm.ASMState` — the part of `ASMState` that comparisons use, with the machine code emitted so
  far;
* `ArmAsm.emitIsk12`, `ArmAsm.asmFuseopm`, `ArmAsm.asmSwapops` — operands;
* `ArmAsm.asmGuardcc`, `ArmAsm.asmLoopFixup` — exit branches, and the branch at the end of a loop;
* `ArmAsm.asmIntop`, `ArmAsm.asmIntopS`, `ArmAsm.asmBitop` — arithmetic and bit operations;
* `ArmAsm.asmIntcomp`, `ArmAsm.asmInt64comp` — comparisons.
-/

import LuaJit.ArmIsa
import LuaJit.IrSem

set_option relaxedAutoImplicit false
set_option autoImplicit false

namespace ArmAsm

open Arm Ir

/-! ### Instructions and conditions -/

/-- `ARMI_AND`, as the opcode field. -/
def armiAnd : BitVec 4 := 0
/-- `ARMI_EOR`. -/
def armiEor : BitVec 4 := 1
/-- `ARMI_SUB`. -/
def armiSub : BitVec 4 := 2
/-- `ARMI_RSB`. -/
def armiRsb : BitVec 4 := 3
/-- `ARMI_ADD`. -/
def armiAdd : BitVec 4 := 4
/-- `ARMI_ADC`. -/
def armiAdc : BitVec 4 := 5
/-- `ARMI_SBC`. -/
def armiSbc : BitVec 4 := 6
/-- `ARMI_TST`. -/
def armiTst : BitVec 4 := 8
/-- `ARMI_CMP`. -/
def armiCmp : BitVec 4 := 10
/-- `ARMI_CMN`. -/
def armiCmn : BitVec 4 := 11
/-- `ARMI_ORR`. -/
def armiOrr : BitVec 4 := 12
/-- `ARMI_MOV`. -/
def armiMov : BitVec 4 := 13
/-- `ARMI_BIC`. -/
def armiBic : BitVec 4 := 14
/-- `ARMI_MVN`. -/
def armiMvn : BitVec 4 := 15

/-- `CC_EQ`. -/
def ccEq : BitVec 4 := 0
/-- `CC_NE`. -/
def ccNe : BitVec 4 := 1
/-- `CC_HS`. -/
def ccHs : BitVec 4 := 2
/-- `CC_LO`. -/
def ccLo : BitVec 4 := 3
/-- `CC_MI`. -/
def ccMi : BitVec 4 := 4
/-- `CC_PL`. -/
def ccPl : BitVec 4 := 5
/-- `CC_VS`. -/
def ccVs : BitVec 4 := 6
/-- `CC_HI`. -/
def ccHi : BitVec 4 := 8
/-- `CC_LS`. -/
def ccLs : BitVec 4 := 9
/-- `CC_GE`. -/
def ccGe : BitVec 4 := 10
/-- `CC_LT`. -/
def ccLt : BitVec 4 := 11
/-- `CC_GT`. -/
def ccGt : BitVec 4 := 12
/-- `CC_LE`. -/
def ccLe : BitVec 4 := 13
/-- `CC_AL`. -/
def ccAl : BitVec 4 := 14

/-- The integer half of `asm_compmap`: the condition under which a comparison fails. -/
def asmCompmap : IROp → BitVec 4
  | .lt => ccGe
  | .ge => ccLt
  | .le => ccGt
  | .gt => ccLe
  | .ult => ccHs
  | .uge => ccLo
  | .ule => ccHi
  | .ugt => ccLs
  | .eq => ccNe
  | .ne => ccEq
  | _ => ccLs

/-! ### The state of the assembler -/

/-- The part of `ASMState` that the assembly of comparisons uses. -/
structure ASMState where
  /-- The IR. -/
  ir : ℕ → IRIns
  /-- `ra_hasreg(IR(ref)->r)` at the guard. -/
  hasreg : ℕ → Bool
  /-- The register that a reference is in, or that `ra_alloc1` gives to it. -/
  reg : ℕ → Reg
  /-- `mayfuse`. -/
  mayfuse : ℕ → Bool
  /-- `ra_used(IR(ref))` at the guard. -/
  used : ℕ → Bool
  /-- The references that were given a register from the guard on. -/
  live : List ℕ := []
  /-- The end of the machine code. -/
  mctop : ℤ
  /-- The machine code from `mcp` to `mctop`. -/
  mc : List MCode
  /-- The invertible loop branch. -/
  invmcp : Option ℤ
  /-- A comparison with zero that may be dropped. -/
  flagmcp : Option ℤ
  /-- The loop branch was inverted. -/
  loopinv : Bool
  /-- `exitstub_addr(J, snapno)`. -/
  exitstub : ℤ

/-- `as->mcp`. -/
def ASMState.mcp (as : ASMState) : ℤ := as.mctop - as.mc.length

/-- `*--as->mcp = w`. -/
def emit (as : ASMState) (w : MCode) : ASMState := { as with mc := w :: as.mc }

/-- `ra_alloc1` and the like: the references have registers from now on. -/
def raAlloc (as : ASMState) (refs : List ℕ) : ASMState := { as with live := refs ++ as.live }

/-- `ra_hasreg`. -/
def raHasreg (as : ASMState) (ref : ℕ) : Bool := as.hasreg ref || as.live.contains ref

/-- `ra_used`. -/
def raUsed (as : ASMState) (ref : ℕ) : Bool := as.used ref || as.live.contains ref

/-- `emit_branch`. -/
def emitBranch (as : ASMState) (cc : BitVec 4) (op : BitVec 24 → Op) (target : ℤ) : ASMState :=
  emit as ⟨cc, op (BitVec.ofInt 24 (target - as.mcp - 1))⟩

/-- `asm_guardcc`. -/
@[grind =]
def asmGuardcc (as : ASMState) (cc : BitVec 4) : ASMState :=
  let target := as.exitstub
  let p := as.mcp
  if as.invmcp = some p then
    emitBranch { as with
      loopinv := true
      mc := ⟨ccAl, .bl (BitVec.ofInt 24 (target - p - 2))⟩ :: as.mc.tail } (cc ^^^ 1) .b (p + 1)
  else emitBranch as cc .bl target

/-- `p[i] |= off` on the offset of a branch. -/
def orOffset (off : BitVec 24) (w : MCode) : MCode :=
  match w.op with
  | .b d => { w with op := .b (d ||| off) }
  | .bl d => { w with op := .bl (d ||| off) }
  | .dp .. => w

/-- `asm_loop_fixup`. -/
def asmLoopFixup (as : ASMState) : ASMState :=
  let p := as.mctop
  let target := as.mcp
  if as.loopinv then
    { as with mc := as.mc.modify (as.mc.length - 2) (orOffset (BitVec.ofInt 24 (target - p))) }
  else
    { as with mc := as.mc.set (as.mc.length - 1) ⟨ccAl, .b (BitVec.ofInt 24 (target - p - 1))⟩ }

/-! ### Operands -/

/-- `emit_invai`. -/
def emitInvai (opc : BitVec 4) : BitVec 4 :=
  if opc = armiAnd then armiAnd ^^^ armiBic
  else if opc = armiSub then armiSub ^^^ armiAdd
  else if opc = armiAdd then armiAdd ^^^ armiSub
  else if opc = armiAdc then armiAdc ^^^ armiSbc
  else if opc = armiSbc then armiSbc ^^^ armiAdc
  else if opc = armiCmp then armiCmp ^^^ armiCmn
  else if opc = armiCmn then armiCmn ^^^ armiCmp
  else if opc = armiMov then armiMov ^^^ armiMvn
  else if opc = armiBic then armiBic ^^^ armiAnd
  else if opc = armiMvn then armiMvn ^^^ armiMov
  else 0

/-- The search for an eight bit value, rotated in steps of two bits. -/
def isK12 (m : BitVec 32) (i : ℕ) : ℕ → Option Operand
  | 0 => none
  | n + 1 =>
    if m.toNat ≤ 255 then some (.k12 (BitVec.ofNat 4 i) (m.setWidth 8))
    else isK12 (m.rotateLeft 2) (i + 1) n

/-- A fused operand: what it changes in the opcode, its field, and the references that it needs in
registers. -/
structure Fused where
  inv : BitVec 4
  m : Operand
  refs : List ℕ

/-- `emit_isk12`. -/
def emitIsk12 (opc : BitVec 4) (n : BitVec 32) : Option Fused :=
  match isK12 n 0 16 with
  | some k => some ⟨0, k, []⟩
  | none =>
    let invai := emitInvai opc
    if invai = 0 then none
    else
      let m := ~~~n
      let m := if invai = armiSub ^^^ armiAdd ∨ invai = armiCmp ^^^ armiCmn then m + 1 else m
      (isK12 m 0 16).map (⟨invai, ·, []⟩)

/-- The shift opcodes, `IR_BSHL` to `IR_BROR`. -/
def isShift : IROp → Bool
  | .bshl | .bshr | .bsar | .brol | .bror => true
  | _ => false

/-- The shift that a shift instruction is fused to. -/
def armShift : IROp → Shift
  | .bshl => .lsl
  | .bshr => .lsr
  | .bsar => .asr
  | _ => .ror

/-- `ra_allocref`: the operand is a register. -/
def Fused.ofRef (as : ASMState) (ref : ℕ) : Fused := ⟨0, .ofReg (as.reg ref), [ref]⟩

/-- `asm_fuseopm`. -/
def asmFuseopm (as : ASMState) (opc : BitVec 4) (ref : ℕ) : Fused :=
  let ir := as.ir ref
  if raHasreg as ref then .ofRef as ref
  else if irrefIsk ref then (emitIsk12 opc ir.i).getD (.ofRef as ref)
  else if as.mayfuse ref then
    if isShift ir.o then
      if irrefIsk ir.op2 then
        ⟨0, .shImm (as.reg ir.op1) (armShift ir.o) ((as.ir ir.op2).i.setWidth 5), [ir.op1]⟩
      else ⟨0, .shReg (as.reg ir.op1) (armShift ir.o) (as.reg ir.op2), [ir.op1, ir.op2]⟩
    else if ir.o = .add ∧ ir.op1 = ir.op2 then ⟨0, .shImm (as.reg ir.op1) .lsl 1, [ir.op1]⟩
    else .ofRef as ref
  else .ofRef as ref

/-- Fusable operands of `asm_swapops`. -/
def isFusable (ir : IRIns) : Bool := isShift ir.o || (ir.o = .add && ir.op1 = ir.op2)

/-- `asm_swapops`. -/
def asmSwapops (as : ASMState) (lref rref : ℕ) : Bool :=
  if irrefIsk rref then false
  else if irrefIsk lref then true
  else if isFusable (as.ir rref) then false
  else if isFusable (as.ir lref) then true
  else false

/-- The left operand after `asm_swapops`. -/
def leftRef (as : ASMState) (ir : IRIns) : ℕ := if asmSwapops as ir.op1 ir.op2 then ir.op2 else ir.op1

/-- The right operand after `asm_swapops`. -/
def rightRef (as : ASMState) (ir : IRIns) : ℕ :=
  if asmSwapops as ir.op1 ir.op2 then ir.op1 else ir.op2

/-! ### Arithmetic and bit operations -/

/-- `asm_intop`. -/
def asmIntop (as : ASMState) (ref : ℕ) (opc : BitVec 4) (s : Bool) : ASMState :=
  let ir := as.ir ref
  let opc :=
    if asmSwapops as ir.op1 ir.op2 ∧ (opc = armiSub ∨ opc = armiSbc) then opc ^^^ (armiSub ^^^ armiRsb)
    else opc
  let as' := raAlloc as [leftRef as ir]
  let f := asmFuseopm as' opc (rightRef as ir)
  let as' := raAlloc as' f.refs
  let as' := if ir.t.isguard then asmGuardcc as' ccVs else as'
  emit as' ⟨ccAl, .dp (opc ^^^ f.inv) (s || ir.t.isguard) (as.reg ref) (as.reg (leftRef as ir)) f.m⟩

/-- `asm_intop_s`. -/
def asmIntopS (as : ASMState) (ref : ℕ) (opc : BitVec 4) : ASMState :=
  if as.flagmcp = some as.mcp then
    asmIntop { as with flagmcp := none, mc := as.mc.tail } ref opc true
  else asmIntop as ref opc false

/-- `as->mcp[1] >> 28`. -/
def nextCc (as : ASMState) : BitVec 4 := (as.mc.tail.head?.map (·.cc)).getD 0

/-- `*++as->mcp ^= cc << 28`. -/
def xorNextCc (as : ASMState) (cc : BitVec 4) : ASMState :=
  { as with mc := as.mc.tail.modify 0 fun w => { w with cc := w.cc ^^^ cc } }

/-- The part of `asm_bitop` that tries to drop the comparison with zero: the state, and whether to set
the flags. -/
def dropCmp (as : ASMState) : ASMState × Bool :=
  if as.flagmcp = some as.mcp then
    let cc := nextCc as
    let as := { as with flagmcp := none }
    if cc ≤ ccNe then ({ as with mc := as.mc.tail }, true)
    else if cc = ccGe then (xorNextCc as (ccGe ^^^ ccPl), true)
    else if cc = ccLt then (xorNextCc as (ccLt ^^^ ccMi), true)
    else (as, false)
  else (as, false)

/-- `asm_bitop`. -/
def asmBitop (as : ASMState) (ref : ℕ) (opc : BitVec 4) : ASMState :=
  let ir := as.ir ref
  let as' := (dropCmp as).1
  let s := (dropCmp as).2
  if ir.op2 = 0 then
    let f := asmFuseopm as' opc ir.op1
    emit (raAlloc as' f.refs) ⟨ccAl, .dp (opc ^^^ f.inv) s (as.reg ref) 0 f.m⟩
  else asmIntop as' ref opc s

/-! ### Comparisons -/

/-- The condition after the operands were swapped. -/
def swapCc (cc : BitVec 4) : BitVec 4 :=
  if ccGe ≤ cc then cc ^^^ 7 else if ccNe < cc then cc ^^^ 11 else cc

/-- The condition that works with `tst`, if there is one. -/
def tstCc (cc : BitVec 4) : Option (BitVec 4) :=
  if cc = ccGe then some ccPl else if cc = ccLt then some ccMi else if ccNe < cc then none else some cc

/-- The right operand of a `tst` that is a constant, `m2` in `asm_intcomp`. -/
def tstConst (as : ASMState) (brref : ℕ) : Option Fused :=
  if irrefIsk brref then emitIsk12 armiAnd (as.ir brref).i else none

/-- The right operand of a `tst`. -/
def tstOperand (as : ASMState) (brref : ℕ) : Fused :=
  (tstConst as brref).getD (asmFuseopm as armiAnd brref)

/-- The part of `asm_intcomp` that combines a `BAND` with the comparison into a `tst`. -/
def asmTst (as : ASMState) (lref : ℕ) (cc : BitVec 4) : Option ASMState :=
  let irl := as.ir lref
  let blref := leftRef as irl
  let brref := rightRef as irl
  -- not beneficial if we miss a constant operand
  if irl.o = .band ∧ ¬ raUsed as lref ∧ ¬ (tstConst as brref).any (·.inv ≠ 0) then
    (tstCc cc).map fun cc =>
      let as' := raAlloc as [blref]
      let f := tstOperand as' brref
      emit (asmGuardcc (raAlloc as' f.refs) cc)
        ⟨ccAl, .dp (armiTst ^^^ f.inv) true 0 (as.reg blref) f.m⟩
  else none

/-- `asm_intcomp` from the label `notst` on. -/
def asmCmp (as : ASMState) (lref rref : ℕ) (cc : BitVec 4) (cmpprev0 : Bool) : ASMState :=
  let as' := raAlloc as [lref]
  let f := asmFuseopm as' armiCmp rref
  let as' := emit (asmGuardcc (raAlloc as' f.refs) cc)
    ⟨ccAl, .dp (armiCmp ^^^ f.inv) true 0 (as.reg lref) f.m⟩
  if cmpprev0 ∧ (cc ≤ ccNe ∨ ccGe ≤ cc) then { as' with flagmcp := some as'.mcp } else as'

/-- `asm_intcomp`. -/
def asmIntcomp (as : ASMState) (ref : ℕ) : ASMState :=
  let ir := as.ir ref
  let cc := asmCompmap ir.o
  let cc := if asmSwapops as ir.op1 ir.op2 then swapCc cc else cc
  let lref := leftRef as ir
  let rref := rightRef as ir
  let cmpprev0 := irrefIsk rref && (as.ir rref).i == 0 && lref + 1 == ref
  match if cmpprev0 then asmTst as lref cc else none with
  | some as' => as'
  | none => asmCmp as lref rref cc cmpprev0

/-- `ir->o <= IR_GT`. -/
def signedComp : IROp → Bool
  | .lt | .ge | .le | .gt => true
  | _ => false

/-- `ir->o + 4` for the signed comparisons. -/
def unsignedOf : IROp → IROp
  | .lt => .ult
  | .ge => .uge
  | .le => .ule
  | .gt => .ugt
  | o => o

/-- `asm_int64comp` of the comparison at `ref`, whose high words are the operands of `ref + 1`. -/
def asmInt64comp (as : ASMState) (ref : ℕ) : ASMState :=
  let lo := as.ir ref
  let hi := as.ir (ref + 1)
  let cclo := asmCompmap (unsignedOf lo.o)
  let as' := raAlloc as [lo.op1]
  let mlo := asmFuseopm as' armiCmp lo.op2
  let as' := raAlloc as' mlo.refs
  let cchi := asmCompmap lo.o
  let as' := raAlloc as' [hi.op1]
  let mhi := asmFuseopm as' armiCmp hi.op2
  let as' := raAlloc as' mhi.refs
  let as' :=
    if signedComp lo.o then
      let lAround := as'.mcp
      let as' := asmGuardcc as' cclo
      let as' := emit as' ⟨ccAl, .dp (armiCmp ^^^ mlo.inv) true 0 (as.reg lo.op1) mlo.m⟩
      let as' := emitBranch as' ccNe .b lAround
      asmGuardcc as' (if cchi = ccGe ∨ cchi = ccLe then cchi ^^^ 6 else cchi)
    else
      emit (asmGuardcc as' cclo) ⟨ccEq, .dp (armiCmp ^^^ mlo.inv) true 0 (as.reg lo.op1) mlo.m⟩
  emit as' ⟨ccAl, .dp (armiCmp ^^^ mhi.inv) true 0 (as.reg hi.op1) mhi.m⟩

/-! ### A guard and the instruction before it -/

/-- The instructions that may set the flags for the comparison behind them. -/
def isFlagOp : IROp → Bool
  | .add | .sub | .band | .bor | .bxor | .bnot => true
  | _ => false

/-- `asm_ir` for the instructions that may set the flags. -/
def asmFlagOp (as : ASMState) (ref : ℕ) : ASMState :=
  match (as.ir ref).o with
  | .add => asmIntopS as ref armiAdd
  | .sub => asmIntopS as ref armiSub
  | .band => asmBitop as ref armiAnd
  | .bor => asmBitop as ref armiOrr
  | .bxor => asmBitop as ref armiEor
  | .bnot => asmBitop as ref armiMvn
  | _ => as

/-- The instruction before the guard is the left operand of its comparison, and the comparison did not
absorb it. -/
def withPrev (as : ASMState) (ref : ℕ) : Bool :=
  isFlagOp (as.ir (ref - 1)).o && leftRef as (as.ir ref) == ref - 1 &&
    raUsed (asmIntcomp as ref) (ref - 1)

/-- Assembling the comparison guard at `ref`: its two words if it is split, else with the instruction
before it if the comparison is about its result. -/
def asmGuard (as : ASMState) (ref : ℕ) : ASMState :=
  if (as.ir (ref + 1)).o = .hiop then asmInt64comp as ref
  else if withPrev as ref then asmFlagOp (asmIntcomp as ref) (ref - 1)
  else asmIntcomp as ref

end ArmAsm
