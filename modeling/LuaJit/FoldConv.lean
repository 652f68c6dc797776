/-
**The narrowing of conversions.**

`lj_opt_narrow_convert` of `lj_opt_narrow.c`: a conversion of an FP addition or subtraction is
propagated back to the operands, as a program for a small stack machine, and the program is then
emitted through the fold engine.  The widening rule `simplify_conv_sext` of `lj_opt_fold.c` reads the
same literals.

The second operand of a `CONV` is a literal with the source type in bits 0–4, the destination type in
bits 5–9, the sign extension flag in bit 11 and the kind of check in bits 12–15.

Main definitions:

* `Ir.irconv`, `Ir.convSrc`, `Ir.convDst`, `Ir.convSext`, `Ir.convMode`, `Ir.convCheck` — the literal;
* `Ir.simplifyConvSext` — the widening rule;
* `Ir.narrowConvBackprop`, `Ir.narrowConvEmit`, `Ir.optNarrowConvert` — narrowing.
-/

import LuaJit.FoldRules

set_option relaxedAutoImplicit false
set_option autoImplicit false

namespace Ir

open JitState

/-! ### The literal of a conversion -/

/-- The number of a type. -/
def IRType.code : IRType → ℕ
  | .nil => 0 | .false => 1 | .true => 2 | .lightud => 3 | .str => 4 | .p32 => 5 | .thread => 6
  | .proto => 7 | .func => 8 | .p64 => 9 | .cdata => 10 | .tab => 11 | .udata => 12 | .float => 13
  | .num => 14 | .i8 => 15 | .u8 => 16 | .i16 => 17 | .u16 => 18 | .int => 19 | .u32 => 20
  | .i64 => 21 | .u64 => 22 | .softfp => 23

/-- `IRCONV_<dst>_<src>`. -/
def irconv (dst src : IRType) : ℕ := dst.code * 32 + src.code

/-- `IRCONV_SEXT`. -/
def irconvSext : ℕ := 0x800

/-- `IRCONV_ANY`, `IRCONV_INDEX`, `IRCONV_CHECK`: the kinds of check. -/
def irconvAny : ℕ := 0x1000
def irconvIndex : ℕ := 0x2000
def irconvCheck : ℕ := 0x3000

/-- `op2 & IRCONV_SRCMASK`. -/
def convSrc (op2 : ℕ) : ℕ := op2 % 32

/-- `(op2 & IRCONV_DSTMASK) >> IRCONV_DSH`. -/
def convDst (op2 : ℕ) : ℕ := op2 / 32 % 32

/-- `op2 & IRCONV_SEXT`. -/
def convSext (op2 : ℕ) : Bool := decide (op2 / irconvSext % 2 = 1)

/-- `op2 & IRCONV_MODEMASK`. -/
def convMode (op2 : ℕ) : ℕ := op2 % 0x1000

/-- `op2 & IRCONV_CONVMASK`. -/
def convCheck (op2 : ℕ) : ℕ := op2 / 0x1000 * 0x1000

/-! ### Floating point constants -/

/-- The operations of the C compiler and of the VM on double constants, given by their bit
patterns. -/
structure FpOps where
  /-- `lj_vm_foldarith`, by the opcode instead of its distance from `ADD`. -/
  foldarith : BitVec 64 → BitVec 64 → IROp → BitVec 64
  /-- `lj_ir_numcmp`. -/
  numcmp : BitVec 64 → BitVec 64 → IROp → Bool
  /-- `==`. -/
  eq : BitVec 64 → BitVec 64 → Bool
  /-- Unary minus. -/
  neg : BitVec 64 → BitVec 64
  /-- `lj_num2int`. -/
  num2int : BitVec 64 → BitVec 32
  /-- `lj_num2bit`. -/
  num2bit : BitVec 64 → BitVec 32
  /-- `(uint32_t)n`. -/
  num2u32 : BitVec 64 → BitVec 32
  /-- `(int64_t)n`. -/
  num2i64 : BitVec 64 → BitVec 64
  /-- `lj_num2u64`. -/
  num2u64 : BitVec 64 → BitVec 64
  /-- `(lua_Number)(int64_t)k`, which also covers the 32 bit integers. -/
  ofI64 : BitVec 64 → BitVec 64
  /-- `(lua_Number)(uint64_t)k`. -/
  ofU64 : BitVec 64 → BitVec 64

/-! ### Widening -/

/-- The scalar evolution analysis of `simplify_conv_sext`: the extended value is not negative. -/
def sextNonneg (J : JitState) : Bool :=
  let isAdd := decide (J.fleft.o = .add) && irrefIsk J.fleft.op2
  let ofs : ℤ := if isAdd then (J.ir J.fleft.op2).i.toInt else 0
  let ref := if isAdd then J.fleft.op1 else J.fins.op1
  let lo := if J.scev.dir then J.scev.start else J.scev.stop
  decide (ref = J.scev.idx) && decide (lo ≠ 0) && decide (0 ≤ (J.ir lo).i.toInt + ofs)

/-- `simplify_conv_sext`: strength reduction of widening. -/
def simplifyConvSext (cfg : Target) (J : JitState) : FoldRes × JitState :=
  if ¬ convSext J.fins.op2 then J.nextFold
  else
    J.phiBarrierLeft
      (if (J.fleft.o = .xload ∧ (J.fleft.t.type = .u8 ∨ J.fleft.t.type = .u16)) ∨ sextNonneg J then
        if cfg.x64 then J.leftFold
        else J.retryFold { J.fins with op2 := J.fins.op2 - irconvSext }
       else J.nextFold)

/-- `emitir` inside a rule. -/
def emitir (fold : JitState → FoldOut ℕ) (J : JitState) (o : IROp) (t : IRType1) (op1 op2 : ℕ) :
    FoldOut ℕ :=
  fold (J.setIns o t op1 op2)

/-! ### Narrowing: backpropagation -/

/-- The instructions of the stack machine.  `int` takes two slots of the stack. -/
inductive NarrowIns
  /-- `NARROW_REF`: push the reference. -/
  | ref (r : ℕ)
  /-- `NARROW_CONV`: push a conversion of the reference. -/
  | conv (r : ℕ)
  /-- `NARROW_SEXT`: sign-extend the top. -/
  | sext
  /-- `NARROW_INT`: push a constant. -/
  | int (k : BitVec 32)
  /-- An arithmetic instruction of the given type, narrowed from the reference. -/
  | op (o : IROp) (t : IRType) (r : ℕ)
  deriving DecidableEq

/-- The slots an instruction takes. -/
def NarrowIns.slots : NarrowIns → ℕ
  | .int _ => 2
  | _ => 1

/-- `nc->sp`, as a number of slots. -/
def narrowSp (stack : List NarrowIns) : ℕ := (stack.map NarrowIns.slots).sum

/-- `nc->maxsp`. -/
def narrowMaxsp : ℕ := 256 - 4

/-- `NARROW_MAX_BACKPROP`. -/
def narrowMaxBackprop : ℕ := 100

/-- `narrow_bpc_get`: stronger checks are ok, too. -/
def narrowBpcGet (J : JitState) (key mode : ℕ) : Option BPropEntry :=
  J.bpropcache.find? fun bp =>
    bp.key = key ∧ mode ≤ bp.mode ∧ convMode bp.mode = convMode mode

/-- `narrow_bpc_set`. -/
def narrowBpcSet (J : JitState) (key val mode : ℕ) : JitState :=
  { J with
    bpropcache := J.bpropcache.set J.bpropslot { key := key, val := val, mode := mode }
    bpropslot := (J.bpropslot + 1) % 16 }

/-- The opcode of an overflow-checking instruction without the check. -/
def IROp.stripov : IROp → IROp
  | .addov => .add
  | .subov => .sub
  | .mulov => .mul
  | o => o

/-- `narrow_stripov_backprop`.  The stack is returned with its top at the end; the first argument
counts how far `depth` is below its limit. -/
def narrowStripovBackprop (J : JitState) (mode : ℕ) : ℕ → List NarrowIns → ℕ → List NarrowIns
  | room, stack, ref =>
      let ir := J.ir ref
      if ir.o = .addov ∨ ir.o = .subov ∨ (ir.o = .mulov ∧ convCheck mode = irconvAny) then
        match narrowBpcGet J ref 0 with
        | some bp => stack ++ [.ref bp.val]
        | none =>
            match room with
            | 0 => stack ++ [.ref ref]
            | room + 1 =>
                -- a path that is too deep is given up and the reference is pushed
                if narrowSp stack < narrowMaxsp then
                  let stack1 := narrowStripovBackprop J mode room stack ir.op1
                  if narrowSp stack1 < narrowMaxsp then
                    let stack2 := narrowStripovBackprop J mode room stack1 ir.op2
                    if narrowSp stack2 < narrowMaxsp then
                      stack2 ++ [.op ir.o.stripov .int ref]
                    else stack ++ [.ref ref]
                  else stack ++ [.ref ref]
                else stack ++ [.ref ref]
      else stack ++ [.ref ref]

/-- `checki16`. -/
def checki16 (k : BitVec 32) : Bool := decide (-0x8000 ≤ k.toInt ∧ k.toInt < 0x8000)

/-- Narrowing an FP constant. -/
def narrowKnum (fp : FpOps) (mode : ℕ) (n : BitVec 64) : Option (BitVec 32) :=
  if convCheck mode = 0 then
    -- `IRCONV_TOBIT` allows a wider range of constants, truncated to 32 bits
    let k64 := fp.num2i64 n
    if fp.eq n (fp.ofI64 k64) then some (k64.setWidth 32) else none
  else
    let k := fp.num2int n
    if checki16 k ∧ fp.eq n (fp.ofI64 (k.signExtend 64)) then some k else none

/-- The search for the conversion among the instructions of the trace. -/
def narrowCse (J : JitState) (mode ref : ℕ) : Option ℕ :=
  let same := fun cr : IRIns => cr.op1 = ref ∧
    (J.fins.o = .tobit ∨
      (convMode cr.op2 = convMode mode ∧ (J.fins.t.isguard → cr.t.isguard)))
  J.findins (fun cr => same cr) ref J.nins (J.chain J.fins.o)

/-- `narrow_conv_backprop`: the number of needed conversions and the stack. -/
@[grind =]
def narrowConvBackprop (fp : FpOps) (J : JitState) (t : IRType) (mode : ℕ) :
    ℕ → List NarrowIns → ℕ → ℕ × List NarrowIns
  | room, stack, ref =>
      let ir := J.ir ref
      if narrowMaxsp ≤ narrowSp stack then (10, stack)
      else if ir.o = .conv ∧ convSrc ir.op2 = IRType.int.code then
        let stack1 :=
          if convCheck mode ≤ irconvAny then
            narrowStripovBackprop J mode (room - 1) stack ir.op1
          else stack ++ [.ref ir.op1]
        (0, if t = .i64 then stack1 ++ [.sext] else stack1)
      else if ir.o = .knum then
        match narrowKnum fp mode ir.u64 with
        | some k => (0, stack ++ [.int k])
        | none => (10, stack)
      else
        match narrowCse J mode ref with
        | some cref => (0, stack ++ [.ref cref])
        | none =>
            if ir.o = .add ∨ ir.o = .sub then
              -- inner conversions need a stronger check
              let mode' :=
                if convCheck mode = irconvIndex ∧ room + 1 < narrowMaxBackprop then
                  mode + (irconvCheck - irconvIndex)
                else mode
              match narrowBpcGet J ref mode' with
              | some bp => (0, stack ++ [.ref bp.val])
              | none =>
                  match (if t = .i64 then narrowBpcGet J ref (irconv .int .num + irconvIndex)
                    else none) with
                  | some bp => (0, stack ++ [.ref bp.val, .sext])
                  | none =>
                      match room with
                      | 0 => (1, stack ++ [.conv ref])
                      | room + 1 =>
                          let (count1, stack1) :=
                            narrowConvBackprop fp J t mode room stack ir.op1
                          let (count2, stack2) :=
                            narrowConvBackprop fp J t mode room stack1 ir.op2
                          if count1 + count2 ≤ 1 then
                            (count1 + count2, stack2 ++ [.op ir.o t ref])
                          else (1, stack ++ [.conv ref])
            else (1, stack ++ [.conv ref])

/-! ### Narrowing: emission -/

/-- The overflow-checking variant of an addition or subtraction. -/
def IROp.withov : IROp → IROp
  | .add => .addov
  | .sub => .subov
  | .mul => .mulov
  | o => o

/-- What `narrow_conv_emit` saves of the instruction. -/
structure NarrowCtx where
  /-- The conversion instruction. -/
  conv : IRIns
  /-- `nc->t`. -/
  t : IRType
  /-- `nc->mode`. -/
  mode : ℕ

/-- The index of the last instruction needs no overflow check if it adds a small constant. -/
def narrowNoCheck (J : JitState) (last : Bool) (b : ℕ) : Bool :=
  last && irrefIsk b && ((J.ir b).i + 0x40000000#32).ult 0x80000000#32

/-- The stack machine of `narrow_conv_emit`.  The operand stack has its top at the head. -/
@[grind =]
def narrowConvEmit (fold : JitState → FoldOut ℕ) (nc : NarrowCtx) :
    List NarrowIns → List ℕ → JitState → FoldOut ℕ
  | [], stack, J => some (.ok (stack.getLastD 0, J))
  | ins :: code, stack, J =>
      match ins with
      | .ref r => narrowConvEmit fold nc code (r :: stack) J
      | .conv r =>
          -- raw emission avoids a loop
          let (ref, J') := (J.setIns nc.conv.o nc.conv.t r nc.conv.op2).emit
          narrowConvEmit fold nc code (ref :: stack) J'
      | .sext =>
          match stack with
          | [] => narrowConvEmit fold nc code [] J
          | a :: stack =>
              match emitir fold J .conv { type := .i64 } a (irconv .i64 .int + irconvSext) with
              | none => none
              | some (.error e) => some (.error e)
              | some (.ok (ref, J')) => narrowConvEmit fold nc code (ref :: stack) J'
      | .int k =>
          let (ref, J') := if nc.t = .i64 then J.kint64 (k.signExtend 64) else J.kint k
          narrowConvEmit fold nc code (ref :: stack) J'
      | .op o t r =>
          match stack with
          | b :: a :: stack =>
              let index := decide (convCheck nc.mode = irconvIndex)
              let unchecked := index && narrowNoCheck J code.isEmpty b
              let mode :=
                if index ∧ ¬ unchecked then nc.mode + (irconvCheck - irconvIndex) else nc.mode
              let checked := nc.conv.t.isguard && !unchecked
              match emitir fold J (if checked then o.withov else o)
                  { type := t, isguard := checked } a b with
              | none => none
              | some (.error e) => some (.error e)
              | some (.ok (ref, J')) =>
                  narrowConvEmit fold nc code (ref :: stack)
                    (if r = 0 then J' else narrowBpcSet J' r ref mode)
          | stack => narrowConvEmit fold nc code stack J

/-- `lj_opt_narrow_convert`. -/
def optNarrowConvert (fp : FpOps) (fold : JitState → FoldOut ℕ) (J : JitState) :
    FoldOut FoldRes :=
  if J.optNarrow then
    let t := J.fins.t.type
    let mode := if J.fins.o = .tobit then 0 else J.fins.op2
    let (count, stack) :=
      narrowConvBackprop fp J t mode (narrowMaxBackprop - 1) [] J.fins.op1
    if count ≤ 1 then
      match narrowConvEmit fold { conv := J.fins, t := t, mode := mode } stack [] J with
      | none => none
      | some (.error e) => some (.error e)
      | some (.ok (ref, J')) => some (.ok (.ref ref, J'))
    else some (.ok J.nextFold)
  else some (.ok J.nextFold)

end Ir
