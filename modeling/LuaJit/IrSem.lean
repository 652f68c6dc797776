/-
**What executing an integer IR instruction does.**

The meaning of the integer opcodes on machine words, independent of how FOLD computes them: value
producing instructions are functions on words modulo `2 ^ w`, shift and rotate counts are taken
modulo the width, the overflow-checking instructions additionally guard that the exact signed
result fits, and the comparison guards hold or fail.  The signed comparisons are `LT GE LE GT`, the
unsigned ones `ULT UGE ULE UGT` and `ABC(asize, idx)`, which guards `idx <u asize`.

Main definitions:

* `Ir.IRType.width` — the width of an integer type;
* `Ir.evalOp` — the value of an instruction on two words;
* `Ir.overflows` — whether an overflow-checking instruction leaves the trace;
* `Ir.evalGuard` — whether a comparison guard holds.
-/

import LuaJit.Word
import LuaJit.Double
import LuaJit.IrDef

set_option relaxedAutoImplicit false
set_option autoImplicit false

namespace Ir

/-- The width of the integer types that arithmetic is done in. -/
def IRType.width : IRType → ℕ
  | .i64 | .u64 => 64
  | _ => 32

/-- `irt_isint` or `IRT_U32`, `IRT_I64`, `IRT_U64`: the types of integer arithmetic. -/
def IRType.isArith : IRType → Bool
  | .int | .u32 | .i64 | .u64 => Bool.true
  | _ => Bool.false

/-- Floored modulo of signed words. -/
def floorMod {w : ℕ} (a b : BitVec w) : BitVec w := BitVec.ofInt w (a.toInt.fmod b.toInt)

/-- The value of an integer instruction on two words.  `NEG`, `BNOT` and `BSWAP` only use the
first operand; opcodes that are not integer instructions have no value here. -/
def evalOp {w : ℕ} (o : IROp) (a b : BitVec w) : Option (BitVec w) :=
  match o with
  | .add | .addov => some (a + b)
  | .sub | .subov => some (a - b)
  | .mul | .mulov => some (a * b)
  | .mod => some (floorMod a b)
  | .neg => some (-a)
  | .bnot => some (~~~a)
  | .bswap => some (Word.byteRev a)
  | .band => some (a &&& b)
  | .bor => some (a ||| b)
  | .bxor => some (a ^^^ b)
  | .bshl => some (a <<< (b.toNat % w))
  | .bshr => some (a >>> (b.toNat % w))
  | .bsar => some (a.sshiftRight (b.toNat % w))
  | .brol => some (a.rotateLeft (b.toNat % w))
  | .bror => some (a.rotateRight (b.toNat % w))
  | .min => some (if a.slt b then a else b)
  | .max => some (if b.slt a then a else b)
  | _ => none

/-- The exact result of an overflow-checking instruction. -/
def exactOp {w : ℕ} (o : IROp) (a b : BitVec w) : Option ℤ :=
  match o with
  | .addov => some (a.toInt + b.toInt)
  | .subov => some (a.toInt - b.toInt)
  | .mulov => some (a.toInt * b.toInt)
  | _ => none

/-- An overflow-checking instruction leaves the trace: its exact result does not fit. -/
def overflows (o : IROp) (a b : BitVec 32) : Prop :=
  ∃ z, exactOp o a b = some z ∧ ¬ Dbl.FitsInt32 z

/-- Whether a comparison guard holds on two words. -/
@[grind =]
def evalGuard {w : ℕ} (o : IROp) (a b : BitVec w) : Option Bool :=
  match o with
  | .lt => some (a.slt b)
  | .ge => some (!a.slt b)
  | .le => some (a.sle b)
  | .gt => some (!a.sle b)
  | .ult => some (a.ult b)
  | .uge => some (!a.ult b)
  | .ule => some (a.ule b)
  | .ugt => some (!a.ule b)
  | .abc => some (b.ult a)
  | .eq => some (a == b)
  | .ne => some (a != b)
  | _ => none

end Ir
