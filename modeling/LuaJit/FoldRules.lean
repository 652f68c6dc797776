/-
**Rules of FOLD.**

The actions of the rules of `lj_opt_fold.c`, as functions on the state of the compiler, and the two
rules for the modulo operator.  A rule reads the instruction `fins` and the copies `fleft` and
`fright` of its operands.  It may intern constants, change `fins` and ask for another round, or name
the reference that replaces the instruction.

Main definitions:

* `Ir.Target` — the properties of the target architecture that rules ask for;
* `Ir.JitState.nextFold`, `Ir.JitState.retryFold` — what a rule may do;
* `Ir.simplifyIntmodK`, `Ir.simplifyIntmodKleft` — the rules, under the names of the source.
-/

import LuaJit.IrEnv

set_option relaxedAutoImplicit false
set_option autoImplicit false

namespace Ir

/-! ### The parts of a rule -/

/-- The target architecture. -/
structure Target where
  /-- `LJ_TARGET_X64`. -/
  x64 : Bool
  /-- `LJ_64`. -/
  lj64 : Bool
  /-- `LJ_TARGET_MASKSHIFT`: shift instructions mask the count. -/
  maskshift : Bool
  /-- `LJ_TARGET_MASKROT`: rotate instructions mask the count. -/
  maskrot : Bool
  /-- `LJ_TARGET_UNIFYROT` is defined: the backend unifies the rotates. -/
  unifyrot : Bool
  deriving DecidableEq

/-- Why a trace is aborted. -/
inductive TraceError
  /-- `LJ_TRERR_GFAIL`: a guard would always fail. -/
  | gfail
  deriving DecidableEq

/-- What the fold engine returns: nothing if it has not come to an end, or a trace error, or a
reference. -/
abbrev FoldOut (α : Type) := Option (Except TraceError (α × JitState))

namespace JitState

/-- `LEFTFOLD`. -/
def leftFold (J : JitState) : FoldRes × JitState := (.ref J.fins.op1, J)

/-- `NEXTFOLD`. -/
def nextFold (J : JitState) : FoldRes × JitState := (.next, J)

/-- `RETRYFOLD` with a changed instruction. -/
def retryFold (J : JitState) (ins : IRIns) : FoldRes × JitState := (.retry, { J with fins := ins })

/-- `PHIBARRIER(fleft)`. -/
def phiBarrierLeft (J : JitState) (rest : FoldRes × JitState) : FoldRes × JitState :=
  if J.fleft.t.isphi then J.nextFold else rest

/-- `lj_ir_set`: the instruction of `emitir`. -/
def setIns (J : JitState) (o : IROp) (t : IRType1) (op1 op2 : ℕ) : JitState :=
  { J with fins := { J.fins with o := o, t := t, op1 := op1, op2 := op2 } }

end JitState

open JitState

/-! ### The modulo operator -/

end Ir
