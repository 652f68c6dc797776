/-
**64 bit integer helpers of the FFI arithmetic.**

The functions of `lj_carith.c` that constant folding shares with the interpreter and with compiled
code: the 64 bit shifts and rotates, and division, modulo and power with their fixed results for
the operands C leaves undefined.
-/

import LuaJit.Word
import LuaJit.IrDef

set_option relaxedAutoImplicit false
set_option autoImplicit false

namespace Carith

open Ir

/-- `lj_carith_shift64`. -/
def shift64 (x : BitVec 64) (sh : BitVec 32) (op : IROp) : BitVec 64 :=
  let n := (sh &&& 63#32).toNat
  match op with
  | .bshl => x <<< n
  | .bshr => x >>> n
  | .bsar => x.sshiftRight n
  | .brol => Word.rol x n
  | .bror => Word.ror x n
  | _ => x

/-- The result for division by zero and for the quotient that does not fit. -/
def divUndef : BitVec 64 := 0x8000000000000000#64

/-- `lj_carith_divu64`. -/
def divu64 (a b : BitVec 64) : BitVec 64 := if b = 0 then divUndef else a / b

/-- `lj_carith_divi64`. -/
def divi64 (a b : BitVec 64) : BitVec 64 :=
  if b = 0 ∨ (a = divUndef ∧ b = -1) then divUndef else a.sdiv b

/-- `lj_carith_modu64`. -/
def modu64 (a b : BitVec 64) : BitVec 64 := if b = 0 then divUndef else a % b

/-- `lj_carith_modi64`. -/
def modi64 (a b : BitVec 64) : BitVec 64 :=
  if b = 0 then divUndef else if a = divUndef ∧ b = -1 then 0 else a.srem b

/-- The first loop of `lj_carith_powu64`: squaring while the exponent is even. -/
def powEven : ℕ → BitVec 64 → BitVec 64 → BitVec 64 × BitVec 64
  | 0, x, k => (x, k)
  | fuel + 1, x, k => if k &&& 1 = 0 then powEven fuel (x * x) (k >>> 1) else (x, k)

/-- The second loop of `lj_carith_powu64`, from a nonzero exponent; the last square is multiplied
in after the loop. -/
def powOdd : ℕ → BitVec 64 → BitVec 64 → BitVec 64 → BitVec 64
  | 0, _, y, _ => y
  | fuel + 1, x, y, k =>
      let x := x * x
      if k = 1 then y * x
      else powOdd fuel x (if k &&& 1 = 0 then y else y * x) (k >>> 1)

/-- `lj_carith_powu64`.  Each round shifts the exponent, so 64 rounds are enough. -/
def powu64 (x k : BitVec 64) : BitVec 64 :=
  if k = 0 then 1
  else
    let (x, k) := powEven 64 x k
    if k >>> 1 = 0 then x else powOdd 64 x x (k >>> 1)

/-- `lj_carith_powi64`. -/
def powi64 (x k : BitVec 64) : BitVec 64 :=
  if k = 0 then 1
  else if k.slt 0 then
    if x = 0 then 0x7fffffffffffffff#64
    else if x = 1 then 1
    else if x = -1 then (if k &&& 1 = 0 then 1 else -1)
    else 0
  else powu64 x k

end Carith
