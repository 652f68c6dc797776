/-
**Bytecode instructions.**

The instruction word of the virtual machine: an 8 bit opcode, an 8 bit operand `A` and a 16 bit
operand `D`, which is read either as one number, as a biased jump, or as the two 8 bit operands `B`
and `C`.  The opcodes are listed in the order of `BCDEF`, because the trace compiler moves between
an instruction, its interpreted form and its compiled form by adding to the opcode number.

Main definitions:

* `Bc.BCOp`, `Bc.BCOp.shift` — opcodes, and the arithmetic on them;
* `Bc.BCIns`, `Bc.bcB`, `Bc.bcC`, `Bc.bcJ` — the instruction word and its operands;
* `Bc.bcIsret` — return instructions;
* `Bc.jumpTo` — the position a jump offset leads to.
-/

import Mathlib

set_option relaxedAutoImplicit false
set_option autoImplicit false

namespace Bc

/-- The opcodes, in the order of `BCDEF`. -/
inductive BCOp
  -- comparisons
  | islt | isge | isle | isgt
  | iseqv | isnev | iseqs | isnes | iseqn | isnen | iseqp | isnep
  -- unary tests and copies
  | istc | isfc | ist | isf | istype | isnum
  -- unary operations
  | mov | not | unm | len
  -- binary operations
  | addvn | subvn | mulvn | divvn | modvn
  | addnv | subnv | mulnv | divnv | modnv
  | addvv | subvv | mulvv | divvv | modvv
  | pow | cat
  -- constants
  | kstr | kcdata | kshort | knum | kpri | knil
  -- upvalues and functions
  | uget | usetv | usets | usetn | usetp | uclo | fnew
  -- tables
  | tnew | tdup | gget | gset
  | tgetv | tgets | tgetb | tgetr | tsetv | tsets | tsetb | tsetm | tsetr
  -- calls
  | callm | call | callmt | callt | iterc | itern | varg | isnext
  -- returns
  | retm | ret | ret0 | ret1
  -- loops and branches
  | fori | jfori
  | forl | iforl | jforl
  | iterl | iiterl | jiterl
  | loop | iloop | jloop
  | jmp
  -- function headers
  | funcf | ifuncf | jfuncf | funcv | ifuncv | jfuncv | funcc | funccw
  deriving DecidableEq

/-- `(int)op + (int)to - (int)from`, as an opcode. -/
def BCOp.shift (op dst src : BCOp) : BCOp := BCOp.ofNat (op.ctorIdx + dst.ctorIdx - src.ctorIdx)

/-- An instruction word. -/
structure BCIns where
  op : BCOp
  a : BitVec 8
  d : BitVec 16
  deriving DecidableEq

/-- The operand `B`: the high half of `D`. -/
def bcB (ins : BCIns) : BitVec 8 := ins.d.extractLsb' 8 8

/-- The operand `C`: the low half of `D`. -/
def bcC (ins : BCIns) : BitVec 8 := ins.d.extractLsb' 0 8

/-- The jump offset: `D` without its bias. -/
def bcJ (ins : BCIns) : ℤ := (ins.d.toNat : ℤ) - 0x8000

/-- The position that lies `ofs` behind `pc`. -/
def jumpTo (pc : ℕ) (ofs : ℤ) : ℕ := ((pc : ℤ) + ofs).toNat

/-- Is this a return instruction? -/
def bcIsret (op : BCOp) : Bool := op matches .retm | .ret | .ret0 | .ret1

/-- Splitting `D` into `B` and `C` loses nothing. -/
theorem bcB_append_bcC (ins : BCIns) : bcB ins ++ bcC ins = ins.d := by
  apply BitVec.eq_of_getLsbD_eq
  intro i hi
  rw [BitVec.getLsbD_append]
  split
  · simp [bcC, *]
  · simp only [bcB, BitVec.getLsbD_extractLsb']
    have h₁ : i - 8 < 8 := by lia
    have h₂ : 8 + (i - 8) = i := by lia
    simp [h₁, h₂]

end Bc
