/-
**The SSA intermediate representation: opcodes, types, instructions and the IR store.**

The data of `lj_ir.h` and the part of `jit_State` (`lj_jit.h`) that the FOLD engine reads and
writes.  Constants live below `refBias` and grow downwards, instructions live from `refBias` on and
grow upwards; every instruction is linked to the previous one with the same opcode through `prev`,
starting at `chain`.

Main definitions:

* `Ir.IROp`, `Ir.IRType`, `Ir.IRType1` — opcodes, result types and result types with flags;
* `Ir.IRIns` — one instruction; the constant payloads, which overlap the operands in C, are fields
  of their own;
* `Ir.JitState` — the IR store with its chains, and the instruction being folded;
* `Ir.JitState.kint`, `Ir.JitState.kint64`, `Ir.JitState.emit`, `Ir.JitState.cse` — interning of
  constants, raw emission and common subexpression elimination.
-/

import Mathlib

set_option relaxedAutoImplicit false
set_option autoImplicit false

namespace Ir

/-! ### Opcodes and types -/

/-- IR opcodes, in the order of `IRDEF`. -/
inductive IROp
  | lt | ge | le | gt | ult | uge | ule | ugt | eq | ne | abc | retf
  | nop | base | pval | gcstep | hiop | loop | use | phi | rename | prof
  | kpri | kint | kgc | kptr | kkptr | knull | knum | kint64 | kslot
  | bnot | bswap | band | bor | bxor | bshl | bshr | bsar | brol | bror
  | add | sub | mul | div | mod | pow | neg
  | abs | atan2 | ldexp | min | max | fpmath
  | addov | subov | mulov
  | aref | hrefk | href | newref | urefo | urefc | fref | strref | lref
  | aload | hload | uload | fload | xload | sload | vload
  | astore | hstore | ustore | fstore | xstore
  | snew | xsnew | tnew | tdup | cnew | cnewi
  | bufhdr | bufput | bufstr
  | tbar | obar | xbar
  | conv | tobit | tostr | strto
  | calln | calla | calll | calls | callxs | carg
  deriving DecidableEq, Inhabited

/-- Result types, in the order of `IRTDEF`. -/
inductive IRType
  | nil | false | true | lightud | str | p32 | thread | proto | func | p64 | cdata | tab | udata
  | float | num | i8 | u8 | i16 | u16 | int | u32 | i64 | u64 | softfp
  deriving DecidableEq, Inhabited

/-- A stored result type: the type with its flags. -/
structure IRType1 where
  /-- `irt_type`. -/
  type : IRType
  /-- `IRT_GUARD`: the instruction is a guard. -/
  isguard : Bool := false
  /-- `IRT_ISPHI`: the instruction is an operand of a PHI. -/
  isphi : Bool := false
  deriving DecidableEq, Inhabited

/-- `REF_BIAS`.  References are natural numbers: constants are below, instructions are at or
above. -/
def refBias : ℕ := 0x8000

/-- `REF_DROP`. -/
def refDrop : ℕ := 0xffff

/-- `irref_isk`. -/
def irrefIsk (ref : ℕ) : Bool := decide (ref < refBias)

/-- One IR instruction. -/
structure IRIns where
  /-- Opcode. -/
  o : IROp
  /-- Result type. -/
  t : IRType1
  /-- Operand 1. -/
  op1 : ℕ := 0
  /-- Operand 2. -/
  op2 : ℕ := 0
  /-- 32 bit literal of a `KINT`. -/
  i : BitVec 32 := 0
  /-- 64 bit pattern of a `KINT64` or `KNUM`. -/
  u64 : BitVec 64 := 0
  /-- Previous instruction in the same chain. -/
  prev : ℕ := 0
  deriving DecidableEq, Inhabited

/-- The cached result of the scalar evolution analysis (`ScEvEntry`). -/
structure ScEv where
  /-- Index reference. -/
  idx : ℕ := 0
  /-- Constant start reference. -/
  start : ℕ := 0
  /-- Constant stop reference. -/
  stop : ℕ := 0
  /-- Direction, up or down. -/
  dir : Bool := true
  deriving DecidableEq, Inhabited

/-- An entry of the backpropagation cache of narrowing (`BPropEntry`). -/
structure BPropEntry where
  /-- Reference of the original instruction. -/
  key : ℕ := 0
  /-- Reference of the narrowed instruction. -/
  val : ℕ := 0
  /-- Conversion mode. -/
  mode : ℕ := 0
  deriving DecidableEq, Inhabited

/-- The part of `jit_State` that FOLD works on. -/
structure JitState where
  /-- The IR, constants and instructions. -/
  ir : ℕ → IRIns
  /-- Lowest constant. -/
  nk : ℕ
  /-- Next instruction. -/
  nins : ℕ
  /-- Heads of the per-opcode chains. -/
  chain : IROp → ℕ
  /-- `JIT_F_OPT_CSE`. -/
  optCse : Bool := true
  /-- `JIT_F_OPT_ABC`. -/
  optAbc : Bool := true
  /-- `JIT_F_OPT_NARROW`. -/
  optNarrow : Bool := true
  /-- Scalar evolution analysis results. -/
  scev : ScEv := {}
  /-- The 16 slots of the backpropagation cache. -/
  bpropcache : List BPropEntry := List.replicate 16 {}
  /-- The next slot to overwrite. -/
  bpropslot : ℕ := 0
  /-- `J->fold.ins`: the instruction being folded. -/
  fins : IRIns
  /-- `J->fold.left`: a copy of the instruction of its left operand. -/
  fleft : IRIns
  /-- `J->fold.right`: a copy of the instruction of its right operand. -/
  fright : IRIns

namespace JitState

/-! ### Chains -/

/-- Walking a chain from `ref` for a constant that satisfies `p`.  The walk ends at the null
reference; `fuel` bounds the number of links followed. -/
def findk (J : JitState) (p : IRIns → Bool) : ℕ → ℕ → Option ℕ
  | 0, _ => none
  | fuel + 1, ref =>
      if ref = 0 then none
      else if p (J.ir ref) then some ref
      else findk J p fuel (J.ir ref).prev

/-- Walking a chain from `ref` for an instruction that satisfies `p`, while it is above `lim`. -/
def findins (J : JitState) (p : IRIns → Bool) (lim : ℕ) : ℕ → ℕ → Option ℕ
  | 0, _ => none
  | fuel + 1, ref =>
      if ref ≤ lim then none
      else if p (J.ir ref) then some ref
      else findins J p lim fuel (J.ir ref).prev

/-- Adding a constant at the bottom (`ir_nextk` and the assignments that follow it). -/
def addk (J : JitState) (ins : IRIns) : ℕ × JitState :=
  let ref := J.nk - 1
  (ref, { J with
    ir := Function.update J.ir ref { ins with prev := J.chain ins.o }
    nk := ref
    chain := Function.update J.chain ins.o ref })

/-- Adding an instruction at the top (`lj_ir_nextins` and the assignments that follow it). -/
def addins (J : JitState) (ins : IRIns) : ℕ × JitState :=
  (J.nins, { J with
    ir := Function.update J.ir J.nins { ins with prev := J.chain ins.o }
    nins := J.nins + 1
    chain := Function.update J.chain ins.o J.nins })

/-- `lj_ir_kint`: interning of a 32 bit constant. -/
def kint (J : JitState) (k : BitVec 32) : ℕ × JitState :=
  match J.findk (fun ins => ins.i = k) refBias (J.chain .kint) with
  | some ref => (ref, J)
  | none => J.addk { o := .kint, t := { type := .int }, i := k }

/-- `lj_ir_kint64`: interning of a 64 bit integer constant. -/
def kint64 (J : JitState) (k : BitVec 64) : ℕ × JitState :=
  match J.findk (fun ins => ins.u64 = k) refBias (J.chain .kint64) with
  | some ref => (ref, J)
  | none => J.addk { o := .kint64, t := { type := .i64 }, u64 := k }

/-- `lj_ir_emit`: emission without any optimization. -/
def emit (J : JitState) : ℕ × JitState := J.addins J.fins

/-- `lj_opt_cse`: emission after a search for the same operands in the chain of the opcode. -/
def cse (J : JitState) : ℕ × JitState :=
  let same := fun ins : IRIns => ins.op1 = J.fins.op1 ∧ ins.op2 = J.fins.op2
  let found :=
    if J.optCse then
      J.findins (fun ins => same ins) (max J.fins.op1 J.fins.op2) J.nins (J.chain J.fins.o)
    else none
  match found with
  | some ref => (ref, J)
  | none => J.addins J.fins

/-- Loading the operands of the instruction, at the start of `lj_opt_fold`.  A literal operand is
below all references and leaves the old copy. -/
def load (J : JitState) : JitState :=
  { J with
    fleft := if J.nk ≤ J.fins.op1 then J.ir J.fins.op1 else J.fleft
    fright := if J.nk ≤ J.fins.op2 then J.ir J.fins.op2 else J.fright }

/-- The empty store, at the start of a trace. -/
def empty : JitState :=
  { ir := fun _ => default
    nk := refBias
    nins := refBias
    chain := fun _ => 0
    fins := default
    fleft := default
    fright := default }

/-- The store after adding constants and instructions in turn, with an instruction to fold. -/
def ofCode (ks code : List IRIns) (fins : IRIns) : JitState :=
  let J := ks.foldl (fun J ins => (J.addk ins).2) empty
  let J := code.foldl (fun J ins => (J.addins ins).2) J
  load { J with fins := fins }

end JitState

end Ir
