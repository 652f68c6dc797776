/-
**The IR store in memory.**

Instructions and constants of a trace are in one block of memory.  References are offsets to a base pointer that is
biased, so that the constants are below `REF_BASE` and grow downwards, while the instructions grow upwards from
there.  The block grows at its top and at its bottom, and its contents are shifted up when there is much
room at the top.  Each instruction is linked to the one before with the same opcode.  Constants are interned, and
those of 64 bits are in arrays of their own, which never move.

Main definitions:

* `IrStore.IRIns`, `IrStore.JitState`, `IrStore.Stop` — an instruction, the state, and why an operation stops;
* `IrStore.growtop`, `IrStore.growbot` — the growth of the block;
* `IrStore.emit`, `IrStore.kint`, `IrStore.k64Find`, `IrStore.rollback`, … — the operations;
* `IrStore.Const`, `IrStore.Op`, `IrStore.exec` — all constants and all operations, as they are run.
-/

import LuaJit.IrEnv

set_option relaxedAutoImplicit false
set_option autoImplicit false

namespace IrStore

open Ir (IROp)

/-! ### References and types -/

/-- `REF_BASE`, `REF_FIRST`, `REF_TRUE`, `REF_NIL`. -/
def refBase : ℕ := 0x8000
def refFirst : ℕ := 0x8001
def refTrue : ℕ := 0x7ffd
def refNil : ℕ := 0x7fff

/-- `LJ_MIN_IRSZ`, `LJ_MIN_K64SZ`. -/
def ljMinIrsz : ℕ := 32
def ljMinK64sz : ℕ := 16

/-- `IRT_NIL`, `IRT_P32`, `IRT_NUM`, `IRT_INT`, `IRT_I64`. -/
def irtNil : BitVec 8 := 0
def irtP32 : BitVec 8 := 5
def irtNum : BitVec 8 := 14
def irtInt : BitVec 8 := 19
def irtI64 : BitVec 8 := 21

/-- Sum and difference of unsigned numbers of 32 bits. -/
def add32 (a b : ℕ) : ℕ := if a + b < 2 ^ 32 then a + b else a + b - 2 ^ 32
def sub32 (a b : ℕ) : ℕ := if b ≤ a then a - b else a + 2 ^ 32 - b

/-- The cast to `IRRef1`. -/
def irref1 (ref : ℕ) : ℕ := ref % 2 ^ 16

/-! ### The state -/

/-- An instruction: `op12` holds two operands or a constant, and `prev` is the link of the chain. -/
structure IRIns where
  op12 : BitVec 32
  t : BitVec 8
  o : IROp
  prev : ℕ
  deriving DecidableEq

/-- A tagged reference. -/
structure TRef where
  ref : ℕ
  t : BitVec 8
  deriving DecidableEq

/-- An array of 64 bit constants at an address, with its used elements. -/
structure K64Array where
  addr : ℕ
  k : List (BitVec 64)
  deriving DecidableEq

/-- The IR store: the block that the allocator gave for the IR, at `base`, and what points into it. -/
structure JitState where
  base : ℤ
  mem : List (Option IRIns)
  irbuf : ℤ
  irbotlim : ℕ
  irtoplim : ℕ
  nins : ℕ
  nk : ℕ
  chain : IROp → ℕ
  guardemit : BitVec 8
  k64 : List K64Array

/-- Why an operation stops: `lj_err_mem`, an access outside of the block or to a cell that was never written, a
pointer that is not the one of the block, or the fuel of the model. -/
inductive Stop where
  | mem
  | access
  | fuel
  deriving DecidableEq

/-- An operation on the store. -/
abbrev M := EStateM Stop JitState

/-- What the allocator does during an operation: where a new block for the IR is, and where a new array of
constants is. -/
structure Alloc where
  ir : Option ℤ
  k64 : Option ℕ

/-- Before the first trace. -/
def JitState.fresh : JitState :=
  ⟨0, [], 0, 0, 0, 0, 0, fun _ => 0, 0, []⟩

/-- The offset of `IR(ref)` in the block. -/
def JitState.ofs (J : JitState) (ref : ℕ) : ℤ := J.irbuf + ref - J.base

/-- What `IR(ref)` holds, if this is in the block. -/
def JitState.at (J : JitState) (ref : ℕ) : Option IRIns :=
  if 0 ≤ J.ofs ref then (J.mem[(J.ofs ref).toNat]?).join else none

/-- Reading `IR(ref)`. -/
def ir (ref : ℕ) : M IRIns := fun J =>
  match J.at ref with
  | some ins => .ok ins J
  | none => .error .access J

/-- Writing `IR(ref)`. -/
def setIr (ref : ℕ) (ins : IRIns) : M Unit := fun J =>
  if 0 ≤ J.ofs ref ∧ J.ofs ref < J.mem.length then
    .ok () { J with mem := J.mem.set (J.ofs ref).toNat (some ins) }
  else .error .access J

/-- `J->chain[o] = ref`. -/
def setChain (o : IROp) (ref : ℕ) : M Unit := fun J => .ok () { J with chain := Function.update J.chain o ref }

/-! ### Growth of the block -/

/-- `lj_ir_growtop`. -/
def growtop (alloc : Option ℤ) : M Unit := fun J =>
  let baseir := J.irbuf + J.irbotlim
  let szins := sub32 J.irtoplim J.irbotlim
  if szins ≠ 0 then
    if baseir ≠ J.base ∨ szins ≠ J.mem.length then .error .access J
    else match alloc with
      | none => .error .mem J
      | some a => .ok () { J with
          base := a
          mem := J.mem ++ List.replicate szins none
          irtoplim := add32 J.irbotlim (2 * szins)
          irbuf := a - J.irbotlim }
  else match alloc with
    | none => .error .mem J
    | some a => .ok () { J with
        base := a
        mem := List.replicate ljMinIrsz none
        irbotlim := refBase - ljMinIrsz / 4
        irtoplim := refBase - ljMinIrsz / 4 + ljMinIrsz
        irbuf := a - (refBase - ljMinIrsz / 4 : ℕ) }

/-- The room that `lj_ir_growbot` makes below the constants, and whether it shifts. -/
def JitState.shifts (J : JitState) : Prop := add32 J.nins (sub32 J.irtoplim J.irbotlim / 2) < J.irtoplim

instance (J : JitState) : Decidable J.shifts := inferInstanceAs (Decidable (_ < _))

def JitState.botOfs (J : JitState) : ℕ :=
  let szins := sub32 J.irtoplim J.irbotlim
  if J.shifts then szins / 4 else if szins ≥ 256 then 128 else szins / 2

/-- `lj_ir_growbot`. -/
def growbot (alloc : Option ℤ) : M Unit := fun J =>
  let baseir := J.irbuf + J.irbotlim
  let szins := sub32 J.irtoplim J.irbotlim
  let n := sub32 J.nins J.irbotlim
  let ofs := J.botOfs
  let botlim := sub32 J.irbotlim ofs
  if baseir ≠ J.base ∨ szins ≠ J.mem.length ∨ szins < n then .error .access J
  else if J.shifts then
    -- `memmove`: the cells below the new place of the instructions keep what they had.
    if szins < ofs + n then .error .access J
    else .ok () { J with
      mem := J.mem.take ofs ++ J.mem.take n ++ J.mem.drop (ofs + n)
      irbotlim := botlim
      irtoplim := sub32 J.irtoplim ofs
      irbuf := baseir - botlim }
  else match alloc with
    | none => .error .mem J
    | some a =>
        if 2 * szins < ofs + n then .error .access J
        else .ok () { J with
          base := a
          mem := List.replicate ofs none ++ J.mem.take n ++ List.replicate (2 * szins - (ofs + n)) none
          irbotlim := botlim
          irtoplim := add32 botlim (2 * szins)
          irbuf := a - botlim }

/-! ### Instructions -/

/-- `lj_ir_nextins`. -/
def nextins (alloc : Option ℤ) : M ℕ := do
  let ref := (← get).nins
  if ref ≥ (← get).irtoplim then growtop alloc
  modify fun J => { J with nins := add32 ref 1 }
  return ref

/-- `lj_ir_emit`; the instruction that is folded has its operands, its type and its opcode here. -/
def emit (alloc : Option ℤ) (op12 : BitVec 32) (t : BitVec 8) (o : IROp) : M TRef := do
  let ref ← nextins alloc
  setIr ref ⟨op12, t, o, (← get).chain o⟩
  setChain o (irref1 ref)
  modify fun J => { J with guardemit := J.guardemit ||| t }
  return ⟨ref, t⟩

/-- The loop of `lj_ir_rollback`. -/
def rollbackLoop (ref : ℕ) : ℕ → M ℕ
  | 0 => pure 0
  | nins + 1 =>
      if nins + 1 > ref then do
        let ins ← ir nins
        setChain ins.o ins.prev
        rollbackLoop ref nins
      else pure (nins + 1)

/-- `lj_ir_rollback`. -/
def rollback (ref : ℕ) : M Unit := do
  let nins ← rollbackLoop ref (← get).nins
  modify fun J => { J with nins := nins }

/-! ### Constants -/

/-- `ir_nextk`. -/
def nextk (alloc : Option ℤ) : M ℕ := do
  let ref := (← get).nk
  if ref ≤ (← get).irbotlim then growbot alloc
  modify fun J => { J with nk := sub32 ref 1 }
  return sub32 ref 1

/-- The loop that looks for a constant in a chain. -/
def findk (p : IRIns → Bool) : ℕ → ℕ → M (Option ℕ)
  | 0, _ => throw .fuel
  | fuel + 1, ref =>
      if ref = 0 then pure none
      else do
        let ins ← ir ref
        if p ins then pure (some ref) else findk p fuel ins.prev

/-- All interning functions: the test, and the constant that is added when none is found. -/
def internk (alloc : Option ℤ) (o : IROp) (p : IRIns → Bool) (op12 : BitVec 32) (t : BitVec 8) : M TRef := do
  match ← findk p refBase ((← get).chain o) with
  | some ref => return ⟨ref, t⟩
  | none =>
      let ref ← nextk alloc
      setIr ref ⟨op12, t, o, (← get).chain o⟩
      setChain o (irref1 ref)
      return ⟨ref, t⟩

/-- `lj_ir_kint`. -/
def kint (alloc : Option ℤ) (k : BitVec 32) : M TRef :=
  internk alloc .kint (fun ins => ins.op12 = k) k irtInt

/-- The address of an element of an array of constants. -/
def K64Array.slot (a : K64Array) (idx : ℕ) : ℕ := a.addr + 8 + 8 * idx

/-- The size of such an array. -/
def sizeofK64Array : ℕ := 8 + 8 * ljMinK64sz

/-- The search of `lj_ir_k64_find`. -/
@[grind =]
def findSlot (u64 : BitVec 64) : List K64Array → Option ℕ
  | [] => none
  | a :: l =>
      match a.k.findIdx? (· == u64) with
      | some idx => some (a.slot idx)
      | none => findSlot u64 l

/-- The two cases of `ir_k64_add`: a new array, and the last array when it has room. -/
def k64New (alloc : Option ℕ) (u64 : BitVec 64) : M ℕ := fun J =>
  match alloc with
  | none => .error .mem J
  | some a => .ok ((⟨a, [u64]⟩ : K64Array).slot 0) { J with k64 := J.k64 ++ [⟨a, [u64]⟩] }

def k64Push (kp : K64Array) (u64 : BitVec 64) : M ℕ := fun J =>
  .ok (kp.slot kp.k.length) { J with k64 := J.k64.dropLast ++ [{ kp with k := kp.k ++ [u64] }] }

/-- `ir_k64_add`; `kp` is the last array. -/
def k64Add (alloc : Option ℕ) (u64 : BitVec 64) : M ℕ := do
  match (← get).k64.getLast? with
  | some kp => if kp.k.length < ljMinK64sz then k64Push kp u64 else k64New alloc u64
  | none => k64New alloc u64

/-- `lj_ir_k64_find`. -/
def k64Find (alloc : Option ℕ) (u64 : BitVec 64) : M ℕ := do
  match findSlot u64 (← get).k64 with
  | some tv => return tv
  | none => k64Add alloc u64

/-- `lj_ir_k64`. -/
def k64 (alloc : Option ℤ) (o : IROp) (tv : ℕ) : M TRef :=
  internk alloc o (fun ins => ins.op12 = BitVec.ofNat 32 tv) (BitVec.ofNat 32 tv)
    (if o = .knum then irtNum else irtI64)

/-- `lj_ir_knum_u64`. -/
def knumU64 (alloc : Alloc) (u64 : BitVec 64) : M TRef := do
  k64 alloc.ir .knum (← k64Find alloc.k64 u64)

/-- `lj_ir_kint64`. -/
def kint64 (alloc : Alloc) (u64 : BitVec 64) : M TRef := do
  k64 alloc.ir .kint64 (← k64Find alloc.k64 u64)

/-- `lj_ir_kgc`. -/
def kgc (alloc : Option ℤ) (o : BitVec 32) (t : BitVec 8) : M TRef :=
  internk alloc .kgc (fun ins => ins.op12 = o) o t

/-- `lj_ir_kptr_`. -/
def kptr (alloc : Option ℤ) (op : IROp) (ptr : BitVec 32) : M TRef :=
  internk alloc op (fun ins => ins.op12 = ptr) ptr irtP32

/-- `lj_ir_knull`. -/
def knull (alloc : Option ℤ) (t : BitVec 8) : M TRef :=
  internk alloc .knull (fun ins => ins.t = t) 0 t

/-- `lj_ir_kslot`; the key is a constant and its reference is below the slot in `op12`. -/
def kslot (alloc : Option ℤ) (key slot : BitVec 16) : M TRef :=
  internk alloc .kslot (fun ins => ins.op12 = slot ++ key) (slot ++ key) irtP32

/-! ### The start of a trace -/

/-- One of the fixed references. -/
def setPrim (i : ℕ) : M Unit := setIr (refNil - i) ⟨0, irtNil + BitVec.ofNat 8 i, .kpri, 0⟩

/-- What `trace_start` and `lj_record_setup` do with the store. -/
def start (alloc : Option ℤ) (parent exitno : BitVec 16) : M Unit := do
  modify fun J => { J with nins := refBase, nk := refBase, guardemit := 0, chain := fun _ => 0 }
  let _ ← emit alloc (exitno ++ parent) irtP32 .base
  setPrim 0
  setPrim 1
  setPrim 2
  modify fun J => { J with nk := refTrue }

/-! ### Operations -/

/-- A constant: numbers by their bits, objects and pointers by their addresses. -/
inductive Const where
  | kint (k : BitVec 32)
  | kint64 (u64 : BitVec 64)
  | knum (u64 : BitVec 64)
  | kgc (o : BitVec 32)
  | kptr (ptr : BitVec 32)
  | kkptr (ptr : BitVec 32)
  | knull (t : BitVec 8)
  | kslot (key slot : BitVec 16)
  deriving DecidableEq

/-- The kind of a constant. -/
def Const.op : Const → IROp
  | .kint _ => .kint
  | .kint64 _ => .kint64
  | .knum _ => .knum
  | .kgc _ => .kgc
  | .kptr _ => .kptr
  | .kkptr _ => .kkptr
  | .knull _ => .knull
  | .kslot _ _ => .kslot

/-- An operation while a trace is recorded; an object comes with its type. -/
inductive Op where
  | emit (op12 : BitVec 32) (t : BitVec 8) (o : IROp)
  | intern (c : Const) (t : BitVec 8)
  | rollback (ref : ℕ)

/-- Interning of any constant. -/
def intern (alloc : Alloc) (t : BitVec 8) : Const → M TRef
  | .kint k => kint alloc.ir k
  | .kint64 u64 => kint64 alloc u64
  | .knum u64 => knumU64 alloc u64
  | .kgc o => kgc alloc.ir o t
  | .kptr ptr => kptr alloc.ir .kptr ptr
  | .kkptr ptr => kptr alloc.ir .kkptr ptr
  | .knull t => knull alloc.ir t
  | .kslot key slot => kslot alloc.ir key slot

/-- A run of an operation, with the reference that it returns. -/
def exec (alloc : Alloc) : Op → M (Option TRef)
  | .emit op12 t o => do return some (← emit alloc.ir op12 t o)
  | .intern c t => do return some (← intern alloc t c)
  | .rollback ref => do
      rollback ref
      return none

end IrStore
