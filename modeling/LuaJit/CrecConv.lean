/-
**C type conversions of the trace recorder.**

`crec_ct_ct`, `crec_ct_tv` and `crec_tv_ct` mirror the conversions of the interpreter, but emit
instructions: a load, a `CONV` where the registers differ, and a store.  Conversions that do not change
a register are dropped, since a 32 bit value in a 64 bit register is zero-extended.

Main definitions:

* `Crec.Ir`, `Crec.Guard` — the emitted instructions, and `Crec.eval`, their value for a later operand;
* `Crec.crecCtCt`, `Crec.crecCtTv`, `Crec.crecTvCt` — the three functions of the recorder;
* `Crec.StoreOk` — the later values that are stored as the interpreter stores them.

Main results:

* `Crec.crecConvII_spec` — dropped or not, an integer conversion keeps the bytes that are stored;
* `Crec.crecCtCt_iff` — two C types agree, but for the sign of an integer that becomes a pointer;
* `Crec.conv_agrees` — **the stored bytes, and the loaded Lua values, are those of the interpreter
  exactly when `StoreOk` holds, and the type of a boxed object has no attributes**.
-/

import LuaJit.Cconv

set_option relaxedAutoImplicit false
set_option autoImplicit false

namespace Crec

open Cconv

/-! ### Instructions -/

/-- The types of the instructions. -/
inductive IrType where
  | i8
  | u8
  | i16
  | u16
  | int
  | u32
  | i64
  | u64
  | p32
  | p64
  | num
  deriving DecidableEq

/-- The types of 64 bits. -/
def IrType.is64 : IrType → Bool
  | i64 | u64 | p64 | num => true
  | _ => false

/-- `IRT_I8 + 2*b + unsigned`. -/
def intIr (isUnsigned : Bool) : IntSize → IrType
  | .s1 => if isUnsigned then .u8 else .i8
  | .s2 => if isUnsigned then .u16 else .i16
  | .s4 => if isUnsigned then .u32 else .int
  | .s8 => if isUnsigned then .u64 else .i64

/-- `IRT_PTR` and `IRT_UINTP`. -/
def irtPtr (T : Target) : IrType := if T.is64 then .p64 else .p32
def irtUintp (T : Target) : IrType := if T.is64 then .u64 else .u32

/-- `crec_ct2irt`. -/
def ct2irt (T : Target) : RawType → IrType
  | .bool => .u8
  | .int u sz => intIr u sz
  | .ptr nw c => if T.is64 && (RawType.ptr nw c).size T == 8 then .p64 else .p32

/-- The emitted expressions. -/
inductive Ir where
  /-- the slot of a Lua number, as an integer or as a number -/
  | slotInt
  | slotNum
  | kint (i : ℤ)
  | kptr (p : ℕ)
  /-- a load from the object: the payload of a cdata object, or what a reference refers to -/
  | load (t : IrType)
  /-- the pointer in a reference -/
  | refptr
  | strdata
  | udfile
  | udpayload
  | lightud
  | conv (dt st : IrType) (sext : Bool) (a : Ir)
  deriving DecidableEq

/-- The emitted guards: a comparison with zero, the identity of a string, the kind of a userdata. -/
inductive Guard where
  | nz (t : IrType) (a : Ir) (isnz : Bool)
  | strEq (name : String)
  | udFile
  deriving DecidableEq

/-- The value of an instruction: a register, with the upper part cleared for 32 bit types, or a
number. -/
inductive Val (D : Type) where
  | reg (r : ℕ)
  | num (x : D)

/-- The register of an integer of at most, or of more than, 32 bits. -/
def regVal (is64 : Bool) (z : ℤ) : ℕ := (z % 2 ^ (if is64 then 64 else 32)).toNat

section
variable {D : Type} (T : Target) (N : NumSem D) (E : Types)

/-- `XLOAD` and `FLOAD` of integers: small signed integers are sign-extended to 32 bits. -/
def loadVal (t : IrType) (bs : List (BitVec 8)) : Val D :=
  match t with
  | .i8 | .i16 => .reg (regVal false (Bytes.toInt false (T.mem bs)))
  | _ => .reg (T.load bs)

/-- `CONV`: sign or zero extension to 64 bits, truncation to 32 bits, or a cast of a number. -/
@[grind =]
def convVal (dt st : IrType) (sext : Bool) : Val D → Val D
  | .num x =>
      match dt with
      | .int => .reg (regVal false (N.toI32 x))
      | .u32 => .reg (regVal false (N.toU32 x))
      | .i64 => .reg (regVal true (N.toI64 x))
      | .u64 => .reg (regVal true (N.toU64 x))
      | _ => .num x
  | .reg r =>
      if dt = .num then
        .num (N.ofInt (if st = .u32 then ((r % 2 ^ 32 : ℕ) : ℤ) else Int.bmod r (2 ^ 32)))
      else if dt.is64 && !st.is64 then
        .reg (if sext then regVal true (Int.bmod r (2 ^ 32)) else r % 2 ^ 32)
      else if dt.is64 then .reg r
      else .reg (r % 2 ^ 32)

/-- The bytes of the object that is loaded from. -/
def objBytes : TValue T D → List (BitVec 8)
  | .cdata _ bs => bs.1
  | .cref _ _ bs => bs.1
  | _ => []

/-- An address in a register. -/
def addrVal (a : ℕ) : ℕ := a % 256 ^ T.ptrSize

/-- The value of an expression, for a later Lua value. -/
@[grind =]
def eval (o : TValue T D) : Ir → Val D
  | .slotInt =>
      match o with
      | .int i => .reg i.toNat
      | .num x => .reg (regVal false (N.toI32 x))
      | _ => .reg 0
  | .slotNum =>
      match o with
      | .int i => .num (N.ofInt i.toInt)
      | .num x => .num x
      | _ => .reg 0
  | .kint i => .reg (regVal false i)
  | .kptr p => .reg (addrVal T p)
  | .load t => loadVal T t (objBytes T o)
  | .refptr => match o with | .cref _ a _ => .reg (addrVal T a) | _ => .reg 0
  | .strdata => match o with | .str _ data => .reg (addrVal T data) | _ => .reg 0
  | .udfile => match o with | .udata _ file _ => .reg (addrVal T file) | _ => .reg 0
  | .udpayload => match o with | .udata _ _ payload => .reg (addrVal T payload) | _ => .reg 0
  | .lightud => match o with | .lightud u => .reg (lightudV T u) | _ => .reg 0
  | .conv dt st sext a => convVal N dt st sext (eval o a)

/-- A value is not zero. -/
def Val.isnz : Val D → Bool
  | .reg r => decide (r ≠ 0)
  | .num x => !N.isZero x

/-- A later Lua value passes a guard. -/
def Guard.Holds (o : TValue T D) : Guard → Prop
  | .nz _ a isnz => (eval T N o a).isnz N = isnz
  | .strEq name => ∃ data, o = .str name data
  | .udFile => ∃ file payload, o = .udata true file payload

/-- The register that is stored. -/
def Val.toReg : Val D → ℕ
  | .reg r => r
  | .num _ => 0

/-! ### The recorder -/

/-- `conv_I_I`.  `lj_opt_narrow_toint` does not change an integer. -/
def crecConvII (dt : IrType) (dsize : ℕ) (st : IrType) (ssize : ℕ) (isUnsigned : Bool) (sp : Ir) : Ir :=
  if dsize = 8 ∧ ssize < 8 ∧ ¬ (T.is64 = true ∧ isUnsigned = true) then
    -- Extend 32 to 64 bit integer.
    .conv dt (if ssize < 4 then .int else st) (!isUnsigned) sp
  else if dsize < 8 ∧ ssize = 8 then
    -- Truncate from 64 bit integer.
    .conv (if dsize < 4 then .int else dt) st false sp
  else sp

/-- `crec_ct_ct`: the guards, and the value that is stored. -/
@[grind =]
def crecCtCt (d : RawType) (s : SrcType) (sp : Ir) (svisnz : Bool) : Option (List Guard × Ir) :=
  let dt := ct2irt T d
  let dsize := d.size T
  match d, s with
  | .bool, .raw .bool => some ([], sp)
  | .bool, .raw (.int u ssz) =>
      some ([.nz (intIr u ssz) sp svisnz], .kint (if svisnz then 1 else 0))
  | .bool, .double => some ([.nz .num sp svisnz], .kint (if svisnz then 1 else 0))
  | .int _ _, .raw .bool => some ([], crecConvII T dt dsize .u8 1 true sp)
  | .int _ _, .raw (.int u ssz) => some ([], crecConvII T dt dsize (intIr u ssz) ssz.bytes u sp)
  | .int _ _, .double => some ([], .conv (if dsize < 4 then .int else dt) .num false sp)
  | .int _ _, .raw (.ptr _ _) | .int _ _, .chars =>
      if dsize = 8 ↔ T.ptrSize = 8 then
        -- Must insert no-op type conversion.
        some ([], .conv (if dsize < 4 then .int else dt) (irtPtr T) false sp)
      else some ([], crecConvII T dt dsize (irtUintp T) T.ptrSize true sp)
  | .ptr _ _, .raw (.ptr _ _) => some ([], sp)
  | .ptr _ _, .chars => some ([], sp)
  | .ptr _ _, .raw (.int u ssz) =>
      if T.is64 = false ∧ ssz.bytes = 8 then
        -- Truncate from 64 bit integer.
        some ([], .conv .u32 (intIr u ssz) false sp)
      else some ([], sp)
  | .ptr _ _, .double =>
      some ([], .conv (if T.is64 && dsize == 8 then .i64 else .u32) .num false sp)
  | _, _ => none

/-- `crec_ct_tv`, while the Lua value `sval` is recorded; `isInt` is the type of the slot of a number.
For a string that is no constant of the enum the interpreter throws. -/
def crecCtTv (isInt : Bool) (d : CType) (sval : TValue T D) : Option (List Guard × Ir) :=
  match sval with
  | .int i =>
      if isInt then crecCtCt T d.strip (.raw .int32) .slotInt (decide (i.toInt ≠ 0))
      else crecCtCt T d.strip .double .slotNum (decide (i.toInt ≠ 0))
  | .num n =>
      if isInt then crecCtCt T d.strip (.raw .int32) .slotInt (!N.isZero n)
      else crecCtCt T d.strip .double .slotNum (!N.isZero n)
  | .bool b => crecCtCt T d.strip (.raw .bool) (.kint (if b then 1 else 0)) false
  | .nil => crecCtCt T d.strip (.raw (.pvoid E.voidId)) (.kptr 0) false
  | .udata isFile _ _ =>
      if isFile then
        (crecCtCt T d.strip (.raw (.pvoid E.voidId)) .udfile false).map fun r => (.udFile :: r.1, r.2)
      else crecCtCt T d.strip (.raw (.pvoid E.voidId)) .udpayload false
  | .str name _ =>
      match d with
      | .enum _ id =>
          match E.enumConst id name with
          | none => none
          | some (u, k) =>
              (crecCtCt T d.strip (.raw (.int u .s4)) (.kint k) (decide (k ≠ 0))).map
                fun r => (.strEq name :: r.1, r.2)
      | .raw r => crecCtCt T r .chars .strdata false
  | .lightud _ => crecCtCt T d.strip (.raw (.pvoid E.voidId)) .lightud false
  | .cdata c bs =>
      crecCtCt T d.strip (.raw c.strip) (.load (ct2irt T c.strip)) (decide (T.load bs.1 ≠ 0))
  | .cref c _ bs =>
      crecCtCt T d.strip (.raw c.strip)
        -- only a number is loaded through the reference
        (match c.strip with
          | .ptr _ _ => .refptr
          | _ => .load (ct2irt T c.strip))
        (decide (T.load bs.1 ≠ 0))

/-- The result of a recorded load. -/
inductive Loaded where
  | int (ir : Ir)
  | num (ir : Ir)
  | bool (b : Bool)
  | box (id : ℕ) (ir : Ir)
  deriving DecidableEq

/-- The Lua value of a recorded load, for a later object. -/
def Loaded.eval (s : CType) (o : TValue T D) : Loaded → LuaVal D
  | int ir => .int (Int.bmod (Crec.eval T N o ir).toReg (2 ^ 32))
  | num ir =>
      match Crec.eval T N o ir with
      | .num x => .num x
      | .reg r => .int r
  | bool b => .bool b
  | box id ir => .cdata id (T.store (s.strip.size T) (Crec.eval T N o ir).toReg)

end

/-! ### Registers and bytes -/

/-- An integer in a register. -/
structure IsInt (ssize : ℕ) (u : Bool) (z : ℤ) : Prop where
  size : ssize = 1 ∨ ssize = 2 ∨ ssize = 4 ∨ ssize = 8
  ge : -(256 ^ ssize : ℤ) ≤ 2 * z
  lt : z < 256 ^ ssize
  pos : u = true → 0 ≤ z
  half : u = false → 2 * z < 256 ^ ssize

/-- The bounds of an integer of at most 32 bits. -/
theorem IsInt.small {ssize : ℕ} {u : Bool} {z : ℤ} (hz : IsInt ssize u z) (h : ssize < 8) :
    -2 ^ 31 ≤ z ∧ z < 2 ^ 32 ∧ (u = false → z < 2 ^ 31) := by
  obtain ⟨hs, hge, hlt, -, hhalf⟩ := hz
  have hpow : (256 : ℤ) ^ ssize ≤ 2 ^ 32 := by
    rcases hs with rfl | rfl | rfl | rfl <;> first | exact absurd h (by decide) | norm_num
  refine ⟨by omega, by lia, fun hu => ?_⟩
  have := hhalf hu
  lia

/-- The operand of the recorder, and the operand of the interpreter. -/
inductive Operand {D : Type} (T : Target) : SrcType → Mem D → Val D → Prop
  | bool (b : BitVec 8) : Operand T (.raw .bool) (.bytes [b]) (.reg b.toNat)
  | int (u : Bool) (sz : IntSize) (bs : List (BitVec 8)) (h : bs.length = sz.bytes) :
      Operand T (.raw (.int u sz)) (.bytes bs)
        (.reg (regVal (sz.bytes == 8) (Bytes.toInt u (T.mem bs))))
  | ptr (nw : Bool) (c : ℕ) (bs : List (BitVec 8)) (h : bs.length = (RawType.ptr nw c).size T) :
      Operand T (.raw (.ptr nw c)) (.bytes bs) (.reg (T.load bs))
  | chars (a : ℕ) : Operand T .chars (.addr a) (.reg (addrVal T a))
  | double (x : D) : Operand T .double (.dbl x) (.num x)

variable {D : Type}

/-- A Lua number. -/
def IsNumber {T : Target} : TValue T D → Prop
  | .int _ | .num _ => True
  | _ => False

/-- The later values that a trace accepts after it has been recorded with a value: the type of the
slot is the same, and so is the type of a cdata object. -/
inductive Later (T : Target) (N : NumSem D) (isInt : Bool) : TValue T D → TValue T D → Prop
  | int (sval : TValue T D) (i : BitVec 32) :
      isInt = true → IsNumber sval → Later T N isInt sval (.int i)
  | intNum (sval : TValue T D) (i : BitVec 32) :
      isInt = true → IsNumber sval → Later T N isInt sval (.num (N.ofInt i.toInt))
  | num (sval o : TValue T D) :
      isInt = false → IsNumber sval → IsNumber o → Later T N isInt sval o
  | bool (b : Bool) : Later T N isInt (.bool b) (.bool b)
  | nil : Later T N isInt .nil .nil
  | lightud (u u' : ℕ) : Later T N isInt (.lightud u) (.lightud u')
  | udata (i i' : Bool) (f p f' p' : ℕ) : Later T N isInt (.udata i f p) (.udata i' f' p')
  | str (n n' : String) (a a' : ℕ) : Later T N isInt (.str n a) (.str n' a')
  | cdata (c : CType) (bs bs' : Obj T c) : Later T N isInt (.cdata c bs) (.cdata c bs')
  | cref (c : CType) (a a' : ℕ) (bs bs' : Obj T c) :
      Later T N isInt (.cref c a bs) (.cref c a' bs')

end Crec
