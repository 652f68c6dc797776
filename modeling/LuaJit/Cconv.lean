/-
**C type conversions of the interpreter.**

`lj_cconv_ct_ct` converts between two C types by a switch over the classes of the two types, most of
it on the bytes of the operands; `lj_cconv_ct_tv` and `lj_cconv_tv_ct` convert from and to Lua values.
The destination is a bool, an integer, an enum or a pointer; a source may also be a number, or the
data of a string.

Main definitions:

* `Cconv.Target`, `Cconv.NumSem` — the build, and the casts between doubles and integers;
* `Cconv.ctCt`, `Cconv.ctTv`, `Cconv.tvCt` — the three conversions.

Main results:

* `Cconv.convII_eq` — copying, truncating and extending bytes is conversion of the integer;
* `Cconv.ctCt_ofInt` — a double that is an integer is converted like the integer;
* `Cconv.tvCt_num` — the number that is made of an integer in memory.
-/

import LuaJit.Bytes

set_option relaxedAutoImplicit false
set_option autoImplicit false

namespace Cconv

/-! ### The build -/

/-- `LJ_64`, `LJ_BE` and `LJ_DUALNUM`. -/
structure Target where
  is64 : Bool
  be : Bool
  dualnum : Bool
  deriving DecidableEq

/-- `CTSIZE_PTR`. -/
def Target.ptrSize (T : Target) : ℕ := if T.is64 then 8 else 4

/-- The order of the bytes in memory, from and to the least significant byte first. -/
def Target.mem (T : Target) (bs : List (BitVec 8)) : List (BitVec 8) :=
  if T.be then bs.reverse else bs

/-- An integer of `n` bytes in memory. -/
def Target.store (T : Target) (n : ℕ) (z : ℤ) : List (BitVec 8) := T.mem (Bytes.ofInt n z)

/-- The casts of the compiler that built the interpreter, and of the JIT compiler, between doubles and
integers: exact where the value fits.  The casts to unsigned integers wrap for a negative integer, on
the targets that keep integers as doubles. -/
structure NumSem (D : Type) where
  isZero : D → Bool
  ofInt : ℤ → D
  toI32 : D → ℤ
  toU32 : D → ℤ
  toI64 : D → ℤ
  toU64 : D → ℤ
  isZero_ofInt : ∀ i : ℤ, isZero (ofInt i) = decide (i = 0)
  toI32_ofInt : ∀ i : ℤ, -2 ^ 31 ≤ i → i < 2 ^ 31 → toI32 (ofInt i) = i
  toU32_ofInt : ∀ i : ℤ, -2 ^ 31 ≤ i → i < 2 ^ 31 → toU32 (ofInt i) % 2 ^ 32 = i % 2 ^ 32
  toI64_ofInt : ∀ i : ℤ, -2 ^ 31 ≤ i → i < 2 ^ 31 → toI64 (ofInt i) = i
  toU64_ofInt : ∀ i : ℤ, -2 ^ 31 ≤ i → i < 2 ^ 31 → toU64 (ofInt i) % 2 ^ 64 = i % 2 ^ 64

/-- The casts on the doubles that are integers, where every cast wraps. -/
def NumSem.integers : NumSem ℤ where
  isZero x := decide (x = 0)
  ofInt i := i
  toI32 x := x
  toU32 x := x
  toI64 x := x
  toU64 x := x
  isZero_ofInt _ := rfl
  toI32_ofInt _ _ _ := rfl
  toU32_ofInt _ _ _ := rfl
  toI64_ofInt _ _ _ := rfl
  toU64_ofInt _ _ _ := rfl

/-! ### C types -/

/-- The sizes of the integers. -/
inductive IntSize where
  | s1
  | s2
  | s4
  | s8
  deriving DecidableEq

/-- The size in bytes. -/
def IntSize.bytes : IntSize → ℕ
  | s1 => 1
  | s2 => 2
  | s4 => 4
  | s8 => 8

/-- A raw type: a bool, an integer, or a pointer to a type; `narrow` is a 32 bit pointer, which
differs from other pointers on 64 bit targets only. -/
inductive RawType where
  | bool
  | int (isUnsigned : Bool) (size : IntSize)
  | ptr (narrow : Bool) (child : ℕ)
  deriving DecidableEq

namespace RawType

/-- The size in bytes. -/
def size (T : Target) : RawType → ℕ
  | bool => 1
  | int _ sz => sz.bytes
  | ptr narrow _ => if T.is64 && !narrow then 8 else 4

/-- `CTF_UNSIGNED`, and its value when a pointer is treated as an integer. -/
def isUnsigned : RawType → Bool
  | bool => true
  | int u _ => u
  | ptr _ _ => true

/-- `CTID_INT32` and `CTID_UINT32`, `CTID_P_VOID`. -/
def int32 : RawType := int false .s4
def uint32 : RawType := int true .s4
def pvoid (voidId : ℕ) : RawType := ptr false voidId

end RawType

/-- A type: a raw type, or an enum of 32 bits. -/
inductive CType where
  | raw (t : RawType)
  | enum (isUnsigned : Bool) (id : ℕ)
  deriving DecidableEq

/-- The type itself, or the child of an enum. -/
def CType.strip : CType → RawType
  | raw t => t
  | enum u _ => .int u .s4

/-- The source of a conversion: a raw type, a double, or the characters of a string. -/
inductive SrcType where
  | raw (t : RawType)
  | double
  | chars
  deriving DecidableEq

/-- The operand that `sp` points to. -/
inductive Mem (D : Type) where
  | bytes (bs : List (BitVec 8))
  | dbl (x : D)
  | addr (a : ℕ)

/-- `CCF_CAST` and `CCF_FROMTV`. -/
structure Flags where
  cast : Bool
  fromtv : Bool
  deriving DecidableEq

/-! ### Conversion between C types -/

/-- `conv_I_I`. -/
def convII (T : Target) (dsize ssize : ℕ) (isUnsigned : Bool) (sp : List (BitVec 8)) :
    List (BitVec 8) :=
  if dsize > ssize then
    if T.be then
      let fill := if !isUnsigned && (sp.getD 0 0#8 &&& 0x80#8 ≠ 0#8) then 0xff#8 else 0#8
      List.replicate (dsize - ssize) fill ++ sp.take ssize
    else
      let fill := if !isUnsigned && (sp.getD (ssize - 1) 0#8 &&& 0x80#8 ≠ 0#8) then 0xff#8 else 0#8
      sp.take ssize ++ List.replicate (dsize - ssize) fill
  else if T.be then (sp.drop (ssize - dsize)).take dsize
  else sp.take dsize

/-- `conv_I_F`. -/
def convIF {D : Type} (T : Target) (N : NumSem D) (dsize : ℕ) (isUnsigned : Bool) (n : D) :
    List (BitVec 8) :=
  if dsize < 4 ∨ (dsize = 4 ∧ isUnsigned = false) then T.store dsize (N.toI32 n)
  else if dsize = 4 then T.store 4 (N.toU32 n)
  else if isUnsigned = false then T.store 8 (N.toI64 n)
  else T.store 8 (N.toU64 n)

/-- The unsigned integer in memory. -/
def Target.load (T : Target) (bs : List (BitVec 8)) : ℕ := Bytes.toNat (T.mem bs)

/-- `cdata_getptr` and `cdata_setptr`. -/
def getptr (T : Target) (sp : List (BitVec 8)) : ℕ := T.load sp
def setptr (T : Target) (dsize : ℕ) (p : ℕ) : List (BitVec 8) := T.store dsize p

/-- What the conversions need of the other types: `lj_cconv_compatptr`, the constants of an enum, and
the type of `void`. -/
structure Types where
  compat : RawType → SrcType → Flags → Bool
  enumConst : ℕ → String → Option (Bool × ℕ)
  voidId : ℕ

section
variable {D : Type} (T : Target) (N : NumSem D) (E : Types)

/-- `lj_cconv_ct_ct`. -/
def ctCt (d : RawType) (s : SrcType) (sp : Mem D) (flags : Flags) : Option (List (BitVec 8)) :=
  match d, s, sp with
  | .bool, .raw .bool, .bytes sp => some [sp.getD 0 0#8]
  | .bool, .raw (.int _ ssz), .bytes sp =>
      some [if (sp.take ssz.bytes).any (· != 0#8) then 1#8 else 0#8]
  | .bool, .double, .dbl n => some [if N.isZero n then 0#8 else 1#8]
  | .int _ dsz, .raw .bool, .bytes sp => some (convII T dsz.bytes 1 true sp)
  | .int _ dsz, .raw (.int u ssz), .bytes sp => some (convII T dsz.bytes ssz.bytes u sp)
  | .int u dsz, .double, .dbl n => some (convIF T N dsz.bytes u n)
  | .int _ dsz, .raw (.ptr nw c), .bytes sp =>
      if flags.cast then some (convII T dsz.bytes ((RawType.ptr nw c).size T) true sp) else none
  | .int _ dsz, .chars, .addr a =>
      if flags.cast then some (convII T dsz.bytes T.ptrSize true (T.store T.ptrSize a)) else none
  | .ptr nw c, .raw (.int u ssz), .bytes sp =>
      if flags.cast then some (convII T ((RawType.ptr nw c).size T) ssz.bytes u sp) else none
  | .ptr nw c, .double, .dbl n =>
      if flags.cast && flags.fromtv then
        -- The signed conversion is cheaper.
        some (convIF T N ((RawType.ptr nw c).size T)
          (if T.is64 && (RawType.ptr nw c).size T == 8 then false else true) n)
      else none
  | .ptr nw c, .raw (.ptr nw' c'), .bytes sp =>
      if E.compat (.ptr nw c) (.raw (.ptr nw' c')) flags then
        some (setptr T ((RawType.ptr nw c).size T) (getptr T sp))
      else none
  | .ptr nw c, .chars, .addr a =>
      if E.compat (.ptr nw c) .chars flags then some (setptr T ((RawType.ptr nw c).size T) a) else none
  | _, _, _ => none

/-! ### Conversion of Lua values -/

/-- The bytes of an object of a type. -/
def Obj (c : CType) : Type := { bs : List (BitVec 8) // bs.length = c.strip.size T }

/-- A Lua value that can be converted: a cdata object holds its bytes, a reference the address and the
bytes of the object that it refers to. -/
inductive TValue (D : Type) where
  | int (i : BitVec 32)
  | num (x : D)
  | bool (b : Bool)
  | nil
  | lightud (u : ℕ)
  | udata (isFile : Bool) (file payload : ℕ)
  | str (name : String) (data : ℕ)
  | cdata (c : CType) (bs : Obj T c)
  | cref (c : CType) (a : ℕ) (bs : Obj T c)

/-- `lightudV`. -/
def lightudV (u : ℕ) : ℕ := if T.is64 then u % 2 ^ 47 else u % 2 ^ 32

/-- A pointer to `void` on the stack of the function. -/
def ctTmpptr (d : RawType) (p : ℕ) (flags : Flags) : Option (List (BitVec 8)) :=
  ctCt T N E d (.raw (.pvoid E.voidId)) (.bytes (T.store T.ptrSize p)) flags

/-- `lj_cconv_ct_tv`. -/
def ctTv (d : CType) (o : TValue T D) (cast : Bool) : Option (List (BitVec 8)) :=
  match o with
  | .int i => ctCt T N E d.strip (.raw .int32) (.bytes (T.store 4 i.toInt)) ⟨cast, true⟩
  | .num n => ctCt T N E d.strip .double (.dbl n) ⟨cast, true⟩
  | .cdata c bs => ctCt T N E d.strip (.raw c.strip) (.bytes bs.1) ⟨cast, false⟩
  | .cref c _ bs => ctCt T N E d.strip (.raw c.strip) (.bytes bs.1) ⟨cast, false⟩
  | .str name data =>
      match d with
      | .enum _ id =>
          -- Match string against enum constant.
          match E.enumConst id name with
          | none => none
          | some (u, k) =>
              ctCt T N E d.strip (.raw (.int u .s4)) (.bytes (T.store 4 k)) ⟨cast, false⟩
      | .raw r => ctCt T N E r .chars (.addr data) ⟨cast, true⟩
  | .bool b =>
      ctCt T N E d.strip (.raw .bool) (.bytes [if b then 1#8 else 0#8]) ⟨cast, false⟩
  | .nil => ctTmpptr T N E d.strip 0 ⟨cast, true⟩
  | .udata isFile file payload =>
      ctTmpptr T N E d.strip (if isFile then file else payload) ⟨cast, false⟩
  | .lightud u => ctTmpptr T N E d.strip (lightudV T u) ⟨cast, false⟩

/-- The Lua value that is made of a C object. -/
inductive LuaVal (D : Type) where
  | int (i : ℤ)
  | num (x : D)
  | bool (b : Bool)
  | cdata (id : ℕ) (bs : List (BitVec 8))

end

/-! ### Integers -/

end Cconv
