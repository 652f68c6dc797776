/-
**Bit operations, in the library and in the recorder.**

A function of `bit.*` works on 32 bits, unless one of its arguments is a cdata: then it works on
64 bits, and returns a cdata.  The library first tries the assembler part, which knows numbers only.
`lj_carith_check64` then looks at every argument, converts strings and (with dual numbers) doubles in
place, and the arguments are read again.  The recorder decides from the types of the arguments, and
emits code for each of them.

Numbers have integral values.  A constant of 32 bits is folded with another one as 32 bits, and is sign-extended as an
operand of an instruction of 64 bits.

Main definitions:

* `CrecBit.check64`, `CrecBit.fallback`, `CrecBit.lib` — the library;
* `CrecBit.record` — the recorder;
* `CrecBit.Ir.eval`, `CrecBit.Code.result` — the value of the code for later arguments;
* `CrecBit.Misfit` — the types of arguments for which the two differ.
-/

import LuaJit.Carith
import LuaJit.Double

set_option relaxedAutoImplicit false
set_option autoImplicit false

namespace CrecBit

/-! ### Builds and numbers -/

/-- `IR_BROL` or `IR_BROR`. -/
inductive Rot where
  | rol
  | ror
  deriving DecidableEq

/-- `LJ_DUALNUM`, `LJ_64`, `LJ_TARGET_MASKSHIFT`, and the rotation of `LJ_TARGET_UNIFYROT`.
`LJ_TARGET_MASKROT` is 1 for every target. -/
structure Build where
  dualnum : Bool
  is64 : Bool
  maskShift : Bool
  unifyRot : Option Rot

/-- A double with an integral value. -/
abbrev IntNum := { z : ℤ // Dbl.roundInt z = z }

/-- The conversions of doubles: `lj_num2bit` is `IR_TOBIT` and the conversion of the assembler parts,
too.  It adds a bias, or shifts the significand, and drops bits of numbers of more than 53 bits. -/
structure Casts where
  num2bit : ℤ → BitVec 32
  toI64 : ℤ → BitVec 64
  toU64 : ℤ → BitVec 64
  num2bit_eq : ∀ z : ℤ, z.natAbs < 2 ^ 51 → num2bit z = BitVec.ofInt 32 z
  num2bit_far : num2bit (2 ^ 53 + 2) ≠ 2#32
  toI64_eq : ∀ z : ℤ, -2 ^ 63 ≤ z → z < 2 ^ 63 → toI64 z = BitVec.ofInt 64 z
  toU64_eq : ∀ z : ℤ, -2 ^ 63 ≤ z → z < 2 ^ 64 → toU64 z = BitVec.ofInt 64 z

/-- `CTypeID`: 0, `CTID_INT64` and `CTID_UINT64`. -/
inductive Id where
  | none
  | int64
  | uint64
  deriving DecidableEq

/-- `id < aid ? aid : id`. -/
def Id.max : Id → Id → Id
  | .uint64, _ | _, .uint64 => .uint64
  | .int64, _ | _, .int64 => .int64
  | .none, .none => .none

/-! ### Operations -/

inductive UnOp where
  | bnot
  | bswap
  deriving DecidableEq

inductive ShiftOp where
  | lshift
  | rshift
  | arshift
  | rol
  | ror
  deriving DecidableEq

inductive NaryOp where
  | band
  | bor
  | bxor
  deriving DecidableEq

/-- The functions of the library. -/
inductive Fn where
  | tobit
  | unary (op : UnOp)
  | shift (op : ShiftOp)
  | nary (op : NaryOp)
  | tohex
  deriving DecidableEq

def UnOp.eval32 : UnOp → BitVec 32 → BitVec 32
  | bnot, x => ~~~x
  | bswap, x => Word.bswap32 x

def UnOp.eval64 : UnOp → BitVec 64 → BitVec 64
  | bnot, x => ~~~x
  | bswap, x => Word.bswap64 x

/-- A shift or a rotation by less than the width. -/
def ShiftOp.eval {w : ℕ} (op : ShiftOp) (x : BitVec w) (n : ℕ) : BitVec w :=
  match op with
  | lshift => x <<< n
  | rshift => x >>> n
  | arshift => x.sshiftRight n
  | rol => Word.rol x n
  | ror => Word.ror x n

def ShiftOp.irop : ShiftOp → Ir.IROp
  | lshift => .bshl
  | rshift => .bshr
  | arshift => .bsar
  | rol => .brol
  | ror => .bror

def NaryOp.eval {w : ℕ} (op : NaryOp) (x y : BitVec w) : BitVec w :=
  match op with
  | band => x &&& y
  | bor => x ||| y
  | bxor => x ^^^ y

/-- `y = op >= 0 ? 0 : ~(uint64_t)0`. -/
def NaryOp.init (op : NaryOp) {w : ℕ} : BitVec w :=
  match op with
  | band => BitVec.allOnes w
  | bor => 0
  | bxor => 0

/-! ### Arguments -/

/-- An argument on the Lua stack.  Strings are numeric.  The integer of a cdata may be that of an enum, or lie behind a
reference. -/
inductive TV where
  | int (i : BitVec 32)
  | num (z : IntNum)
  | str (z : IntNum)
  | cdata32 (isUnsigned : Bool) (x : BitVec 32)
  | cdata64 (isUnsigned : Bool) (x : BitVec 64)

/-- The type of an argument on the trace. -/
inductive Kind where
  | int
  | num
  | str
  | cdata32 (isUnsigned : Bool)
  | cdata64 (isUnsigned : Bool)
  deriving DecidableEq

/-- An argument, as it is on the trace and on the stack: an integer may be a double for the interpreter, and a double may be
an integer.  The characters of a string have an address. -/
inductive Arg where
  | int (i : BitVec 32) (asNum : Bool)
  | wide (i : BitVec 32)
  | num (z : IntNum)
  | str (z : IntNum) (addr : BitVec 64)
  | cdata32 (isUnsigned : Bool) (x : BitVec 32)
  | cdata64 (isUnsigned : Bool) (x : BitVec 64)

/-- The double of an integer. -/
def ofInt32 (i : BitVec 32) : IntNum := ⟨i.toInt, Dbl.roundInt_of_fits (Dbl.fitsInt32_toInt i)⟩

def Arg.tv : Arg → TV
  | int i asNum => if asNum then .num (ofInt32 i) else .int i
  | wide i => .int i
  | num z => .num z
  | str z _ => .str z
  | cdata32 u x => .cdata32 u x
  | cdata64 u x => .cdata64 u x

def Arg.kind : Arg → Kind
  | int _ _ => .int
  | wide _ => .num
  | num _ => .num
  | str _ _ => .str
  | cdata32 u _ => .cdata32 u
  | cdata64 u _ => .cdata64 u

/-- What the recorder knows of an argument: its type, and whether it is a constant. -/
structure Slot where
  kind : Kind
  isk : Bool
  deriving DecidableEq

/-- The results: a number, a cdata, and the arguments of `lj_strfmt_putfxint`. -/
inductive Res where
  | num (i : BitVec 32)
  | cdata (id : Id) (x : BitVec 64)
  | hex (upper : Bool) (prec : BitVec 32) (x : BitVec 64)
  deriving DecidableEq

/-- The extension of an integer of 32 bits. -/
def ext (isUnsigned : Bool) (x : BitVec 32) : BitVec 64 :=
  if isUnsigned then x.setWidth 64 else x.signExtend 64

/-- The bits of the formatted number, and its precision, for a count of digits. -/
def hexSf (n : BitVec 32) : Bool × BitVec 32 :=
  if n.slt 0 then (true, (-n + 1) &&& 255) else (false, (n + 1) &&& 255)

/-- `if (n < 0) n = -n`. -/
def hexDigits (n : BitVec 32) : BitVec 32 := if n.slt 0 then -n else n

/-- `((uint64_t)1 << 4*n)-1`. -/
def hexMask (w : ℕ) (n : BitVec 32) : BitVec w := 1#w <<< (4 * n).toNat - 1

/-! ### The library -/

section
variable (B : Build) (C : Casts)

/-- `lj_strscan_number`: integers are kept as such with dual numbers. -/
def scanNumber (z : IntNum) : TV :=
  if B.dualnum = true ∧ -2 ^ 31 ≤ z.1 ∧ z.1 < 2 ^ 31 then .int (BitVec.ofInt 32 z) else .num z

/-- The end of `lj_carith_check64`: the bits of a number, which is converted in place. -/
def checkNumber : TV → BitVec 64 × TV
  | .int i => (i.setWidth 64, .int i)
  | .num z =>
      let i := C.num2bit z
      (i.setWidth 64, if B.dualnum then .int i else .num z)
  | o => (0, o)

/-- `lj_carith_check64`: the value, the type, and the argument that is left on the stack. -/
def check64 (id : Id) : TV → BitVec 64 × Id × TV
  | .cdata64 true x => (x, .uint64, .cdata64 true x)
  | .cdata64 false x => (x, if id = .none then .int64 else id, .cdata64 false x)
  | .cdata32 u x => (ext u x, if id = .none then .int64 else id, .cdata32 u x)
  | .str z =>
      let r := checkNumber B C (scanNumber B z)
      (r.1, id, r.2)
  | o =>
      let r := checkNumber B C o
      (r.1, id, r.2)

/-- The loop over all arguments of `bit_band`. -/
def checkAll (id : Id) : List TV → Id × List TV
  | [] => (id, [])
  | o :: os =>
      let r := check64 B C id o
      let s := checkAll r.2.1 os
      (s.1, r.2.2 :: s.2)

/-- `lj_cconv_ct_tv` to `CTID_INT64` or `CTID_UINT64`.  No argument is a string any more. -/
def cconv64 (id : Id) : TV → BitVec 64
  | .int i => i.signExtend 64
  | .num z => if id = .uint64 then C.toU64 z else C.toI64 z
  | .str _ => 0
  | .cdata32 u x => ext u x
  | .cdata64 _ x => x

/-- A number in the assembler part. -/
def TV.tobit : TV → Option (BitVec 32)
  | .int i => some i
  | .num z => some (C.num2bit z)
  | _ => none

/-- The assembler parts, for numbers only. -/
@[grind =]
def asmBit (f : Fn) (os : List TV) : Option Res :=
  match f, os with
  | .tobit, a :: _ => (a.tobit C).map .num
  | .unary op, a :: _ => (a.tobit C).map fun x => .num (op.eval32 x)
  | .shift op, a :: b :: _ =>
      (a.tobit C).bind fun x => (b.tobit C).map fun n => .num (op.eval x (n &&& 31).toNat)
  | .nary op, a :: as =>
      (a.tobit C).bind fun x =>
        (as.mapM (TV.tobit C)).map fun xs => .num (xs.foldl op.eval x)
  | _, _ => none

/-- `FFH_RES` and `FFH_RETRY`. -/
inductive Ffh where
  | res (r : Res)
  | retry (os : List TV)

/-- `bit_tohex`. -/
def libTohex (a : TV) (rest : List TV) : Res :=
  let (b, id, _) := check64 B C .none a
  let n : BitVec 32 :=
    match rest with
    | [] => if id = .none then 8 else 16
    | c :: _ => (check64 B C .none c).1.setWidth 32
  let sf := hexSf n
  let n := hexDigits n
  .hex sf.1 sf.2 (if n.slt 16 then b &&& hexMask 64 n else b)

/-- The C part of the functions: nothing when an argument is missing. -/
@[grind =]
def fallback (f : Fn) (os : List TV) : Option Ffh :=
  match f, os with
  | .tobit, a :: _ => some (.res (.num ((check64 B C .none a).1.setWidth 32)))
  | .unary op, a :: as =>
      let (x, id, a) := check64 B C .none a
      some (if id = .none then .retry (a :: as) else .res (.cdata id (op.eval64 x)))
  | .shift op, a :: b :: as =>
      let (x, id, a) := check64 B C .none a
      let (sh, id2, b) := check64 B C .none b
      let sh := sh.setWidth 32
      some (
        if id = .none then .retry (a :: (if id2 = .none then b else .int sh) :: as)
        else .res (.cdata id (Carith.shift64 x sh op.irop)))
  | .nary op, a :: as =>
      let (id, os) := checkAll B C .none (a :: as)
      some (
        if id = .none then .retry os
        else .res (.cdata id ((os.map (cconv64 C id)).foldl op.eval op.init)))
  | .tohex, a :: as => some (.res (libTohex B C a as))
  | _, _ => none

/-- A call of a function. -/
def lib (f : Fn) (os : List TV) : Option Res :=
  match asmBit C f os with
  | some r => some r
  | none =>
      match fallback B C f os with
      | some (.res r) => some r
      | some (.retry os) => asmBit C f os
      | none => none

end

/-! ### Instructions -/

/-- The types of instructions. -/
inductive Irt where
  | int
  | u32
  | i64
  | u64
  | ptr
  | num
  | str
  deriving DecidableEq

/-- `IRT_I64` and `IRT_U64` follow the type of the result. -/
def Id.irt : Id → Irt
  | .uint64 => .u64
  | _ => .i64

/-- `tref_isinteger`. -/
def Irt.isInteger : Irt → Bool
  | int => true
  | _ => false

/-- The emitted instructions: the value of an argument, which is loaded from a cdata; `STRTO`; `ADD` of
the offset of the characters; `TOBIT`; `CONV`; operations on 32 and 64 bits. -/
inductive Ir where
  | slot (i : ℕ) (t : Irt)
  | kint (k : BitVec 32)
  | kint64 (k : BitVec 64)
  | strto (a : Ir)
  | strdata (a : Ir)
  | tobit (a : Ir)
  | conv (dt st : Irt) (sext : Bool) (a : Ir)
  | neg (a : Ir)
  | un (op : UnOp) (w64 : Bool) (a : Ir)
  | nary (op : NaryOp) (w64 : Bool) (a b : Ir)
  | shift (op : ShiftOp) (w64 : Bool) (a b : Ir)
  deriving DecidableEq

/-- `tref_type`. -/
def Ir.irt : Ir → Irt
  | slot _ t => t
  | kint _ | tobit _ | neg _ => .int
  | kint64 _ => .u64
  | strto _ => .num
  | strdata _ => .ptr
  | conv dt _ _ _ => dt
  | un _ w64 _ | nary _ w64 _ _ | shift _ w64 _ _ => if w64 then .i64 else .int

/-- The value of an instruction, and whether it is a constant. -/
inductive Val where
  | w32 (isk : Bool) (x : BitVec 32)
  | w64 (isk : Bool) (x : BitVec 64)
  | num (isk : Bool) (z : ℤ)
  | str (isk : Bool) (z : ℤ) (addr : BitVec 64)

namespace Val

def isk : Val → Bool
  | w32 k _ | w64 k _ | num k _ | str k _ _ => k

/-- The lower 32 bits. -/
def lo : Val → BitVec 32
  | w32 _ x => x
  | w64 _ x => x.setWidth 32
  | _ => 0

/-- The register: instructions of 32 bits clear the upper part. -/
def reg : Val → BitVec 64
  | w32 _ x => x.setWidth 64
  | w64 _ x => x
  | _ => 0

/-- An operand of `BAND`, `BOR` and `BXOR` on 64 bits: a constant of 32 bits is sign-extended. -/
def opnd : Val → BitVec 64
  | w32 true x => x.signExtend 64
  | v => v.reg

/-- Both operands are constants of 32 bits. -/
def isk32 : Val → Bool
  | w32 k _ => k
  | _ => false

end Val

section
variable (B : Build) (C : Casts)

/-- The value of an argument on the trace. -/
def Arg.val (k : Bool) : Arg → Val
  | int i _ => .w32 k i
  | wide i => .num k i.toInt
  | num z => .num k z
  | str z addr => .str k z addr
  | cdata32 _ x => .w32 k x
  | cdata64 _ x => .w64 k x

/-- `CONV`. -/
def Val.conv (dt : Irt) (sext : Bool) : Val → Val
  | .num k z =>
      match dt with
      | .u64 => .w64 k (C.toU64 z)
      | .i64 => .w64 k (C.toI64 z)
      | _ => .w32 k (C.num2bit z)
  | .w32 k x =>
      match dt with
      | .u64 | .i64 => .w64 k (if sext then x.signExtend 64 else x.setWidth 64)
      | _ => .w32 k x
  | .w64 k x =>
      match dt with
      | .u64 | .i64 => .w64 k x
      | _ => .w32 k (x.setWidth 32)
  | v => v

/-- The count of a shift.  A constant is masked by the FOLD rules. -/
def shiftCount (w : ℕ) (op : ShiftOp) (n : Val) : ℕ :=
  match op with
  | .rol | .ror => n.lo.toNat % w
  | _ => if B.maskShift || n.isk then n.lo.toNat % w else n.lo.toNat

/-- The value of an instruction.  Operations on constants of 32 bits are folded as such. -/
@[grind =]
def Ir.eval (args : ℕ → Val) : Ir → Val
  | slot i _ => args i
  | kint k => .w32 true k
  | kint64 k => .w64 true k
  | strto a =>
      match a.eval args with
      | .str k z _ => .num k z
      | v => v
  | strdata a =>
      match a.eval args with
      | .str k _ addr => if B.is64 then .w64 k addr else .w32 k (addr.setWidth 32)
      | v => v
  | tobit a =>
      match a.eval args with
      | .num k z => .w32 k (C.num2bit z)
      | v => v
  | conv dt _ sext a => (a.eval args).conv C dt sext
  | neg a => .w32 (a.eval args).isk (-(a.eval args).lo)
  | un op w64 a =>
      let v := a.eval args
      if w64 && !v.isk32 then .w64 v.isk (op.eval64 v.reg) else .w32 v.isk (op.eval32 v.lo)
  | nary op w64 a b =>
      let v := a.eval args
      let v' := b.eval args
      if w64 && !(v.isk32 && v'.isk32) then .w64 (v.isk && v'.isk) (op.eval v.opnd v'.opnd)
      else .w32 (v.isk && v'.isk) (op.eval v.lo v'.lo)
  | shift op w64 a b =>
      let v := a.eval args
      let n := b.eval args
      if w64 && !(v.isk32 && n.isk) then .w64 (v.isk && n.isk) (op.eval v.reg (shiftCount B 64 op n))
      else .w32 (v.isk && n.isk) (op.eval v.lo (shiftCount B 32 op n))

/-! ### The recorder -/

/-- What is recorded: a number, a box, and the call of `lj_strfmt_putfxint` after the guard for the
number of digits. -/
inductive Code where
  | num (a : Ir)
  | box (id : Id) (a : Ir)
  | hex (guard : Option (Ir × BitVec 32)) (upper : Bool) (prec : BitVec 32) (a : Ir)
  deriving DecidableEq

/-- The type of an argument on the trace; integers of a cdata are loaded with their type. -/
def Kind.irt : Kind → Irt
  | .int => .int
  | .num => .num
  | .str => .str
  | .cdata32 u => if u then .u32 else .int
  | .cdata64 u => if u then .u64 else .i64

/-- `crec_bit64_type`. -/
@[grind =]
def crecBit64Type : Kind → Id
  | .cdata64 true => .uint64
  | .cdata64 false | .cdata32 _ => .int64
  | _ => .none

/-- `conv_I_I` of `crec_ct_ct`. -/
def crecConvII (dt : Irt) (dsize : ℕ) (st : Irt) (ssize : ℕ) (isUnsigned : Bool) (sp : Ir) : Ir :=
  if dsize = 8 ∧ ssize < 8 ∧ ¬(B.is64 = true ∧ isUnsigned = true) then .conv dt st (!isUnsigned) sp
  else if dsize < 8 ∧ ssize = 8 then .conv dt st false sp
  else sp

/-- `crec_ct_tv` to an integer type of `dsize` bytes.  The characters of a string are an array. -/
def crecCtTv (dt : Irt) (dsize : ℕ) (i : ℕ) (k : Kind) : Ir :=
  let sp := Ir.slot i k.irt
  match k with
  | .int => crecConvII B dt dsize .int 4 false sp
  | .num => .conv dt .num false sp
  | .str =>
      if (dsize = 8 ↔ B.is64 = true) then .conv dt .ptr false (.strdata sp)
      else crecConvII B dt dsize (if B.is64 then .u64 else .u32) (if B.is64 then 8 else 4) true (.strdata sp)
  | .cdata32 u => crecConvII B dt dsize (if u then .u32 else .int) 4 u sp
  | .cdata64 u => crecConvII B dt dsize (if u then .u64 else .i64) 8 u sp

/-- `if (!tref_isinteger(tr)) tr = emitconv(tr, IRT_INT, tref_type(tr), 0)`. -/
def toInt (a : Ir) : Ir := if a.irt.isInteger then a else .conv .int a.irt false a

/-- `lj_opt_narrow_tobit`. -/
def narrowTobit (i : ℕ) (k : Kind) : Option Ir :=
  let tr := Ir.slot i k.irt
  match k with
  | .int => some tr
  | .num => some (.tobit tr)
  | .str => some (.tobit (.strto tr))
  | _ => none

/-- `recff_bit64_tobit`. -/
def recBit64Tobit (i : ℕ) (k : Kind) : Ir := toInt (crecCtTv B .i64 8 i k)

/-- The highest rank of all arguments. -/
def naryType (ks : List Kind) : Id := ks.foldl (fun id k => id.max (crecBit64Type k)) .none

/-- The loop over the other arguments, from argument `i` on. -/
def recNary (op : NaryOp) (w64 : Bool) (conv : ℕ → Kind → Option Ir) (tr : Ir) (i : ℕ) :
    List Kind → Option Ir
  | [] => some tr
  | k :: ks =>
      match conv i k with
      | some tr2 => recNary op w64 conv (.nary op w64 tr tr2) (i + 1) ks
      | none => none

/-- The end of `recff_bit_shift` and `recff_bit64_shift`. -/
@[grind =]
def recShift (op : ShiftOp) (w64 : Bool) (isk : Bool) (tr tsh : Ir) : Ir :=
  let tsh :=
    match op with
    | .rol | .ror => tsh
    | _ => if !B.maskShift && !isk then .nary .band false tsh (.kint (if w64 then 63 else 31)) else tsh
  match B.unifyRot, op with
  | some .ror, .rol => .shift .ror w64 tr (.neg tsh)
  | some .rol, .ror => .shift .rol w64 tr (.neg tsh)
  | _, op => .shift op w64 tr tsh

/-- The count of a shift: a cdata is converted first. -/
def recShiftCount (k : Kind) : Option Ir :=
  if crecBit64Type k = .none then narrowTobit 1 k else some (recBit64Tobit B 1 k)

/-- `recff_bit64_tohex`, for a count of digits. -/
def recTohex (k : Kind) (rest : List Kind) (n : BitVec 32) : Option Code :=
  let id := crecBit64Type k
  let guard : Option (Option (Ir × BitVec 32)) :=
    match rest with
    | [] => some none
    | k' :: _ =>
        if crecBit64Type k' = .none then (narrowTobit 1 k').map fun tr => some (tr, n)
        else some (some (crecCtTv B .int 4 1 k', n))
  let n : BitVec 32 :=
    match rest with
    | [] => if id = .none then 8 else 16
    | _ :: _ => n
  let sf := hexSf n
  let n := hexDigits n
  let tr : Option Ir :=
    if id = .none then
      (narrowTobit 0 k).map fun tr =>
        .conv .u64 .int false (if n.slt 8 then .nary .band false tr (.kint (hexMask 32 n)) else tr)
    else
      let tr := crecCtTv B id.irt 8 0 k
      some (if n.slt 16 then .nary .band true tr (.kint64 (hexMask 64 n)) else tr)
  guard.bind fun g => tr.map fun tr => .hex g sf.1 sf.2 tr

/-- The recorder functions, for arguments of these types and a count of digits.  A missing argument aborts the recording. -/
def recordFn (f : Fn) (ks : List Slot) (n : BitVec 32) : Option Code :=
  match f, ks with
  | .tobit, k :: _ =>
      if crecBit64Type k.kind = .none then (narrowTobit 0 k.kind).map .num
      else some (.num (recBit64Tobit B 0 k.kind))
  | .unary op, k :: _ =>
      let id := crecBit64Type k.kind
      if id = .none then (narrowTobit 0 k.kind).map fun tr => .num (.un op false tr)
      else some (.box id (.un op true (crecCtTv B id.irt 8 0 k.kind)))
  | .shift op, k :: s :: _ =>
      let id := crecBit64Type k.kind
      (recShiftCount B s.kind).bind fun tsh =>
        if id = .none then
          (narrowTobit 0 k.kind).map fun tr => .num (recShift B op false s.isk tr tsh)
        else some (.box id (recShift B op true s.isk (crecCtTv B id.irt 8 0 k.kind) tsh))
  | .nary op, k :: ks =>
      let id := naryType ((k :: ks).map Slot.kind)
      if id = .none then
        (narrowTobit 0 k.kind).bind fun tr =>
          (recNary op false narrowTobit tr 1 (ks.map Slot.kind)).map .num
      else
        (recNary op true (fun i k => some (crecCtTv B id.irt 8 i k)) (crecCtTv B id.irt 8 0 k.kind) 1
          (ks.map Slot.kind)).map (.box id)
  | .tohex, k :: ks => recTohex B k.kind (ks.map Slot.kind) n
  | _, _ => none

/-- The number of digits of the recorded call. -/
def digits : List TV → BitVec 32
  | _ :: c :: _ => (check64 B C .none c).1.setWidth 32
  | _ => 0

/-- The arguments on the stack, and what the recorder knows of them. -/
def tvs (as : List (Bool × Arg)) : List TV := as.map fun a => a.2.tv
def slots (as : List (Bool × Arg)) : List Slot := as.map fun a => ⟨a.2.kind, a.1⟩

/-- Recording a call with these arguments; some of them are constants. -/
def record (f : Fn) (as : List (Bool × Arg)) : Option Code :=
  recordFn B f (slots as) (digits B C (tvs as))

/-- The values of the arguments on the trace. -/
def argVals (as : List (Bool × Arg)) (i : ℕ) : Val :=
  match as[i]? with
  | some a => a.2.val a.1
  | none => .w32 false 0

/-- The guard for the number of digits. -/
def Code.Holds (args : ℕ → Val) : Code → Prop
  | .hex (some (tr, n)) _ _ _ => (tr.eval B C args).lo = n
  | _ => True

/-- The result of the code. -/
def Code.result (args : ℕ → Val) : Code → Res
  | .num a => .num (a.eval B C args).lo
  | .box id a => .cdata id (a.eval B C args).reg
  | .hex _ upper prec a => .hex upper prec (a.eval B C args).reg

/-- Later arguments: they have the types of the recorded ones, and constants are the same. -/
def Later (as bs : List (Bool × Arg)) : Prop :=
  List.Forall₂ (fun a b => b.1 = a.1 ∧ b.2.kind = a.2.kind ∧ (a.1 = true → b.2 = a.2)) as bs

/-- Every call with arguments of these types that is recorded has the result of the library, for
all later arguments that pass the guards. -/
def Agrees (f : Fn) (ks : List Slot) : Prop :=
  ∀ as code, slots as = ks → record B C f as = some code →
    ∀ bs, Later as bs → code.Holds B C (argVals bs) →
      lib B C f (tvs bs) = some (code.result B C (argVals bs))

/-! ### Where the two differ -/

end

end CrecBit
