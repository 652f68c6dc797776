/-
**Arithmetic on C data, in the interpreter and in the recorder.**

`lj_carith_op` resolves its two operands to C types and values and tries 64 bit integer arithmetic,
then pointer arithmetic, then a metamethod.  `recff_cdata_arith` does the same with references to
instructions, and emits code.  The operands of the recorder have two types each: the C type, and that
of the instruction, which a load has from the instruction it was forwarded from.

Main definitions:

* `CrecArith.Arg` — the operands: C data with its type, and other Lua values;
* `CrecArith.carithOp` — `lj_carith_op`;
* `CrecArith.recordArg`, `CrecArith.crecArithInt64`, `CrecArith.crecArithPtr` — the recorder;
* `CrecArith.Ir.eval`, `CrecArith.Code.result` — the value of the code for later operands;
* `CrecArith.Recorded`, `CrecArith.Passes` — what was recorded, and the operands it is run for.
-/

import LuaJit.Carith
import LuaJit.Cconv
import LuaJit.Double

set_option relaxedAutoImplicit false
set_option autoImplicit false

namespace CrecArith

open Cconv (IntSize NumSem)

/-! ### Operators and operands -/

/-- The metamethods `MMS` of the operators, in their order. -/
inductive MM where
  | eq
  | len
  | lt
  | le
  | concat
  | add
  | sub
  | mul
  | div
  | mod
  | pow
  | unm
  deriving DecidableEq

/-- `mm < MM_add`. -/
def MM.isComp : MM → Bool
  | eq | len | lt | le | concat => true
  | _ => false

/-- The target, and what is known of the types of the two operands: `compat` is what
`lj_cconv_compatptr` says about two pointers, `hasMeta` whether one of the types has the
metamethod. -/
structure Ctx where
  is64 : Bool
  compat : Bool
  hasMeta : Bool
  enumConst : ℕ → String → Option (Bool × BitVec 32)
  voidId : ℕ

/-- The bits of a pointer. -/
def Ctx.width (C : Ctx) : ℕ := if C.is64 then 64 else 32

/-- The size of an element, unless it is `CTSIZE_INVALID`. -/
abbrev ElemSize := Option { n : ℕ // n < 2 ^ 31 }

/-- The `CTSize` itself. -/
def csize : ElemSize → ℕ
  | some n => n.1
  | none => 2 ^ 32 - 1

/-- An object with its raw C type.  Pointers and arrays have the type and size of their elements.
`wideInt` and `wideFp` have 16 bytes; `other` are structs, complex numbers and vectors. -/
inductive Obj (D : Type) (W : ℕ) where
  | int (isUnsigned : Bool) (sz : IntSize) (x : BitVec (8 * sz.bytes))
  | bool (x : BitVec 8)
  | wideInt (x : BitVec 128)
  | wideFp
  | fp (isFloat : Bool) (d : D)
  | enum (isUnsigned : Bool) (id : ℕ) (x : BitVec 32)
  | ptr (child : ℕ) (size : ElemSize) (p : BitVec W)
  | array (child : ℕ) (size : ElemSize)
  | func (id : ℕ) (p : BitVec W)
  | other

/-- An operand.  The object of a cdata, or a number, lies at `addr`; a reference comes with the type
and size of what it refers to.  A Lua number that is an integer on the trace is one in the interpreter or a double
(`asNum`).  A string has the address of its object and of its characters. -/
inductive Arg (D : Type) (W : ℕ) where
  | cdata (o : Obj D W) (ref : Option (ℕ × ElemSize)) (addr : BitVec W)
  | nil
  | int (i : BitVec 32) (asNum : Bool) (addr : BitVec W)
  | num (d : D) (addr : BitVec W)
  | str (name : String) (obj data : BitVec W)
  | other

/-! ### The interpreter -/

/-- The C type `ca->ct[i]` of a checked operand, with the value of a number. -/
inductive Ct (D : Type) where
  | int (isUnsigned : Bool) (sz : IntSize) (x : BitVec (8 * sz.bytes))
  | wideInt (x : BitVec 128)
  | wideFp
  | fp (d : D)
  | ptr (child : ℕ) (size : ElemSize)
  | other

/-- A checked operand: `ca->ct[i]`, which may be missing, and `ca->p[i]`. -/
structure Checked (D : Type) (W : ℕ) where
  ct : Option (Ct D)
  p : BitVec W

/-- The result of an operator: a cdata without a value is not initialised; `metacall` is the tail call of
the metamethod. -/
inductive Res (W : ℕ) where
  | bool (b : Bool)
  | num (z : ℤ)
  | box64 (isUnsigned : Bool) (x : BitVec 64)
  | boxPtr (child : ℕ) (p : BitVec W)
  | uninit (isUnsigned : Bool)
  | metacall
  | error
  deriving DecidableEq

section
variable {D : Type} (C : Ctx) (N : NumSem D)

/-- One round of `carith_checkarg`, with the other operand.  The address of a constant is not used. -/
def checkarg (partner : Arg D C.width) : Arg D C.width → Checked D C.width
  | .cdata o ref addr =>
      match o with
      | .int u sz x => ⟨some (.int u sz x), addr⟩
      | .bool x => ⟨some (.int true .s1 x), addr⟩
      | .wideInt x => ⟨some (.wideInt x), addr⟩
      | .wideFp => ⟨some .wideFp, addr⟩
      | .fp _ d => ⟨some (.fp d), addr⟩
      | .enum u _ x => ⟨some (.int u .s4 x), addr⟩
      | .ptr child size p => ⟨some (.ptr child size), if ref.isSome then addr else p⟩
      | .array child size => ⟨some (.ptr child size), addr⟩
      | .func id p => if ref.isSome then ⟨some .other, addr⟩ else ⟨some (.ptr id none), p⟩
      | .other => ⟨some .other, addr⟩
  | .int i asNum addr =>
      ⟨some (if asNum then .fp (N.ofInt i.toInt) else .int false .s4 i), addr⟩
  | .num d addr => ⟨some (.fp d), addr⟩
  | .nil => ⟨some (.ptr C.voidId none), 0⟩
  | .str name _ data =>
      match partner with
      | .cdata (.enum _ id _) none _ =>
          match C.enumConst id name with
          | some (u, k) => ⟨some (.int u .s4 k), 0⟩
          | none => ⟨none, data⟩
      | _ => ⟨none, data⟩
  | .other => ⟨none, 1⟩

/-- A string that names no constant of the enum that is the other operand. -/
def unknownConst (partner : Arg D C.width) : Arg D C.width → Bool
  | .str name _ _ =>
      match partner with
      | .cdata (.enum _ id _) none _ => (C.enumConst id name).isNone
      | _ => false
  | _ => false

/-- `carith_checkarg`: an unknown constant clears the pointer to the enum. -/
def carithCheckarg (a b : Arg D C.width) : Checked D C.width × Checked D C.width :=
  let c₀ := checkarg C N b a
  let c₁ := checkarg C N a b
  if unknownConst C b a then (c₀, { c₁ with p := 0 })
  else if unknownConst C a b then ({ c₀ with p := 0 }, c₁)
  else (c₀, c₁)

/-- The conversion to `CTID_INT64` or `CTID_UINT64`, for numbers of up to 8 bytes. -/
def toInt64 (isUnsigned : Bool) : Ct D → Option (BitVec 64)
  | .int u _ x => some (if u then x.setWidth 64 else x.signExtend 64)
  | .fp d => some (BitVec.ofInt 64 (if isUnsigned then N.toU64 d else N.toI64 d))
  | _ => none

/-- The conversion to `CTID_INT_PSZ`: nothing for an error. -/
def toIntPsz : Ct D → Option (BitVec C.width)
  | .int u _ x => some (if u then x.setWidth C.width else x.signExtend C.width)
  | .wideInt x => some (x.setWidth C.width)
  | .fp d => some (BitVec.ofInt C.width (if C.is64 then N.toI64 d else N.toI32 d))
  | _ => none

/-- `ctype_isnum`. -/
@[grind =]
def Ct.isNum : Ct D → Bool
  | .int .. | .wideInt _ | .wideFp | .fp _ => true
  | _ => false

/-- `(info & CTF_UNSIGNED) && size == 8`. -/
def Ct.isU64 : Ct D → Bool
  | .int true .s8 _ => true
  | _ => false

/-- The operations on 64 bit integers. -/
def arith64 (mm : MM) (isUnsigned : Bool) (x y : BitVec 64) : BitVec 64 :=
  match mm with
  | .add => x + y
  | .sub => x - y
  | .mul => x * y
  | .div => if isUnsigned then Carith.divu64 x y else Carith.divi64 x y
  | .mod => if isUnsigned then Carith.modu64 x y else Carith.modi64 x y
  | .pow => if isUnsigned then Carith.powu64 x y else Carith.powi64 x y
  | .unm => -x
  | _ => 0

/-- The switches of `carith_int64`.  The second has no case for `MM_len` and `MM_concat`. -/
def int64Op {W : ℕ} (mm : MM) (isUnsigned : Bool) (u₀ u₁ : BitVec 64) : Res W :=
  match mm with
  | .eq => .bool (u₀ == u₁)
  | .lt => .bool (if isUnsigned then u₀.ult u₁ else u₀.slt u₁)
  | .le => .bool (if isUnsigned then u₀.ule u₁ else u₀.sle u₁)
  | .len | .concat => .uninit isUnsigned
  | mm => .box64 isUnsigned (arith64 mm isUnsigned u₀ u₁)

/-- `carith_int64`: nothing when the operands are no numbers of up to 8 bytes. -/
def carithInt64 (mm : MM) (c₀ c₁ : Ct D) : Option (Res C.width) :=
  let u := c₀.isU64 || c₁.isU64
  match toInt64 N u c₀, toInt64 N u c₁ with
  | some u₀, some u₁ => some (int64Op mm u u₀ u₁)
  | _, _ => none

/-- A pointer and an index in `carith_ptr`. -/
def carithIndex (mm : MM) (child : ℕ) (size : ElemSize) (p : BitVec C.width) (idx : Ct D) :
    Option (Res C.width) :=
  match toIntPsz C N idx with
  | none => some .error
  | some i =>
      match size with
      | none => none
      | some sz => some (.boxPtr child (p + (if mm = .sub then -i else i) * BitVec.ofNat _ sz.1))

/-- `carith_ptr`. -/
def carithPtr (mm : MM) (c₀ c₁ : Ct D) (p₀ p₁ : BitVec C.width) : Option (Res C.width) :=
  match c₀, c₁ with
  | .ptr _ size, .ptr _ _ =>
      if mm = .eq then some (.bool (p₀ == p₁))
      else if mm = .sub ∨ mm = .lt ∨ mm = .le then
        if !C.compat then none
        else if mm = .sub then
          match size with
          | none => none
          | some sz =>
              if sz.1 = 0 then none
              else some (.num (((p₀ - p₁).toInt.tdiv sz.1).bmod (2 ^ 32)))
        else some (.bool (if mm = .lt then p₀.ult p₁ else p₀.ule p₁))
      else none
  | .ptr child size, c₁ =>
      if (mm = .add ∨ mm = .sub) ∧ c₁.isNum then carithIndex C N mm child size p₀ c₁ else none
  | c₀, .ptr child size =>
      if mm = .add ∧ c₀.isNum then carithIndex C N mm child size p₁ c₀ else none
  | _, _ => none

/-- `lj_carith_meta`: comparing for equality is no error. -/
def carithMeta (mm : MM) (p₀ p₁ : BitVec C.width) : Res C.width :=
  if C.hasMeta then .metacall else if mm = .eq then .bool (p₀ == p₁) else .error

/-- `lj_carith_op` after its operands have been checked. -/
def carithChecked (mm : MM) (c₀ c₁ : Checked D C.width) : Res C.width :=
  match c₀.ct, c₁.ct with
  | some t₀, some t₁ =>
      match carithInt64 C N mm t₀ t₁ with
      | some r => r
      | none => (carithPtr C N mm t₀ t₁ c₀.p c₁.p).getD (carithMeta C mm c₀.p c₁.p)
  | _, _ => carithMeta C mm c₀.p c₁.p

/-- `lj_carith_op`. -/
def carithOp (mm : MM) (a b : Arg D C.width) : Res C.width :=
  let (c₀, c₁) := carithCheckarg C N a b
  carithChecked C N mm c₀ c₁

end

/-! ### The recorder -/

/-- The types of instructions: `IRT_I8 + 2*b + unsigned`, `IRT_PTR`, `IRT_NUM`, `IRT_FLOAT`. -/
inductive Irt where
  | int (isUnsigned : Bool) (sz : IntSize)
  | ptr
  | num
  | float
  deriving DecidableEq

/-- `IRT_INT`. -/
def Irt.int32 : Irt := .int false .s4

/-- A C type `s[i]`.  `wide` are numbers of 16 bytes. -/
inductive STy where
  | int (isUnsigned : Bool) (sz : IntSize)
  | wide
  | fp
  | ptr (child : ℕ) (size : ElemSize)
  | other
  deriving DecidableEq

/-- What is known of a reference `sp[i]`: the type of the instruction, and the value of an integer
constant. -/
structure Sp where
  t : Irt
  k : Option (BitVec 32)
  deriving DecidableEq

/-- How an operand appears on the trace: a load of up to 32 bits that was forwarded has the type of
another instruction, signed or not; constants are known. -/
structure Info where
  fwd : Option Bool
  isk : Bool

/-- An object of up to 4 bytes in a 32 bit register. -/
def toReg (isUnsigned : Bool) {w : ℕ} (x : BitVec w) : BitVec 32 :=
  if isUnsigned then x.setWidth 32 else x.signExtend 32

/-- The type of a loaded integer. -/
def loadType (i : Info) (isUnsigned : Bool) (sz : IntSize) : Irt :=
  match i.fwd with
  | some u => .int u .s4
  | none => .int isUnsigned sz

section
variable {D : Type} (C : Ctx)

/-- A loaded integer. -/
def recordInt (i : Info) (isUnsigned : Bool) (sz : IntSize) (x : BitVec (8 * sz.bytes)) :
    STy × Option Sp :=
  if sz = .s8 then (.int isUnsigned sz, some ⟨.int isUnsigned .s8, none⟩)
  else (.int isUnsigned sz,
    some ⟨loadType i isUnsigned sz, if i.isk then some (toReg isUnsigned x) else none⟩)

/-- One round of the loop of `recff_cdata_arith`, with the other operand: the C type and the
reference, which is 0 for values that are not converted. -/
def recordArg (i : Info) (partner : Arg D C.width) : Arg D C.width → Option (STy × Option Sp)
  | .cdata o ref _ =>
      match o with
      | .int u sz x => some (recordInt i u sz x)
      | .bool x => some (recordInt i true .s1 x)
      | .wideInt _ | .wideFp => some (.wide, none)
      | .fp isFloat _ => some (.fp, some ⟨if isFloat then .float else .num, none⟩)
      | .enum u _ x => some (recordInt i u .s4 x)
      | .ptr child size _ => some (.ptr child size, some ⟨.ptr, none⟩)
      | .array child size => some (.ptr child size, some ⟨.ptr, none⟩)
      | .func id _ =>
          if ref.isSome then some (.other, some ⟨.ptr, none⟩)
          else some (.ptr id none, some ⟨.ptr, none⟩)
      | .other => some (.other, some ⟨.ptr, none⟩)
  | .nil => some (.ptr C.voidId none, some ⟨.ptr, none⟩)
  | .int x _ _ => some (.int false .s4, some ⟨.int32, if i.isk then some x else none⟩)
  | .num _ _ => some (.fp, some ⟨.num, none⟩)
  | .str name _ _ =>
      match partner with
      | .cdata (.enum _ id _) none _ =>
          match C.enumConst id name with
          | some (u, k) => some (.int u .s4, some ⟨.int32, some k⟩)
          | none => some (.ptr C.voidId none, some ⟨.ptr, none⟩)
      | .cdata _ (some (child, size)) _ => some (.ptr child size, some ⟨.ptr, none⟩)
      | .cdata (.ptr child size _) none _ => some (.ptr child size, some ⟨.ptr, none⟩)
      | .cdata _ _ _ => some (.ptr C.voidId none, some ⟨.ptr, none⟩)
      | _ => none
  | .other => some (.ptr C.voidId none, none)

end

/-- Emitted instructions.  `zero` is the reference 0, which no instruction has; `arith` are `IR_ADD` to
`IR_NEG`. -/
inductive Ir where
  | sp (second : Bool)
  | zero
  | conv (dt st : Irt) (sext : Bool) (a : Ir)
  | arith (mm : MM) (dt : Irt) (a b : Ir)
  | mul (a : Ir) (k : ℕ)
  | bsar (a : Ir) (k : ℕ)
  deriving DecidableEq

/-- What is recorded: a guard for a comparison, a number, and boxes of integers and pointers. -/
inductive Code where
  | cmp (mm : MM) (dt : Irt) (a b : Ir)
  | num (a : Ir)
  | box64 (isUnsigned : Bool) (a : Ir)
  | boxPtr (child : ℕ) (a : Ir)
  deriving DecidableEq

namespace STy

/-- `ctype_isnum`. -/
def isNum : STy → Bool
  | int .. | wide | fp => true
  | _ => false

/-- `(info & CTF_UNSIGNED) && size == 8`. -/
def isU64 : STy → Bool
  | int true .s8 => true
  | _ => false

/-- `info & CTF_UNSIGNED`. -/
def isUnsigned : STy → Bool
  | int u _ => u
  | _ => false

/-- An integer of 4 bytes. -/
def isInt32 : STy → Bool
  | int _ .s4 => true
  | _ => false

end STy

/-- The reference of an operand. -/
def spRef (second : Bool) (sp : Option Sp) : Ir := if sp.isSome then .sp second else .zero

/-- `tref_isk(sp) && IR(tref_ref(sp))->i >= 0`. -/
def constNonneg (sp : Option Sp) : Bool :=
  match sp with
  | some ⟨_, some k⟩ => !k.msb
  | _ => false

/-- The type of a narrowed comparison. -/
def narrowType (s₀ s₁ : STy) (sp₀ sp₁ : Option Sp) : Option Irt :=
  if s₀.isInt32 && s₁.isInt32 then
    if s₀.isUnsigned == s₁.isUnsigned || constNonneg sp₁ then some (.int s₀.isUnsigned .s4)
    else if constNonneg sp₀ then some (.int s₁.isUnsigned .s4)
    else none
  else none

/-- The conversion of an operand to a 64 bit integer. -/
def conv64 (dt : Irt) (s : STy) (second : Bool) (sp : Option Sp) : Ir :=
  match sp with
  | some ⟨.num, _⟩ => .conv dt .num false (.sp second)
  | some ⟨.float, _⟩ => .conv dt .float false (.sp second)
  | some ⟨.int _ .s8, _⟩ => .sp second
  | sp => .conv dt .int32 (!s.isUnsigned) (spRef second sp)

/-- `crec_arith_int64`. -/
def crecArithInt64 (mm : MM) (s₀ s₁ : STy) (sp₀ sp₁ : Option Sp) : Option Code :=
  if s₀.isNum && s₁.isNum then
    let u := s₀.isU64 || s₁.isU64
    let dt : Irt := .int u .s8
    match if !u && mm.isComp then narrowType s₀ s₁ sp₀ sp₁ else none with
    | some dt => some (.cmp mm dt (spRef false sp₀) (spRef true sp₁))
    | none =>
        let a := conv64 dt s₀ false sp₀
        let b := conv64 dt s₁ true sp₁
        if mm.isComp then some (.cmp mm dt a b) else some (.box64 u (.arith mm dt a b))
  else none

/-- The conversion of an index in `crec_arith_ptr`. -/
def indexIr (C : Ctx) (second : Bool) (sp : Option Sp) : Ir :=
  let r := spRef second sp
  if C.is64 then
    match sp with
    | some ⟨.num, _⟩ => .conv .ptr .num false r
    | some ⟨.float, _⟩ => .conv .ptr .float false r
    | some ⟨.int _ .s8, _⟩ => r
    | some ⟨.int u _, _⟩ => .conv .ptr .int32 (!u) r
    | _ => .conv .ptr .int32 true r
  else
    match sp with
    | some ⟨.int u .s8, _⟩ => .conv .ptr (.int u .s8) false r
    | some ⟨.int _ _, _⟩ => r
    | some ⟨t, _⟩ => .conv .ptr t false r
    | none => .conv .ptr .int32 false r

/-- A pointer and an index in `crec_arith_ptr`. -/
def crecIndex (C : Ctx) (mm : MM) (child : ℕ) (size : ElemSize) (p : Ir) (second : Bool)
    (sp : Option Sp) : Code :=
  .boxPtr child (.arith mm .ptr p (.mul (indexIr C second sp) (csize size)))

/-- `crec_arith_ptr`. -/
def crecArithPtr (C : Ctx) (mm : MM) (s₀ s₁ : STy) (sp₀ sp₁ : Option Sp) : Option Code :=
  match s₀, s₁ with
  | .ptr _ size, .ptr _ _ =>
      if mm = .sub then
        let sz := csize size
        if sz = 0 ∨ sz &&& (sz - 1) ≠ 0 then none
        else some (.num (.bsar (.arith .sub .ptr (spRef false sp₀) (spRef true sp₁)) sz.log2))
      else if mm = .eq ∨ mm = .lt ∨ mm = .le then
        some (.cmp mm .ptr (spRef false sp₀) (spRef true sp₁))
      else none
  | .ptr child size, s₁ =>
      if (mm = .add ∨ mm = .sub) ∧ s₁.isNum then
        some (crecIndex C mm child size (spRef false sp₀) true sp₁)
      else none
  | s₀, .ptr child size =>
      if mm = .add ∧ s₀.isNum then
        some (crecIndex C mm child size (spRef true sp₁) false sp₀)
      else none
  | _, _ => none

/-- What `recff_cdata_arith` records, other than for metamethods. -/
def crecArith {D : Type} (C : Ctx) (mm : MM) (i₀ i₁ : Info) (a b : Arg D C.width) : Option Code :=
  match recordArg C i₀ b a, recordArg C i₁ a b with
  | some (s₀, sp₀), some (s₁, sp₁) =>
      match crecArithInt64 mm s₀ s₁ sp₀ sp₁ with
      | some c => some c
      | none => crecArithPtr C mm s₀ s₁ sp₀ sp₁
  | _, _ => none

/-! ### The compiled code -/

/-- Values of instructions. -/
inductive Val (D : Type) (W : ℕ) where
  | reg32 (x : BitVec 32)
  | reg64 (x : BitVec 64)
  | ptr (p : BitVec W)
  | num (d : D)

section
variable {D : Type} (C : Ctx) (N : NumSem D)

/-- The value as an integer of the size of a pointer. -/
def Val.intp {W : ℕ} : Val D W → Option (BitVec W)
  | reg32 x => some (x.setWidth W)
  | reg64 x => some (x.setWidth W)
  | ptr p => some p
  | num _ => none

/-- A loaded integer. -/
def loadInt (isUnsigned : Bool) (sz : IntSize) (x : BitVec (8 * sz.bytes)) : Val D C.width :=
  if sz = .s8 then .reg64 (x.setWidth 64) else .reg32 (toReg isUnsigned x)

/-- The value of the reference to an operand. -/
def spVal (partner : Arg D C.width) : Arg D C.width → Option (Val D C.width)
  | .cdata o ref addr =>
      match o with
      | .int u sz x => some (loadInt C u sz x)
      | .bool x => some (loadInt C true .s1 x)
      | .wideInt _ | .wideFp => none
      | .fp _ d => some (.num d)
      | .enum u _ x => some (loadInt C u .s4 x)
      | .ptr _ _ p => some (.ptr (if ref.isSome then addr else p))
      | .array _ _ => some (.ptr addr)
      | .func _ p => some (.ptr (if ref.isSome then addr else p))
      | .other => some (.ptr addr)
  | .nil => some (.ptr 0)
  | .int x _ _ => some (.reg32 x)
  | .num d _ => some (.num d)
  | .str name obj data =>
      match partner with
      | .cdata (.enum _ id _) none _ =>
          match C.enumConst id name with
          | some (_, k) => some (.reg32 k)
          | none => some (.ptr obj)
      | .cdata _ (some _) _ => some (.ptr data)
      | .cdata (.ptr ..) none _ => some (.ptr data)
      | _ => some (.ptr obj)
  | .other => none

/-- The value of an instruction: nothing if it depends on the reference 0. -/
def Ir.eval (v : Bool → Option (Val D C.width)) : Ir → Option (Val D C.width)
  | .sp second => v second
  | .zero => none
  | .conv dt _ sext a =>
      match dt, Ir.eval v a with
      | .int u .s8, some (.num d) =>
          some (.reg64 (BitVec.ofInt 64 (if u then N.toU64 d else N.toI64 d)))
      | .int _ .s8, some (.reg32 x) =>
          some (.reg64 (if sext then x.signExtend 64 else x.setWidth 64))
      | .ptr, some (.num d) =>
          some (.ptr (BitVec.ofInt C.width (if C.is64 then N.toI64 d else N.toI32 d)))
      | .ptr, some (.reg32 x) =>
          some (.ptr (if sext then x.signExtend C.width else x.setWidth C.width))
      | .ptr, some (.reg64 x) => some (.ptr (x.setWidth C.width))
      | _, _ => none
  | .arith mm dt a b =>
      match dt, Ir.eval v a, Ir.eval v b with
      | .int u .s8, some (.reg64 x), some (.reg64 y) => some (.reg64 (arith64 mm u x y))
      | .ptr, some (.ptr p), some (.ptr q) =>
          if mm = .add then some (.ptr (p + q))
          else if mm = .sub then some (.ptr (p - q))
          else none
      | _, _, _ => none
  | .mul a k => (Ir.eval v a).bind fun x => x.intp.map fun x => .ptr (x * BitVec.ofNat C.width k)
  | .bsar a k => (Ir.eval v a).bind fun x => x.intp.map fun x => .ptr (x.sshiftRight k)

/-- A comparison: `IR_EQ`, `IR_LT` and `IR_ULT`, or `IR_LE` and `IR_ULE`. -/
def cmpWords {w : ℕ} (mm : MM) (isUnsigned : Bool) (x y : BitVec w) : Bool :=
  match mm with
  | .eq => x == y
  | .lt => if isUnsigned then x.ult y else x.slt y
  | _ => if isUnsigned then x.ule y else x.sle y

def cmpVal {W : ℕ} (mm : MM) (dt : Irt) : Option (Val D W) → Option (Val D W) → Option Bool
  | some (.reg32 x), some (.reg32 y) =>
      match dt with
      | .int u _ => some (cmpWords mm u x y)
      | _ => none
  | some (.reg64 x), some (.reg64 y) =>
      match dt with
      | .int u _ => some (cmpWords mm u x y)
      | _ => none
  | some (.ptr p), some (.ptr q) => some (cmpWords mm true p q)
  | _, _ => none

/-- The guard of a comparison has the outcome that was recorded.  Nothing is known of a guard that
depends on the reference 0. -/
def Code.Holds (v : Bool → Option (Val D C.width)) (truth : Bool) : Code → Prop
  | .cmp mm dt a b => ∀ r, cmpVal mm dt (Ir.eval C N v a) (Ir.eval C N v b) = some r → r = truth
  | _ => True

/-- The result of the code.  A comparison has the outcome that was recorded. -/
def Code.result (v : Bool → Option (Val D C.width)) (truth : Bool) : Code → Option (Res C.width)
  | .cmp mm dt a b =>
      (cmpVal mm dt (Ir.eval C N v a) (Ir.eval C N v b)).map fun _ => .bool truth
  | .num a =>
      match Ir.eval C N v a with
      | some (.ptr p) => some (.num (if C.is64 then Dbl.roundInt p.toInt else p.toInt))
      | _ => none
  | .box64 u a =>
      match Ir.eval C N v a with
      | some (.reg64 x) => some (.box64 u x)
      | _ => none
  | .boxPtr child a =>
      match Ir.eval C N v a with
      | some (.ptr p) => some (.boxPtr child p)
      | _ => none

/-- The type of an object, with nothing of its value. -/
def Obj.shape : Obj D C.width → Obj D C.width
  | .int u sz _ => .int u sz 0
  | .bool _ => .bool 0
  | .wideInt _ => .wideInt 0
  | .wideFp => .wideFp
  | .fp isFloat _ => .fp isFloat (N.ofInt 0)
  | .enum u id _ => .enum u id 0
  | .ptr child size _ => .ptr child size 0
  | .array child size => .array child size
  | .func id _ => .func id 0
  | .other => .other

/-- What the guards on the type of a slot and on the type of a cdata check. -/
def Arg.shape : Arg D C.width → Arg D C.width
  | .cdata o ref _ => .cdata (Obj.shape C N o) ref 0
  | .nil => .nil
  | .int _ asNum _ => .int 0 asNum 0
  | .num _ _ => .num (N.ofInt 0) 0
  | .str _ _ _ => .str "" 0 0
  | .other => .other

/-- A string that names a constant of the enum that is the other operand is guarded. -/
def guardedName (partner : Arg D C.width) : Arg D C.width → Option String
  | .str name _ _ =>
      match partner with
      | .cdata (.enum _ id _) none _ => if (C.enumConst id name).isSome then some name else none
      | _ => none
  | _ => none

/-- Later operands that pass the guards on the types of `a` and `b`, and the string guards.
Constants are the same. -/
structure Passes (i₀ i₁ : Info) (a b a' b' : Arg D C.width) : Prop where
  shape₀ : Arg.shape C N a' = Arg.shape C N a
  shape₁ : Arg.shape C N b' = Arg.shape C N b
  name₀ : ∀ s, guardedName C b a = some s → ∀ t o d, a' = .str t o d → t = s
  name₁ : ∀ s, guardedName C a b = some s → ∀ t o d, b' = .str t o d → t = s
  const₀ : i₀.isk = true → spVal C b' a' = spVal C b a
  const₁ : i₁.isk = true → spVal C a' b' = spVal C a b

/-- The code is recorded, and the operator is then executed: an error aborts the recording. -/
structure Recorded (mm : MM) (i₀ i₁ : Info) (a b : Arg D C.width) (code : Code) : Prop where
  code : crecArith C mm i₀ i₁ a b = some code
  ok : carithOp C N mm a b ≠ .error

end

end CrecArith
