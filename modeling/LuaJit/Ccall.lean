/-
**The arguments of C calls on every target.**

`ccall_set_args` of `lj_ccall.c` stores the arguments of a C call into `cc->gpr`, `cc->fpr` and
`cc->stack`.  How and where an argument is passed is decided by macros that each target defines; the
code around them is shared.  The C type of an argument is its kind with the sizes the type parser
gives it; of a struct, only what `ccall_classify_struct` returned for it is used.

Main definitions:

* `Ccall.Target`, `Ccall.CType`, `Ccall.FuncType` — targets and types;
* `Ccall.State`, `Ccall.RegArg` — the counters, and what `CCALL_HANDLE_REGARG` does with them;
* `Ccall.setArg`, `Ccall.ccallSetArgs` — one argument, and a call.
-/

import LuaJit.Align
import LuaJit.Span

set_option relaxedAutoImplicit false
set_option autoImplicit false

namespace Ccall

/-! ### Targets -/

/-- The x86 variants. -/
inductive X86Abi where
  | posix
  | osx
  | win
  deriving DecidableEq

/-- The targets.  `soft` is `LJ_ABI_SOFTFP` and `ios` is `LJ_TARGET_IOS`; MIPS comes in both byte
orders. -/
inductive Target where
  | x86 (abi : X86Abi)
  | x64
  | arm (soft : Bool)
  | arm64 (ios : Bool)
  | ppc
  | mips (soft be : Bool)
  deriving DecidableEq

namespace Target

/-- `CTSIZE_PTR`. -/
def ptr : Target → ℕ
  | x64 | arm64 _ => 8
  | _ => 4

/-- The power of two of `CTALIGN_PTR`. -/
def ptrAlign : Target → ℕ
  | x64 | arm64 _ => 3
  | _ => 2

/-- `sizeof(FPRArg)`. -/
def fprSize : Target → ℕ
  | x86 _ | x64 => 16
  | _ => 8

/-- `CCALL_NARG_GPR`. -/
def nargGpr : Target → ℕ
  | x86 _ => 2
  | x64 => 6
  | arm _ | mips .. => 4
  | arm64 _ | ppc => 8

/-- `CCALL_NARG_FPR`. -/
def nargFpr : Target → ℕ
  | x86 _ => 0
  | x64 | arm64 _ | ppc => 8
  | arm soft => if soft then 0 else 8
  | mips soft _ => if soft then 0 else 2

/-- `CCALL_NRET_GPR`. -/
def nretGpr : Target → ℕ
  | ppc => 4
  | _ => 2

/-- `CCALL_NRET_FPR`. -/
def nretFpr : Target → ℕ
  | x86 _ | ppc => 1
  | x64 => 2
  | arm64 _ => 4
  | arm soft => if soft then 0 else 4
  | mips soft _ => if soft then 0 else 2

/-- `CCALL_NUM_GPR` and `CCALL_NUM_FPR`. -/
def numGpr (t : Target) : ℕ := max t.nargGpr t.nretGpr
def numFpr (t : Target) : ℕ := max t.nargFpr t.nretFpr

/-- `CCALL_ALIGN_STACKARG`. -/
def alignStackarg : Target → Bool
  | x86 _ => false
  | _ => true

/-- `CCALL_VECTOR_REG`. -/
def vectorReg : Target → Bool
  | x64 => true
  | _ => false

end Target

/-- `CCALL_MAXSTACK`. -/
def maxstack : ℕ := 32

/-! ### Types -/

/-- The class of an eightbyte of a struct on x64.  `CCALL_RCL_INT` takes precedence. -/
inductive Rcl where
  | none
  | int
  | sse
  deriving DecidableEq

/-- What `ccall_classify_struct` says about a struct: on x64 the class of each eightbyte, or nothing
for the memory class; on ARM and ARM64 the returned number. -/
structure StructClass where
  rcl : Option (Rcl × Rcl)
  cl : ℕ
  deriving DecidableEq

/-- The C types of arguments and results.  Integers and vectors of `2 ^ k` bytes and FP numbers of
`4 * 2 ^ k` bytes are aligned to their size, complex numbers to their parts, and a struct has a size
that its alignment divides. -/
inductive CType where
  | void
  | int (unsigned : Bool) (k : ℕ)
  | bool
  | fp (k : ℕ)
  | enum
  | ptr
  | vector (k : ℕ)
  | complex (k : ℕ)
  | struct (size align : ℕ) (h : 2 ^ align ∣ size) (cls : StructClass)
  deriving DecidableEq

namespace CType

/-- `d->size`. -/
def size (t : Target) : CType → ℕ
  | void => 0xffffffff
  | int _ k | vector k => 2 ^ k
  | fp k => 2 ^ (k + 2)
  | bool => 1
  | enum => 4
  | ptr => t.ptr
  | complex k => 2 * 2 ^ (k + 2)
  | struct size .. => size

/-- `ctype_align(d->info)`. -/
def align (t : Target) : CType → ℕ
  | void | bool => 0
  | int _ k | vector k => k
  | fp k | complex k => k + 2
  | enum => 2
  | ptr => t.ptrAlign
  | struct _ align .. => align

/-- `ctype_isnum`. -/
def isNum : CType → Bool
  | int .. | bool | fp _ => true
  | _ => false

/-- `ctype_isfp`. -/
def isFp : CType → Bool
  | fp _ => true
  | _ => false

/-- `ctype_isinteger`. -/
def isInteger : CType → Bool
  | int .. => true
  | _ => false

/-- `ctype_isinteger_or_bool`. -/
def isIntegerOrBool : CType → Bool
  | int .. | bool => true
  | _ => false

/-- `ctype_isvector`. -/
def isVector : CType → Bool
  | vector _ => true
  | _ => false

/-- `(d->info & CTF_ALIGN) > CTALIGN_PTR`. -/
def overAligned (t : Target) (d : CType) : Bool := decide (t.ptrAlign < d.align t)

/-- The bytes that the conversion of an argument of the type writes: an integer is extended to at
least 32 bits. -/
def stored (t : Target) (d : CType) : ℕ :=
  if d.isIntegerOrBool ∧ d.size t < 4 then 4 else d.size t

end CType

/-- The calling conventions of x86. -/
inductive Cconv where
  | cdecl
  | thiscall
  | fastcall
  | stdcall
  deriving DecidableEq

/-- A function type. -/
structure FuncType where
  cconv : Cconv := .cdecl
  vararg : Bool := false
  ret : CType
  params : List CType
  deriving DecidableEq

/-- `maxgpr`. -/
def maxgpr (t : Target) (f : FuncType) : ℕ :=
  match t with
  | .x86 _ =>
      match f.cconv with
      | .fastcall => 2
      | .thiscall => 1
      | _ => 0
  | _ => t.nargGpr

/-! ### Counters and places -/

/-- The counters of `ccall_set_args`. -/
structure State where
  ngpr : ℕ := 0
  nfpr : ℕ := 0
  nsp : ℕ := 0
  fprodd : ℕ := 0
  deriving DecidableEq

/-- The arrays of `CCallState`. -/
inductive Region where
  | gpr
  | fpr
  | stack
  deriving DecidableEq

/-- What `CCALL_HANDLE_REGARG` does: it sets `dp`, given by its array and byte, and leaves for `done`;
or falls through to the stack; or raises the error. -/
inductive RegArg where
  | done (r : Region) (byte : ℕ) (st : State)
  | onStack (st : State)
  | nyi
  deriving DecidableEq

/-- `(ngpr + 1u) & ~1u`. -/
def regpair (ngpr : ℕ) : ℕ := Align.up 2 ngpr

/-! ### Register arguments, by target -/

section RegArg

variable (t : Target) (f : FuncType) (st : State) (d : CType) (isva : Bool) (isfp n : ℕ)

/-- `n2`: a vector takes one FP register. -/
def n2 : ℕ := if d.isVector then 1 else n

/-- x86. -/
def regargX86 (abi : X86Abi) : RegArg :=
  if isfp = 0 then
    if 1 < n then .onStack (if abi = .win then st else { st with ngpr := maxgpr t f })
    else if st.ngpr + 1 ≤ maxgpr t f then
      .done .gpr (t.ptr * st.ngpr) { st with ngpr := st.ngpr + n }
    else .onStack st
  else .onStack st

/-- POSIX/x64. -/
def regargX64 : RegArg :=
  if isfp ≠ 0 then
    if st.nfpr + n2 d n ≤ t.nargFpr then
      .done .fpr (t.fprSize * st.nfpr) { st with nfpr := st.nfpr + n2 d n }
    else .onStack st
  else if n ≤ 2 ∧ st.ngpr + n ≤ maxgpr t f then
    .done .gpr (t.ptr * st.ngpr) { st with ngpr := st.ngpr + n }
  else .onStack st

/-- The core registers of ARM and MIPS: an argument may begin in the last registers and end on the
stack, since `gpr` and `stack` are contiguous. -/
def regargSplit (ngpr : ℕ) : RegArg :=
  if ngpr < maxgpr t f then
    if maxgpr t f < ngpr + n then
      let nsp := st.nsp + (ngpr + n - maxgpr t f)
      if maxstack < nsp then .nyi
      else .done .gpr (t.ptr * ngpr) { st with ngpr := maxgpr t f, nsp := nsp }
    else .done .gpr (t.ptr * ngpr) { st with ngpr := ngpr + n }
  else .onStack { st with ngpr := ngpr }

/-- The first core register of an argument on ARM. -/
def armGpr : ℕ := if d.overAligned t ∧ st.ngpr < maxgpr t f then regpair st.ngpr else st.ngpr

/-- The core registers of ARM. -/
def regargArmGpr : RegArg := regargSplit t f st n (armGpr t f st d)

/-- `fprodd`, before an argument is passed in FP registers on ARM.  `sz` counts bytes, so `sz > 1`
holds for every argument that has any. -/
def armFprodd : ℕ := if 1 < t.ptr * n ∧ st.fprodd ≠ st.nfpr then 0 else st.fprodd

/-- `CCALL_HANDLE_REGARG_FP1` of ARM. -/
def regargArmFpr : RegArg :=
  if d.overAligned t then
    if st.nfpr + n / 2 ≤ t.nargFpr then
      .done .fpr (t.fprSize * st.nfpr) { st with nfpr := st.nfpr + n / 2 }
    else .onStack { st with fprodd := 0 }
  else if armFprodd t st n ≠ 0 then
    if 2 * st.nfpr + n ≤ 2 * t.nargFpr + 1 then
      .done .fpr (t.fprSize * (armFprodd t st n - 1) + 4)
        { st with
          nfpr := st.nfpr + n / 2
          fprodd := if n % 2 = 1 then 0 else st.nfpr + n / 2 - 1 }
    else .onStack { st with fprodd := 0 }
  else if 2 * st.nfpr + n ≤ 2 * t.nargFpr then
    .done .fpr (t.fprSize * st.nfpr)
      { st with
        nfpr := if n % 2 = 1 then st.nfpr + n / 2 + 1 else st.nfpr + n / 2
        fprodd := if n % 2 = 1 then st.nfpr + n / 2 + 1 else 0 }
  else .onStack { st with fprodd := 0 }

/-- ARM. -/
def regargArm (soft : Bool) : RegArg :=
  if ¬ soft ∧ isfp ≠ 0 ∧ ¬ f.vararg then regargArmFpr t st d n else regargArmGpr t f st d n

/-- The first core register of an argument on ARM64. -/
def arm64Gpr (ios : Bool) : ℕ := if ¬ ios ∧ d.overAligned t then regpair st.ngpr else st.ngpr

/-- ARM64.  What does not fit exhausts the registers.  iOS passes all further arguments of a
variadic function on the stack, and does not pass small arguments there otherwise. -/
def regargArm64 (ios : Bool) : RegArg :=
  if ios ∧ isva then .onStack st
  else if isfp ≠ 0 then
    if st.nfpr + n2 d (n * isfp) ≤ t.nargFpr then
      .done .fpr (t.fprSize * st.nfpr) { st with nfpr := st.nfpr + n2 d (n * isfp) }
    else if ios ∧ d.size t < 8 then .nyi
    else .onStack { st with nfpr := t.nargFpr }
  else
    let ngpr := arm64Gpr t st d ios
    if ngpr + n ≤ maxgpr t f then .done .gpr (t.ptr * ngpr) { st with ngpr := ngpr + n }
    else if ios ∧ d.size t < 8 then .nyi
    else .onStack { st with ngpr := maxgpr t f }

/-- The first core register of an argument on PPC. -/
def ppcGpr : ℕ :=
  if 1 < n then
    if d.isInteger then regpair st.ngpr
    else if maxgpr t f < st.ngpr + n then maxgpr t f
    else st.ngpr
  else st.ngpr

/-- PPC. -/
def regargPpc : RegArg :=
  if isfp ≠ 0 then
    if st.nfpr + 1 ≤ t.nargFpr then
      .done .fpr (t.fprSize * st.nfpr) { st with nfpr := st.nfpr + 1 }
    else .onStack st
  else
    let ngpr := ppcGpr t f st d n
    if ngpr + n ≤ maxgpr t f then .done .gpr (t.ptr * ngpr) { st with ngpr := ngpr + n }
    else .onStack { st with ngpr := ngpr }

/-- The core registers of MIPS. -/
def regargMipsGpr : RegArg :=
  regargSplit t f st n (if d.overAligned t then regpair st.ngpr else st.ngpr)

/-- MIPS.  The lower half of an FP register comes second in the big-endian byte order. -/
def regargMips (soft be : Bool) : RegArg :=
  if soft then regargMipsGpr t f st d n
  else if isfp ≠ 0 ∧ st.nfpr < t.nargFpr ∧ ¬ f.vararg then
    .done .fpr (t.fprSize * st.nfpr + (if be ∧ n = 1 then 4 else 0))
      { st with nfpr := st.nfpr + 1, ngpr := st.ngpr + n }
  else regargMipsGpr t f { st with nfpr := t.nargFpr } d n

/-- `CCALL_HANDLE_REGARG`. -/
def regarg : RegArg :=
  match t with
  | .x86 abi => regargX86 t f st isfp n abi
  | .x64 => regargX64 t f st d isfp n
  | .arm soft => regargArm t f st d isfp n soft
  | .arm64 ios => regargArm64 t f st d isva isfp n ios
  | .ppc => regargPpc t f st d isfp n
  | .mips soft be => regargMips t f st d isfp n soft be

end RegArg

/-! ### How an argument is passed -/

/-- How an argument is passed: `isfp`, whether by reference, and the words it needs. -/
structure Pass where
  isfp : ℕ := 0
  byref : Bool := false
  sz : ℕ
  deriving DecidableEq

/-- `n`: the number of registers or stack slots needed. -/
def Pass.n (t : Target) (p : Pass) : ℕ := (p.sz + t.ptr - 1) / t.ptr

/-- `CCALL_HANDLE_STRUCTARG`, except for the structs that x64 splits up. -/
def structarg (t : Target) (size : ℕ) (cls : StructClass) : Pass :=
  match t with
  | .x86 _ | .x64 | .mips .. => { sz := size }
  | .arm soft => { isfp := if ¬ soft ∧ 1 < cls.cl then 1 else 0, sz := size }
  | .arm64 _ =>
      if cls.cl = 0 then { byref := true, sz := t.ptr }
      else if 1 < cls.cl then { isfp := if cls.cl / 4 % 2 = 1 then 2 else 1, sz := size }
      else { sz := size }
  | .ppc => { byref := true, sz := t.ptr }

/-- `CCALL_HANDLE_COMPLEXARG`.  ARM64 looks at the size of the result of the function. -/
def complexarg (t : Target) (f : FuncType) (size : ℕ) : Pass :=
  match t with
  | .x86 _ => { isfp := 1, sz := size }
  | .x64 => { isfp := 2, sz := size }
  | .arm soft => { isfp := if soft then 0 else 1, sz := size }
  | .arm64 _ => { isfp := if f.ret.size t = 8 then 2 else 1, sz := size }
  | .ppc | .mips .. => { sz := size }

/-- How and where to pass an argument; nothing if it cannot be passed or converted. -/
def pass (t : Target) (f : FuncType) (d : CType) : Option Pass :=
  match d with
  | .int .. | .bool | .fp _ =>
      if 8 < d.size t then none else some { isfp := if d.isFp then 1 else 0, sz := d.size t }
  | .vector _ =>
      if t.vectorReg ∧ (d.size t = 8 ∨ d.size t = 16) then some { isfp := 1, sz := d.size t }
      else none
  | .struct size _ _ cls => some (structarg t size cls)
  | .complex _ => some (complexarg t f (d.size t))
  | .enum | .ptr => some { sz := t.ptr }
  | .void => none

/-- The counters after `CCALL_HANDLE_STRUCTARG`: x86 passes all structs on the stack. -/
def structState (t : Target) (f : FuncType) (st : State) (d : CType) : State :=
  match t, d with
  | .x86 _, .struct .. => { st with ngpr := maxgpr t f }
  | _, _ => st

/-! ### Storing an argument -/

/-- The bytes that are written for an argument: where it is kept, and a register that
`ccall_struct_reg` fills before it runs out of registers for the rest of the struct. -/
structure Placed where
  spans : List (Span Region)
  stray : List (Span Region) := []
  deriving DecidableEq

/-- The place `dp` and what is written there. -/
structure ArgOut where
  region : Region
  byte : ℕ
  placed : Placed
  st : State
  deriving DecidableEq

/-- A range that starts in `gpr` goes on in `stack`. -/
def contiguous (t : Target) (r : Region) (byte len : ℕ) : List (Span Region) :=
  let room := t.ptr * t.numGpr
  if r = .gpr ∧ room < byte + len then
    [⟨.gpr, byte, room - byte⟩, ⟨.stack, 0, byte + len - room⟩]
  else [⟨r, byte, len⟩]

/-- What is written at `dp`.  x64 moves the second part of a complex double to a register of its own,
ARM64 spreads 4 byte parts over registers, and the registers of PPC hold doubles. -/
def argSpans (t : Target) (d : CType) (p : Pass) (r : Region) (byte : ℕ) : List (Span Region) :=
  match t with
  | .x64 =>
      if p.isfp = 2 ∧ p.n t = 2 ∧ r = .fpr then [⟨.fpr, byte, 16⟩, ⟨.fpr, byte + 16, 8⟩]
      else contiguous t r byte (d.stored t)
  | .arm64 _ =>
      if p.byref then contiguous t r byte t.ptr
      else if p.isfp = 2 ∧ r ≠ .stack then [⟨r, byte, 8 * (p.n t * t.ptr / 4)⟩]
      else contiguous t r byte (d.stored t)
  | .ppc =>
      if p.byref then contiguous t r byte t.ptr
      else if d.isFp ∧ r = .fpr then [⟨.fpr, byte, 8⟩]
      else contiguous t r byte (d.stored t)
  | _ => contiguous t r byte (d.stored t)

/-- The stack slots of an argument, after the registers. -/
def stackArg (t : Target) (d : CType) (p : Pass) (st : State) : Option (ℕ × State) :=
  let nsp :=
    if t.alignStackarg ∧ ¬ p.byref ∧ d.overAligned t then
      Align.up (2 ^ (d.align t - t.ptrAlign)) st.nsp
    else st.nsp
  if maxstack < nsp + p.n t then none
  else some (t.ptr * nsp, { st with nsp := nsp + p.n t })

/-- One eightbyte of `ccall_struct_reg`: the counters and what is written, or nothing on an
overflow of the registers. -/
def structEightbyte (t : Target) (st : State) : Rcl → Option (State × List (Span Region))
  | .none => some (st, [])
  | .int =>
      if t.nargGpr ≤ st.ngpr then none
      else some ({ st with ngpr := st.ngpr + 1 }, [⟨.gpr, t.ptr * st.ngpr, 8⟩])
  | .sse =>
      if t.nargFpr ≤ st.nfpr then none
      else some ({ st with nfpr := st.nfpr + 1 }, [⟨.fpr, t.fprSize * st.nfpr, 8⟩])

/-- `ccall_struct_arg`: a small struct in registers, or else on the stack. -/
def structArg (t : Target) (st : State) (rcl : Rcl × Rcl) : Option (Placed × State) :=
  let n := if rcl.2 = .none then 1 else 2
  let onStack (stray : List (Span Region)) : Option (Placed × State) :=
    if maxstack < st.nsp + n then none
    else some (⟨[⟨.stack, t.ptr * st.nsp, n * t.ptr⟩], stray⟩, { st with nsp := st.nsp + n })
  match structEightbyte t st rcl.1 with
  | none => onStack []
  | some (st1, s1) =>
      match structEightbyte t st1 rcl.2 with
      | none => onStack s1
      | some (st2, s2) => some (⟨s1 ++ s2, []⟩, st2)

/-- The class of a struct that x64 splits up. -/
def splitStruct (t : Target) (d : CType) : Option (Rcl × Rcl) :=
  match t, d with
  | .x64, .struct _ _ _ cls => cls.rcl
  | _, _ => none

/-- An argument: its type, and whether it is one of the further arguments of a variadic function. -/
structure Arg where
  d : CType
  isva : Bool := false
  deriving DecidableEq

/-- An argument that is stored at `dp`. -/
def placeArg (t : Target) (f : FuncType) (st : State) (a : Arg) (p : Pass) : Option ArgOut :=
  match regarg t f (structState t f st a.d) a.d a.isva p.isfp (p.n t) with
  | .nyi => none
  | .done r byte st' => some ⟨r, byte, ⟨argSpans t a.d p r byte, []⟩, st'⟩
  | .onStack st' =>
      match stackArg t a.d p st' with
      | none => none
      | some (byte, st'') => some ⟨.stack, byte, ⟨argSpans t a.d p .stack byte, []⟩, st''⟩

/-- One round of the loop of `ccall_set_args`. -/
def setArg (t : Target) (f : FuncType) (st : State) (a : Arg) : Option (Placed × State) :=
  match splitStruct t a.d with
  | some rcl => structArg t st rcl
  | none =>
      match pass t f a.d with
      | none => none
      | some p => (placeArg t f st a p).map fun out => (out.placed, out.st)

/-- The loop. -/
def setArgs (t : Target) (f : FuncType) : State → List Arg → Option (List Placed × State)
  | st, [] => some ([], st)
  | st, a :: as =>
      match setArg t f st a with
      | none => none
      | some (p, st') =>
          match setArgs t f st' as with
          | none => none
          | some (ps, st'') => some (p :: ps, st'')

/-! ### The call -/

/-- `cc->retref`: a struct or complex result is returned by reference, and the pointer is passed as
an argument.  ARM64 has a register of its own for it. -/
def retrefArg (t : Target) (ret : CType) : Bool :=
  match t, ret with
  | .x86 .win, .struct size .. => decide (8 < size)
  | .x86 .osx, .struct size .. => ¬ (size = 1 ∨ size = 2 ∨ size = 4 ∨ size = 8)
  | .x86 .posix, .struct .. => true
  | .x86 _, .complex _ => decide (8 < ret.size t)
  | .x64, .struct _ _ _ cls => cls.rcl.isNone
  | .arm true, .struct size .. => ¬ size ≤ 4
  | .arm true, .complex _ => true
  | .arm false, .struct _ _ _ cls => cls.cl = 0
  | .ppc, .struct .. | .mips .., .struct .. => true
  | _, _ => false

/-- The set-up for the result type. -/
def setRet (t : Target) (f : FuncType) : Option (List Placed × State) :=
  if f.ret.isVector ∧ ¬ (t.vectorReg ∧ (f.ret.size t = 8 ∨ f.ret.size t = 16)) then none
  else if retrefArg t f.ret then
    if t ≠ .x86 .win ∧ 0 < maxgpr t f then some ([⟨[⟨.gpr, 0, t.ptr⟩], []⟩], { ngpr := 1 })
    else some ([⟨[⟨.stack, 0, t.ptr⟩], []⟩], { nsp := 1 })
  else some ([], {})

/-- The arguments of a call: those of the parameters, and further ones with the inferred types. -/
def callArgs (f : FuncType) (va : List CType) : List Arg :=
  f.params.map (fun d => ⟨d, false⟩) ++ va.map fun d => ⟨d, true⟩

/-- `ccall_set_args`: the pointer to a result that is returned by reference, if any, the arguments
and the counters at the end. -/
def ccallSetArgs (t : Target) (f : FuncType) (va : List CType) :
    Option (List Placed × List Placed × State) :=
  if va ≠ [] ∧ ¬ f.vararg then none
  else
    match setRet t f with
    | none => none
    | some (ret, st) =>
        match setArgs t f st (callArgs f va) with
        | none => none
        | some (ps, st') => some (ret, ps, st')

end Ccall
