/-
**Variables of the bytecode parser.**

How the one-pass parser resolves names.  All variables of all functions under construction share
one stack; each function maps its registers to entries of that stack, and its upvalues to entries
of the enclosing functions.  A name is looked up in the current function, then outwards, making
upvalues on the way back.  A name that is not found is a global and becomes an index of `_ENV`,
which is itself looked up as a variable; if no local of that name is visible, it is upvalue 0 of the
outermost function.

The parser proper is represented by the sequence of operations it applies to these structures:
functions and scopes that are opened and closed, variables that are declared and later activated,
labels, and uses of names, with any other code generation in between.  A limit that is exceeded is
an error and has no result.

Main definitions:

* `Parse.LexState`, `Parse.FuncState`, `Parse.ExpDesc` — the data of the parser;
* `Parse.varLookup_`, `Parse.varGlobal_`, `Parse.varLookup` — the lookup of a name;
* `Parse.Op`, `Parse.step`, `Parse.ljParse` — the operations of the parser, from its start;
* `Parse.fixupUv2`, `Parse.cpparser` — upvalues of finished prototypes, and loading them.
-/

import LuaJit.Bc

set_option relaxedAutoImplicit false
set_option autoImplicit false

namespace Parse

open Bc

/-! ### Data -/

def maxLocvar : ℕ := 200
def maxUpval : ℕ := 60
def maxSlots : ℕ := 250
def maxVstack : ℕ := 65536 - maxUpval

/-- The name of a variable: a string, or one of the fixed names of hidden variables and labels. -/
inductive VName
  | str (s : String)
  | fixed (n : ℕ)
  deriving DecidableEq

/-- An entry of the variable stack. -/
structure VarInfo where
  name : VName
  slot : ℕ
  rw : Bool

/-- A scope: the number of variables outside of it, and whether it has an upvalue. -/
structure FuncScope where
  nactvar : ℕ
  upval : Bool

/-- A collectable constant. -/
inductive Kgc
  | str (s : String)
  | other
  deriving DecidableEq

/-- The state of a function under construction. -/
structure FuncState where
  nactvar : ℕ
  freereg : ℕ
  framesize : ℕ
  nuv : ℕ
  vbase : ℕ
  varmap : ℕ → ℕ
  uvmap : ℕ → ℕ
  uvtmp : ℕ → ℕ
  bl : List FuncScope
  bc : List BCIns
  kgc : List Kgc

/-- The variable stack and the functions under construction, the innermost one first. -/
structure LexState where
  vstack : ℕ → VarInfo
  vtop : ℕ
  fs : List FuncState

/-- The expressions that name lookup deals with. -/
inductive ExpDesc
  | vglobal (name : String)
  | vlocal (info aux : ℕ)
  | vupval (info aux : ℕ)
  | vkstr (s : String)
  | vindexed (info : ℕ) (aux : ℤ)
  | vreloc (pc : ℕ)
  | vnonreloc (reg : ℕ)
  deriving DecidableEq

/-- The name of the environment variable. -/
def envName : String := "_ENV"

/-! ### Code generation -/

/-- Add a string constant. -/
def constStr (fs : FuncState) (s : String) : ℕ × FuncState :=
  if .str s ∈ fs.kgc then (fs.kgc.idxOf (.str s), fs)
  else (fs.kgc.length, { fs with kgc := fs.kgc ++ [.str s] })

/-- Emit an instruction; the result is its position. -/
def bcemitIns (fs : FuncState) (ins : BCIns) : ℕ × FuncState :=
  (fs.bc.length, { fs with bc := fs.bc ++ [ins] })

/-- Reserve registers. -/
def bcregReserve (fs : FuncState) (n : ℕ) : Option FuncState :=
  let sz := fs.freereg + n
  if fs.framesize < sz then
    if maxSlots ≤ sz then none else some { fs with framesize := sz, freereg := sz }
  else some { fs with freereg := sz }

/-- Free a register. -/
def bcregFree (fs : FuncState) (reg : ℕ) : FuncState :=
  if fs.nactvar ≤ reg then { fs with freereg := fs.freereg - 1 } else fs

/-- An instruction with the operands `A` and `D`. -/
def insAD (op : BCOp) (a d : ℕ) : BCIns := ⟨op, BitVec.ofNat 8 a, BitVec.ofNat 16 d⟩

/-- An instruction with the operands `A`, `B` and `C`. -/
def insABC (op : BCOp) (a b c : ℕ) : BCIns :=
  ⟨op, BitVec.ofNat 8 a, BitVec.ofNat 8 b ++ BitVec.ofNat 8 c⟩

/-- Discharge a non-constant expression to any register. -/
def exprDischarge (fs : FuncState) : ExpDesc → ExpDesc × FuncState
  | .vupval info _ =>
      let r := bcemitIns fs (insAD .uget 0 info)
      (.vreloc r.1, r.2)
  | .vglobal name =>
      let k := constStr fs name
      let r := bcemitIns k.2 (insAD .gget 0 k.1)
      (.vreloc r.1, r.2)
  | .vindexed info aux =>
      let rest : BCIns × FuncState :=
        if aux < 0 then (insABC .tgets 0 info (-aux - 1).toNat, fs)
        else if 255 < aux then (insABC .tgetb 0 info (aux - 256).toNat, fs)
        else (insABC .tgetv 0 info aux.toNat, bcregFree fs aux.toNat)
      let r := bcemitIns (bcregFree rest.2 info) rest.1
      (.vreloc r.1, r.2)
  | .vlocal info _ => (.vnonreloc info, fs)
  | e => (e, fs)

/-- Discharge an expression without branches to the given register. -/
def exprToreg (fs : FuncState) (e : ExpDesc) (reg : ℕ) : FuncState :=
  let r := exprDischarge fs e
  match r.1 with
  | .vkstr s =>
      let k := constStr r.2 s
      (bcemitIns k.2 (insAD .kstr reg k.1)).2
  | .vreloc pc =>
      { r.2 with bc := r.2.bc.modify pc fun ins => { ins with a := BitVec.ofNat 8 reg } }
  | .vnonreloc info => if reg = info then r.2 else (bcemitIns r.2 (insAD .mov reg info)).2
  | _ => r.2

/-- Discharge an expression to the next free register. -/
def exprTonextreg (fs : FuncState) (e : ExpDesc) : Option (ℕ × FuncState) :=
  let r := exprDischarge fs e
  let fs := match r.1 with
    | .vnonreloc reg => bcregFree r.2 reg
    | _ => r.2
  match bcregReserve fs 1 with
  | none => none
  | some fs => some (fs.freereg - 1, exprToreg fs r.1 (fs.freereg - 1))

/-- Discharge an expression without branches to any register. -/
def exprToanyreg (fs : FuncState) (e : ExpDesc) : Option (ℕ × FuncState) :=
  let r := exprDischarge fs e
  match r.1 with
  | .vnonreloc reg => some (reg, r.2)
  | e => exprTonextreg r.2 e

/-- Return an index expression: the table is in register `t`, the key is a string. -/
def exprIndex (fs : FuncState) (t : ℕ) (key : String) : Option (ExpDesc × FuncState) :=
  let k := constStr fs key
  if k.1 ≤ 255 then some (.vindexed t (-(k.1 : ℤ) - 1), k.2)
  else
    match exprToanyreg k.2 (.vkstr key) with
    | none => none
    | some r => some (.vindexed t r.1, r.2)

/-! ### Variables -/

/-- Apply `f` to the current function. -/
def withFs (ls : LexState) (f : FuncState → FuncState) : LexState :=
  match ls.fs with
  | [] => ls
  | fs :: prev => { ls with fs := f fs :: prev }

/-- Define a new local variable. -/
def varNew (ls : LexState) (n : ℕ) (name : VName) : Option LexState :=
  match ls.fs with
  | [] => none
  | fs :: prev =>
      if maxLocvar ≤ fs.nactvar + n then none
      else if maxVstack ≤ ls.vtop then none
      else
        some
          { vstack := Function.update ls.vstack ls.vtop { ls.vstack ls.vtop with name := name }
            vtop := ls.vtop + 1
            fs := { fs with varmap := Function.update fs.varmap (fs.nactvar + n) ls.vtop } :: prev }

/-- Define several new local variables, numbered from `n`. -/
def varNews (ls : LexState) (n : ℕ) : List VName → Option LexState
  | [] => some ls
  | name :: names =>
      match varNew ls n name with
      | none => none
      | some ls => varNews ls (n + 1) names

/-- Add a local variable. -/
def varAdd1 (ls : LexState) : LexState :=
  match ls.fs with
  | [] => ls
  | fs :: prev =>
      let v := fs.varmap fs.nactvar
      { ls with
        vstack := Function.update ls.vstack v { ls.vstack v with slot := fs.nactvar, rw := false }
        fs := { fs with nactvar := fs.nactvar + 1 } :: prev }

/-- Add local variables. -/
def varAdd (ls : LexState) : ℕ → LexState
  | 0 => ls
  | n + 1 => varAdd (varAdd1 ls) n

/-- Lookup local variable name, among the first `i` variables. -/
def varLookupLocal (vstack : ℕ → VarInfo) (fs : FuncState) (name : String) : ℕ → Option ℕ
  | 0 => none
  | i + 1 =>
      if (vstack (fs.varmap i)).name = .str name then some i
      else varLookupLocal vstack fs name i

/-- The entry of `uvtmp` for a new upvalue: a local variable, or an upvalue of the enclosing function. -/
def uvTmp (vidx : ℕ) : ExpDesc → ℕ
  | .vlocal _ _ => vidx
  | .vupval info _ => maxVstack + info
  | _ => maxVstack

/-- Lookup or add upvalue index. -/
def varLookupUv (fs : FuncState) (vidx : ℕ) (e : ExpDesc) : Option (ℕ × FuncState) :=
  match (List.range fs.nuv).find? fun i => fs.uvmap i = vidx with
  | some i => some (i, fs)
  | none =>
      if maxUpval ≤ fs.nuv then none
      else
        some (fs.nuv, { fs with
          uvmap := Function.update fs.uvmap fs.nuv vidx
          uvtmp := Function.update fs.uvtmp fs.nuv (uvTmp vidx e)
          nuv := fs.nuv + 1 })

/-- Mark the innermost scope that starts at or below `level` as having an upvalue. -/
def uvmark (level : ℕ) : List FuncScope → List FuncScope
  | [] => []
  | bl :: prev =>
      if level < bl.nactvar then bl :: uvmark level prev else { bl with upval := true } :: prev

def fscopeUvmark (fs : FuncState) (level : ℕ) : FuncState := { fs with bl := uvmark level fs.bl }

/-- Recursively lookup variables in enclosing functions.  The result is the index of the variable
in the variable stack, or `none` for a global. -/
def varLookup_ (vstack : ℕ → VarInfo) (name : String) :
    Bool → List FuncState → Option (Option ℕ × ExpDesc × List FuncState)
  | _, [] => some (none, .vglobal name, [])
  | first, fs :: prev =>
      match varLookupLocal vstack fs name fs.nactvar with
      | some reg =>
          some (some (fs.varmap reg), .vlocal reg (fs.varmap reg),
            (if first then fs else fscopeUvmark fs reg) :: prev)
      | none =>
          if name = envName ∧ prev.isEmpty then
            some (some 0, .vupval 0 0, fscopeUvmark fs 0 :: prev)
          else
            match varLookup_ vstack name false prev with
            | none => none
            | some (none, e, prev) => some (none, e, fs :: prev)
            | some (some vidx, e, prev) =>
                match varLookupUv fs vidx e with
                | none => none
                | some (i, fs) => some (some vidx, .vupval i vidx, fs :: prev)

/-- Convert global to _ENV index. -/
def varGlobal_ (ls : LexState) (name : String) : Option (ExpDesc × LexState) :=
  match varLookup_ ls.vstack envName true ls.fs with
  | some (_, e, fs :: prev) =>
      match exprToanyreg fs e with
      | none => none
      | some (reg, fs) =>
          match exprIndex fs reg name with
          | none => none
          | some (e, fs) => some (e, { ls with fs := fs :: prev })
  | _ => none

/-- Lookup variable name. -/
def varLookup (ls : LexState) (name : String) : Option (ExpDesc × LexState) :=
  match varLookup_ ls.vstack name true ls.fs with
  | none => none
  | some (_, .vglobal name, fs) => varGlobal_ { ls with fs := fs } name
  | some (_, e, fs) => some (e, { ls with fs := fs })

/-! ### Functions and scopes -/

/-- A new function state. -/
def fsInit (vtop : ℕ) : FuncState where
  nactvar := 0
  freereg := 0
  framesize := 1
  nuv := 0
  vbase := vtop
  varmap _ := 0
  uvmap _ := 0
  uvtmp _ := 0
  bl := []
  bc := []
  kgc := []

/-- Begin a scope. -/
def fscopeBegin (fs : FuncState) : FuncState :=
  { fs with bl := ⟨fs.nactvar, false⟩ :: fs.bl }

/-- End a scope. -/
def fscopeEnd (fs : FuncState) : FuncState :=
  match fs.bl with
  | [] => fs
  | bl :: prev =>
      { fs with bl := prev, nactvar := min fs.nactvar bl.nactvar, freereg := min fs.nactvar bl.nactvar }

/-- What the parser does to variables, functions and scopes. -/
inductive Op
  /-- Begin a function. -/
  | func
  /-- Finish a function that is not the outermost one. -/
  | endfunc
  | scope
  | endscope
  /-- Define the local variables of a statement. -/
  | new (names : List VName)
  /-- Activate the next local variables. -/
  | add (n : ℕ)
  /-- A goto or a label. -/
  | gola (name : VName)
  /-- A break label, which is dropped immediately. -/
  | brk
  /-- A store to the variable with this index. -/
  | store (vidx : ℕ)
  /-- Code generation: any change of code and registers, and new constants. -/
  | code (bc : List BCIns) (freereg framesize : ℕ) (kgc : List Kgc)
  /-- Use of a name. -/
  | use (name : String)

/-- A new goto or label on the variable stack. -/
def golaNew (ls : LexState) (name : VName) : Option LexState :=
  match ls.fs with
  | [] => none
  | fs :: _ =>
      if maxVstack ≤ ls.vtop then none
      else
        some { ls with
          vstack := Function.update ls.vstack ls.vtop ⟨name, fs.nactvar, false⟩
          vtop := ls.vtop + 1 }

/-- One operation; `none` is an error. -/
def step (ls : LexState) : Op → Option LexState
  | .func => some { ls with fs := fsInit ls.vtop :: ls.fs }
  | .endfunc =>
      match ls.fs with
      | fs :: par :: rest => some { ls with vtop := fs.vbase, fs := par :: rest }
      | _ => none
  | .scope => some (withFs ls fscopeBegin)
  | .endscope => some (withFs ls fscopeEnd)
  | .new names => varNews ls 0 names
  | .add n => some (varAdd ls n)
  | .gola name => golaNew ls name
  | .brk => (golaNew ls (.fixed 1)).map fun ls' => { ls' with vtop := ls.vtop }
  | .store vidx =>
      some { ls with
        vstack := Function.update ls.vstack vidx { ls.vstack vidx with rw := true } }
  | .code bc freereg framesize kgc =>
      some (withFs ls fun fs =>
        { fs with bc := bc, freereg := freereg, framesize := framesize, kgc := fs.kgc ++ kgc })
  | .use name => (varLookup ls name).map (·.2)

/-- The state in which the parser starts on a chunk: the variable stack holds `_ENV`, which is not
active, and the outermost function has it as upvalue 0.  The stack may hold anything else. -/
def ljParse (vstack : ℕ → VarInfo) : LexState where
  vstack := Function.update vstack 0 { vstack 0 with name := .str envName }
  vtop := 1
  fs := [fscopeBegin { fsInit 0 with nuv := 1 }]

/-! ### Finished prototypes -/

/-- The flags in an upvalue reference of a prototype. -/
def protoUvLocal : ℕ := 0x8000
def protoUvImmutable : ℕ := 0x4000

/-- Fixup an upvalue of a child prototype. -/
def fixupUv2 (vstack : ℕ → VarInfo) (vidx : ℕ) : ℕ :=
  if maxVstack ≤ vidx then vidx - maxVstack
  else if (vstack vidx).rw then (vstack vidx).slot ||| protoUvLocal
  else (vstack vidx).slot ||| protoUvLocal ||| protoUvImmutable

/-- What an upvalue of a new closure is: a slot of the enclosing frame, or an upvalue of the
enclosing closure. -/
inductive UvRef
  | slot (n : ℕ)
  | up (n : ℕ)
  deriving DecidableEq

/-- How `lj_func_newL_gc` reads an upvalue reference. -/
def newLRef (v : ℕ) : UvRef := if v &&& protoUvLocal ≠ 0 then .slot (v &&& 0xff) else .up v

/-- The header of a dumped prototype. -/
structure ProtoHead where
  flags : BitVec 8
  numparams : BitVec 8
  framesize : BitVec 8
  sizeuv : BitVec 8
  deriving DecidableEq

/-- The header of the prototype that `fs_finish` makes. -/
def fsFinish (flags numparams : ℕ) (fs : FuncState) : ProtoHead where
  flags := BitVec.ofNat 8 flags
  numparams := BitVec.ofNat 8 numparams
  framesize := BitVec.ofNat 8 fs.framesize
  sizeuv := BitVec.ofNat 8 fs.nuv

/-- The flags that are dumped: `PROTO_CHILD|PROTO_VARARG|PROTO_FFI`. -/
def dumpFlags : BitVec 8 := 0x07

/-- The first bytes that `bcwrite_proto` writes. -/
def bcwriteHead (pt : ProtoHead) : List (BitVec 8) :=
  [pt.flags &&& dumpFlags, pt.numparams, pt.framesize, pt.sizeuv]

/-- How `lj_bcread_proto` reads them. -/
def bcreadHead : List (BitVec 8) → Option ProtoHead
  | flags :: numparams :: framesize :: sizeuv :: _ => some ⟨flags, numparams, framesize, sizeuv⟩
  | _ => none

/-- The upvalues of a closure that `lj_func_newL_empty` makes; each of them is nil at first. -/
def newLEmpty {α : Type} (nil : α) (pt : ProtoHead) : List α := List.replicate pt.sizeuv.toNat nil

/-- The end of `cpparser`: store the environment table in upvalue 0.  The result are the upvalues of
the new closure, if there is an upvalue to store to. -/
def cpparser {α : Type} (nil env : α) (pt : ProtoHead) : Option (List α) :=
  match newLEmpty nil pt with
  | [] => none
  | _ :: uvs => some (env :: uvs)

end Parse
