/-
**String buffers in memory.**

A buffer is a block of memory with a write position in it.  The block is a list of cells, of which
those that were never written are empty; the position is an offset.  Sizes are unsigned numbers of 32 bits,
and a computation with sizes whose result does not fit leaves a mark on the buffer.  The allocator
decides which sizes of blocks it provides.

Main definitions:

* `Sbuf.SBuf`, `Sbuf.Stop` — a buffer, and why an operation on it stops;
* `Sbuf.more`, `Sbuf.need`, `Sbuf.shrink` — the management of the block;
* `Sbuf.putmem`, `Sbuf.putstrRep`, `Sbuf.puttab`, … — the operations that put bytes;
* `Sbuf.Op`, `Sbuf.exec`, `Sbuf.Op.apply` — all operations, as they are run and what they mean.
-/

import LuaJit.Buf
import LuaJit.StrfmtWint

set_option relaxedAutoImplicit false
set_option autoImplicit false

namespace Sbuf

open Buf (ljMaxBuf ljMinSbuf)

/-- `LJ_MAX_STR`, `STRFMT_MAXBUF_INT`, `STRFMT_MAXBUF_NUM`. -/
def ljMaxStr : ℕ := 0x7fffff00
def maxbufInt : ℕ := 1 + 10
def maxbufNum : ℕ := 32

/-- A string buffer: the memory from `b` to `e`, the position `p` in it, and whether a computation with
sizes did not fit in 32 bits. -/
structure SBuf where
  mem : List (Option UInt8)
  p : ℕ
  wrapped : Bool
  deriving DecidableEq

/-- `lj_buf_init`. -/
def SBuf.init : SBuf := ⟨[], 0, false⟩

/-- Why an operation stops: `lj_err_mem`, a write outside of the block, an element of a table that is
no string and no number, or the fuel of the model. -/
inductive Stop where
  | mem
  | oob
  | badtype (i : ℤ)
  | fuel
  deriving DecidableEq

/-- An operation on a buffer. -/
abbrev M := EStateM Stop SBuf

instance decEqResult {ε σ α : Type} [DecidableEq ε] [DecidableEq σ] [DecidableEq α] :
    DecidableEq (EStateM.Result ε σ α)
  | .ok a s, .ok b t => decidable_of_iff (a = b ∧ s = t) (by rw [EStateM.Result.ok.injEq])
  | .error a s, .error b t => decidable_of_iff (a = b ∧ s = t) (by rw [EStateM.Result.error.injEq])
  | .ok _ _, .error _ _ => .isFalse fun h => by cases h
  | .error _ _, .ok _ _ => .isFalse fun h => by cases h

/-! ### Sizes -/

/-- The cast to `MSize`. -/
def msize (z : ℤ) : M ℕ := fun sb =>
  .ok (z % 2 ^ 32).toNat { sb with wrapped := sb.wrapped || decide (z % 2 ^ 32 ≠ z) }

/-- `sbufP - sbufB`: the position. -/
def sbufP : M ℕ := fun sb => .ok sb.p sb

/-- `sbufE - sbufB`: the end of the block. -/
def sbufE : M ℕ := fun sb => .ok sb.mem.length sb

/-- `sbufsz`. -/
def sbufsz : M ℕ := do msize (← sbufE)

/-- `sbuflen`. -/
def sbuflen : M ℕ := do msize (← sbufP)

/-- `sbufleft`. -/
def sbufleft : M ℕ := do
  let e ← sbufE
  let p ← sbufP
  msize ((e : ℤ) - p)

/-- `setsbufP`. -/
def setsbufP (p : ℕ) : M Unit := fun sb => .ok () { sb with p := p }

/-! ### Memory -/

/-- `*p = c`. -/
def store (p : ℕ) (c : UInt8) : M Unit := fun sb =>
  if p < sb.mem.length then .ok () { sb with mem := sb.mem.set p (some c) } else .error .oob sb

/-- `lj_buf_wmem`. -/
def wmem : ℕ → List UInt8 → M ℕ
  | p, [] => pure p
  | p, c :: q => do
      store p c
      wmem (p + 1) q

/-- `lj_mem_realloc`. -/
def memRealloc (avail : ℕ → Bool) (nsz : ℕ) : M Unit := fun sb =>
  if avail nsz then
    .ok () { sb with mem := sb.mem.take nsz ++ List.replicate (nsz - sb.mem.length) none }
  else .error .mem sb

/-! ### Management of the block -/

/-- The loop of `buf_grow`. -/
def growLoop (sz : ℕ) : ℕ → ℕ → M ℕ
  | 0, _ => throw .fuel
  | fuel + 1, nsz =>
      if nsz < sz then do growLoop sz fuel (← msize ((nsz : ℤ) + nsz)) else pure nsz

section Manage

variable (avail : ℕ → Bool)

/-- `buf_grow`. -/
def bufGrow (sz : ℕ) : M Unit := do
  let osz ← sbufsz
  let len ← sbuflen
  let nsz ← growLoop sz 32 (if osz < ljMinSbuf then ljMinSbuf else osz)
  memRealloc avail nsz
  setsbufP len

/-- `lj_buf_need2`. -/
def need2 (sz : ℕ) : M Unit := do
  if sz > ljMaxBuf then throw .mem else bufGrow avail sz

/-- `lj_buf_more2`. -/
def more2 (sz : ℕ) : M ℕ := do
  let len ← sbuflen
  if sz > ljMaxBuf then throw .mem
  else
    let total ← msize ((len : ℤ) + sz)
    if total > ljMaxBuf then throw .mem
    else
      bufGrow avail total
      sbufP

/-- `lj_buf_need`. -/
def need (sz : ℕ) : M Unit := do
  if sz > (← sbufsz) then need2 avail sz

/-- `lj_buf_more`. -/
def more (sz : ℕ) : M ℕ := do
  if sz > (← sbufleft) then more2 avail sz else sbufP

/-- `lj_buf_shrink`. -/
def shrink : M Unit := do
  let osz ← sbufsz
  if osz > 2 * ljMinSbuf then
    let n ← sbuflen
    memRealloc avail (osz >>> 1)
    setsbufP n

/-- `lj_buf_reset`. -/
def reset : M Unit := setsbufP 0

/-! ### Low-level put operations -/

/-- `lj_buf_putmem`. -/
def putmem (q : List UInt8) : M Unit := do
  let p ← more avail q.length
  setsbufP (← wmem p q)

/-- `lj_buf_putchar`. -/
def putchar (c : UInt8) : M Unit := do
  let p ← more avail 1
  store p c
  setsbufP (p + 1)

/-- `lj_buf_putstr`. -/
def putstr (s : List UInt8) : M Unit := do
  let p ← more avail s.length
  setsbufP (← wmem p s)

/-! ### High-level put operations -/

/-- The loop of `lj_buf_putstr_reverse`: with `n` bytes before the end, the byte to read is at `n - 1`. -/
def reverseLoop (s : List UInt8) : ℕ → ℕ → M ℕ
  | 0, p => pure p
  | n + 1, p => do
      store p (s.getD n 0)
      reverseLoop s n (p + 1)

/-- `lj_buf_putstr_reverse`. -/
def putstrReverse (s : List UInt8) : M Unit := do
  let p ← more avail s.length
  setsbufP (← reverseLoop s s.length p)

/-- The loops of `lj_buf_putstr_lower` and `lj_buf_putstr_upper`. -/
def caseLoop (f : UInt8 → UInt8) : List UInt8 → ℕ → M ℕ
  | [], p => pure p
  | c :: q, p => do
      store p (f c)
      caseLoop f q (p + 1)

/-- Both of them. -/
def putstrCase (f : UInt8 → UInt8) (s : List UInt8) : M Unit := do
  let p ← more avail s.length
  setsbufP (← caseLoop f s p)

def lowerChar (c : UInt8) : UInt8 := if 0x41 ≤ c ∧ c ≤ 0x5a then c + 0x20 else c

def upperChar (c : UInt8) : UInt8 := if 0x61 ≤ c ∧ c ≤ 0x7a then c - 0x20 else c

/-- `lj_buf_putstr_lower`. -/
def putstrLower (s : List UInt8) : M Unit := putstrCase avail lowerChar s

/-- `lj_buf_putstr_upper`. -/
def putstrUpper (s : List UInt8) : M Unit := putstrCase avail upperChar s

/-- The loop of `lj_buf_putstr_rep` for one byte. -/
def repCharLoop (c : UInt8) : ℕ → ℕ → M ℕ
  | 0, p => pure p
  | rep + 1, p => do
      store p c
      repCharLoop c rep (p + 1)

/-- The other loop. -/
def repLoop (s : List UInt8) : ℕ → ℕ → M ℕ
  | 0, p => pure p
  | rep + 1, p => do repLoop s rep (← wmem p s)

/-- `lj_buf_putstr_rep`. -/
def putstrRep (s : List UInt8) (rep : ℤ) : M Unit := do
  let len := s.length
  if rep > 0 ∧ len ≠ 0 then
    let tlen := rep.toNat * len % 2 ^ 64
    if tlen > ljMaxStr then throw .mem
    else
      let p ← more avail (← msize tlen)
      setsbufP (← if len = 1 then repCharLoop (s.getD 0 0) rep.toNat p else repLoop s rep.toNat p)

/-- What `lj_tab_getint` finds: a string, an integer, a number or something else. -/
inductive Elem where
  | str (s : List UInt8)
  | int (k : BitVec 32)
  | num (o : BitVec 64)
  | other
  deriving DecidableEq

/-- The C library: whether it is the one with its own rule for the negative zero, and the text that
`sprintf` has for a finite number.  With its zero byte the text fits in the room for a number. -/
structure Libc where
  bionic : Bool
  number2str : BitVec 64 → List UInt8
  fits : ∀ o, (number2str o).length < maxbufNum

variable (libc : Libc)

/-- `lj_strfmt_wnum`; `lua_number2str` ends its text with a zero byte. -/
def wnum (p : ℕ) (o : BitVec 64) : M ℕ := do
  let hi := (o >>> 32).setWidth 32
  let lo := o.setWidth 32
  if hi <<< 1 < 0xffe00000#32 then
    if libc.bionic ∧ o = 0x8000000000000000#64 then wmem p "-0".toUTF8.data.toList
    else
      let _ ← wmem p (libc.number2str o ++ [0])
      return p + (libc.number2str o).length
  else if hi &&& 0x000fffff#32 ||| lo ≠ 0#32 then wmem p "nan".toUTF8.data.toList
  else if hi &&& 0x80000000#32 = 0#32 then wmem p "inf".toUTF8.data.toList
  else wmem p "-inf".toUTF8.data.toList

/-- The element at `i` in the loop of `lj_buf_puttab`, with room for the separator behind it. -/
def putElem (sep : List UInt8) (i : ℤ) : Option Elem → M ℕ
  | some (.str s) => do wmem (← more avail (← msize ((s.length : ℤ) + sep.length))) s
  | some (.int k) => do wmem (← more avail (← msize ((maxbufInt : ℤ) + sep.length))) (Strfmt.wint k)
  | some (.num o) => do wnum libc (← more avail (← msize ((maxbufNum : ℤ) + sep.length))) o
  | _ => throw (.badtype i)

/-- The separator behind an element. -/
def putSep (sep : List UInt8) (p : ℕ) : M ℕ := if sep.length ≠ 0 then wmem p sep else pure p

/-- The loop of `lj_buf_puttab`. -/
def puttabLoop (t : ℤ → Option Elem) (sep : List UInt8) (e : ℤ) : ℕ → ℤ → M Unit
  | 0, _ => throw .fuel
  | fuel + 1, i => do
      let p ← putElem avail libc sep i (t i)
      if i = e then setsbufP p
      else
        setsbufP (← putSep sep p)
        puttabLoop t sep e fuel (i + 1)

/-- `lj_buf_puttab`; without a separator it is empty. -/
def puttab (t : ℤ → Option Elem) (sep : List UInt8) (i e : ℤ) : M Unit := do
  if i ≤ e then puttabLoop avail libc t sep e ((e - i).toNat + 1) i

end Manage

/-! ### Operations -/

/-- An operation with its arguments. -/
inductive Op where
  | reset
  | need (sz : ℕ)
  | more (sz : ℕ)
  | putmem (q : List UInt8)
  | putchar (c : UInt8)
  | putstr (s : List UInt8)
  | putstrReverse (s : List UInt8)
  | putstrLower (s : List UInt8)
  | putstrUpper (s : List UInt8)
  | putstrRep (s : List UInt8) (rep : ℤ)
  | puttab (t : ℤ → Option Elem) (sep : List UInt8) (i e : ℤ)
  | shrink

/-- A run of an operation. -/
@[grind =]
def exec (avail : ℕ → Bool) (libc : Libc) : Op → M Unit
  | .reset => reset
  | .need sz => need avail sz
  | .more sz => do let _ ← more avail sz
  | .putmem q => putmem avail q
  | .putchar c => putchar avail c
  | .putstr s => putstr avail s
  | .putstrReverse s => putstrReverse avail s
  | .putstrLower s => putstrLower avail s
  | .putstrUpper s => putstrUpper avail s
  | .putstrRep s rep => putstrRep avail s rep
  | .puttab t sep i e => puttab avail libc t sep i e
  | .shrink => shrink avail

/-- The arguments have the types and the lengths that the source gives them. -/
def Op.Valid : Op → Prop
  | .need sz | .more sz => sz < 2 ^ 32
  | .putmem s | .putstr s | .putstrReverse s | .putstrLower s | .putstrUpper s => s.length ≤ ljMaxStr
  | .putstrRep s rep => s.length ≤ ljMaxStr ∧ rep < 2 ^ 31
  | .puttab t sep i e =>
      sep.length ≤ ljMaxStr ∧ ∀ j, i ≤ j → j ≤ e → ∀ s, t j = some (.str s) → s.length ≤ ljMaxStr
  | .reset | .putchar _ | .shrink => True

/-- The text of a number. -/
def numText (libc : Libc) (o : BitVec 64) : List UInt8 :=
  let hi := (o >>> 32).setWidth 32
  let lo := o.setWidth 32
  if hi <<< 1 < 0xffe00000#32 then
    if libc.bionic ∧ o = 0x8000000000000000#64 then "-0".toUTF8.data.toList else libc.number2str o
  else if hi &&& 0x000fffff#32 ||| lo ≠ 0#32 then "nan".toUTF8.data.toList
  else if hi &&& 0x80000000#32 = 0#32 then "inf".toUTF8.data.toList
  else "-inf".toUTF8.data.toList

/-- The text of an element of a table. -/
def elemText (libc : Libc) : Option Elem → List UInt8
  | some (.str s) => s
  | some (.int k) => Strfmt.decimal k.toInt
  | some (.num o) => numText libc o
  | _ => []

/-- The elements from `i` to `e` with a separator between any two of them. -/
def tabText (libc : Libc) (t : ℤ → Option Elem) (sep : List UInt8) (i e : ℤ) : List UInt8 :=
  sep.intercalate ((List.range (e - i + 1).toNat).map fun j : ℕ => elemText libc (t (i + j)))

/-- What an operation puts. -/
def Op.text (libc : Libc) : Op → List UInt8
  | .putmem s | .putstr s => s
  | .putchar c => [c]
  | .putstrReverse s => s.reverse
  | .putstrLower s => s.map lowerChar
  | .putstrUpper s => s.map upperChar
  | .putstrRep s rep => (List.replicate rep.toNat s).flatten
  | .puttab t sep i e => tabText libc t sep i e
  | .reset | .need _ | .more _ | .shrink => []

/-- The content after an operation. -/
def Op.apply (libc : Libc) (op : Op) (c : List UInt8) : List UInt8 :=
  match op with
  | .reset => []
  | _ => c ++ op.text libc

end Sbuf
