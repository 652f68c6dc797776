/-
**Interning of strings.**

The string table is an array of chains, linked through the objects themselves.  References are bit
vectors of the width of a `GCRef`; the null reference is `none`.  The bytes of a string object are
followed by a zero byte and by whatever comes next in memory, and the word-wise comparison reads some of
that, so an operation that reads strings is given the memory behind each of them.  The allocator is a
part of an operation, too: the address it returns, or `none` if it fails.

Main definitions:

* `StrTab.strFastcmp`, `StrTab.memcmp` — the two comparisons;
* `StrTab.strHash` — the hash of a string;
* `StrTab.strResize`, `StrTab.strNew`, `StrTab.sweepChain` — the operations on the table;
* `StrTab.exec` — one operation of a run.
-/

import LuaJit.Linked
import LuaJit.Word

set_option relaxedAutoImplicit false
set_option autoImplicit false

namespace StrTab

/-- `LJ_MAX_STR`, `LJ_MAX_STRTAB`, `LJ_MIN_STRTAB`, `LJ_PAGESIZE`. -/
def ljMaxStr : ℕ := 0x7fffff00
def ljMaxStrtab : ℕ := 2 ^ 26
def ljMinStrtab : ℕ := 256
def ljPagesize : ℕ := 4096

/-! ### Comparison -/

/-- `lj_getu32`, for a little-endian or a big-endian target. -/
def getu32 (le : Bool) (s : ℕ → UInt8) (i : ℕ) : BitVec 32 :=
  let b k := (s (i + k)).toNat
  BitVec.ofNat 32 (if le then b 0 + 2 ^ 8 * b 1 + 2 ^ 16 * b 2 + 2 ^ 24 * b 3
    else b 3 + 2 ^ 8 * b 2 + 2 ^ 16 * b 1 + 2 ^ 24 * b 0)

/-- The loop of `str_fastcmp`; the position and the length are `MSize`. -/
def strFastcmpLoop (le : Bool) (a b : ℕ → UInt8) (len : BitVec 32) : ℕ → BitVec 32 → Option (BitVec 32)
  | 0, _ => none
  | fuel + 1, i =>
      let v := getu32 le a i.toNat ^^^ getu32 le b i.toNat
      if v ≠ 0 then
        let i := i - len
        some (if i.toInt ≥ -3 then
          if le then v <<< (32 + i <<< 3).toNat else v >>> (32 + i <<< 3).toNat
        else 1)
      else
        let i := i + 4
        if i < len then strFastcmpLoop le a b len fuel i else some 0

/-- `str_fastcmp`. -/
def strFastcmp (le : Bool) (a b : ℕ → UInt8) (len : BitVec 32) : Option (BitVec 32) :=
  strFastcmpLoop le a b len (len.toNat + 1) 0

/-- `memcmp`, as far as it is compared with zero. -/
def memcmp (a b : ℕ → UInt8) (len : ℕ) : Bool := (List.range len).any fun k => a k != b k

/-- `str_fastcmp` is used if the word at the end of the string is on the page of the end. -/
def nearPageEnd (addr len : ℕ) : Bool := decide (ljPagesize - 4 < (addr + len - 1) % ljPagesize)

/-! ### Hash -/

/-- The hash of a string of `len` bytes. -/
def strHash (le : Bool) (s : ℕ → UInt8) (len : ℕ) : BitVec 32 :=
  let byte i := BitVec.ofNat 32 (s i).toNat
  let h := BitVec.ofNat 32 len
  let (a, b, h) :=
    if len ≥ 4 then
      let a := getu32 le s 0
      let h := h ^^^ getu32 le s (len - 4)
      let b := getu32 le s (len / 2 - 2)
      let h := h ^^^ b
      let h := h - Word.rol b 14
      (a, b + getu32 le s (len / 4 - 1), h)
    else
      let a := byte 0
      let h := h ^^^ byte (len - 1)
      let b := byte (len / 2)
      let h := h ^^^ b
      (a, b, h - Word.rol b 14)
  let a := a ^^^ h
  let a := a - Word.rol h 11
  let b := b ^^^ a
  let b := b - Word.rol a 25
  let h := h ^^^ b
  h - Word.rol b 16

/-! ### The string table -/

variable {w : ℕ}

/-- A string object. -/
structure GCstr (w : ℕ) where
  nextgc : Option (BitVec w)
  marked : BitVec 8
  hash : BitVec 32
  bytes : List UInt8

/-- The byte at `strdata(s)+i`, with `tail` in memory behind the object. -/
def GCstr.strdata (s : GCstr w) (tail : ℕ → UInt8) (i : ℕ) : UInt8 := (s.bytes ++ [0]).getD i (tail i)

/-- The part of the global state that the string table and its sweep use.  The object of the empty string
is a field of the global state itself; its address is fixed. -/
structure GState (w : ℕ) where
  heap : BitVec w → Option (GCstr w)
  strempty : BitVec w
  strhash : BitVec 32 → Option (BitVec w)
  strmask : BitVec 32
  strnum : BitVec 32
  currentwhite : BitVec 8
  sweepstring : Bool

/-- `LJ_GC_WHITES`. -/
def gcWhites : BitVec 8 := 0x03#8

/-- `LJ_GC_COLORS`. -/
def gcColors : BitVec 8 := 0x07#8

def GState.otherwhite (g : GState w) : BitVec 8 := g.currentwhite ^^^ gcWhites

def GState.curwhite (g : GState w) : BitVec 8 := g.currentwhite &&& gcWhites

/-- `isdead`. -/
def GState.isdead (g : GState w) (s : GCstr w) : Bool := s.marked &&& g.otherwhite &&& gcWhites != 0

/-- The successors on the chains. -/
def GState.next (g : GState w) (a : BitVec w) : Option (BitVec w) := (g.heap a).bind GCstr.nextgc

/-- Other links between the same objects. -/
def GState.relink (g : GState w) (next : BitVec w → Option (BitVec w)) : BitVec w → Option (GCstr w) :=
  fun a => (g.heap a).map fun s => { s with nextgc := next a }

/-- The bucket of an object under a mask. -/
def GState.bucket (g : GState w) (mask : BitVec 32) (a : BitVec w) : BitVec 32 :=
  ((g.heap a).map fun s => s.hash &&& mask).getD 0

/-- The loop of `lj_str_resize` over the old table, with `n` entries to go. -/
def rehashOld (g : GState w) (newmask : BitVec 32) :
    ℕ → Linked.Buckets (BitVec w) (BitVec 32) → Option (Linked.Buckets (BitVec w) (BitVec 32))
  | 0, s => some s
  | n + 1, s => (Linked.pushAll (g.bucket newmask) (2 ^ w) s (g.strhash (BitVec.ofNat 32 n))).bind (rehashOld g newmask n)

/-- `lj_str_resize`; `alloc` says whether there is memory for the new table. -/
def strResize (g : GState w) (newmask : BitVec 32) (alloc : Bool) : Option (GState w) :=
  if g.sweepstring ∨ newmask.toNat ≥ ljMaxStrtab - 1 ∨ alloc = false then some g
  else
    (rehashOld g newmask (g.strmask + 1).toNat ⟨g.next, fun _ => none⟩).map fun s =>
      { g with heap := g.relink s.next, strhash := s.head, strmask := newmask }

/-- The search along a chain. -/
def findStr (g : GState w) (test : BitVec w → GCstr w → Bool) : ℕ → Option (BitVec w) → Option (Option (BitVec w))
  | _, none => some none
  | 0, some _ => none
  | fuel + 1, some o =>
      match g.heap o with
      | none => none
      | some sx => if test o sx then some (some o) else findStr g test fuel sx.nextgc

/-- What `lj_str_new` returns: an object that is there, or a new one; or an error. -/
inductive NewResult (w : ℕ) where
  | existing (o : BitVec w)
  | created (o : BitVec w)
  | strov
  | errmem
  deriving DecidableEq

/-- The arguments of `lj_str_new` and what it finds in memory: the address of the string and the bytes
from there on, the bytes behind every object, and what the allocator answers. -/
structure NewArgs (w : ℕ) where
  addr : ℕ
  str : ℕ → UInt8
  lenx : ℕ
  tail : BitVec w → ℕ → UInt8
  alloc : Option (BitVec w)
  allocTab : Bool

/-- The bytes to be interned. -/
def NewArgs.content (args : NewArgs w) : List UInt8 := (List.range args.lenx).map args.str

/-- The comparison of the bytes that `lj_str_new` uses. -/
def NewArgs.equal (le : Bool) (args : NewArgs w) (o : BitVec w) (sx : GCstr w) : Bool :=
  if nearPageEnd args.addr args.lenx then !memcmp args.str (sx.strdata (args.tail o)) args.lenx
  else strFastcmp le args.str (sx.strdata (args.tail o)) (BitVec.ofNat 32 args.lenx) == some 0

/-- An object that is found is made alive if it is dead. -/
def GState.resurrect (g : GState w) (o : BitVec w) : GState w :=
  let s := (g.heap o).map fun s => if g.isdead s then { s with marked := s.marked ^^^ gcWhites } else s
  { g with heap := Function.update g.heap o s }

/-- A new object of the bytes, in front of the chain of its hash. -/
def GState.add (g : GState w) (o : BitVec w) (h : BitVec 32) (bytes : List UInt8) : GState w :=
  { g with
    heap := Function.update g.heap o (some ⟨g.strhash (h &&& g.strmask), g.curwhite, h, bytes⟩)
    strhash := Function.update g.strhash (h &&& g.strmask) (some o)
    strnum := g.strnum + 1 }

/-- The search in the chain of the hash. -/
def findNew (le : Bool) (g : GState w) (args : NewArgs w) : Option (Option (BitVec w)) :=
  findStr g (fun o sx => decide (sx.bytes.length = args.lenx) && args.equal le o sx) (2 ^ w)
    (g.strhash (strHash le args.str args.lenx &&& g.strmask))

/-- `lj_str_new`. -/
def strNew (le : Bool) (g : GState w) (args : NewArgs w) : Option (GState w × NewResult w) :=
  if args.lenx ≥ ljMaxStr then some (g, .strov)
  else if args.lenx = 0 then some (g, .existing g.strempty)
  else
    match findNew le g args with
    | none => none
    | some (some o) => some (g.resurrect o, .existing o)
    | some none =>
        match args.alloc with
        | none => some (g, .errmem)
        | some o =>
            let g' := g.add o (strHash le args.str args.lenx) args.content
            if g.strnum > g.strmask then
              -- an error of the allocator leaves the new object in the table
              let full := (g.strmask <<< 1) + 1
              (strResize g' full args.allocTab).map fun g'' =>
                (g'', if args.allocTab = false ∧ ¬(g'.sweepstring ∨ full.toNat ≥ ljMaxStrtab - 1) then .errmem
                  else .created o)
            else some (g', .created o)

/-- `lj_str_free`: the counter, and the memory of the object. -/
def strFree (g : GState w) (o : BitVec w) : GState w :=
  { g with strnum := g.strnum - 1, heap := Function.update g.heap o none }

/-- A `GCRef` of a chain: the anchor, or the link of an object. -/
inductive Loc (w : ℕ) where
  | anchor (i : BitVec 32)
  | link (o : BitVec w)

def GState.read (g : GState w) : Loc w → Option (BitVec w)
  | .anchor i => g.strhash i
  | .link o => g.next o

def GState.write (g : GState w) (r : Option (BitVec w)) : Loc w → GState w
  | .anchor i => { g with strhash := Function.update g.strhash i r }
  | .link o => { g with heap := Function.update g.heap o ((g.heap o).map fun s => { s with nextgc := r }) }

/-- `makewhite`. -/
def GState.makewhite (g : GState w) (o : BitVec w) (s : GCstr w) : GState w :=
  let s := { s with marked := s.marked &&& ~~~gcColors ||| g.curwhite }
  { g with heap := Function.update g.heap o (some s) }

/-- `gc_sweep` of a chain, from the reference at `p` on. -/
def gcSweep : ℕ → GState w → Loc w → Option (GState w)
  | 0, g, _ => some g
  | lim + 1, g, p =>
      match g.read p with
      | none => some g
      | some o =>
          match g.heap o with
          | none => none
          | some s =>
              if (s.marked ^^^ gcWhites) &&& g.otherwhite ≠ 0 then
                -- alive
                gcSweep lim (g.makewhite o s) (.link o)
              else gcSweep lim (strFree (g.write s.nextgc p) o) p

/-- `gc_fullsweep` of one chain. -/
def sweepChain (g : GState w) (i : BitVec 32) : Option (GState w) := gcSweep (2 ^ 32 - 1) g (.anchor i)

/-! ### Runs -/

/-- The operations: a string is interned, a chain is swept, the table is resized; and the rest of the
collector, which changes marks, the current white and the phase. -/
inductive Op (w : ℕ) where
  | new (args : NewArgs w)
  | sweep (i : BitVec 32)
  | resize (newmask : BitVec 32) (alloc : Bool)
  | collect (marks : BitVec w → BitVec 8) (currentwhite : BitVec 8) (sweepstring : Bool)

/-- One operation. -/
def exec (le : Bool) (g : GState w) : Op w → Option (GState w)
  | .new args => (strNew le g args).map Prod.fst
  | .sweep i => sweepChain g i
  | .resize newmask alloc => strResize g newmask alloc
  | .collect marks white sweepstring => some { g with
      heap := fun a => (g.heap a).map fun s => { s with marked := marks a }
      currentwhite := white
      sweepstring := sweepstring }

/-- The allocator returns memory that is not in use, a chain is one of the table, and the number of
chains is a power of two. -/
def Allowed (g : GState w) : Op w → Prop
  | .new args => ∀ o ∈ args.alloc, o ≠ 0 ∧ g.heap o = none
  | .sweep i => i ≤ g.strmask
  | .resize newmask _ => ∃ k ≤ 32, newmask.toNat = 2 ^ k - 1
  | .collect _ _ _ => True

/-- The state after `lua_newstate` and the first `lj_str_resize`. -/
def init (strempty : BitVec w) : GState w :=
  ⟨fun a => if a = strempty then some ⟨none, 0x01#8, 0, []⟩ else none, strempty, fun _ => none,
    BitVec.ofNat 32 (ljMinStrtab - 1), 0, 0x21#8, false⟩

/-- The states that a run reaches. -/
inductive Reach (le : Bool) : GState w → Prop
  | init {strempty : BitVec w} : strempty ≠ 0 → Reach le (init strempty)
  | step {g g' : GState w} {op : Op w} : Reach le g → Allowed g op → exec le g op = some g' → Reach le g'

end StrTab
