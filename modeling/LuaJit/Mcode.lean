/-
**Machine code areas.**

The areas form a list, the current one first.  The protection of the current area is cached, and other
areas are switched behind the cache while they are patched.  The calls of the operating system are
parameters: where `mmap` maps a range is up to it, and mapping and protection succeed.  Where the range
of jumps is limited, an area has to be near the code of the interpreter, and addresses are probed; the
probing loop can run without end, so it has fuel.

Main definitions:

* `Mcode.Target` — what depends on the target;
* `Mcode.mcodeAlloc` — the choice of an address;
* `Mcode.JState`, `Mcode.step` — the state, and the operations;
* `Mcode.Run` — the states that are reached by operations as the assembler does them;
* `Mcode.WellPlaced` — the areas are apart, and lie where jumps reach.
-/

import Mathlib

set_option relaxedAutoImplicit false
set_option autoImplicit false

namespace Mcode

/-! ### Targets -/

/-- What depends on the target. -/
structure Target where
  /-- The width of an address, of `uintptr_t` and of `size_t`. -/
  w : ℕ
  /-- Whether `LJ_TARGET_JUMPRANGE` is defined, and what it is. -/
  limited : Bool
  jumprange : ℕ
  /-- `LJ_TARGET_MIPS`: jumps reach the 256MB region around. -/
  mips : Bool
  /-- `lj_vm_exit_handler`. -/
  exitHandler : BitVec w
  /-- The limit of `mcode_validptr`. -/
  validLimit : BitVec w
  /-- `sizeof(MCLink)`. -/
  szlink : ℕ
  width : 32 ≤ w
  jump : 22 < jumprange
  jumpWidth : jumprange < w
  jump32 : jumprange ≤ 31
  mips32 : mips = true → w = 32 ∧ jumprange = 27
  szlink16 : szlink ≤ 16

variable {T : Target}

abbrev Addr (T : Target) := BitVec T.w

/-- `range`. -/
def Target.range (T : Target) : Addr T := BitVec.ofNat T.w (2 ^ (T.jumprange - 1) - 2 ^ 21)

/-- `target`. -/
def Target.target (T : Target) : Addr T :=
  if T.mips then (T.exitHandler &&& BitVec.ofNat T.w 0xf0000000) + BitVec.ofNat T.w 0x08000000
  else T.exitHandler &&& ~~~BitVec.ofNat T.w 0xffff

/-- `mcode_validptr`. -/
def validptr (p : Addr T) : Bool := p != 0 && p.ult T.validLimit

/-- `(size_t)J->param[JIT_P_sizemcode] << 10`, rounded up to pages. -/
def szmcode (T : Target) (sizemcode : BitVec 32) : Addr T :=
  (sizemcode.signExtend T.w <<< 10 + BitVec.ofNat T.w 4095) &&& ~~~BitVec.ofNat T.w 4095

/-! ### Allocation -/

/-- `LJ_PRNG_BITS`, before the shift. -/
def prng (s : BitVec 32) : BitVec 32 := s * 1103515245#32 + 12345#32

/-- The loop for the next pseudo-random hint. -/
@[grind =]
def probe (T : Target) (sz : Addr T) : ℕ → BitVec 32 → Option (Addr T × BitVec 32)
  | 0, _ => none
  | fuel + 1, s =>
      let s := prng s
      let hint := ((0x78fb#32 ^^^ (s >>> 17)) <<< 16).setWidth T.w
      if (hint + sz).ult T.range then some (hint, s) else probe T sz fuel s

/-- The mapped range is near enough. -/
def near (p sz : Addr T) : Bool := (p + sz - T.target).ult T.range || (T.target - p).ult T.range

/-- The loop of `mcode_alloc`, with `i` attempts left; `mmap` gets the number of attempts left and the
hint.  The result is an address, or nothing if all attempts have failed, and the state of the generator. -/
@[grind =]
def mcodeAllocLoop (T : Target) (mmap : ℕ → Addr T → Addr T) (sz : Addr T) (fuel : ℕ) :
    ℕ → Addr T → BitVec 32 → Option (Option (Addr T) × BitVec 32)
  | 0, _, s => some (none, s)
  | i + 1, hint, s =>
      if validptr hint && (validptr (mmap i hint) && near (mmap i hint) sz) then
        some (some (mmap i hint), s)
      else
        match probe T sz fuel s with
        | none => none
        | some (h, s) => mcodeAllocLoop T mmap sz fuel i (T.target + h - T.range >>> 1) s

/-! ### The state -/

/-- The protections: read and write, and read and execute. -/
inductive Prot where
  | rw
  | rx
  deriving DecidableEq

/-- An area: its link, and the protection that its pages have. -/
structure Area (T : Target) where
  base : Addr T
  size : Addr T
  prot : Prot

/-- The part of `jit_State` for machine code; `committed` are the ranges that hold code, and `opened`
the areas in a bracket. -/
structure JState (T : Target) where
  mcprot : Prot := .rw
  areas : List (Area T) := []
  mctop : Addr T := 0
  mcbot : Addr T := 0
  szmcarea : Addr T := 0
  szallmcarea : Addr T := 0
  prngstate : BitVec 32 := 0
  sizemcode : BitVec 32
  maxmcode : BitVec 32
  committed : List (Addr T × Addr T) := []
  opened : List (Addr T) := []

/-- `J->mcarea`, which is 0 without an area. -/
def JState.mcarea (J : JState T) : Addr T :=
  match J.areas with
  | [] => 0
  | a :: _ => a.base

/-- `mcode_setprot`. -/
def setprot (areas : List (Area T)) (p : Addr T) (prot : Prot) : List (Area T) :=
  areas.map fun a => if a.base = p then { a with prot := prot } else a

/-- `mcode_protect`. -/
def mcodeProtect (J : JState T) (prot : Prot) : JState T :=
  if J.mcprot ≠ prot then { J with areas := setprot J.areas J.mcarea prot, mcprot := prot } else J

/-- `mcode_alloc`. -/
def mcodeAlloc (mmap : ℕ → Addr T → Addr T) (fuel : ℕ) (J : JState T) (sz : Addr T) :
    Option (Option (Addr T) × BitVec 32) :=
  if T.limited then
    mcodeAllocLoop T mmap sz fuel 32 (if J.areas.isEmpty then 0 else J.mcarea - sz) J.prngstate
  else some (some (mmap 0 0), J.prngstate)

/-- The errors that are thrown. -/
inductive TraceError where
  | mcodeov
  | mcodeal
  | mcodelm
  deriving DecidableEq

/-- A new bracket. -/
def JState.open_ (J : JState T) (p : Addr T) : JState T := { J with opened := p :: J.opened }

/-- The end of all brackets of an area. -/
def JState.close (J : JState T) (p : Addr T) : JState T :=
  { J with opened := J.opened.filter (· ≠ p) }

/-- `mcode_allocarea`. -/
def mcodeAllocarea (mmap : ℕ → Addr T → Addr T) (fuel : ℕ) (J : JState T) :
    Option (JState T × Option TraceError) :=
  let sz := szmcode T J.sizemcode
  match mcodeAlloc mmap fuel J sz with
  | none => none
  | some (none, s) => some ({ J with prngstate := s }, some .mcodeal)
  | some (some p, s) =>
      some ({ J with
        prngstate := s
        areas := ⟨p, sz, .rw⟩ :: J.areas
        szmcarea := sz
        mcprot := .rw
        mctop := p + sz
        mcbot := p + BitVec.ofNat T.w T.szlink
        szallmcarea := J.szallmcarea + sz
        opened := p :: J.opened }, none)

/-- `lj_mcode_abort`. -/
def mcodeAbort (J : JState T) : JState T :=
  if J.areas.isEmpty then J else (mcodeProtect J .rx).close J.mcarea

/-- `ptr >= mc && ptr < mc + size`. -/
def within (ptr mc size : Addr T) : Bool := mc.ule ptr && ptr.ult (mc + size)

/-- The search of `lj_mcode_patch` in the older areas. -/
def findArea (ptr : Addr T) : List (Area T) → Option (Addr T)
  | [] => none
  | a :: as => if within ptr a.base a.size then some a.base else findArea ptr as

/-- The operations. -/
inductive Op (T : Target) where
  | param (sizemcode maxmcode : BitVec 32)
  | reserve (mmap : ℕ → Addr T → Addr T)
  | commit (top : Addr T)
  | commitbot (m : Addr T)
  | abort
  | patchBegin (ptr : Addr T)
  | patchFinish (ptr : Addr T)
  | limiterr (mmap : ℕ → Addr T → Addr T) (need : Addr T)

/-- One operation: nothing if the fuel for the probing loop runs out, else the state and an error. -/
def step (fuel : ℕ) (J : JState T) : Op T → Option (JState T × Option TraceError)
  | .param sizemcode maxmcode => some ({ J with sizemcode := sizemcode, maxmcode := maxmcode }, none)
  | .reserve mmap =>
      if J.areas.isEmpty then mcodeAllocarea mmap fuel J
      else some ((mcodeProtect J .rw).open_ J.mcarea, none)
  | .commit top =>
      let J := { J with committed := (top, J.mctop) :: J.committed, mctop := top }
      some ((mcodeProtect J .rx).close J.mcarea, none)
  | .commitbot m =>
      some ({ J with committed := (J.mcbot, m) :: J.committed, mcbot := m }, none)
  | .abort => some (mcodeAbort J, none)
  | .patchBegin ptr =>
      match J.areas with
      | [] => some (J, none)
      | a :: as =>
          if within ptr a.base J.szmcarea then some ((mcodeProtect J .rw).open_ a.base, none)
          else
            match findArea ptr as with
            | none => some (J, none)
            | some mc => some ({ J with areas := setprot J.areas mc .rw }.open_ mc, none)
  | .patchFinish ptr =>
      if J.mcarea = ptr then some ((mcodeProtect J .rx).close ptr, none)
      else some ({ J with areas := setprot J.areas ptr .rx }.close ptr, none)
  | .limiterr mmap need =>
      let J := mcodeAbort J
      let sizemcode := szmcode T J.sizemcode
      let maxmcode : Addr T := J.maxmcode.signExtend T.w <<< 10
      if sizemcode.ult need then some (J, some .mcodeov)
      else if maxmcode.ult (J.szallmcarea + sizemcode) then some (J, some .mcodeal)
      else
        match mcodeAllocarea mmap fuel J with
        | none => none
        | some (J, none) => some (J, some .mcodelm)
        | some (J, e) => some (J, e)

/-! ### Runs -/

/-- Two ranges have no address in common. -/
def Apart (lo hi lo' hi' : ℕ) : Prop := ∀ x, lo ≤ x → x < hi → lo' ≤ x → x < hi' → False

/-- The range at `p` is apart from all areas, and has an end. -/
structure Fresh (areas : List (Area T)) (p sz : Addr T) : Prop where
  end_le : p.toNat + sz.toNat < 2 ^ T.w
  link_le : p.toNat + T.szlink < 2 ^ T.w
  apart : ∀ a ∈ areas, a.base ≠ p ∧
    Apart a.base.toNat (a.base.toNat + a.size.toNat) p.toNat (p.toNat + sz.toNat)

/-- The operations as the assembler does them: it commits a part of what is reserved, and the operating
system maps fresh ranges. -/
def Legal (J : JState T) : Op T → Prop
  | .param .. | .abort | .patchBegin _ | .patchFinish _ => True
  | .commit top => J.areas ≠ [] ∧ J.mcbot.toNat ≤ top.toNat ∧ top.toNat ≤ J.mctop.toNat
  | .commitbot m => J.areas ≠ [] ∧ J.mcbot.toNat ≤ m.toNat ∧ m.toNat ≤ J.mctop.toNat
  | .reserve mmap => J.areas = [] → ∀ i hint, Fresh J.areas (mmap i hint) (szmcode T J.sizemcode)
  | .limiterr mmap need =>
      ¬(szmcode T J.sizemcode).ult need → ∀ i hint, Fresh J.areas (mmap i hint) (szmcode T J.sizemcode)

/-- The size of areas is less than the range. -/
def Fits (T : Target) (sizemcode : BitVec 32) : Prop := (szmcode T sizemcode).ult T.range = true

/-- The states that are reached, where `C` holds of the sizes that are set. -/
inductive Run (T : Target) (C : BitVec 32 → Prop) : JState T → Prop
  | init (s sizemcode maxmcode : BitVec 32) (h : C sizemcode) :
      Run T C { prngstate := s, sizemcode := sizemcode, maxmcode := maxmcode }
  | step {J J' : JState T} {op : Op T} {fuel : ℕ} {e : Option TraceError} (h : Run T C J)
      (hl : Legal J op) (hc : ∀ a b, op = .param a b → C a) (hs : step fuel J op = some (J', e)) :
      Run T C J'

/-! ### What holds in every state -/

/-- The protections: the cache is right, and an area outside of a bracket is executable and not
writable. -/
structure Protected (J : JState T) : Prop where
  cache : ∀ a ∈ J.areas.head?, a.prot = J.mcprot
  closed : ∀ a ∈ J.areas, a.base ∉ J.opened → a.prot = .rx

/-- A range within a range. -/
def Inside (r : Addr T × Addr T) (lo hi : ℕ) : Prop := lo ≤ r.1.toNat ∧ r.2.toNat ≤ hi

/-- Code is kept: no range of committed code meets another, or what is free of the current area. -/
structure Kept (J : JState T) : Prop where
  areas : J.areas.Pairwise fun a b =>
    a.base ≠ b.base ∧ Apart a.base.toNat (a.base.toNat + a.size.toNat) b.base.toNat (b.base.toNat + b.size.toNat)
  inside : ∀ r ∈ J.committed, ∃ a ∈ J.areas, Inside r a.base.toNat (a.base.toNat + a.size.toNat)
  pairwise : J.committed.Pairwise fun r r' => Apart r.1.toNat r.2.toNat r'.1.toNat r'.2.toNat
  free : ∀ r ∈ J.committed, Apart r.1.toNat r.2.toNat J.mcbot.toNat J.mctop.toNat
  window : ∀ a ∈ J.areas.head?, a.base.toNat + T.szlink ≤ J.mcbot.toNat ∧
    J.mctop.toNat ≤ a.base.toNat + a.size.toNat

/-- `szallmcarea` is the sum of the sizes. -/
def Summed (J : JState T) : Prop := J.szallmcarea = (J.areas.map Area.size).sum

/-- A jump from `a` reaches `b`. -/
def Reaches (T : Target) (a b : Addr T) : Prop :=
  -2 ^ T.jumprange < (b - a).toInt ∧ (b - a).toInt < 2 ^ T.jumprange ∧
    (T.mips = true → a >>> 28 = b >>> 28)

/-- The addresses of an area. -/
def Area.Mem (a : Area T) (x : Addr T) : Prop := ∃ k < a.size.toNat, x = a.base + BitVec.ofNat T.w k

/-- Jumps reach from every area to every other. -/
def WellPlaced (J : JState T) : Prop :=
  ∀ a ∈ J.areas, ∀ b ∈ J.areas, ∀ x y, a.Mem x → b.Mem y → Reaches T x y

end Mcode
