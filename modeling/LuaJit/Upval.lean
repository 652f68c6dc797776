/-
**Upvalues.**

An upvalue is open as long as the stack slot of its variable lives: it points to the slot.  The open
upvalues of a thread are on a singly linked list, sorted by their slots, and those of all threads on a
doubly linked one, whose links share their space with the value of a closed upvalue.  A memory access to
something that is not there has no result.

Main definitions:

* `Upval.State` — the upvalues, the lists and the stack slots;
* `Upval.unlinkuv`, `Upval.funcFinduv`, `Upval.gcCloseuv`, `Upval.funcFreeuv`, `Upval.funcCloseuv`,
  `Upval.newLUpvals` — the functions;
* `Upval.Step` — the steps of the threads and of the collector.
-/

import LuaJit.Linked
import LuaJit.LinkedRing

set_option relaxedAutoImplicit false
set_option autoImplicit false

namespace Upval

/-! ### Objects -/

/-- The address of an object. -/
abbrev Ref := ℕ

/-- The address of a stack slot, in slots. -/
abbrev Slot := ℕ

abbrev Thread := ℕ

/-- A link of the global list: to `g->uvhead`, or to an upvalue. -/
inductive Node
  | uvhead
  | uv (r : Ref)
  deriving DecidableEq

/-- The union of a `GCupval`: the value of a closed one, or the links of an open one. -/
inductive Body (V : Type)
  | tv (x : V)
  | links (prev next : Node)

/-- `uv->v`: it points to a stack slot, or to `uv->tv`. -/
inductive MRef
  | slot (a : Slot)
  | tv
  deriving DecidableEq

structure GCupval (V : Type) where
  nextgc : Option Ref
  marked : BitVec 8
  closed : Bool
  immutable : Bool
  u : Body V
  v : MRef
  dhash : BitVec 32

/-- `g->gc.state`. -/
inductive GCState
  | pause | propagate | atomic | sweepstring | sweep | finalize
  deriving DecidableEq

structure State (V : Type) where
  root : Option Ref
  currentwhite : BitVec 8
  gcstate : GCState
  /-- `g->uvhead.prev` and `g->uvhead.next`. -/
  headPrev : Node
  headNext : Node
  heap : Ref → Option (GCupval V)
  openupval : Thread → Option Ref
  stack : Slot → V

/-! ### Colours -/

def gcWhites : BitVec 8 := 0x03
def gcBlack : BitVec 8 := 0x04
def gcColors : BitVec 8 := 0x07

variable {V : Type}

namespace State

variable (s : State V)

def curwhite : BitVec 8 := s.currentwhite &&& gcWhites

def otherwhite : BitVec 8 := s.currentwhite ^^^ gcWhites

/-- `isdead`. -/
def isdead (uv : GCupval V) : Bool := uv.marked &&& s.otherwhite &&& gcWhites != 0

/-- `makewhite`. -/
def makewhite (marked : BitVec 8) : BitVec 8 := marked &&& ~~~gcColors ||| s.curwhite

end State

def isgray (uv : GCupval V) : Bool := uv.marked &&& (gcBlack ||| gcWhites) == 0

/-- `flipwhite`. -/
def GCupval.flipwhite (uv : GCupval V) : GCupval V := { uv with marked := uv.marked ^^^ gcWhites }

/-! ### Memory -/

namespace State

variable (s : State V)

/-- An object is written. -/
def put (r : Ref) (uv : GCupval V) : State V := { s with heap := Function.update s.heap r (some uv) }

/-- `lj_mem_freet`. -/
def free (r : Ref) : State V := { s with heap := Function.update s.heap r none }

/-- `n->prev`. -/
def prevOf : Node → Option Node
  | .uvhead => some s.headPrev
  | .uv r =>
      match s.heap r with
      | some ⟨_, _, _, _, .links prev _, _, _⟩ => some prev
      | _ => none

/-- `n->next`. -/
def nextOf : Node → Option Node
  | .uvhead => some s.headNext
  | .uv r =>
      match s.heap r with
      | some ⟨_, _, _, _, .links _ next, _, _⟩ => some next
      | _ => none

/-- `n->prev = p`. -/
def setPrev (n p : Node) : Option (State V) :=
  match n with
  | .uvhead => some { s with headPrev := p }
  | .uv r =>
      match s.heap r with
      | some ⟨nextgc, marked, closed, immutable, .links _ next, v, dhash⟩ =>
          some (s.put r ⟨nextgc, marked, closed, immutable, .links p next, v, dhash⟩)
      | _ => none

/-- `n->next = q`. -/
def setNext (n q : Node) : Option (State V) :=
  match n with
  | .uvhead => some { s with headNext := q }
  | .uv r =>
      match s.heap r with
      | some ⟨nextgc, marked, closed, immutable, .links prev _, v, dhash⟩ =>
          some (s.put r ⟨nextgc, marked, closed, immutable, .links prev q, v, dhash⟩)
      | _ => none

end State

/-- A `GCRef` of the list of a thread: `&L->openupval` or `&p->nextgc`. -/
inductive Loc
  | openupval (L : Thread)
  | nextgc (r : Ref)

/-- `*pp`. -/
def State.load (s : State V) : Loc → Option (Option Ref)
  | .openupval L => some (s.openupval L)
  | .nextgc r => (s.heap r).map (·.nextgc)

/-- `*pp = p`. -/
def State.store (s : State V) (pp : Loc) (p : Option Ref) : Option (State V) :=
  match pp with
  | .openupval L => some { s with openupval := Function.update s.openupval L p }
  | .nextgc r => (s.heap r).map fun uv => s.put r { uv with nextgc := p }

/-- `uvval(uv)` of an open upvalue. -/
def GCupval.slot (uv : GCupval V) : Option Slot :=
  match uv.v with
  | .slot a => some a
  | .tv => none

/-- `*uvval(uv)`. -/
def State.value (s : State V) (uv : GCupval V) : Option V :=
  match uv.v, uv.u with
  | .slot a, _ => some (s.stack a)
  | .tv, .tv x => some x
  | .tv, .links _ _ => none

/-! ### The functions -/

/-- `unlinkuv`. -/
def unlinkuv (s : State V) (r : Ref) : Option (State V) := do
  let s ← s.setPrev (← s.nextOf (.uv r)) (← s.prevOf (.uv r))
  s.setNext (← s.prevOf (.uv r)) (← s.nextOf (.uv r))

/-- The search of `func_finduv`: the place to insert at, or an upvalue. -/
def finduvLoop (s : State V) (slot : Slot) : ℕ → Loc → Option (Loc ⊕ Ref)
  | 0, _ => none
  | fuel + 1, pp => do
      match ← s.load pp with
      | none => some (.inl pp)
      | some p =>
          let uv ← s.heap p
          let a ← uv.slot
          if a < slot then some (.inl pp)
          else if a = slot then some (.inr p)
          else finduvLoop s slot fuel (.nextgc p)

/-- `func_finduv`; the allocator gives the address `new`.  The caller sets `immutable` and `dhash`. -/
def funcFinduv (fuel : ℕ) (s : State V) (L : Thread) (slot : Slot) (new : Ref) : Option (State V × Ref) := do
  match ← finduvLoop s slot fuel (.openupval L) with
  | .inr p =>
      let uv ← s.heap p
      -- Resurrect it, if it's dead.
      some (if s.isdead uv then s.put p uv.flipwhite else s, p)
  | .inl pp =>
      let s := s.put new
        { nextgc := ← s.load pp, marked := s.curwhite, closed := false, immutable := false,
          u := .links .uvhead s.headNext, v := .slot slot, dhash := 0 }
      let s ← s.store pp (some new)
      let s ← s.setPrev (← s.nextOf (.uv new)) (.uv new)
      let s ← s.setNext .uvhead (.uv new)
      some (s, new)

/-- The colour of an upvalue that is closed.  The barrier marks the object of the value, which is no upvalue. -/
def closeMarked (s : State V) (uv : GCupval V) : BitVec 8 :=
  if isgray uv then
    if s.gcstate = .propagate ∨ s.gcstate = .atomic then uv.marked ||| gcBlack else s.makewhite uv.marked
  else uv.marked

/-- `lj_gc_closeuv`. -/
def gcCloseuv (s : State V) (r : Ref) : Option (State V) := do
  let uv ← s.heap r
  let x ← s.value uv
  some { s.put r { uv with u := .tv x, v := .tv, closed := true, nextgc := s.root, marked := closeMarked s uv } with
    root := some r }

/-- `lj_func_freeuv`. -/
def funcFreeuv (s : State V) (r : Ref) : Option (State V) := do
  let uv ← s.heap r
  let s ← if uv.closed then some s else unlinkuv s r
  some (s.free r)

/-- `lj_func_closeuv`. -/
@[grind =]
def funcCloseuv : ℕ → State V → Thread → Slot → Option (State V)
  | 0, _, _, _ => none
  | fuel + 1, s, L, level => do
      match s.openupval L with
      | none => some s
      | some r =>
          let uv ← s.heap r
          let a ← uv.slot
          if a < level then some s
          else
            let s := { s with openupval := Function.update s.openupval L uv.nextgc }
            if s.isdead uv then funcCloseuv fuel (← funcFreeuv s r) L level
            else funcCloseuv fuel (← gcCloseuv (← unlinkuv s r) r) L level

/-- `PROTO_UV_LOCAL` and `PROTO_UV_IMMUTABLE`. -/
def protoUvLocal : BitVec 32 := 0x8000
def protoUvImmutable : BitVec 32 := 0x4000

/-- The loop of `lj_func_newL_gc` over `proto_uv(pt)`: the upvalues of the new function.  `puv` are those of
the parent and `pc` is the low word of its `mref(parent->pc, char)`; the allocator has an address for each. -/
def newLUpvals (fuel : ℕ) (L : Thread) (base : Slot) (pc : BitVec 32) (puv : List Ref) :
    List (BitVec 16 × Ref) → State V → Option (State V × List Ref)
  | [], s => some (s, [])
  | (v, new) :: uvs, s => do
      let v := v.setWidth 32
      let (s, r) ←
        if v &&& protoUvLocal ≠ 0 then do
          let (s, r) ← funcFinduv fuel s L (base + (v &&& 0xff#32).toNat) new
          let uv ← s.heap r
          some (s.put r { uv with
            immutable := (v / protoUvImmutable) &&& 1 != 0
            dhash := pc ^^^ v <<< 24 }, r)
        else do some (s, ← puv[v.toNat]?)
      let (s, rs) ← newLUpvals fuel L base pc puv uvs s
      some (s, r :: rs)

/-! ### Steps -/

/-- The steps: `gc` is the collector, which gives every upvalue a new colour, and `store` a write to a stack
slot. -/
inductive Op (V : Type)
  | finduv (L : Thread) (slot : Slot) (new : Ref)
  | newL (L : Thread) (base : Slot) (pc : BitVec 32) (puv : List Ref) (uvs : List (BitVec 16 × Ref))
  | closeuv (L : Thread) (level : Slot)
  | gc (marked : Ref → BitVec 8) (currentwhite : BitVec 8) (gcstate : GCState) (root : Option Ref)
  | store (a : Slot) (x : V)

/-- The collector colours the upvalues. -/
def State.recolor (s : State V) (marked : Ref → BitVec 8) (currentwhite : BitVec 8) (gcstate : GCState)
    (root : Option Ref) : State V :=
  { s with
    heap := fun r => (s.heap r).map fun uv => { uv with marked := marked r }
    currentwhite := currentwhite
    gcstate := gcstate
    root := root }

/-- What a step does, and the upvalues it gives. -/
def Op.exec (fuel : ℕ) (s : State V) : Op V → Option (State V × List Ref)
  | .finduv L slot new => (funcFinduv fuel s L slot new).map fun (s, r) => (s, [r])
  | .newL L base pc puv uvs => newLUpvals fuel L base pc puv uvs s
  | .closeuv L level => (funcCloseuv fuel s L level).map fun s => (s, [])
  | .gc marked currentwhite gcstate root => some (s.recolor marked currentwhite gcstate root, [])
  | .store a x => some ({ s with stack := Function.update s.stack a x }, [])

/-- There is one current white. -/
def OneWhite (currentwhite : BitVec 8) : Prop :=
  currentwhite &&& gcWhites = 1#8 ∨ currentwhite &&& gcWhites = 2#8

/-- The allocator gives addresses that are not in use, a parent has the upvalues that are inherited, and the
collector keeps one current white. -/
def Op.Valid (s : State V) : Op V → Prop
  | .finduv _ _ new => s.heap new = none
  | .newL _ _ _ puv uvs => (uvs.map Prod.snd).Nodup ∧ (∀ e ∈ uvs, s.heap e.2 = none) ∧
      ∀ e ∈ uvs, e.1.setWidth 32 &&& protoUvLocal = 0 → e.1.toNat < puv.length
  | .closeuv _ _ => True
  | .gc _ currentwhite _ _ => OneWhite currentwhite
  | .store _ _ => True

/-- A step with its result; its loops end. -/
def Step (s : State V) (op : Op V) (rs : List Ref) (s' : State V) : Prop :=
  op.Valid s ∧ ∃ n, ∀ fuel ≥ n, op.exec fuel s = some (s', rs)

/-- The state at the start: there are no upvalues. -/
def initial (stack : Slot → V) : State V where
  root := none
  currentwhite := 0x21
  gcstate := .pause
  headPrev := .uvhead
  headNext := .uvhead
  heap _ := none
  openupval _ := none
  stack := stack

end Upval
