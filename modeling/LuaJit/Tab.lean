/-
**Lua tables: the code.**

The table implementation of `lj_tab.c`: an array part for the keys `0 .. asize - 1` and a hash part
of `hmask + 1` nodes with collision chains inside the node vector.

The node vector is kept as three columns `key`, `val` and `next`; a node pointer is an index and
`NULL` is `none`.  A table without hash part points at the shared nil node, which here is a vector
with `hmask = 0` and no key.  The identity of the array block is a counter, because
`lj_tab_resize` holds a pointer to the block across calls that may move it: a read through such a
pointer after the block has moved is the error `dangling`.  Loops over chains take fuel, and
following a `NULL` link where the code does not test for it is the error `nullderef`.

The recursion of the source runs `lj_tab_set`, `lj_tab_newkey`, `rehashtab`, `lj_tab_resize` and
back; it is cut at `lj_tab_newkey`, which takes the number of rehashes it may still start.

Main definitions:

* `Tab.Cfg` — what the code takes from the build and from the string table;
* `Tab.GCtab`, `Tab.TabErr` — tables and failures;
* `Tab.newkeyNode` — `lj_tab_newkey` up to the point where it rehashes;
* `Tab.resizeWith`, `Tab.rehashtabWith`, `Tab.setWith` — the functions around it;
* `Tab.newkey`, `Tab.set`, `Tab.resize` — the recursion closed;
* `Tab.get`, `Tab.dup`, `Tab.clear` — the rest of the interface.
-/

import LuaJit.Word
import LuaJit.Obj
import LuaJit.Chain

set_option relaxedAutoImplicit false
set_option autoImplicit false

namespace Tab

open Obj

/-! ### Data -/

/-- What the table code takes from elsewhere: the hash of an interned string, the build options and
the number conversion of the target. -/
structure Cfg (S : Type) where
  strHash : S → BitVec 32
  gc64 : Bool
  num2int : Num2Int

/-- Failures: the Lua errors `LJ_ERR_TABOV`, `LJ_ERR_NILIDX`, `LJ_ERR_NANIDX`, and the ways in
which the C code would go wrong. -/
inductive TabErr
  | tabov
  | nilidx
  | nanidx
  | dangling
  | nullderef
  | loop
  deriving DecidableEq

/-- `GCtab`. -/
structure GCtab (S : Type) where
  asize : ℕ
  array : ℕ → TValue S
  arrayId : ℕ
  colo : ℤ
  hmask : ℕ
  freetop : ℕ
  key : ℕ → TValue S
  val : ℕ → TValue S
  next : ℕ → Option ℕ

/-- A `TValue *` into a table. -/
inductive Slot
  | array (i : ℕ)
  | node (n : ℕ)
  deriving DecidableEq

def maxHbits : ℕ := 26
def maxAbits : ℕ := 28
def maxAsize : ℕ := 2 ^ (maxAbits - 1) + 1
def maxColosize : ℕ := 16

variable {S : Type}

/-- Storing through the pointer a setter returned. -/
def GCtab.store (t : GCtab S) (v : TValue S) : Slot → GCtab S
  | .array i => { t with array := Function.update t.array i v }
  | .node n => { t with val := Function.update t.val n v }

/-- `lj_fls`. -/
def fls (x : ℕ) : ℕ := Nat.log2 x

/-- `hsize2hbits`. -/
def hsize2hbits (s : ℕ) : ℕ := if s = 0 then 0 else if s = 1 then 1 else 1 + fls (s - 1)

/-! ### Object hashing -/

/-- `HASH_BIAS`. -/
def hashBias : BitVec 32 := -0x04c11db7

/-- `hashrot`. -/
def hashrot (lo hi : BitVec 32) : BitVec 32 :=
  let lo := lo ^^^ hi
  let lo := lo - Word.rol hi 14
  let hi := lo ^^^ Word.rol hi 19
  hi - Word.rol lo 13

/-- `hashkey`, before masking. -/
def hashkey (cfg : Cfg S) : TValue S → BitVec 32
  | .str s => cfg.strHash s
  | .num x => hashrot (x.setWidth 32) (((x >>> 32).setWidth 32) <<< 1)
  | .bool b => if b then 1 else 0
  | .lightud r | .gco _ r =>
    if cfg.gc64 then hashrot (r.setWidth 32) ((r >>> 32).setWidth 32)
    else hashrot (r.setWidth 32) (r.setWidth 32 + hashBias)
  | .nil | .int _ => 0

/-- `hashmask`. -/
def GCtab.hashmask (t : GCtab S) (hash : BitVec 32) : ℕ := hash.toNat &&& t.hmask

/-- The main position of a key. -/
def GCtab.main (t : GCtab S) (cfg : Cfg S) (k : TValue S) : ℕ := t.hashmask (hashkey cfg k)

/-! ### Creation -/

/-- Pointing the table at the nil node. -/
def GCtab.nilnode (t : GCtab S) : GCtab S :=
  { t with hmask := 0, freetop := 0, key := fun _ => .nil, val := fun _ => .nil
           next := fun _ => none }

/-- `newhpart`; the nodes are not initialised. -/
def newhpart (t : GCtab S) (hbits : ℕ) : Except TabErr (GCtab S) :=
  if maxHbits < hbits then .error .tabov
  else .ok { t with freetop := 2 ^ hbits, hmask := 2 ^ hbits - 1 }

/-- `clearhpart`. -/
def clearhpart (t : GCtab S) : GCtab S :=
  { t with key := fun _ => .nil, val := fun _ => .nil, next := fun _ => none }

/-- `clearapart`. -/
def clearapart (t : GCtab S) : GCtab S :=
  { t with array := fun i => if i < t.asize then .nil else t.array i }

/-- `newtab`. -/
def newtab (asize hbits : ℕ) : Except TabErr (GCtab S) := do
  let t : GCtab S :=
    { asize := 0, array := fun _ => .nil, arrayId := 0, colo := 0, hmask := 0, freetop := 0
      key := fun _ => .nil, val := fun _ => .nil, next := fun _ => none }
  let t ←
    if 0 < asize ∧ asize ≤ maxColosize then pure { t with asize := asize, colo := asize }
    else if maxAsize < asize then .error .tabov
    else pure { t with asize := asize }
  if hbits = 0 then pure t else newhpart t hbits

/-- `lj_tab_new`. -/
def new (asize hbits : ℕ) : Except TabErr (GCtab S) := do
  let t ← newtab asize hbits
  let t := clearapart t
  pure (if 0 < t.hmask then clearhpart t else t)

/-- `lj_tab_dup`. -/
def dup (kt : GCtab S) : Except TabErr (GCtab S) := do
  let t ← newtab kt.asize (if 0 < kt.hmask then fls kt.hmask + 1 else 0)
  let t := { t with array := fun i => if i < kt.asize then kt.array i else t.array i }
  if 0 < kt.hmask then
    pure { t with freetop := kt.freetop, key := kt.key, val := kt.val, next := kt.next }
  else pure t

/-- `lj_tab_clear`. -/
def clear (t : GCtab S) : GCtab S :=
  let t := clearapart t
  if 0 < t.hmask then clearhpart { t with freetop := t.hmask + 1 } else t

/-! ### Getters -/

section Code

variable [DecidableEq S] (cfg : Cfg S)

/-- The lookup loop: follow the chain from a main position to the first key that matches. -/
def lookup (t : GCtab S) (n : ℕ) (test : TValue S → Bool) : Except TabErr (Option ℕ) :=
  match Chain.walk t.next (fun i => test (t.key i)) (t.hmask + 1) n with
  | none => .error .loop
  | some r => .ok r

/-- The key test of `lj_tab_getinth` and `lj_tab_setinth`. -/
def isNumKey (x : BitVec 64) : TValue S → Bool
  | .num y => numEq y x
  | _ => false

/-- The key test of `lj_tab_getstr` and `lj_tab_setstr`. -/
def isStrKey (s : S) : TValue S → Bool
  | .str s' => decide (s' = s)
  | _ => false

/-- `lj_tab_getinth`. -/
def getinth (t : GCtab S) (k : BitVec 32) : Except TabErr (Option (TValue S)) := do
  let r ← lookup t (t.main cfg (.num (int2num k))) (isNumKey (int2num k))
  pure (r.map t.val)

/-- `lj_tab_getint`. -/
def getint (t : GCtab S) (k : BitVec 32) : Except TabErr (Option (TValue S)) :=
  if k.toNat < t.asize then pure (some (t.array k.toNat)) else getinth cfg t k

/-- `lj_tab_getstr`. -/
def getstr (t : GCtab S) (s : S) : Except TabErr (Option (TValue S)) := do
  let r ← lookup t (t.main cfg (.str s)) (isStrKey s)
  pure (r.map t.val)

/-- The generic lookup of `lj_tab_get`. -/
def getgen (t : GCtab S) (key : TValue S) : Except TabErr (Option (TValue S)) := do
  let r ← lookup t (t.main cfg key) (fun k => objEqual k key)
  pure (r.map t.val)

/-- `lj_tab_get`. -/
def get (t : GCtab S) (key : TValue S) : Except TabErr (TValue S) := do
  let tv ← match key with
    | .str s => getstr cfg t s
    | .int i => getint cfg t i
    | .num x =>
      match num2intCheck cfg.num2int x with
      | some k => getint cfg t k
      | none => getgen cfg t key
    | .nil => pure none
    | _ => getgen cfg t key
  pure (tv.getD .nil)

/-! ### Insertion -/

/-- The descending search for a node without key. -/
@[grind =]
def freeScan (key : ℕ → TValue S) : ℕ → Option ℕ
  | 0 => none
  | i + 1 => if (key i).isNil then some i else freeScan key i

/-- The pattern written for a number key: `-0` becomes `0`. -/
def normZero (x : BitVec 64) : BitVec 64 := if x = mzero then 0 else x

/-- The key as it is written. -/
def canonZero : TValue S → TValue S
  | .num x => .num (normZero x)
  | k => k

/-- The last lines of `lj_tab_newkey`: writing the key. -/
def putKey (t : GCtab S) (n : ℕ) (key : TValue S) : GCtab S :=
  { t with key := Function.update t.key n (canonZero key) }

/-- The test of the rechaining loop: a live string key whose main position is `n`. -/
def rechainTest (t : GCtab S) (n i : ℕ) : Bool :=
  (t.key i).isStr && !(t.val i).isNil && decide (t.main cfg (t.key i) = n)

/-- The branch of `lj_tab_newkey` for a colliding node that is not in its main position: move it to
the free node, empty it, and rechain the keys that belong to it. -/
def relocate (t : GCtab S) (n free : ℕ) : Except TabErr (GCtab S) :=
  let collide := t.main cfg (t.key n)
  match Chain.walk t.next (fun c => decide (t.next c = some n)) (t.hmask + 1) collide with
  | none => .error .loop
  | some none => .error .nullderef
  | some (some pred) =>
    let next := Function.update t.next pred (some free)
    let next := Function.update (Function.update next free (next n)) n none
    let t := { t with
      key := Function.update t.key free (t.key n)
      val := Function.update (Function.update t.val free (t.val n)) n .nil
      next := next }
    match Chain.sift (rechainTest cfg t n) n (t.hmask + 1) t.next free with
    | none => .error .loop
    | some next => .ok { t with next := next }

/-- `lj_tab_newkey` without the rehash: `none` when no free node is found. -/
def newkeyNode (t : GCtab S) (key : TValue S) : Except TabErr (Option (GCtab S × ℕ)) :=
  let n := t.main cfg key
  if !(t.val n).isNil || t.hmask = 0 then
    match freeScan t.key t.freetop with
    | none => .ok none
    | some free =>
      let t := { t with freetop := free }
      if t.main cfg (t.key n) ≠ n then do
        let t ← relocate cfg t n free
        pure (some (putKey t n key, n))
      else
        let t := { t with next := Chain.insertAfter t.next n free }
        .ok (some (putKey t free key, free))
  else .ok (some (putKey t n key, n))

/-! ### Setters, counting and resizing

The functions below call `lj_tab_newkey`, directly or not, and are called by it; `nk` stands for
it. -/

section With

variable (nk : GCtab S → TValue S → Except TabErr (GCtab S × Slot))

/-- A lookup that inserts the key when it is missing. -/
def lookupOrNew (t : GCtab S) (n : ℕ) (test : TValue S → Bool) (key : TValue S) :
    Except TabErr (GCtab S × Slot) := do
  match ← lookup t n test with
  | some n => pure (t, .node n)
  | none => nk t key

/-- `lj_tab_setinth`. -/
def setinthWith (t : GCtab S) (k : BitVec 32) : Except TabErr (GCtab S × Slot) :=
  let key := .num (int2num k)
  lookupOrNew nk t (t.main cfg key) (isNumKey (int2num k)) key

/-- `lj_tab_setint`. -/
def setintWith (t : GCtab S) (k : BitVec 32) : Except TabErr (GCtab S × Slot) :=
  if k.toNat < t.asize then pure (t, .array k.toNat) else setinthWith cfg nk t k

/-- `lj_tab_setstr`. -/
def setstrWith (t : GCtab S) (s : S) : Except TabErr (GCtab S × Slot) :=
  lookupOrNew nk t (t.main cfg (.str s)) (isStrKey s) (.str s)

/-- The generic lookup of `lj_tab_set`. -/
def setgenWith (t : GCtab S) (key : TValue S) : Except TabErr (GCtab S × Slot) :=
  lookupOrNew nk t (t.main cfg key) (fun k => objEqual k key) key

/-- `lj_tab_set`. -/
def setWith (t : GCtab S) (key : TValue S) : Except TabErr (GCtab S × Slot) :=
  match key with
  | .str s => setstrWith cfg nk t s
  | .int i => setintWith cfg nk t i
  | .num x =>
    match num2intCheck cfg.num2int x with
    | some k => setintWith cfg nk t k
    | none => if isNaN x then .error .nanidx else setgenWith cfg nk t key
  | .nil => .error .nilidx
  | _ => setgenWith cfg nk t key

/-- The array part of `lj_tab_resize` when it grows: a larger block, the new slots cleared. -/
def growArray (t : GCtab S) (asize : ℕ) : Except TabErr (GCtab S) :=
  if asize ≤ t.asize then .ok t
  else if maxAsize < asize then .error .tabov
  else .ok { t with
    colo := if 0 < t.colo then t.colo - 128 else t.colo
    arrayId := t.arrayId + 1
    asize := asize
    array := fun i => if t.asize ≤ i ∧ i < asize then .nil else t.array i }

/-- The new hash part of `lj_tab_resize`. -/
def newHash (t : GCtab S) (hbits : ℕ) : Except TabErr (GCtab S) :=
  if hbits = 0 then .ok t.nilnode
  else do
    let t ← newhpart t hbits
    pure (clearhpart t)

/-- Reading the block `old` pointed at when the loop began: a separate block is gone once the table
has another one, a colocated block stays. -/
def readArray (old t : GCtab S) (i : ℕ) : Except TabErr (TValue S) :=
  if t.arrayId = old.arrayId ∨ 0 < old.colo then .ok (old.array i) else .error .dangling

/-- One round of the loop that moves array values to the hash part. -/
def reinsertArray (old t : GCtab S) (i : ℕ) : Except TabErr (GCtab S) := do
  if (← readArray old t i).isNil then pure t
  else
    let (t, slot) ← setinthWith cfg nk t (BitVec.ofNat 32 i)
    pure (t.store (← readArray old t i) slot)

/-- Giving back the end of a separate block; `old` is the table when the block was read. -/
def shrinkBlock (old t : GCtab S) : Except TabErr (GCtab S) :=
  if 0 < t.colo then .ok t
  else if t.arrayId = old.arrayId then .ok { t with arrayId := t.arrayId + 1 }
  else .error .dangling

/-- The array part of `lj_tab_resize` when it shrinks. -/
def shrinkArray (old : GCtab S) (asize : ℕ) : Except TabErr (GCtab S) :=
  if old.asize ≤ asize then .ok old
  else do
    let t ← (List.range' asize (old.asize - asize)).foldlM (reinsertArray cfg nk old)
      { old with asize := asize }
    shrinkBlock old t

/-- One round of the loop that reinserts the old hash part. -/
def reinsertNode (old t : GCtab S) (i : ℕ) : Except TabErr (GCtab S) :=
  if (old.val i).isNil then pure t
  else do
    let (t, slot) ← setWith cfg nk t (old.key i)
    pure (t.store (old.val i) slot)

/-- `lj_tab_resize`. -/
def resizeWith (old : GCtab S) (asize hbits : ℕ) : Except TabErr (GCtab S) := do
  let t ← growArray old asize
  let t ← newHash t hbits
  let t ← shrinkArray cfg nk t asize
  if 0 < old.hmask then (List.range (old.hmask + 1)).foldlM (reinsertNode cfg nk old) t
  else .ok t

end With

/-- The bin of an array key: `k > 2 ? lj_fls(k-1) : 0`. -/
def binOf (k : ℕ) : ℕ := if 2 < k then fls (k - 1) else 0

/-- `bins[b] += n`. -/
def addBin (bins : ℕ → ℕ) (b n : ℕ) : ℕ → ℕ := Function.update bins b (bins b + n)

/-- The array key a key of the hash part would be, as `countint` decides it. -/
def arrayKey (key : TValue S) : Option ℕ :=
  match key with
  | .num x =>
    match num2intCheck cfg.num2int x with
    | some k => if k.toNat < maxAsize then some k.toNat else none
    | none => none
  | _ => none

/-- `countint`. -/
def countint (key : TValue S) (bins : ℕ → ℕ) : ℕ × (ℕ → ℕ) :=
  match arrayKey cfg key with
  | some k => (1, addBin bins (binOf k) 1)
  | none => (0, bins)

/-- The number of values that are not nil among `count` array slots from `i` on. -/
def countSlots (t : GCtab S) (i : ℕ) : ℕ → ℕ
  | 0 => 0
  | count + 1 => (if (t.array i).isNil then 0 else 1) + countSlots t (i + 1) count

/-- The loop of `countarray`, with `rest` rounds left before `LJ_MAX_ABITS`. -/
def countarrayLoop (t : GCtab S) : ℕ → ℕ → ℕ → ℕ → (ℕ → ℕ) → ℕ × (ℕ → ℕ)
  | 0, _, _, na, bins => (na, bins)
  | rest + 1, b, i, na, bins =>
    let top := if t.asize ≤ 2 * 2 ^ b then t.asize - 1 else 2 * 2 ^ b
    if t.asize ≤ 2 * 2 ^ b ∧ top < i then (na, bins)
    else
      let n := countSlots t i (top + 1 - i)
      countarrayLoop t rest (b + 1) (max i (top + 1)) (na + n) (addBin bins b n)

/-- `countarray`. -/
def countarray (t : GCtab S) (bins : ℕ → ℕ) : ℕ × (ℕ → ℕ) :=
  if t.asize = 0 then (0, bins) else countarrayLoop t maxAbits 0 0 0 bins

/-- The loop of `counthash` over the nodes below `i`, from the last one down to the first call. -/
def counthashLoop (t : GCtab S) : ℕ → ℕ × ℕ × (ℕ → ℕ) → ℕ × ℕ × (ℕ → ℕ)
  | 0, acc => acc
  | i + 1, acc =>
    let (total, na, bins) := counthashLoop t i acc
    if (t.val i).isNil then (total, na, bins)
    else
      let (n, bins) := countint cfg (t.key i) bins
      (total + 1, na + n, bins)

/-- `counthash`: the number of pairs, the number of array keys among them and the bins. -/
def counthash (t : GCtab S) (bins : ℕ → ℕ) : ℕ × ℕ × (ℕ → ℕ) :=
  counthashLoop cfg t (t.hmask + 1) (0, 0, bins)

/-- The loop of `bestasize`, with `rest` bins left. -/
def bestasizeLoop (bins : ℕ → ℕ) (nn : ℕ) : ℕ → ℕ → ℕ → ℕ → ℕ → ℕ × ℕ
  | 0, _, _, na, sz => (na, sz)
  | rest + 1, b, sum, na, sz =>
    if 2 ^ b < 2 * nn ∧ sum ≠ nn then
      let sum := sum + bins b
      if 0 < bins b ∧ 2 ^ b < 2 * sum then bestasizeLoop bins nn rest (b + 1) sum sum (2 * 2 ^ b + 1)
      else bestasizeLoop bins nn rest (b + 1) sum na sz
    else (na, sz)

/-- `bestasize`: the number of keys that go to the array part, and its size. -/
def bestasize (bins : ℕ → ℕ) (narray : ℕ) : ℕ × ℕ := bestasizeLoop bins narray maxAbits 0 0 0 0

/-- The sizes `rehashtab` asks for. -/
def rehashSizes (t : GCtab S) (ek : TValue S) : ℕ × ℕ :=
  let (asize, bins) := countarray t (fun _ => 0)
  let total := 1 + asize
  let (n, na, bins) := counthash cfg t bins
  let total := total + n
  let (n, bins) := countint cfg ek bins
  let (na, asize) := bestasize bins (asize + na + n)
  (asize, hsize2hbits (total - na))

/-- `rehashtab`. -/
def rehashtabWith (nk : GCtab S → TValue S → Except TabErr (GCtab S × Slot)) (t : GCtab S)
    (ek : TValue S) : Except TabErr (GCtab S) :=
  resizeWith cfg nk t (rehashSizes cfg t ek).1 (rehashSizes cfg t ek).2

/-! ### Closing the recursion -/

/-- `lj_tab_newkey`, with at most `fuel` nested rehashes. -/
def newkey : ℕ → GCtab S → TValue S → Except TabErr (GCtab S × Slot)
  | 0, t, key => do
    match ← newkeyNode cfg t key with
    | some (t, n) => pure (t, .node n)
    | none => .error .loop
  | fuel + 1, t, key => do
    match ← newkeyNode cfg t key with
    | some (t, n) => pure (t, .node n)
    | none =>
      let t ← rehashtabWith cfg (newkey fuel) t key
      setWith cfg (newkey fuel) t key

variable (fuel : ℕ)

/-- `lj_tab_set`. -/
def set (t : GCtab S) (key : TValue S) : Except TabErr (GCtab S × Slot) :=
  setWith cfg (newkey cfg fuel) t key

/-- `lj_tab_setint`. -/
def setint (t : GCtab S) (k : BitVec 32) : Except TabErr (GCtab S × Slot) :=
  setintWith cfg (newkey cfg fuel) t k

/-- `lj_tab_setstr`. -/
def setstr (t : GCtab S) (s : S) : Except TabErr (GCtab S × Slot) :=
  setstrWith cfg (newkey cfg fuel) t s

/-- `lj_tab_resize`. -/
def resize (t : GCtab S) (asize hbits : ℕ) : Except TabErr (GCtab S) :=
  resizeWith cfg (newkey cfg fuel) t asize hbits

/-- `lj_tab_reasize`. -/
def reasize (t : GCtab S) (nasize : ℕ) : Except TabErr (GCtab S) :=
  resize cfg fuel t (nasize + 1) (if 0 < t.hmask then fls t.hmask + 1 else 0)

end Code

end Tab
