/-
**The C type table.**

All C types of the FFI library are elements of one table; an element refers to others by their ids.
Elements that can be looked up, by their type or by their name, are chained from a small array of
hash anchors.  New elements only come at the top of the table, so it can be cut back: the parser of C
declarations saves the top and the anchors before it starts, and restores them after an error.

Main definitions:

* `Ctype.CType`, `Ctype.CTState` — elements and the table;
* `Ctype.ctypeNew`, `Ctype.ctypeIntern`, `Ctype.addname`, `Ctype.getname` — the operations;
* `Ctype.CTState.restore` — `LJ_CTYPE_RESTORE`;
* `Ctype.CTState.Ok` — no element refers beyond the top;
* `Ctype.Unchanged` — what a failed declaration must leave as it was.

Main results:

* `Ctype.chainFind_congr` — a lookup only depends on the elements below the top;
* `Ctype.unchanged_restore_iff` — **after restoring, all is as before exactly if no element below the
  old top was changed**.
-/

import LuaJit.Tab

set_option relaxedAutoImplicit false
set_option autoImplicit false

namespace Ctype

/-! ### The table -/

variable {Str : Type}

/-- An element of the table: `info` and `size`, the next sibling, the next element of the hash chain,
and the name. -/
structure CType (Str : Type) where
  info : BitVec 32 := 0
  size : BitVec 32 := 0
  sib : ℕ := 0
  next : ℕ := 0
  name : Option Str := none
  deriving DecidableEq

/-- The table with its top and its hash anchors. -/
structure CTState (Str : Type) where
  tab : ℕ → CType Str
  top : ℕ
  hash : ℕ → ℕ

/-- `CTID_MAX`. -/
def ctidMax : ℕ := 65536

/-- `CTSIZE_INVALID`. -/
def ctsizeInvalid : BitVec 32 := 0xffffffff

/-- `CTHASH_MASK`. -/
def cthashMask : ℕ := 127

/-- `ctype_type`: the highest 4 bits. -/
def ctypeType (info : BitVec 32) : ℕ := (info >>> 28).toNat

/-- The type numbers that the model names. -/
inductive CT
  | num | struct | ptr | array | void | enum | func | typedef | attrib | field | bitfield | constval
  | externDecl | kw
  deriving DecidableEq

/-- `CTINFO`. -/
def ctinfo (ct : CT) (flags : BitVec 32) : BitVec 32 := BitVec.ofNat 32 ct.ctorIdx <<< 28 + flags

/-- `CTF_UNION`. -/
def ctfUnion : BitVec 32 := 0x00800000

/-- `ct_hashtype`. -/
def hashType (info size : BitVec 32) : ℕ := (Tab.hashrot info size).toNat &&& cthashMask

/-- New contents of an element. -/
def CTState.set (cts : CTState Str) (id : ℕ) (ct : CType Str) : CTState Str :=
  { cts with tab := Function.update cts.tab id ct }

/-! ### Operations -/

/-- `lj_ctype_new`, with the element filled in; `none` is the error for a full table. -/
def ctypeNew (cts : CTState Str) (ct : CType Str) : Option (ℕ × CTState Str) :=
  if ctidMax ≤ cts.top then none else some (cts.top, { cts.set cts.top ct with top := cts.top + 1 })

/-- The search along a hash chain. -/
def chainFind (tab : ℕ → CType Str) (p : CType Str → Bool) : ℕ → ℕ → ℕ
  | 0, _ => 0
  | fuel + 1, id =>
      if id = 0 then 0 else if p (tab id) = true then id else chainFind tab p fuel (tab id).next

/-- The lookup of `lj_ctype_intern`.  A chain has fewer elements than the table. -/
def findType (cts : CTState Str) (info size : BitVec 32) : ℕ :=
  chainFind cts.tab (fun ct => ct.info == info && ct.size == size) ctidMax
    (cts.hash (hashType info size))

/-- Put an element in front of a hash chain. -/
def CTState.chain (cts : CTState Str) (h id : ℕ) : CTState Str :=
  { cts.set id { cts.tab id with next := cts.hash h } with hash := Function.update cts.hash h id }

/-- `lj_ctype_intern`. -/
def ctypeIntern (cts : CTState Str) (info size : BitVec 32) : Option (ℕ × CTState Str) :=
  if findType cts info size ≠ 0 then some (findType cts info size, cts)
  else
    (ctypeNew cts { info := info, size := size }).map fun r =>
      (r.1, r.2.chain (hashType info size) r.1)

variable (hashName : Str → ℕ)

/-- `lj_ctype_addname`, for an element with the name `name`. -/
def addname (cts : CTState Str) (name : Str) (id : ℕ) : CTState Str :=
  cts.chain (hashName name &&& cthashMask) id

/-- `lj_ctype_getname`. -/
def getname [DecidableEq Str] (cts : CTState Str) (name : Str) (tmask : BitVec 32) : ℕ :=
  chainFind cts.tab
    (fun ct => ct.name == some name && (tmask >>> ctypeType ct.info).getLsbD 0)
    ctidMax (cts.hash (hashName name &&& cthashMask))

/-- `LJ_CTYPE_RESTORE`. -/
def CTState.restore (saved cts : CTState Str) : CTState Str :=
  { cts with top := saved.top, hash := saved.hash }

/-- No element refers to one beyond the top, nor does an anchor. -/
structure CTState.Ok (cts : CTState Str) : Prop where
  top_pos : 0 < cts.top
  sib_lt : ∀ id < cts.top, (cts.tab id).sib < cts.top
  next_lt : ∀ id < cts.top, (cts.tab id).next < cts.top
  hash_lt : ∀ h, cts.hash h < cts.top

/-- The table `cts` is as the table `saved` was: every element has its type, its size, its sibling
and its name, all lookups find the same, and no sibling link goes beyond the top. -/
structure Unchanged [DecidableEq Str] (saved cts : CTState Str) : Prop where
  top : cts.top = saved.top
  elem : ∀ id < saved.top, (cts.tab id).info = (saved.tab id).info ∧
    (cts.tab id).size = (saved.tab id).size ∧ (cts.tab id).sib = (saved.tab id).sib ∧
    (cts.tab id).name = (saved.tab id).name
  getname_eq : ∀ name tmask, getname hashName cts name tmask = getname hashName saved name tmask
  intern_eq : ∀ info size, findType saved info size ≠ 0 →
    (ctypeIntern cts info size).map Prod.fst = (ctypeIntern saved info size).map Prod.fst
  sib_lt : ∀ id < cts.top, (cts.tab id).sib < cts.top

/-! ### Lookups and the top -/

/-- A lookup only depends on the elements below the top. -/
theorem chainFind_congr {tab tab' : ℕ → CType Str} {top : ℕ} (p : CType Str → Bool)
    (h : ∀ id < top, tab id = tab' id) (hnext : ∀ id < top, (tab id).next < top) (fuel : ℕ) :
    ∀ id < top, chainFind tab p fuel id = chainFind tab' p fuel id := by
  induction fuel with
  | zero => intro id _; rfl
  | succ fuel ih =>
      intro id hid
      rw [chainFind, chainFind, h id hid, ih _ (h id hid ▸ hnext id hid)]

variable {hashName}

/-- After restoring, everything is as before if no element below the old top was changed. -/
theorem unchanged_restore [DecidableEq Str] {saved cts : CTState Str} (hok : saved.Ok)
    (h : ∀ id < saved.top, cts.tab id = saved.tab id) :
    Unchanged hashName saved (saved.restore cts) := by
  have hfind : ∀ p fuel a, chainFind cts.tab p fuel (saved.hash a) =
      chainFind saved.tab p fuel (saved.hash a) := fun p fuel a =>
    chainFind_congr p h (fun id hid => h id hid ▸ hok.next_lt id hid) fuel _ (hok.hash_lt a)
  refine ⟨rfl, fun id hid => ?_, fun name tmask => hfind _ _ _, fun info size hne => ?_,
    fun id hid => ?_⟩
  · simp [CTState.restore, h id hid]
  · have hsame : findType (saved.restore cts) info size = findType saved info size := hfind _ _ _
    simp only [ctypeIntern, hsame, if_pos hne, Option.map_some]
  · exact (congrArg CType.sib (h id hid)).trans_lt (hok.sib_lt id hid)

/-- After restoring, everything is as before exactly if no element below the old top was changed,
where the hash chains of these were not. -/
theorem unchanged_restore_iff [DecidableEq Str] {saved cts : CTState Str} (hok : saved.Ok)
    (hnext : ∀ id < saved.top, (cts.tab id).next = (saved.tab id).next) :
    Unchanged hashName saved (saved.restore cts) ↔ ∀ id < saved.top, cts.tab id = saved.tab id := by
  refine ⟨fun h id hid => ?_, unchanged_restore hok⟩
  obtain ⟨hinfo, hsize, hsib, hname⟩ := h.elem id hid
  have hn := hnext id hid
  simp only [CTState.restore] at hinfo hsize hsib hname
  cases hc : cts.tab id
  cases hs : saved.tab id
  simp_all

end Ctype
