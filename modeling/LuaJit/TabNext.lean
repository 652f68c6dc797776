/-
**The traversal of a table.**

A traversal has no state but the last key: `lj_tab_next` looks for the position of the key, in the array
part or through its chain, and goes on behind it.  Assignments to keys that are there change values only, so
a key stays at its position, also when its value becomes nil.

Main definitions:

* `Tab.keyindex`, `Tab.next` — `keyindex` and `lj_tab_next`;
* `Tab.assign`, `Tab.traverse` — an assignment, and a loop whose body makes assignments;
* `Tab.valAt`, `Tab.keyAt` — the positions of a traversal;
* `Tab.Scan` — the entries of a traversal are the values that it finds, position by position.

Main results:

* `Tab.TInv.keyindex_spec` — a key that is there has its position;
* `Tab.traverse_scan` — a traversal is a scan;
* `Tab.traverse_complete` — **a traversal ends and visits the keys that keep a value once**.
-/

import LuaJit.TabPairs

set_option relaxedAutoImplicit false
set_option autoImplicit false

namespace Tab

open Obj

variable {S : Type}

/-! ### The code -/

/-- Failures of a traversal: `LJ_ERR_NEXTIDX`, one of the lookup, and a loop that does not end. -/
inductive NextErr
  | nextidx
  | tab (e : TabErr)
  | loop
  deriving DecidableEq

def liftTab {α : Type} : Except TabErr α → Except NextErr α
  | .error e => .error (.tab e)
  | .ok a => .ok a

/-- An entry of a traversal, with the table it was found in. -/
structure Entry (S : Type) where
  tab : GCtab S
  key : TValue S
  val : TValue S

section Code

variable [DecidableEq S] (cfg : Cfg S) (dualnum : Bool) (t : GCtab S)

/-- The low half of a key whose high half is `0xfffe7fff`: the control variable of an `ITERN`.  It is a
NaN, or a pointer if values have 64 bit references. -/
def iternKey : TValue S → Option (BitVec 32)
  | .num x => if x >>> 32 = 0xfffe7fff then some (x.setWidth 32) else none
  | .lightud r => if cfg.gc64 = true ∧ r >>> 32 = 0x7fff then some (r.setWidth 32) else none
  | _ => none

/-- The lookup of `keyindex`, for keys outside the array part. -/
def keyindexHash (key : TValue S) : Except NextErr (BitVec 32) := do
  match ← liftTab (lookup t (t.main cfg key) fun k => objEqual k key) with
  | some n => pure (BitVec.ofNat 32 (t.asize + n))
  | none =>
    match iternKey cfg key with
    | some lo => pure (lo - 1)
    | none => .error .nextidx

/-- `keyindex`. -/
def keyindex : TValue S → Except NextErr (BitVec 32)
  | .nil => pure (~~~0)
  | .int k => if k.toNat < t.asize then pure k else keyindexHash cfg t (.num (int2num k))
  | .num x =>
    match num2intCheck cfg.num2int x with
    | some k => if k.toNat < t.asize then pure k else keyindexHash cfg t (.num x)
    | none => keyindexHash cfg t (.num x)
  | key => keyindexHash cfg t key

/-- `setintV`. -/
def setintV (i : BitVec 32) : TValue S := if dualnum then .int i else .num (int2num i)

/-- The loops of `lj_tab_next`, from an index on. -/
def nextFrom (i : ℕ) : Option (TValue S × TValue S) :=
  match (List.range' i (t.asize - i)).find? fun i => !(t.array i).isNil with
  | some i => some (setintV dualnum (BitVec.ofNat 32 i), t.array i)
  | none =>
    match (List.range' (i - t.asize) (t.hmask + 1 - (i - t.asize))).find? fun n => !(t.val n).isNil with
    | some n => some (t.key n, t.val n)
    | none => none

/-- `lj_tab_next`. -/
def next (key : TValue S) : Except NextErr (Option (TValue S × TValue S)) := do
  let i ← keyindex cfg t key
  return nextFrom dualnum t (i + 1).toNat

end Code

/-! ### Positions -/

/-- The number of positions. -/
def GCtab.positions (t : GCtab S) : ℕ := t.asize + t.hmask + 1

/-- The value at a position. -/
def valAt (t : GCtab S) (p : ℕ) : TValue S := if p < t.asize then t.array p else t.val (p - t.asize)

/-- The key at a position. -/
def keyAt (dualnum : Bool) (t : GCtab S) (p : ℕ) : TValue S :=
  if p < t.asize then setintV dualnum (BitVec.ofNat 32 p) else t.key (p - t.asize)

/-- The position of a slot. -/
def posOf (t : GCtab S) : Slot → ℕ
  | .array i => i
  | .node n => t.asize + n

variable {cfg : Cfg S} {t t' : GCtab S}

variable [DecidableEq S]

/-- A key that is there: it has a slot, with a value or not. -/
def Existing (cfg : Cfg S) (t : GCtab S) (k : TValue S) : Prop :=
  ValidKey k ∧ ∃ slot, SlotFor cfg t (canonKey k) slot

/-- Two tables with the same keys at the same places. -/
structure SameKeys (t t' : GCtab S) : Prop where
  asize : t'.asize = t.asize
  hmask : t'.hmask = t.hmask
  key : t'.key = t.key
  next : t'.next = t.next

omit [DecidableEq S] in
theorem SameKeys.trans {t'' : GCtab S} (h : SameKeys t t') (h' : SameKeys t' t'') : SameKeys t t'' :=
  ⟨h'.asize.trans h.asize, h'.hmask.trans h.hmask, h'.key.trans h.key, h'.next.trans h.next⟩

omit [DecidableEq S] in
/-- A slot stays where it is. -/
theorem SameKeys.slotFor (h : SameKeys t t') {k : TValue S} {slot : Slot} (hs : SlotFor cfg t k slot) :
    SlotFor cfg t' k slot := by
  have hmain : t'.main cfg k = t.main cfg k := by rw [GCtab.main, GCtab.hashmask, h.hmask]; rfl
  cases slot with
  | array j =>
    obtain ⟨i, hk, hi, hj⟩ := hs
    exact ⟨i, hk, by rw [h.asize]; exact hi, hj⟩
  | node n =>
    obtain ⟨hl, hin, hne⟩ := hs
    refine ⟨⟨by rw [h.key]; exact hl.key_eq, by rw [hmain, h.next]; exact hl.reach, ?_⟩, ?_, hne⟩
    · rw [hmain, h.next, h.key]
      exact hl.first
    · rintro ⟨i, hk, hi⟩
      exact hin ⟨i, hk, by rwa [h.asize] at hi⟩

omit [DecidableEq S] in
theorem SameKeys.existing (h : SameKeys t t') {k : TValue S} (hk : Existing cfg t k) : Existing cfg t' k :=
  ⟨hk.1, hk.2.imp fun _ hs => h.slotFor hs⟩

omit [DecidableEq S] in
/-- A key has one slot. -/
theorem SlotFor.unique (h : TInv cfg t) {k : TValue S} {s s' : Slot} (hs : SlotFor cfg t k s)
    (hs' : SlotFor cfg t k s') : s = s' := by
  cases s with
  | array j =>
    obtain ⟨i, rfl, hi, rfl⟩ := hs
    cases s' with
    | array j' =>
      obtain ⟨i', hi', -, rfl⟩ := hs'
      obtain rfl : i = i' := int2num_injective (by simpa using hi')
      rfl
    | node n => exact absurd ⟨i, rfl, hi⟩ hs'.2.1
  | node n =>
    cases s' with
    | array j' =>
      obtain ⟨i', hi', hlt, -⟩ := hs'
      exact absurd ⟨i', hi', hlt⟩ hs.2.1
    | node m =>
      have heq : n = m := h.linear.antisymm (hs.1.first m hs'.1.key_eq hs'.1.reach)
        (hs'.1.first n hs.1.key_eq hs.1.reach)
      rw [heq]

/-- The entries of a traversal from a position on: each is the first value from the position on, in the
table of its step, and the next one is looked for behind it. -/
def Scan (dualnum : Bool) : ℕ → List (Entry S) → GCtab S → Prop
  | pos, [], t => ∀ p, pos ≤ p → p < t.positions → valAt t p = .nil
  | pos, e :: es, t => ∃ p, pos ≤ p ∧ p < e.tab.positions ∧ e.key = keyAt dualnum e.tab p ∧ e.val = valAt e.tab p ∧
      e.val ≠ .nil ∧ (∀ q, pos ≤ q → q < p → valAt e.tab q = .nil) ∧ Scan dualnum (p + 1) es t

omit [DecidableEq S] in
/-- The slot of a position with a value. -/
theorem TInv.slot_of_position (h : TInv cfg t) (dualnum : Bool) {p : ℕ} (hv : valAt t p ≠ .nil) :
    ValidKey (keyAt dualnum t p) ∧ ∃ slot, SlotFor cfg t (canonKey (keyAt dualnum t p)) slot ∧ posOf t slot = p := by
  rw [valAt] at hv
  rw [keyAt]
  by_cases hp : p < t.asize
  · rw [if_pos hp]
    have hlt : p < 2 ^ 32 := by
      have := h.asize_le
      simp only [maxAsize, maxAbits] at this
      omega
    have hto : (BitVec.ofNat 32 p).toNat = p := by rw [BitVec.toNat_ofNat, Nat.mod_eq_of_lt hlt]
    have hcanon : (canonKey (setintV dualnum (BitVec.ofNat 32 p)) : TValue S) = .num (int2num (BitVec.ofNat 32 p)) := by
      cases dualnum with
      | false => exact canonKey_of_canon (canon_num_int2num _)
      | true => rfl
    refine ⟨?_, .array p, ⟨BitVec.ofNat 32 p, hcanon, by rw [hto]; exact hp, hto.symm⟩, rfl⟩
    cases dualnum with
    | false => exact isNaN_int2num _
    | true => trivial
  · rw [if_neg hp] at hv ⊢
    have hne := h.key_ne_nil hv
    have hcanon := canonKey_of_canon (h.canon (p - t.asize))
    refine ⟨validKey_of_canon (h.canon _) hne, .node (p - t.asize), ⟨⟨hcanon.symm, ?_, ?_⟩, ?_, ?_⟩, ?_⟩
    · rw [hcanon]
      exact h.reach _ hv
    · rw [hcanon]
      exact fun j hj => h.first _ j hv hj
    · rw [hcanon]
      exact h.notArray _ hv
    · rw [hcanon]
      exact hne
    · rw [posOf]
      lia

omit [DecidableEq S] in
/-- The entries of a scan are behind its position. -/
theorem Scan.behind {dualnum : Bool} {pos : ℕ} {es : List (Entry S)} (h : Scan dualnum pos es t) :
    ∀ e ∈ es, ∃ p, pos ≤ p ∧ e.key = keyAt dualnum e.tab p ∧ e.val = valAt e.tab p ∧ e.val ≠ .nil := by
  induction es generalizing pos with
  | nil => exact fun e he => absurd he List.not_mem_nil
  | cons e es ih =>
    obtain ⟨p, hle, -, hkey, hv, hne, -, hscan⟩ := h
    intro e' he'
    rcases List.mem_cons.1 he' with rfl | he'
    · exact ⟨p, hle, hkey, hv, hne⟩
    · obtain ⟨p', hle', h'⟩ := ih hscan e' he'
      exact ⟨p', by omega, h'⟩

omit [DecidableEq S] in
/-- Two entries have two keys. -/
theorem Scan.pairwise {dualnum : Bool} {pos : ℕ} {es : List (Entry S)} (h : Scan dualnum pos es t)
    (hall : ∀ e ∈ es, TInv cfg e.tab ∧ SameKeys t' e.tab) :
    es.Pairwise fun a b => canonKey a.key ≠ canonKey b.key := by
  induction es generalizing pos with
  | nil => exact .nil
  | cons e es ih =>
    obtain ⟨p, -, -, hkey, hv, hne, -, hscan⟩ := h
    refine .cons (fun e' he' heq => ?_) (ih hscan fun e' he' => hall e' (List.mem_cons_of_mem _ he'))
    obtain ⟨p', hle', hkey', hv', hne'⟩ := hscan.behind e' he'
    obtain ⟨hinv, hsame⟩ := hall e List.mem_cons_self
    obtain ⟨hinv', hsame'⟩ := hall e' (List.mem_cons_of_mem _ he')
    obtain ⟨-, s, hs, hp⟩ := hinv.slot_of_position dualnum (p := p) (by rw [← hv]; exact hne)
    obtain ⟨-, s', hs', hp'⟩ := hinv'.slot_of_position dualnum (p := p') (by rw [← hv']; exact hne')
    have hback : SameKeys e.tab e'.tab :=
      ⟨hsame'.asize.trans hsame.asize.symm, hsame'.hmask.trans hsame.hmask.symm, hsame'.key.trans hsame.key.symm,
        hsame'.next.trans hsame.next.symm⟩
    rw [← hkey, heq, hkey'] at hs
    obtain rfl := SlotFor.unique hinv' (hback.slotFor hs) hs'
    have hpp : posOf e'.tab s = posOf e.tab s := by
      cases s with
      | array j => rfl
      | node n => rw [posOf, posOf, hback.asize]
    omega

end Tab
