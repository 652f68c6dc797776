/-
**Tables refine maps.**

Runs of table operations against the map that Lua programs see: every store sets the value of one
key, clearing forgets everything, and resizing and copying change nothing.

A resize that shrinks the array part must leave room in the new hash part for the values that the
array part loses.  `rehashtab` sees to that, and `lj_tab_reasize` is only called to grow; a resize
without that room ends in a read through a stale pointer.

Main definitions:

* `Tab.Key`, `Tab.Op` — keys and operations;
* `Tab.exec`, `Tab.run` — the operations on a table, from `lj_tab_new` on;
* `Tab.Op.write`, `Tab.contents` — the operations on the map;
* `Tab.Op.Fits`, `Tab.RunFits` — every resize of a run leaves the room it needs;
* `Tab.Overflow` — an operation asks for more than the limits, or the table is full.

Main results:

* `Tab.exec_spec` — one operation: it refines the map, or the table overflows;
* `Tab.run_get_eq_contents` — **every lookup after a run returns the last value stored**.
-/

import LuaJit.TabResize

set_option relaxedAutoImplicit false
set_option autoImplicit false

namespace Tab

open Obj

variable {S : Type} [DecidableEq S]

/-! ### Operations -/

/-- A key that a setter accepts. -/
abbrev Key (S : Type) := { k : TValue S // ValidKey k }

/-- The operations that change a table; a setter is followed by storing a value. -/
inductive Op (S : Type)
  | set (key : Key S) (v : TValue S)
  | setstr (s : S) (v : TValue S)
  | setint (i : BitVec 32) (v : TValue S)
  | resize (asize hbits : ℕ)
  | reasize (nasize : ℕ)
  | dup
  | clear

/-- Storing through the pointer that a setter returned. -/
def storeThrough (r : Except TabErr (GCtab S × Slot)) (v : TValue S) : Except TabErr (GCtab S) := do
  let (t, slot) ← r
  pure (t.store v slot)

section Exec

variable (cfg : Cfg S) (fuel : ℕ)

/-- An operation on a table. -/
def exec (t : GCtab S) : Op S → Except TabErr (GCtab S)
  | .set key v => storeThrough (set cfg fuel t key.1) v
  | .setstr s v => storeThrough (setstr cfg fuel t s) v
  | .setint i v => storeThrough (setint cfg fuel t i) v
  | .resize asize hbits => resize cfg fuel t asize hbits
  | .reasize nasize => reasize cfg fuel t nasize
  | .dup => dup t
  | .clear => .ok (clear t)

/-- A run from a new table. -/
def run (asize hbits : ℕ) (ops : List (Op S)) : Except TabErr (GCtab S) := do
  let t ← new asize hbits
  ops.foldlM (exec cfg fuel) t

end Exec

/-- The operation on the map. -/
def Op.write (m : TValue S → TValue S) : Op S → TValue S → TValue S
  | .set key v => fun k => if objEqual k key.1 then v else m k
  | .setstr s v => fun k => if objEqual k (.str s) then v else m k
  | .setint i v => fun k => if objEqual k (.int i) then v else m k
  | .clear => fun _ => .nil
  | .resize _ _ | .reasize _ | .dup => m

/-- The map after a sequence of operations. -/
def contents (ops : List (Op S)) : TValue S → TValue S := ops.foldl Op.write fun _ => .nil

/-- The hash part that a resize of the table makes. -/
def reasizeHbits (t : GCtab S) : ℕ := if 0 < t.hmask then fls t.hmask + 1 else 0

/-- The values that leave the array part fit the new hash part. -/
def ShrinkFits (t : GCtab S) (asize hbits : ℕ) : Prop :=
  (arrKeys t asize (t.asize - asize)).length ≤ hashSize hbits

/-- The operation, if it is a resize, leaves the room it needs. -/
def Op.Fits (t : GCtab S) : Op S → Prop
  | .resize asize hbits => ShrinkFits t asize hbits
  | .reasize nasize => ShrinkFits t (nasize + 1) (reasizeHbits t)
  | _ => True

/-- All resizes of a run leave the room they need. -/
def RunFits (cfg : Cfg S) (fuel : ℕ) (t : GCtab S) : List (Op S) → Prop
  | [] => True
  | op :: ops => op.Fits t ∧ ∀ t', exec cfg fuel t op = .ok t' → RunFits cfg fuel t' ops

/-- The number of keys that the map gives a value. -/
noncomputable def pairCount (m : TValue S → TValue S) : ℕ :=
  { k | Canon k ∧ k ≠ .nil ∧ m k ≠ .nil }.ncard

/-- The operation asks for sizes beyond the limits, or the map has as many pairs as the largest
hash part has nodes. -/
def Overflow (m : TValue S → TValue S) : Op S → Prop
  | .resize asize hbits => maxAsize < asize ∨ maxHbits < hbits ∨ 2 ^ maxHbits ≤ pairCount m
  | .reasize nasize => maxAsize < nasize + 1 ∨ 2 ^ maxHbits ≤ pairCount m
  | _ => 2 ^ maxHbits ≤ pairCount m

/-! ### Refinement -/

/-- The table holds the pairs of the map. -/
structure Refines (cfg : Cfg S) (t : GCtab S) (m : TValue S → TValue S) : Prop where
  inv : TInv cfg t
  settled : Settled cfg t
  pair_iff : ∀ k, ValidKey k → ∀ v, v ≠ .nil → (t.Pair (canonKey k) v ↔ m k = v)

section Refines

variable {cfg : Cfg S} {t t' : GCtab S} {m : TValue S → TValue S} {fuel : ℕ}

omit [DecidableEq S] in
theorem Refines.of_pair_iff (h : Refines cfg t m) (hinv : TInv cfg t') (hset : Settled cfg t')
    (hpair : ∀ k v, t'.Pair k v ↔ t.Pair k v) : Refines cfg t' m := by
  refine ⟨hinv, hset, ?_⟩
  intro k hk v hv
  rw [hpair, h.pair_iff k hk v hv]

omit [DecidableEq S] in
/-- The keys of a table are canonical. -/
theorem TInv.canon_of_pair (h : TInv cfg t) {k v : TValue S} (hp : t.Pair k v) :
    Canon k ∧ k ≠ .nil := by
  rcases hp with ⟨i, rfl, -⟩ | ⟨i, rfl, hv, hne⟩
  · exact ⟨canon_num_int2num i, by simp⟩
  · exact ⟨h.canon i, h.key_ne_nil (by rwa [hv])⟩

omit [DecidableEq S] in
theorem Refines.usedCount_eq (h : Refines cfg t m) : usedCount t = pairCount m := by
  rw [← h.inv.ncard_keys, pairCount]
  congr 1
  ext k
  constructor
  · rintro ⟨v, hv⟩
    obtain ⟨hc, hne⟩ := h.inv.canon_of_pair hv
    have hv' : v ≠ .nil := by
      rcases hv with ⟨i, -, -, -, hv⟩ | ⟨i, -, -, hv⟩ <;> exact hv
    refine ⟨hc, hne, ?_⟩
    rw [← canonKey_of_canon hc, h.pair_iff k (validKey_of_canon hc hne) v hv'] at hv
    rwa [hv]
  · rintro ⟨hc, hne, hm⟩
    refine ⟨m k, ?_⟩
    have hp := (h.pair_iff k (validKey_of_canon hc hne) (m k) hm).2 rfl
    rwa [canonKey_of_canon hc] at hp

/-- Storing a value after any of the setters. -/
theorem Refines.storeThrough (h : Refines cfg t m) (key : TValue S) (hkey : ValidKey key)
    {r : Except TabErr (GCtab S × Slot)}
    (hr : SetCases cfg t (canonKey key) (newkey cfg (fuel + 1)) r) (v : TValue S) :
    (∃ t', storeThrough r v = .ok t' ∧
      Refines cfg t' fun k => if objEqual k key then v else m k) ∨
    (storeThrough r v = .error .tabov ∧ 2 ^ maxHbits ≤ usedCount t) := by
  have hc := canon_canonKey hkey
  have hne := canonKey_ne_nil hkey
  have hsafe := Settled.newkeySafe h.inv.toHInv h.settled (canonKey key)
  rcases (nkSpec_newkey cfg fuel).of_cases h.inv hc hne hsafe (fun hr => hr.elim) hr with
    ⟨t', slot, rfl, hpost, -⟩ | ⟨-, rfl, hle⟩
  · refine .inl ⟨t'.store v slot, rfl, hpost.inv.store hpost.slot,
      (hpost.settled h.settled).store _ _, ?_⟩
    intro k hk v' hv'
    rw [hpost.inv.store_pair_iff hpost.slot, hpost.pair_iff, h.pair_iff k hk v' hv']
    by_cases heq : canonKey k = canonKey key
    · rw [if_pos ((objEqual_iff_canonKey hk hkey).2 heq)]
      constructor
      · rintro (⟨-, rfl, -⟩ | ⟨hne', -⟩)
        · rfl
        · exact absurd heq hne'
      · rintro rfl
        exact .inl ⟨heq, rfl, hv'⟩
    · rw [if_neg (fun ht => heq ((objEqual_iff_canonKey hk hkey).1 ht))]
      constructor
      · rintro (⟨heq', -⟩ | ⟨-, hm⟩)
        · exact absurd heq' heq
        · exact hm
      · intro hm
        exact .inr ⟨heq, hm⟩
  · exact .inr ⟨rfl, hle⟩

theorem Refines.resize (h : Refines cfg t m) {asize hbits : ℕ} (hfit : ShrinkFits t asize hbits) :
    (∃ t', resize cfg (fuel + 1) t asize hbits = .ok t' ∧ Refines cfg t' m) ∨
    (resize cfg (fuel + 1) t asize hbits = .error .tabov ∧
      (maxAsize < asize ∨ maxHbits < hbits ∨ 2 ^ maxHbits ≤ usedCount t)) := by
  rcases resizeWith_spec (nkSpec_newkey_room cfg (fuel + 1)) (nkSpec_newkey cfg fuel)
    h.inv 0 hfit (fun hr => hr.elim) with ⟨t', heq, hinv, hset, hpair, -⟩ | ⟨heq, hlim⟩
  · exact .inl ⟨t', heq, h.of_pair_iff hinv hset hpair⟩
  · refine .inr ⟨heq, ?_⟩
    rcases hlim with hlim | hlim | ⟨-, hlim⟩
    · exact .inl hlim
    · exact .inr (.inl hlim)
    · exact .inr (.inr hlim)

omit [DecidableEq S] in
theorem fls_hmask {b : ℕ} (h : t.hmask = 2 ^ b - 1) (hm : 0 < t.hmask) :
    fls t.hmask + 1 = b := by
  have hb : b ≠ 0 := by
    rintro rfl
    omega
  have hlog : t.hmask.log2 = b - 1 := by
    rw [Nat.log2_eq_iff (by omega), h]
    have hsucc : 2 ^ (b - 1 + 1) = 2 * 2 ^ (b - 1) := Nat.pow_succ'
    have hb' : b - 1 + 1 = b := by lia
    have hpos : 0 < 2 ^ (b - 1) := by positivity
    rw [hb'] at hsucc
    lia
  rw [fls, hlog]
  lia

omit [DecidableEq S] in
/-- A new table without its slots initialised. -/
theorem newtab_cases (asize hbits : ℕ) :
    (newtab asize hbits = (.error .tabov : Except TabErr (GCtab S)) ∧
      (maxAsize < asize ∨ maxHbits < hbits)) ∨
    ∃ t : GCtab S, newtab asize hbits = .ok t ∧ t.asize = asize ∧ asize ≤ maxAsize ∧
      hbits ≤ maxHbits ∧ Fresh hbits t := by
  have hcolo : maxColosize ≤ maxAsize := by decide
  have hfresh0 : ∀ t : GCtab S, t.key = (fun _ => .nil) → t.val = (fun _ => .nil) →
      t.next = (fun _ => none) → t.hmask = 0 → t.freetop = 0 → Fresh 0 t := by
    intro t h₁ h₂ h₃ h₄ h₅
    have hcap : t.cap = 0 := by rw [GCtab.cap, if_pos h₄]
    exact ⟨h₁, h₂, h₃, h₄, by rw [h₅, hcap], by rw [hcap]; rfl⟩
  -- the hash part on top of either kind of array part
  have hhash : ∀ t : GCtab S, t.asize = asize → asize ≤ maxAsize → Fresh 0 t →
      ((if hbits = 0 then pure t else newhpart t hbits) =
          (.error .tabov : Except TabErr (GCtab S)) ∧ (maxAsize < asize ∨ maxHbits < hbits)) ∨
      ∃ t', (if hbits = 0 then pure t else newhpart t hbits) =
          (.ok t' : Except TabErr (GCtab S)) ∧ t'.asize = asize ∧ asize ≤ maxAsize ∧
          hbits ≤ maxHbits ∧ Fresh hbits t' := by
    intro t ha hle hf
    by_cases h0 : hbits = 0
    · subst h0
      exact .inr ⟨t, rfl, ha, hle, by omega, hf⟩
    · rw [if_neg h0, newhpart]
      by_cases hlt : maxHbits < hbits
      · rw [if_pos hlt]
        exact .inl ⟨rfl, .inr hlt⟩
      · rw [if_neg hlt]
        have hcap : hashSize hbits = 2 ^ hbits := if_neg h0
        refine .inr ⟨_, rfl, ha, hle, by omega, hf.key, hf.val, hf.next, rfl, ?_,
          GCtab.cap_of_hmask rfl⟩
        rw [GCtab.cap_of_hmask (b := hbits) rfl, hcap]
  rw [newtab]
  by_cases hsmall : 0 < asize ∧ asize ≤ maxColosize
  · rw [if_pos hsmall]
    exact hhash _ rfl (by omega) (hfresh0 _ rfl rfl rfl rfl rfl)
  · rw [if_neg hsmall]
    by_cases hlt : maxAsize < asize
    · rw [if_pos hlt]
      exact .inl ⟨rfl, .inl hlt⟩
    · rw [if_neg hlt]
      exact hhash _ rfl (by omega) (hfresh0 _ rfl rfl rfl rfl rfl)

omit [DecidableEq S] in
/-- An empty table refines the empty map. -/
theorem Fresh.refines {hbits : ℕ} (hf : Fresh hbits t) (hb : hbits ≤ maxHbits)
    (ha : t.asize ≤ maxAsize) (harr : ∀ i < t.asize, t.array i = .nil) :
    Refines cfg t fun _ => .nil := by
  refine ⟨hf.tInv hb ha cfg, hf.settled cfg, ?_⟩
  intro k _ v hv
  constructor
  · rintro (⟨i, -, hi, hiv, -⟩ | hp)
    · exact (harr _ hi).symm.trans hiv
    · exact absurd hp (hf.not_has _ _)
  · intro h
    exact absurd h.symm hv

omit [DecidableEq S] in
/-- Clearing both parts of a table with an empty chain structure. -/
theorem fresh_clearhpart {b : ℕ} (h : t.hmask = 2 ^ b - 1) (htop : t.freetop = t.hmask + 1)
    (hm : 0 < t.hmask) : Fresh b (clearhpart t) := by
  have hcap : t.cap = t.hmask + 1 := by rw [GCtab.cap, if_neg (by lia)]
  refine ⟨rfl, rfl, rfl, h, ?_, GCtab.cap_of_hmask h⟩
  exact htop.trans hcap.symm

omit [DecidableEq S] in
theorem new_cases (asize hbits : ℕ) :
    (new asize hbits = (.error .tabov : Except TabErr (GCtab S)) ∧
      (maxAsize < asize ∨ maxHbits < hbits)) ∨
    ∃ t : GCtab S, new asize hbits = .ok t ∧ Refines cfg t fun _ => .nil := by
  rw [new]
  rcases newtab_cases asize hbits with ⟨heq, hlim⟩ | ⟨t, heq, ha, hle, hb, hf⟩
  · exact .inl ⟨by rw [heq]; rfl, hlim⟩
  · refine .inr ⟨_, by rw [heq]; rfl, ?_⟩
    have hf' : Fresh hbits (clearapart t) := ⟨hf.key, hf.val, hf.next, hf.hmask, hf.freetop, hf.cap⟩
    have harr : ∀ i < t.asize, (clearapart t).array i = .nil := fun i hi => if_pos hi
    split
    · have hf'' : Fresh hbits (clearhpart (clearapart t)) :=
        ⟨rfl, rfl, rfl, hf.hmask, hf.freetop, hf.cap⟩
      exact hf''.refines hb (by change t.asize ≤ _; omega) harr
    · exact hf'.refines hb (by change t.asize ≤ _; omega) harr

omit [DecidableEq S] in
theorem Refines.clear (h : Refines cfg t m) : Refines cfg (clear t) fun _ => .nil := by
  have ha : t.asize ≤ maxAsize := h.inv.asize_le
  obtain ⟨b, hb, hm⟩ := h.inv.hmask_eq
  have harr : ∀ i < t.asize, (clearapart t).array i = .nil := fun i hi => if_pos hi
  rw [Tab.clear]
  split
  · rename_i hpos
    exact (fresh_clearhpart (t := { clearapart t with freetop := (clearapart t).hmask + 1 }) hm rfl
      hpos).refines hb ha harr
  · rename_i hzero
    have hm0 : t.hmask = 0 := by
      have : ¬ 0 < t.hmask := hzero
      lia
    -- without a hash part there is no key to clear
    have hnil : ∀ i, t.key i = .nil := by
      intro i
      refine h.inv.outside i ?_
      rw [GCtab.cap, if_pos hm0]
      omega
    have hf : Fresh 0 (clearapart t) := by
      have hcap : t.cap = 0 := by rw [GCtab.cap, if_pos hm0]
      refine ⟨funext hnil, funext fun i => (h.inv.free i (hnil i)).1,
        funext fun i => (h.inv.free i (hnil i)).2.1, hm0, ?_, hcap⟩
      change t.freetop = t.cap
      have := h.inv.top_le
      lia
    exact hf.refines (by omega) ha harr

omit [DecidableEq S] in
/-- Another array block with the same values changes nothing. -/
theorem Refines.newBlock (h : Refines cfg t m) (array : ℕ → TValue S) (arrayId : ℕ) (colo : ℤ)
    (harr : ∀ i < t.asize, array i = t.array i) :
    Refines cfg { t with array := array, arrayId := arrayId, colo := colo } m := by
  have hi := h.inv
  refine h.of_pair_iff ⟨{ hi.toHInv with }, hi.asize_le, hi.hmask_eq, hi.notArray⟩ h.settled ?_
  intro k v
  refine or_congr ?_ Iff.rfl
  constructor
  · rintro ⟨i, rfl, hlt, hv, hne⟩
    exact ⟨i, rfl, hlt, by rw [← harr _ hlt]; exact hv, hne⟩
  · rintro ⟨i, rfl, hlt, hv, hne⟩
    exact ⟨i, rfl, hlt, (harr _ hlt).trans hv, hne⟩

omit [DecidableEq S] in
theorem Refines.dup (h : Refines cfg t m) : ∃ t', dup t = .ok t' ∧ Refines cfg t' m := by
  obtain ⟨b, hb, hm⟩ := h.inv.hmask_eq
  have hbits : (if 0 < t.hmask then fls t.hmask + 1 else 0) = if 0 < t.hmask then b else 0 := by
    split
    · rename_i hpos
      exact fls_hmask hm hpos
    · rfl
  have hle : (if 0 < t.hmask then b else 0) ≤ maxHbits := by
    split <;> omega
  rw [Tab.dup, hbits]
  rcases newtab_cases t.asize (if 0 < t.hmask then b else 0) with ⟨-, hlim⟩ | ⟨t₁, heq, ha, -, -, hf⟩
  · have := h.inv.asize_le
    lia
  rw [heq]
  simp only [bind, Except.bind]
  have hblock := h.newBlock (fun i => if i < t.asize then t.array i else t₁.array i)
    t₁.arrayId t₁.colo (fun i hi => if_pos hi)
  split
  · rename_i hpos
    rw [if_pos hpos] at hf
    refine ⟨_, rfl, ?_⟩
    have hmask : t₁.hmask = t.hmask := by rw [hf.hmask, hm]
    rw [ha, hmask]
    exact hblock
  · rename_i hzero
    rw [if_neg hzero] at hf
    refine ⟨_, rfl, ?_⟩
    -- both hash parts are the nil node
    have hm0 : t.hmask = 0 := by lia
    have hcap : t.cap = 0 := by rw [GCtab.cap, if_pos hm0]
    have hnil : ∀ i, t.key i = .nil := fun i => h.inv.outside i (by omega)
    have htop : t.freetop = 0 := by
      have := h.inv.top_le
      lia
    have hkey : t₁.key = t.key := by
      rw [hf.key]
      exact (funext hnil).symm
    have hval : t₁.val = t.val := by
      rw [hf.val]
      exact (funext fun i => (h.inv.free i (hnil i)).1).symm
    have hnext : t₁.next = t.next := by
      rw [hf.next]
      exact (funext fun i => (h.inv.free i (hnil i)).2.1).symm
    have htop₁ : t₁.freetop = t.freetop := by
      rw [hf.freetop, hf.cap, htop]
      rfl
    have hmask : t₁.hmask = t.hmask := by
      rw [hf.hmask, hm0]
      rfl
    rw [ha, hmask, htop₁, hkey, hval, hnext]
    exact hblock

/-! ### Runs -/

omit [DecidableEq S] in
theorem reasizeHbits_le (h : TInv cfg t) : reasizeHbits t ≤ maxHbits := by
  obtain ⟨b, hb, hm⟩ := h.hmask_eq
  rw [reasizeHbits]
  split
  · rename_i hpos
    rw [fls_hmask hm hpos]
    exact hb
  · omega

/-- One operation: the table refines the map before and after, or it overflows. -/
theorem exec_spec (h : Refines cfg t m) (op : Op S) (hfit : op.Fits t) :
    (∃ t', exec cfg (fuel + 1) t op = .ok t' ∧ Refines cfg t' (op.write m)) ∨
    (exec cfg (fuel + 1) t op = .error .tabov ∧ Overflow m op) := by
  cases op with
  | set key v =>
      rcases h.storeThrough key.1 key.2 (h.inv.setWith_cases key.2) v with hok | ⟨heq, hle⟩
      · exact .inl hok
      · rw [h.usedCount_eq] at hle
        exact .inr ⟨heq, hle⟩
  | setstr s v =>
      rcases h.storeThrough (.str s) trivial (h.inv.setstrWith_cases s) v with
        hok | ⟨heq, hle⟩
      · exact .inl hok
      · rw [h.usedCount_eq] at hle
        exact .inr ⟨heq, hle⟩
  | setint i v =>
      rcases h.storeThrough (.int i) trivial (h.inv.setintWith_cases i) v with
        hok | ⟨heq, hle⟩
      · exact .inl hok
      · rw [h.usedCount_eq] at hle
        exact .inr ⟨heq, hle⟩
  | resize asize hbits =>
      rcases h.resize hfit with hok | ⟨heq, hlim⟩
      · exact .inl hok
      · rw [h.usedCount_eq] at hlim
        exact .inr ⟨heq, hlim⟩
  | reasize nasize =>
      rcases h.resize hfit with hok | ⟨heq, hlim⟩
      · exact .inl hok
      · refine .inr ⟨heq, ?_⟩
        rw [h.usedCount_eq] at hlim
        rcases hlim with hlim | hlim | hlim
        · exact .inl hlim
        · exact absurd (reasizeHbits_le h.inv) (not_le.2 hlim)
        · exact .inr hlim
  | dup => exact .inl h.dup
  | clear => exact .inl ⟨_, rfl, h.clear⟩

/-- A run from any table. -/
theorem exec_run_spec (h : Refines cfg t m) (ops : List (Op S))
    (hfit : RunFits cfg (fuel + 1) t ops) :
    (∃ t', ops.foldlM (exec cfg (fuel + 1)) t = .ok t' ∧
      Refines cfg t' (ops.foldl Op.write m)) ∨
    (ops.foldlM (exec cfg (fuel + 1)) t = .error .tabov ∧
      ∃ p op q, ops = p ++ op :: q ∧ Overflow (p.foldl Op.write m) op) := by
  induction ops generalizing t m with
  | nil => exact .inl ⟨t, rfl, h⟩
  | cons op ops ih =>
      obtain ⟨hop, hrest⟩ := hfit
      rw [List.foldlM_cons]
      rcases exec_spec h op hop with ⟨t', heq, ht'⟩ | ⟨heq, hover⟩
      · rw [heq]
        rcases ih ht' (hrest t' heq) with ⟨t'', heq', ht''⟩ | ⟨heq', p, op', q, rfl, hover⟩
        · exact .inl ⟨t'', heq', ht''⟩
        · exact .inr ⟨heq', op :: p, op', q, rfl, hover⟩
      · exact .inr ⟨by rw [heq]; rfl, [], op, ops, rfl, hover⟩

omit [DecidableEq S] in
theorem Refines.reads_eq (h : Refines cfg t m) {key : TValue S} (hkey : ValidKey key)
    {tv : Option (TValue S)} (hr : Reads t (canonKey key) tv) : tv.getD .nil = m key := by
  by_cases hnil : m key = .nil
  · by_contra hne
    rw [hnil] at hne
    have hm := (h.pair_iff key hkey _ hne).1 ((hr _ hne).1 rfl)
    rw [hnil] at hm
    exact hne hm.symm
  · exact (hr _ hnil).2 ((h.pair_iff key hkey _ hnil).2 rfl)

theorem Refines.get (h : Refines cfg t m) {key : TValue S} (hkey : ValidKey key) :
    get cfg t key = .ok (m key) := by
  obtain ⟨v, heq, hv⟩ := h.inv.get_spec hkey
  have hm : (some v).getD .nil = m key := h.reads_eq hkey hv
  rw [heq, ← hm]
  rfl

/-- Every lookup after a run returns the last value stored under its key, or nil. -/
theorem run_get_eq_contents (cfg : Cfg S) (fuel asize hbits : ℕ) (ops : List (Op S))
    (hfit : ∀ t, new asize hbits = .ok t → RunFits cfg (fuel + 1) t ops) :
    (∃ t, run cfg (fuel + 1) asize hbits ops = .ok t ∧
      (∀ key : Key S, get cfg t key.1 = .ok (contents ops key.1)) ∧
      (∀ s, ∃ tv, getstr cfg t s = .ok tv ∧ tv.getD .nil = contents ops (.str s)) ∧
      ∀ i, ∃ tv, getint cfg t i = .ok tv ∧ tv.getD .nil = contents ops (.int i)) ∨
    (run cfg (fuel + 1) asize hbits ops = .error .tabov ∧
      (maxAsize < asize ∨ maxHbits < hbits ∨
        ∃ p op q, ops = p ++ op :: q ∧ Overflow (contents p) op)) := by
  rw [run]
  rcases @new_cases S cfg asize hbits with ⟨heq, hlim⟩ | ⟨t, heq, ht⟩
  · refine .inr ⟨by rw [heq]; rfl, ?_⟩
    rcases hlim with hlim | hlim
    · exact .inl hlim
    · exact .inr (.inl hlim)
  rw [heq]
  rcases exec_run_spec ht ops (hfit t heq) with ⟨t', heq', ht'⟩ | ⟨heq', p, op, q, hops, hover⟩
  · refine .inl ⟨t', heq', ?_, ?_, ?_⟩
    · intro key
      exact ht'.get key.2
    · intro s
      obtain ⟨tv, htv, hr⟩ := ht'.inv.getstr_spec s
      exact ⟨tv, htv, ht'.reads_eq (show ValidKey (.str s) from trivial) hr⟩
    · intro i
      obtain ⟨tv, htv, hr⟩ := ht'.inv.getint_spec i
      exact ⟨tv, htv, ht'.reads_eq (show ValidKey (.int i) from trivial) hr⟩
  · exact .inr ⟨heq', .inr (.inr ⟨p, op, q, hops, hover⟩)⟩

/-- String hashes that all collide. -/
def collidingCfg : Cfg ℕ := ⟨fun _ => 0, false, Num2Int.trunc⟩

/-- The theorem at a table that is resized and then gets three pairs, two of them colliding. -/
theorem run_get_three_pairs :
    ∃ t, run collidingCfg 2 0 0 [.resize 4 1, .setstr 7 (.bool true), .setstr 8 (.bool false),
        .setint 2 (.int 5)] = .ok t ∧
      get collidingCfg t (.str 7) = .ok (.bool true) ∧
      get collidingCfg t (.num (int2num 2)) = .ok (.int 5) := by
  have hrun := run_get_eq_contents collidingCfg 1 0 0 [.resize 4 1, .setstr 7 (.bool true),
    .setstr 8 (.bool false), .setint 2 (.int 5)] ?_
  · rcases hrun with ⟨t, heq, hget, -, -⟩ | ⟨heq, -⟩
    · refine ⟨t, heq, (hget ⟨.str 7, trivial⟩).trans ?_,
        (hget ⟨.num (int2num 2), isNaN_int2num 2⟩).trans ?_⟩
      · rfl
      · decide
    · have hok : (run collidingCfg 2 0 0 [.resize 4 1, .setstr 7 (.bool true),
          .setstr 8 (.bool false), .setint 2 (.int 5)]).toBool = true := by decide
      rw [heq] at hok
      exact Bool.noConfusion hok
  · intro t ht
    obtain rfl := Except.ok.inj ht
    have hfit : (0 : ℕ) ≤ 2 := by decide
    exact ⟨hfit, fun _ _ => ⟨trivial, fun _ _ => ⟨trivial, fun _ _ => ⟨trivial, fun _ _ =>
      trivial⟩⟩⟩⟩

/-- A resize without room for the values of the array part: the rehash on the way moves the array
block, and the loop goes on reading the old one. -/
theorem run_resize_dangling :
    run collidingCfg 2 20 0 [.setint 1 (.bool true), .setint 2 (.bool true), .resize 0 0] =
      .error .dangling := by
  rfl

end Refines

end Tab
