/-
**Tables as sets of pairs.**

The invariant of a whole table, the pairs it holds in both parts, and the specifications of the
getters and of the setters up to the point where a missing key is inserted.  Keys are compared
after `canonKey`, which turns integers into numbers and `-0` into `0`; two keys are the same Lua key
exactly when their canonical forms are equal.

Main definitions:

* `Tab.ValidKey`, `Tab.canonKey` — the keys a setter accepts and their canonical form;
* `Tab.TInv` — the invariant of a table;
* `Tab.GCtab.Pair` — the table holds the pair, in either part;
* `Tab.SlotFor` — a pointer into the table is where the value of a key belongs.

Main results:

* `Tab.objEqual_iff_canonKey` — the same Lua key means the same canonical key;
* `Tab.TInv.get_spec` — **a lookup returns the value paired with the key**;
* `Tab.TInv.setWith_cases` — a setter returns the slot of the key or inserts it;
* `Tab.TInv.store`, `Tab.TInv.store_pair_iff` — storing through that slot.
-/

import LuaJit.TabHash

set_option relaxedAutoImplicit false
set_option autoImplicit false

namespace Tab

open Obj
open Chain (Reach)

variable {S : Type}

/-! ### Keys -/

/-- The keys that `lj_tab_set` accepts. -/
def ValidKey : TValue S → Prop
  | .nil => False
  | .num x => isNaN x = false
  | _ => True

/-- The canonical form of a key. -/
def canonKey : TValue S → TValue S
  | .int i => .num (int2num i)
  | k => canonZero k

theorem canon_num_int2num (i : BitVec 32) : Canon (.num (int2num i) : TValue S) :=
  ⟨isNaN_int2num i, int2num_ne_mzero i⟩

theorem canon_canonKey {k : TValue S} (hk : ValidKey k) : Canon (canonKey k) := by
  cases k with
  | num x =>
      simp only [canonKey, canonZero, normZero]
      split
      · exact ⟨by decide, by decide⟩
      · rename_i hne
        exact ⟨hk, hne⟩
  | int i => exact canon_num_int2num i
  | nil => exact hk.elim
  | _ => trivial

theorem canonKey_ne_nil {k : TValue S} (hk : ValidKey k) : canonKey k ≠ .nil := by
  cases k with
  | nil => exact hk.elim
  | _ => simp [canonKey, canonZero]

theorem canonKey_of_canon {k : TValue S} (hk : Canon k) : canonKey k = k := by
  cases k with
  | int i => exact hk.elim
  | num x => exact canonZero_of_canon hk
  | _ => rfl

theorem validKey_of_canon {k : TValue S} (hk : Canon k) (hne : k ≠ .nil) : ValidKey k := by
  cases k with
  | nil => exact hne rfl
  | num x => exact hk.1
  | _ => trivial

/-- Numbers that are neither NaN nor `-0` are equal when their patterns are. -/
theorem numEq_iff_of_canon {x y : BitVec 64} (hx : isNaN x = false ∧ x ≠ mzero)
    (hy : isNaN y = false ∧ y ≠ mzero) : numEq x y = true ↔ x = y := by
  simp only [numEq, hx.1, hy.1, Bool.not_false, Bool.true_and, Bool.or_eq_true,
    decide_eq_true_eq, Bool.and_eq_true, isZero, hx.2, hy.2, or_false]
  constructor
  · rintro (h | ⟨rfl, rfl⟩)
    · exact h
    · rfl
  · exact .inl

theorem numEq_normZero (x y : BitVec 64) : numEq (normZero x) (normZero y) = numEq x y := by
  have h0 : isNaN (0 : BitVec 64) = false := by decide
  have hm : isNaN mzero = false := by decide
  have hne : (0 : BitVec 64) ≠ mzero := by decide
  simp only [normZero]
  split <;> split <;> rename_i hx hy <;>
    simp [numEq, isZero, *] <;> grind

theorem normZero_int2num (i : BitVec 32) : normZero (int2num i) = int2num i :=
  if_neg (int2num_ne_mzero i)

/-- The number check looks at the canonical form only. -/
theorem num2intCheck_eq_some_iff_canonKey {c : Num2Int} {x : BitVec 64} {i : BitVec 32} :
    num2intCheck c x = some i ↔ canonKey (.num x : TValue S) = .num (int2num i) := by
  rw [num2intCheck_eq_some_iff, numEq_int2num_iff]
  simp only [canonKey, canonZero, normZero]
  split
  · rename_i hx
    subst hx
    constructor
    · rintro (h | ⟨_, rfl⟩)
      · exact absurd h.symm (int2num_ne_mzero i)
      · exact congrArg TValue.num (by decide)
    · intro h
      have h' : int2num i = 0 := by simpa using h.symm
      exact .inr ⟨rfl, int2num_eq_zero_iff.1 h'⟩
  · rename_i hx
    constructor
    · rintro (h | ⟨h, _⟩)
      · rw [h]
      · exact absurd h hx
    · intro h
      exact .inl (by simpa using h)

section Equal

variable [DecidableEq S]

theorem objEqual_iff_of_canon {k k' : TValue S} (hk : Canon k) (hk' : Canon k') :
    objEqual k k' = true ↔ k = k' := by
  cases k with
  | int i => exact hk.elim
  | num x =>
      cases k' with
      | int i => exact hk'.elim
      | num y => simp [objEqual, numEq_iff_of_canon hk hk']
      | _ => simp [objEqual]
  | _ =>
      cases k' with
      | int i => exact hk'.elim
      | _ => simp [objEqual]

/-- Two keys are the same Lua key exactly when their canonical forms are equal. -/
theorem objEqual_iff_canonKey {k k' : TValue S} (hk : ValidKey k) (hk' : ValidKey k') :
    objEqual k k' = true ↔ canonKey k = canonKey k' := by
  rw [← objEqual_iff_of_canon (canon_canonKey hk) (canon_canonKey hk')]
  cases k with
  | num x =>
      cases k' with
      | num y => simp [objEqual, canonKey, canonZero, numEq_normZero]
      | int j =>
          have h := numEq_normZero x (int2num j)
          rw [normZero_int2num] at h
          simp [objEqual, canonKey, canonZero, h]
      | _ => simp [objEqual, canonKey, canonZero]
  | int i =>
      cases k' with
      | num y =>
          have h := numEq_normZero (int2num i) y
          rw [normZero_int2num] at h
          simp [objEqual, canonKey, canonZero, h]
      | int j =>
          have h : numEq (int2num i) (int2num j) = true ↔ int2num i = int2num j :=
            numEq_iff_of_canon ⟨isNaN_int2num i, int2num_ne_mzero i⟩
              ⟨isNaN_int2num j, int2num_ne_mzero j⟩
          rw [int2num_injective.eq_iff] at h
          simp [objEqual, canonKey, h]
      | _ => simp [objEqual, canonKey, canonZero]
  | _ =>
      cases k' with
      | _ => simp [objEqual, canonKey, canonZero]

end Equal

/-! ### Tables -/

/-- The key belongs to the array part. -/
def GCtab.InArray (t : GCtab S) (k : TValue S) : Prop :=
  ∃ i : BitVec 32, k = .num (int2num i) ∧ i.toNat < t.asize

/-- The invariant of a table. -/
structure TInv (cfg : Cfg S) (t : GCtab S) : Prop extends HInv cfg t where
  asize_le : t.asize ≤ maxAsize
  hmask_eq : ∃ b ≤ maxHbits, t.hmask = 2 ^ b - 1
  /-- Live keys of the hash part are not keys of the array part. -/
  notArray : ∀ i, t.val i ≠ .nil → ¬ t.InArray (t.key i)

/-- The array part holds the pair. -/
def GCtab.ArrayPair (t : GCtab S) (k v : TValue S) : Prop :=
  ∃ i : BitVec 32, k = .num (int2num i) ∧ i.toNat < t.asize ∧ t.array i.toNat = v ∧ v ≠ .nil

/-- The table holds the pair. -/
def GCtab.Pair (t : GCtab S) (k v : TValue S) : Prop := t.ArrayPair k v ∨ t.Has k v

/-- The pointer is where the value of the key belongs. -/
def SlotFor (cfg : Cfg S) (t : GCtab S) (k : TValue S) : Slot → Prop
  | .array j => ∃ i : BitVec 32, k = .num (int2num i) ∧ i.toNat < t.asize ∧ j = i.toNat
  | .node n => Located cfg t k n ∧ ¬ t.InArray k ∧ k ≠ .nil

theorem GCtab.ArrayPair.inArray {t : GCtab S} {k v : TValue S} (h : t.ArrayPair k v) :
    t.InArray k := by
  obtain ⟨i, hk, hi, -⟩ := h
  exact ⟨i, hk, hi⟩

theorem GCtab.arrayPair_iff {t : GCtab S} {i : BitVec 32} {v : TValue S} :
    t.ArrayPair (.num (int2num i)) v ↔ i.toNat < t.asize ∧ t.array i.toNat = v ∧ v ≠ .nil := by
  constructor
  · rintro ⟨j, hj, hrest⟩
    obtain rfl : i = j := int2num_injective (by simpa using hj)
    exact hrest
  · rintro ⟨hi, hv, hne⟩
    exact ⟨i, rfl, hi, hv, hne⟩

namespace TInv

variable {cfg : Cfg S} {t : GCtab S} (h : TInv cfg t)

include h

theorem has_not_inArray {k v : TValue S} (hp : t.Has k v) : ¬ t.InArray k := by
  obtain ⟨i, rfl, hv, hne⟩ := hp
  exact h.notArray i (by rwa [hv])

/-- In the array part, the pairs are what the array holds. -/
theorem pair_iff_of_array {i : BitVec 32} (hi : i.toNat < t.asize) {v : TValue S} :
    t.Pair (.num (int2num i)) v ↔ t.array i.toNat = v ∧ v ≠ .nil := by
  constructor
  · rintro (hp | hp)
    · exact (GCtab.arrayPair_iff.1 hp).2
    · exact absurd ⟨i, rfl, hi⟩ (h.has_not_inArray hp)
  · rintro ⟨hv, hne⟩
    exact .inl (GCtab.arrayPair_iff.2 ⟨hi, hv, hne⟩)

theorem pair_iff_of_located {k v : TValue S} {n : ℕ} (hl : Located cfg t k n)
    (hk : ¬ t.InArray k) : t.Pair k v ↔ t.val n = v ∧ v ≠ .nil := by
  rw [← h.located_has_iff hl]
  constructor
  · rintro (hp | hp)
    · exact absurd hp.inArray hk
    · exact hp
  · exact .inr

theorem not_pair_of_absent {k v : TValue S} (ha : Absent cfg t k) (hk : ¬ t.InArray k) :
    ¬ t.Pair k v := by
  rintro (hp | hp)
  · exact hk hp.inArray
  · exact h.absent_not_has ha hp

/-- Storing through the pointer of a key keeps the invariant. -/
theorem store {k v : TValue S} {slot : Slot} (hs : SlotFor cfg t k slot) :
    TInv cfg (t.store v slot) := by
  cases slot with
  | array j => exact ⟨{ h.toHInv with }, h.asize_le, h.hmask_eq, h.notArray⟩
  | node n =>
      obtain ⟨hl, hk, hne⟩ := hs
      refine ⟨h.toHInv.store hl hne, h.asize_le, h.hmask_eq, ?_⟩
      intro i hi
      by_cases hin : i = n
      · subst hin
        change ¬ t.InArray (t.key i)
        rw [hl.key_eq]
        exact hk
      · refine h.notArray i ?_
        simpa [GCtab.store, Function.update_of_ne hin] using hi

/-- Storing through the pointer of a key replaces its value and nothing else. -/
theorem store_pair_iff {k v k' v' : TValue S} {slot : Slot} (hs : SlotFor cfg t k slot) :
    (t.store v slot).Pair k' v' ↔ (k' = k ∧ v' = v ∧ v ≠ .nil) ∨ (k' ≠ k ∧ t.Pair k' v') := by
  cases slot with
  | array j =>
      obtain ⟨i, rfl, hi, rfl⟩ := hs
      have h' : TInv cfg (t.store v (.array i.toNat)) := h.store ⟨i, rfl, hi, rfl⟩
      have harr : (t.store v (.array i.toNat)).array = Function.update t.array i.toNat v := rfl
      by_cases hk : k' = .num (int2num i)
      · subst hk
        rw [h'.pair_iff_of_array hi, harr, Function.update_self]
        constructor
        · rintro ⟨rfl, hne⟩
          exact .inl ⟨rfl, rfl, hne⟩
        · rintro (⟨-, rfl, hne⟩ | ⟨hne, -⟩)
          · exact ⟨rfl, hne⟩
          · exact absurd rfl hne
      · have hother : (t.store v (.array i.toNat)).Pair k' v' ↔ t.Pair k' v' := by
          refine or_congr ?_ Iff.rfl
          constructor
          all_goals
            rintro ⟨j, rfl, hj, hv, hne⟩
            have hji : j.toNat ≠ i.toNat := by
              intro heq
              exact hk (by rw [BitVec.eq_of_toNat_eq heq])
            refine ⟨j, rfl, hj, ?_, hne⟩
            simpa [harr, Function.update_of_ne hji] using hv
        simp [hother, hk]
  | node n =>
      obtain ⟨hl, hk, hne⟩ := hs
      have hhas : (t.store v (.node n)).Has k' v' ↔
          (k' = k ∧ v' = v ∧ v ≠ .nil) ∨ (k' ≠ k ∧ t.Has k' v') := h.toHInv.store_has_iff hl
      constructor
      · rintro (hp | hp)
        · refine .inr ⟨?_, .inl hp⟩
          rintro rfl
          exact hk hp.inArray
        · rcases hhas.1 hp with h₁ | ⟨h₁, h₂⟩
          · exact .inl h₁
          · exact .inr ⟨h₁, .inr h₂⟩
      · rintro (h₁ | ⟨h₁, hp | hp⟩)
        · exact .inr (hhas.2 (.inl h₁))
        · exact .inl hp
        · exact .inr (hhas.2 (.inr ⟨h₁, hp⟩))

end TInv

theorem Settled.store {cfg : Cfg S} {t : GCtab S} (hs : Settled cfg t) (v : TValue S)
    (slot : Slot) : Settled cfg (t.store v slot) := by
  cases slot with
  | array j => exact hs
  | node n => exact hs

/-! ### Lookups -/

section Lookup

variable {cfg : Cfg S} {t : GCtab S}

/-- The value a pointer or `NULL` stands for. -/
def Reads (t : GCtab S) (k : TValue S) (tv : Option (TValue S)) : Prop :=
  ∀ v, v ≠ .nil → (tv.getD .nil = v ↔ t.Pair k v)

theorem TInv.reads_lookup (h : TInv cfg t) {k : TValue S} (hk : ¬ t.InArray k)
    {test : TValue S → Bool} (ht : ∀ k', Canon k' → (test k' = true ↔ k' = k)) :
    ∃ r, lookup t (t.main cfg k) test = .ok r ∧ Reads t k (r.map t.val) := by
  rcases h.lookup_cases k ht with ⟨n, hn, hl⟩ | ⟨hn, ha⟩
  · refine ⟨some n, hn, ?_⟩
    intro v hv
    rw [h.pair_iff_of_located hl hk]
    simp [hv]
  · refine ⟨none, hn, ?_⟩
    intro v hv
    simp [h.not_pair_of_absent ha hk, hv.symm]

theorem not_inArray_str (t : GCtab S) (s : S) : ¬ t.InArray (.str s) := by
  rintro ⟨j, hj, -⟩
  simp at hj

theorem isNumKey_iff (i : BitVec 32) (k : TValue S) (hk : Canon k) :
    isNumKey (int2num i) k = true ↔ k = .num (int2num i) := by
  cases k with
  | num x =>
      simp [isNumKey, numEq_iff_of_canon hk ⟨isNaN_int2num i, int2num_ne_mzero i⟩]
  | _ => simp [isNumKey]

variable [DecidableEq S]

theorem isStrKey_iff (s : S) (k : TValue S) (_ : Canon k) :
    isStrKey s k = true ↔ k = .str s := by
  cases k <;> simp [isStrKey]

theorem objEqualKey_iff {key : TValue S} (hkey : Canon key) (k : TValue S) (hk : Canon k) :
    objEqual k key = true ↔ k = key := objEqual_iff_of_canon hk hkey

omit [DecidableEq S] in
theorem TInv.getint_spec (h : TInv cfg t) (i : BitVec 32) :
    ∃ tv, getint cfg t i = .ok tv ∧ Reads t (.num (int2num i)) tv := by
  rw [getint]
  split
  · rename_i hi
    refine ⟨_, rfl, ?_⟩
    intro v hv
    rw [h.pair_iff_of_array hi]
    simp [hv]
  · rename_i hi
    have hk : ¬ t.InArray (.num (int2num i)) := by
      rintro ⟨j, hj, hlt⟩
      obtain rfl : i = j := int2num_injective (by simpa using hj)
      exact hi hlt
    obtain ⟨r, hr, hreads⟩ := h.reads_lookup hk (isNumKey_iff i)
    exact ⟨_, by rw [getinth, hr]; rfl, hreads⟩

theorem TInv.getstr_spec (h : TInv cfg t) (s : S) :
    ∃ tv, getstr cfg t s = .ok tv ∧ Reads t (.str s) tv := by
  obtain ⟨r, hr, hreads⟩ := h.reads_lookup (not_inArray_str t s) (isStrKey_iff s)
  exact ⟨_, by rw [getstr, hr]; rfl, hreads⟩

theorem TInv.getgen_spec (h : TInv cfg t) {key : TValue S} (hc : Canon key)
    (hk : ¬ t.InArray key) : ∃ tv, getgen cfg t key = .ok tv ∧ Reads t key tv := by
  obtain ⟨r, hr, hreads⟩ := h.reads_lookup hk (objEqualKey_iff hc)
  exact ⟨_, by rw [getgen, hr]; rfl, hreads⟩

omit [DecidableEq S] in
/-- The keys that a number check rejects are not array keys. -/
theorem not_inArray_of_check {x : BitVec 64} (hx : num2intCheck cfg.num2int x = none) :
    (canonKey (.num x) : TValue S) = .num x ∧ ¬ t.InArray (.num x) := by
  have hne : ∀ i, (canonKey (.num x) : TValue S) ≠ .num (int2num i) := by
    intro i heq
    rw [← num2intCheck_eq_some_iff_canonKey (c := cfg.num2int), hx] at heq
    exact absurd heq (by simp)
  have hx0 : x ≠ mzero := by
    rintro rfl
    exact hne 0 (congrArg TValue.num (by decide))
  have hcanon : (canonKey (.num x) : TValue S) = .num x := by
    simp [canonKey, canonZero, normZero, hx0]
  refine ⟨hcanon, ?_⟩
  rintro ⟨i, hi, -⟩
  exact hne i (hcanon.trans hi)

omit [DecidableEq S] in
theorem inArray_int2num_iff {i : BitVec 32} :
    t.InArray (.num (int2num i)) ↔ i.toNat < t.asize := by
  constructor
  · rintro ⟨j, hj, hlt⟩
    obtain rfl : i = j := int2num_injective (by simpa using hj)
    exact hlt
  · intro hi
    exact ⟨i, rfl, hi⟩

/-- `lj_tab_get` returns the value paired with the key. -/
theorem TInv.get_spec (h : TInv cfg t) {key : TValue S} (hkey : ValidKey key) :
    ∃ v, get cfg t key = .ok v ∧ ∀ v', v' ≠ .nil → (v = v' ↔ t.Pair (canonKey key) v') := by
  have hfinish : ∀ {m : Except TabErr (Option (TValue S))} {tv : Option (TValue S)},
      m = .ok tv → Reads t (canonKey key) tv →
      ∃ v, (do let tv ← m; pure (tv.getD .nil)) = (.ok v : Except TabErr (TValue S)) ∧
        ∀ v', v' ≠ .nil → (v = v' ↔ t.Pair (canonKey key) v') := by
    rintro m tv rfl hreads
    exact ⟨_, rfl, hreads⟩
  have hgen : ∀ k : TValue S, canonKey key = k → Canon k → ¬ t.InArray k →
      ∃ tv, getgen cfg t k = .ok tv ∧ Reads t (canonKey key) tv := by
    rintro k rfl hc hk
    exact h.getgen_spec hc hk
  have hnot : ∀ k : TValue S, (∀ x, k ≠ .num x) → ¬ t.InArray k := by
    rintro k hk ⟨i, hi, -⟩
    exact hk _ hi
  unfold get
  cases key with
  | nil => exact hkey.elim
  | str s =>
      obtain ⟨tv, htv, hreads⟩ := h.getstr_spec s
      exact hfinish htv hreads
  | int i =>
      obtain ⟨tv, htv, hreads⟩ := h.getint_spec i
      exact hfinish htv hreads
  | num x =>
      cases hx : num2intCheck cfg.num2int x with
      | some i =>
          obtain ⟨tv, htv, hreads⟩ := h.getint_spec i
          rw [← num2intCheck_eq_some_iff_canonKey.1 hx] at hreads
          simp only [hx]
          exact hfinish htv hreads
      | none =>
          obtain ⟨hcanon, hk⟩ := not_inArray_of_check (t := t) hx
          have hc : Canon (.num x : TValue S) := hcanon ▸ canon_canonKey hkey
          obtain ⟨tv, htv, hreads⟩ := hgen _ hcanon hc hk
          simp only [hx]
          exact hfinish htv hreads
  | bool b =>
      obtain ⟨tv, htv, hreads⟩ := hgen _ rfl trivial (hnot _ (by simp [canonKey, canonZero]))
      exact hfinish htv hreads
  | lightud r =>
      obtain ⟨tv, htv, hreads⟩ := hgen _ rfl trivial (hnot _ (by simp [canonKey, canonZero]))
      exact hfinish htv hreads
  | gco it r =>
      obtain ⟨tv, htv, hreads⟩ := hgen _ rfl trivial (hnot _ (by simp [canonKey, canonZero]))
      exact hfinish htv hreads

/-! ### Setters -/

/-- What a setter does before it inserts: it returns the slot of the key, or calls
`lj_tab_newkey` for a key that is absent. -/
def SetCases (cfg : Cfg S) (t : GCtab S) (k : TValue S)
    (nk : GCtab S → TValue S → Except TabErr (GCtab S × Slot))
    (r : Except TabErr (GCtab S × Slot)) : Prop :=
  (∃ slot, r = .ok (t, slot) ∧ SlotFor cfg t k slot) ∨
    (r = nk t k ∧ Absent cfg t k ∧ ¬ t.InArray k)

variable {nk : GCtab S → TValue S → Except TabErr (GCtab S × Slot)}

omit [DecidableEq S] in
theorem TInv.lookupOrNew_cases (h : TInv cfg t) {k : TValue S} (hk : ¬ t.InArray k)
    (hne : k ≠ .nil) {test : TValue S → Bool}
    (ht : ∀ k', Canon k' → (test k' = true ↔ k' = k)) :
    SetCases cfg t k nk (lookupOrNew nk t (t.main cfg k) test k) := by
  rcases h.lookup_cases k ht with ⟨n, hn, hl⟩ | ⟨hn, ha⟩
  · exact .inl ⟨.node n, by rw [lookupOrNew, hn]; rfl, hl, hk, hne⟩
  · exact .inr ⟨by rw [lookupOrNew, hn]; rfl, ha, hk⟩

omit [DecidableEq S] in
theorem TInv.setinthWith_cases (h : TInv cfg t) {i : BitVec 32} (hi : t.asize ≤ i.toNat) :
    SetCases cfg t (.num (int2num i)) nk (setinthWith cfg nk t i) := by
  refine h.lookupOrNew_cases ?_ (by simp) (isNumKey_iff i)
  rw [inArray_int2num_iff]
  omega

omit [DecidableEq S] in
theorem TInv.setintWith_cases (h : TInv cfg t) (i : BitVec 32) :
    SetCases cfg t (.num (int2num i)) nk (setintWith cfg nk t i) := by
  rw [setintWith]
  split
  · rename_i hi
    exact .inl ⟨_, rfl, i, rfl, hi, rfl⟩
  · exact h.setinthWith_cases (by omega)

theorem TInv.setstrWith_cases (h : TInv cfg t) (s : S) :
    SetCases cfg t (.str s) nk (setstrWith cfg nk t s) :=
  h.lookupOrNew_cases (not_inArray_str t s) (by simp) (isStrKey_iff s)

theorem TInv.setgenWith_cases (h : TInv cfg t) {k : TValue S} (hc : Canon k) (hne : k ≠ .nil)
    (hk : ¬ t.InArray k) : SetCases cfg t k nk (setgenWith cfg nk t k) :=
  h.lookupOrNew_cases hk hne (objEqualKey_iff hc)

/-- `lj_tab_set` on a key that is neither nil nor NaN. -/
theorem TInv.setWith_cases (h : TInv cfg t) {key : TValue S} (hkey : ValidKey key) :
    SetCases cfg t (canonKey key) nk (setWith cfg nk t key) := by
  have hnot : ∀ k : TValue S, (∀ x, k ≠ .num x) → ¬ t.InArray k := by
    rintro k hk ⟨i, hi, -⟩
    exact hk _ hi
  cases key with
  | nil => exact hkey.elim
  | str s => exact h.setstrWith_cases s
  | int i => exact h.setintWith_cases i
  | num x =>
      rw [setWith]
      cases hx : num2intCheck cfg.num2int x with
      | some i =>
          rw [num2intCheck_eq_some_iff_canonKey.1 hx]
          exact h.setintWith_cases i
      | none =>
          obtain ⟨hcanon, hk⟩ := not_inArray_of_check (t := t) hx
          have hc : Canon (.num x : TValue S) := hcanon ▸ canon_canonKey hkey
          rw [hcanon]
          simp only [show isNaN x = false from hkey]
          exact h.setgenWith_cases hc (by simp) hk
  | bool b =>
      exact h.setgenWith_cases trivial (by simp [canonKey, canonZero])
        (hnot _ (by simp [canonKey, canonZero]))
  | lightud r =>
      exact h.setgenWith_cases trivial (by simp [canonKey, canonZero])
        (hnot _ (by simp [canonKey, canonZero]))
  | gco it r =>
      exact h.setgenWith_cases trivial (by simp [canonKey, canonZero])
        (hnot _ (by simp [canonKey, canonZero]))

end Lookup

end Tab
