/-
**Resizing a table.**

`lj_tab_resize` builds a new hash part and reinserts what the array part loses and what the old hash
part held.  Both loops are runs of "set a key, store its value"; they are treated by one lemma,
which either counts on free nodes for all insertions (`room`), or lets an insertion rehash.

A rehash asks for room and so never nests.  A resize from outside may be too small for the old hash
part, and then insertions rehash on the way; but the values that the array part loses must fit,
because that loop reads them through a pointer to the array block, which a rehash moves.

Main definitions:

* `Tab.GCtab.keyed` — the number of nodes with a key;
* `Tab.SetPost` — what a setter guarantees;
* `Tab.NkSpec` — what the functions around `lj_tab_newkey` need from it;
* `Tab.LoopSt` — the state of a reinsertion loop.

Main results:

* `Tab.insertLoop_spec` — the reinsertion loops;
* `Tab.resizeWith_spec` — **a resize keeps the pairs**;
* `Tab.nkSpec_newkey` — **`lj_tab_newkey` meets its specification**: it ends, with at most one
  rehash, and keeps the pairs;
* `Tab.set_spec` — **`lj_tab_set` returns the slot of its key and keeps the pairs**.
-/

import LuaJit.TabCount

set_option relaxedAutoImplicit false
set_option autoImplicit false

namespace Tab

open Obj

variable {S : Type}

/-! ### Nodes with a key -/

/-- The number of nodes with a key. -/
def GCtab.keyed (t : GCtab S) : ℕ :=
  ((Finset.range t.cap).filter fun i => (t.key i).isNil = false).card

theorem GCtab.keyed_store (t : GCtab S) (v : TValue S) (slot : Slot) :
    (t.store v slot).keyed = t.keyed := by
  cases slot with
  | array j => rfl
  | node n => rfl

theorem GCtab.keyed_eq_cap {t : GCtab S} (h : ∀ i < t.cap, t.key i ≠ .nil) : t.keyed = t.cap := by
  have hall : (Finset.range t.cap).filter (fun i => (t.key i).isNil = false) =
      Finset.range t.cap := by
    refine Finset.filter_true_of_mem ?_
    intro i hi
    rw [TValue.isNil_eq_false_iff]
    exact h i (Finset.mem_range.1 hi)
  rw [GCtab.keyed, hall, Finset.card_range]

theorem Inserted.keyed_le {cfg : Cfg S} {t t' : GCtab S} {k : TValue S} {n : ℕ}
    (h : Inserted cfg t k t' n) : t'.keyed ≤ t.keyed + 1 := by
  obtain ⟨x, hx⟩ := h.keyed
  have hcap : t'.cap = t.cap := by simp only [GCtab.cap, h.hmask]
  refine le_trans (Finset.card_le_card ?_) (Finset.card_insert_le x _)
  intro i hi
  simp only [Finset.mem_filter, Finset.mem_range, TValue.isNil_eq_false_iff] at hi
  rw [Finset.mem_insert]
  rcases hx i hi.2 with hk | rfl
  · refine .inr (Finset.mem_filter.2 ⟨Finset.mem_range.2 (hcap ▸ hi.1), ?_⟩)
    rwa [TValue.isNil_eq_false_iff]
  · exact .inl rfl

/-! ### Counting pairs -/

/-- The keys of a table. -/
def GCtab.keys (t : GCtab S) : Set (TValue S) := { k | ∃ v, t.Pair k v }

theorem mem_liveNodes {t : GCtab S} {n i : ℕ} : i ∈ liveNodes t n ↔ i < n ∧ t.val i ≠ .nil := by
  simp [liveNodes]

/-- The key of an array slot. -/
def slotKey (j : ℕ) : TValue S := .num (int2num (BitVec.ofNat 32 j))

theorem toNat_ofNat_of_lt {t : GCtab S} (hle : t.asize ≤ maxAsize) {j : ℕ} (hj : j < t.asize) :
    (BitVec.ofNat 32 j).toNat = j := by
  rw [BitVec.toNat_ofNat, Nat.mod_eq_of_lt]
  have : maxAsize < 2 ^ 32 := by decide
  omega

theorem TInv.live_lt {cfg : Cfg S} {t : GCtab S} (h : TInv cfg t) {i : ℕ} (hi : t.val i ≠ .nil) :
    i < t.hmask + 1 := by
  have hlt := h.lt_cap (h.key_ne_nil hi)
  rw [GCtab.cap] at hlt
  split at hlt <;> omega

/-- The pairs in use are the keys of the table. -/
theorem TInv.ncard_keys {cfg : Cfg S} {t : GCtab S} (h : TInv cfg t) :
    t.keys.ncard = usedCount t := by
  classical
  set ks : List (TValue S) := (arrKeys t 0 t.asize).map slotKey ++
    (liveNodes t (t.hmask + 1)).map t.key with hks
  have hmem : ∀ k, k ∈ ks ↔ k ∈ t.keys := by
    intro k
    simp only [hks, List.mem_append, List.mem_map, mem_arrKeys, mem_liveNodes, GCtab.keys,
      Set.mem_ofPred_eq]
    constructor
    · rintro (⟨j, ⟨-, hj, hv⟩, rfl⟩ | ⟨i, ⟨-, hv⟩, rfl⟩)
      · have hto := toNat_ofNat_of_lt h.asize_le (show j < t.asize by omega)
        exact ⟨t.array j, .inl ⟨_, rfl, by omega, by rw [hto], hv⟩⟩
      · exact ⟨t.val i, .inr ⟨i, rfl, rfl, hv⟩⟩
    · rintro ⟨v, ⟨i, rfl, hi, hv, hne⟩ | ⟨i, rfl, hv, hne⟩⟩
      · refine .inl ⟨i.toNat, ⟨by omega, by omega, by rwa [hv]⟩, ?_⟩
        rw [slotKey, BitVec.ofNat_toNat, BitVec.setWidth_eq]
      · refine .inr ⟨i, ⟨h.live_lt (by rwa [hv]), by rwa [hv]⟩, rfl⟩
  have hnodup : ks.Nodup := by
    rw [hks, List.nodup_append]
    refine ⟨?_, ?_, ?_⟩
    · refine List.Nodup.map_on ?_ ((List.nodup_range' ..).filter _)
      intro i hi j hj heq
      have hi' := mem_arrKeys.1 hi
      have hj' := mem_arrKeys.1 hj
      have hij : BitVec.ofNat 32 i = BitVec.ofNat 32 j :=
        int2num_injective (by simpa [slotKey] using heq)
      rw [← toNat_ofNat_of_lt h.asize_le (show i < t.asize by omega), hij,
        toNat_ofNat_of_lt h.asize_le (show j < t.asize by omega)]
    · refine List.Nodup.map_on ?_ (List.nodup_range.filter _)
      intro i hi j hj heq
      exact h.live_unique (mem_liveNodes.1 hi).2 (mem_liveNodes.1 hj).2 heq
    · rintro k hk k' hk' rfl
      simp only [List.mem_map, mem_arrKeys, mem_liveNodes] at hk hk'
      obtain ⟨j, ⟨-, hj, -⟩, rfl⟩ := hk
      obtain ⟨i, ⟨-, hi⟩, heq⟩ := hk'
      refine h.notArray i hi ⟨_, heq, ?_⟩
      rw [toNat_ofNat_of_lt h.asize_le (show j < t.asize by omega)]
      omega
  have hset : t.keys = (ks.toFinset : Set (TValue S)) := by
    ext k
    rw [← hmem]
    simp
  rw [hset, Set.ncard_coe_finset, List.toFinset_card_of_nodup hnodup, hks]
  simp [usedCount]

theorem TInv.finite_keys {cfg : Cfg S} {t : GCtab S} (h : TInv cfg t) : t.keys.Finite := by
  refine Set.Finite.subset (((Set.finite_lt_nat t.asize).image slotKey).union
    ((Set.finite_lt_nat (t.hmask + 1)).image t.key)) ?_
  rintro k ⟨v, ⟨i, rfl, hi, hv, hne⟩ | ⟨i, rfl, hv, hne⟩⟩
  · refine .inl ⟨i.toNat, hi, ?_⟩
    rw [slotKey, BitVec.ofNat_toNat, BitVec.setWidth_eq]
  · exact .inr ⟨i, h.live_lt (by rwa [hv]), rfl⟩

/-- A table with fewer pairs has fewer pairs in use. -/
theorem TInv.usedCount_le {cfg cfg' : Cfg S} {t t' : GCtab S} (h : TInv cfg t)
    (h' : TInv cfg' t') (hsub : ∀ k v, t.Pair k v → t'.Pair k v) : usedCount t ≤ usedCount t' := by
  rw [← h.ncard_keys, ← h'.ncard_keys]
  refine Set.ncard_le_ncard ?_ h'.finite_keys
  rintro k ⟨v, hv⟩
  exact ⟨v, hsub k v hv⟩

/-! ### Setters -/

/-- What a setter guarantees: the table holds the same pairs and the pointer is the slot of the
key. -/
structure SetPost (cfg : Cfg S) (t : GCtab S) (k : TValue S) (t' : GCtab S) (slot : Slot) :
    Prop where
  inv : TInv cfg t'
  settled : Settled cfg t → Settled cfg t'
  slot : SlotFor cfg t' k slot
  pair_iff : ∀ k' v, t'.Pair k' v ↔ t.Pair k' v

/-- An insertion without rehash leaves the sizes alone. -/
structure Kept (t t' : GCtab S) : Prop where
  asize : t'.asize = t.asize
  arrayId : t'.arrayId = t.arrayId
  colo : t'.colo = t.colo
  cap : t'.cap = t.cap
  keyed_le : t'.keyed ≤ t.keyed + 1

/-- What the callers of `lj_tab_newkey` need from it.  With `room` they see to it that a node is
free, and the insertion does not rehash; without, the insertion may fail when the hash part grows
beyond its limit. -/
def NkSpec (cfg : Cfg S) (room : Prop)
    (nk : GCtab S → TValue S → Except TabErr (GCtab S × Slot)) : Prop :=
  ∀ t k, TInv cfg t → Absent cfg t k → ¬ t.InArray k → Canon k → k ≠ .nil → NewkeySafe cfg t k →
    (room → t.keyed < t.cap) →
    (∃ t' slot, nk t k = .ok (t', slot) ∧ SetPost cfg t k t' slot ∧ (room → Kept t t')) ∨
      (¬ room ∧ nk t k = .error .tabov ∧ 2 ^ maxHbits ≤ usedCount t)

section Set

variable {cfg : Cfg S} {t t' : GCtab S} {k : TValue S}

theorem Inserted.setPost {n : ℕ} (h : TInv cfg t) (hk : ¬ t.InArray k) (hne : k ≠ .nil)
    (hi : Inserted cfg t k t' n) : SetPost cfg t k t' (.node n) := by
  have hin : ∀ k', t'.InArray k' ↔ t.InArray k' := by
    intro k'
    simp only [GCtab.InArray, hi.asize]
  refine ⟨⟨hi.inv, ?_, ?_, ?_⟩, hi.settled, ⟨hi.located, ?_, hne⟩, ?_⟩
  · rw [hi.asize]
    exact h.asize_le
  · rw [hi.hmask]
    exact h.hmask_eq
  · intro i hv
    rw [hin]
    exact h.has_not_inArray ((hi.has_iff _ _).1 ⟨i, rfl, rfl, hv⟩)
  · rwa [hin]
  · intro k' v
    simp only [GCtab.Pair, GCtab.ArrayPair, hi.asize, hi.array, hi.has_iff]

theorem Inserted.kept {n : ℕ} (hi : Inserted cfg t k t' n) : Kept t t' :=
  ⟨hi.asize, hi.arrayId, hi.colo, by simp only [GCtab.cap, hi.hmask], hi.keyed_le⟩

/-- A stored value: the pairs change at the key only. -/
theorem SetPost.store_pair_iff {slot : Slot} (h : SetPost cfg t k t' slot) {v : TValue S}
    (hv : v ≠ .nil) (hnot : ∀ v, ¬ t.Pair k v) (k' v' : TValue S) :
    (t'.store v slot).Pair k' v' ↔ t.Pair k' v' ∨ (k' = k ∧ v' = v) := by
  rw [h.inv.store_pair_iff h.slot, h.pair_iff]
  constructor
  · rintro (⟨rfl, rfl, -⟩ | ⟨-, hp⟩)
    · exact .inr ⟨rfl, rfl⟩
    · exact .inl hp
  · rintro (hp | ⟨rfl, rfl⟩)
    · refine .inr ⟨?_, hp⟩
      rintro rfl
      exact hnot _ hp
    · exact .inl ⟨rfl, rfl, hv⟩

variable {nk : GCtab S → TValue S → Except TabErr (GCtab S × Slot)} {room : Prop}

theorem kept_self (t : GCtab S) : Kept t t := ⟨rfl, rfl, rfl, rfl, by omega⟩

/-- A setter, from the two ways it can end. -/
theorem NkSpec.of_cases (hnk : NkSpec cfg room nk) (h : TInv cfg t) (hc : Canon k)
    (hne : k ≠ .nil) (hs : NewkeySafe cfg t k) (hroom : room → ¬ t.InArray k → t.keyed < t.cap)
    {r : Except TabErr (GCtab S × Slot)} (hr : SetCases cfg t k nk r) :
    (∃ t' slot, r = .ok (t', slot) ∧ SetPost cfg t k t' slot ∧
        (room → Kept t t' ∧ (t.InArray k → t'.keyed = t.keyed))) ∨
      (¬ room ∧ r = .error .tabov ∧ 2 ^ maxHbits ≤ usedCount t) := by
  rcases hr with ⟨slot, rfl, hslot⟩ | ⟨rfl, ha, hk⟩
  · exact .inl ⟨t, slot, rfl, ⟨h, id, hslot, fun _ _ => Iff.rfl⟩,
      fun _ => ⟨kept_self t, fun _ => rfl⟩⟩
  · rcases hnk t k h ha hk hc hne hs (fun hr => hroom hr hk) with ⟨t', slot, heq, hpost, hkept⟩ | herr
    · exact .inl ⟨t', slot, heq, hpost, fun hr => ⟨hkept hr, fun hin => absurd hin hk⟩⟩
    · exact .inr herr

end Set

/-! ### Reinsertion loops -/

theorem toHash_eq_false_iff {cfg : Cfg S} {t : GCtab S} (h : TInv cfg t) {k : TValue S}
    (hc : Canon k) : toHash cfg t.asize k = false ↔ t.InArray k := by
  have hnum : ∀ x, k = .num x → ∀ i, num2intCheck cfg.num2int x = some i → k = .num (int2num i) := by
    rintro x rfl i hi
    rw [← num2intCheck_eq_some_iff_canonKey.1 hi, canonKey_of_canon hc]
  constructor
  · intro hto
    rw [toHash] at hto
    split at hto
    · rename_i j hj
      cases k with
      | num x =>
          simp only [arrayKey] at hj
          split at hj
          · rename_i i hi
            split at hj
            · simp only [Option.some.injEq] at hj
              refine ⟨i, hnum x rfl i hi, ?_⟩
              simp only [decide_eq_false_iff_not] at hto
              omega
            · exact absurd hj (by simp)
          · exact absurd hj (by simp)
      | _ => simp [arrayKey] at hj
    · exact absurd hto (by simp)
  · rintro ⟨i, rfl, hi⟩
    have hcheck : num2intCheck cfg.num2int (int2num i) = some i := by
      rw [num2intCheck_eq_some_iff, numEq_int2num_iff]
      exact .inl rfl
    have hlt : i.toNat < maxAsize := lt_of_lt_of_le hi h.asize_le
    simp only [toHash, arrayKey, hcheck, if_pos hlt, decide_eq_false_iff_not]
    omega

/-- The state of a reinsertion loop: a settled table; with `room`, the sizes it started with and
enough nodes without key for what is still `need`ed. -/
structure LoopSt (cfg : Cfg S) (room : Prop) (asize arrayId : ℕ) (colo : ℤ) (need : ℕ)
    (t : GCtab S) : Prop where
  inv : TInv cfg t
  settled : Settled cfg t
  kept : room → t.asize = asize ∧ t.arrayId = arrayId ∧ t.colo = colo ∧ t.keyed + need ≤ t.cap

/-- The number of nodes that the pairs take in a table with array size `asize`. -/
def needed (cfg : Cfg S) (asize : ℕ) (ps : List (TValue S × TValue S)) : ℕ :=
  ps.countP fun p => toHash cfg asize p.1

section Loop

variable {cfg : Cfg S} {room : Prop} {asize arrayId need b : ℕ} {colo : ℤ}
  {f : GCtab S → ℕ → Except TabErr (GCtab S)} {item : ℕ → Option (TValue S × TValue S)}
  {P : TValue S → TValue S → Prop}

/-- One round of a reinsertion loop: nothing for an empty item, else one more pair. -/
def RoundSpec (cfg : Cfg S) (room : Prop) (asize arrayId : ℕ) (colo : ℤ)
    (f : GCtab S → ℕ → Except TabErr (GCtab S)) (item : ℕ → Option (TValue S × TValue S))
    (i : ℕ) : Prop :=
  (item i = none → ∀ t need, LoopSt cfg room asize arrayId colo need t → f t i = .ok t) ∧
  ∀ k v, item i = some (k, v) → ∀ t need,
    LoopSt cfg room asize arrayId colo (need + needed cfg asize [(k, v)]) t →
    (∀ v', ¬ t.Pair k v') →
    (∃ t', f t i = .ok t' ∧ LoopSt cfg room asize arrayId colo need t' ∧
      ∀ k' v', t'.Pair k' v' ↔ t.Pair k' v' ∨ (k' = k ∧ v' = v)) ∨
    (¬ room ∧ f t i = .error .tabov ∧ 2 ^ maxHbits ≤ usedCount t)

/-- A reinsertion loop adds its items. -/
theorem insertLoop_spec {l : List ℕ} (hround : ∀ i ∈ l, RoundSpec cfg room asize arrayId colo f item i)
    (hnodup : ((l.filterMap item).map Prod.fst).Nodup) {t : GCtab S}
    (ht : LoopSt cfg room asize arrayId colo (need + needed cfg asize (l.filterMap item)) t)
    (hnew : ∀ p ∈ l.filterMap item, ∀ v, ¬ t.Pair p.1 v)
    (hall : ∀ k v, t.Pair k v ∨ (k, v) ∈ l.filterMap item → P k v)
    (hbound : ¬ room → ∀ t', TInv cfg t' → (∀ k v, t'.Pair k v → P k v) → usedCount t' ≤ b) :
    (∃ t', l.foldlM f t = .ok t' ∧ LoopSt cfg room asize arrayId colo need t' ∧
      ∀ k v, t'.Pair k v ↔ t.Pair k v ∨ (k, v) ∈ l.filterMap item) ∨
    (¬ room ∧ l.foldlM f t = .error .tabov ∧ 2 ^ maxHbits ≤ b) := by
  induction l generalizing t with
  | nil =>
      refine .inl ⟨t, rfl, ?_, ?_⟩
      · simpa [needed] using ht
      · simp
  | cons i l ih =>
      have hround' : ∀ j ∈ l, RoundSpec cfg room asize arrayId colo f item j :=
        fun j hj => hround j (List.mem_cons_of_mem _ hj)
      obtain ⟨hskip, hins⟩ := hround i List.mem_cons_self
      cases hitem : item i with
      | none =>
          rw [List.filterMap_cons_none hitem] at hnodup ht hnew hall ⊢
          rw [List.foldlM_cons, hskip hitem t _ ht]
          exact ih hround' hnodup ht hnew hall
      | some p =>
          obtain ⟨k, v⟩ := p
          rw [List.filterMap_cons_some hitem] at hnodup ht hnew hall ⊢
          rw [List.map_cons, List.nodup_cons] at hnodup
          have hneed : need + needed cfg asize ((k, v) :: l.filterMap item) =
              need + needed cfg asize (l.filterMap item) + needed cfg asize [(k, v)] := by
            simp only [needed, List.countP_cons, List.countP_nil]
            lia
          rw [hneed] at ht
          rw [List.foldlM_cons]
          rcases hins k v hitem t _ ht (hnew _ List.mem_cons_self) with ⟨t₁, heq, hst, hpair⟩ | herr
          · rw [heq]
            have hnew' : ∀ p ∈ l.filterMap item, ∀ v', ¬ t₁.Pair p.1 v' := by
              intro p hp v' hpv
              rcases (hpair _ _).1 hpv with h | ⟨h, -⟩
              · exact hnew p (List.mem_cons_of_mem _ hp) v' h
              · exact hnodup.1 (List.mem_map.2 ⟨p, hp, h⟩)
            have hall' : ∀ k' v', t₁.Pair k' v' ∨ (k', v') ∈ l.filterMap item → P k' v' := by
              rintro k' v' (h | h)
              · rcases (hpair _ _).1 h with h | ⟨rfl, rfl⟩
                · exact hall _ _ (.inl h)
                · exact hall _ _ (.inr List.mem_cons_self)
              · exact hall _ _ (.inr (List.mem_cons_of_mem _ h))
            rcases ih hround' hnodup.2 hst hnew' hall' with ⟨t', heq', hst', hpair'⟩ | herr
            · refine .inl ⟨t', heq', hst', ?_⟩
              intro k' v'
              rw [hpair', hpair, List.mem_cons, Prod.mk.injEq]
              tauto
            · exact .inr herr
          · obtain ⟨hr, heq, hcount⟩ := herr
            refine .inr ⟨hr, by rw [heq]; rfl, le_trans hcount (hbound hr t ht.inv ?_)⟩
            intro k' v' h
            exact hall _ _ (.inl h)

/-- Setting a key and storing its value, as a round of a reinsertion loop. -/
theorem LoopSt.round {nk : GCtab S → TValue S → Except TabErr (GCtab S × Slot)}
    (hnk : NkSpec cfg room nk) {t : GCtab S} {k v : TValue S}
    (ht : LoopSt cfg room asize arrayId colo (need + needed cfg asize [(k, v)]) t)
    (hc : Canon k) (hne : k ≠ .nil) (hv : v ≠ .nil) (hnot : ∀ v', ¬ t.Pair k v')
    {r : Except TabErr (GCtab S × Slot)} (hr : SetCases cfg t k nk r) :
    (∃ t' slot, r = .ok (t', slot) ∧ (room → t'.arrayId = arrayId) ∧
      LoopSt cfg room asize arrayId colo need (t'.store v slot) ∧
      ∀ k' v', (t'.store v slot).Pair k' v' ↔ t.Pair k' v' ∨ (k' = k ∧ v' = v)) ∨
    (¬ room ∧ r = .error .tabov ∧ 2 ^ maxHbits ≤ usedCount t) := by
  have hcost : room → (needed cfg asize [(k, v)] = 0 ∧ t.InArray k) ∨
      needed cfg asize [(k, v)] = 1 := by
    intro hroom
    have hto := toHash_eq_false_iff ht.inv hc
    rw [(ht.kept hroom).1] at hto
    cases h : toHash cfg asize k with
    | false => exact .inl ⟨by simp [needed, h], hto.1 h⟩
    | true => exact .inr (by simp [needed, h])
  have hroom' : room → ¬ t.InArray k → t.keyed < t.cap := by
    intro hroom hk
    obtain ⟨-, -, -, hle⟩ := ht.kept hroom
    rcases hcost hroom with ⟨-, hin⟩ | h1
    · exact absurd hin hk
    · omega
  rcases hnk.of_cases ht.inv hc hne (Settled.newkeySafe ht.inv.toHInv ht.settled k) hroom' hr with
    ⟨t', slot, heq, hpost, hkept⟩ | herr
  · refine .inl ⟨t', slot, heq, ?_, ⟨hpost.inv.store hpost.slot, (hpost.settled ht.settled).store _ _, ?_⟩,
      hpost.store_pair_iff hv hnot⟩
    · intro hroom
      rw [(hkept hroom).1.arrayId]
      exact (ht.kept hroom).2.1
    · intro hroom
      obtain ⟨ha, hid, hco, hle⟩ := ht.kept hroom
      obtain ⟨hk, hsame⟩ := hkept hroom
      have hproj : (t'.store v slot).asize = t'.asize ∧ (t'.store v slot).arrayId = t'.arrayId ∧
          (t'.store v slot).colo = t'.colo ∧ (t'.store v slot).cap = t'.cap := by
        cases slot <;> exact ⟨rfl, rfl, rfl, rfl⟩
      rw [hproj.1, hproj.2.1, hproj.2.2.1, hproj.2.2.2, GCtab.keyed_store, hk.asize, hk.arrayId,
        hk.colo, hk.cap]
      refine ⟨ha, hid, hco, ?_⟩
      have hkl := hk.keyed_le
      rcases hcost hroom with ⟨h0, hin⟩ | h1
      · rw [hsame hin]
        lia
      · lia
  · exact .inr herr

end Loop

/-! ### Resizing -/

/-- An empty hash part. -/
structure Fresh (hbits : ℕ) (t : GCtab S) : Prop where
  key : t.key = fun _ => .nil
  val : t.val = fun _ => .nil
  next : t.next = fun _ => none
  hmask : t.hmask = 2 ^ hbits - 1
  freetop : t.freetop = t.cap
  cap : t.cap = hashSize hbits

theorem GCtab.cap_of_hmask {t : GCtab S} {b : ℕ} (h : t.hmask = 2 ^ b - 1) :
    t.cap = hashSize b := by
  rw [GCtab.cap, h, hashSize]
  rcases Nat.eq_zero_or_pos b with rfl | hb
  · rfl
  · have hpow : 2 ^ 1 ≤ 2 ^ b := Nat.pow_le_pow_right (by omega) hb
    rw [if_neg (by lia), if_neg (by omega)]
    lia

theorem newHash_cases (t : GCtab S) (hbits : ℕ) :
    (newHash t hbits = .error .tabov ∧ maxHbits < hbits) ∨
      ∃ t', newHash t hbits = .ok t' ∧ hbits ≤ maxHbits ∧ Fresh hbits t' ∧ t'.asize = t.asize ∧
        t'.array = t.array ∧ t'.arrayId = t.arrayId ∧ t'.colo = t.colo := by
  rw [newHash]
  by_cases h0 : hbits = 0
  · subst h0
    exact .inr ⟨_, rfl, by omega, ⟨rfl, rfl, rfl, rfl, rfl, rfl⟩, rfl, rfl, rfl, rfl⟩
  · rw [if_neg h0, newhpart]
    by_cases hlt : maxHbits < hbits
    · rw [if_pos hlt]
      exact .inl ⟨rfl, hlt⟩
    · rw [if_neg hlt]
      have hcap : hashSize hbits = 2 ^ hbits := if_neg h0
      refine .inr ⟨_, rfl, by omega, ⟨rfl, rfl, rfl, rfl, ?_, GCtab.cap_of_hmask rfl⟩, rfl, rfl,
        rfl, rfl⟩
      rw [GCtab.cap_of_hmask (b := hbits) rfl, hcap]
      rfl

section Resize

variable {cfg : Cfg S} {old t : GCtab S} {hbits : ℕ}

theorem Fresh.hInv (hf : Fresh hbits t) (cfg : Cfg S) : HInv cfg t where
  linear := by
    rw [hf.next]
    exact ⟨by simp, by simp⟩
  free := by
    intro i _
    rw [hf.val, hf.next]
    exact ⟨rfl, rfl, by simp⟩
  outside := by
    intro i _
    rw [hf.key]
  top_le := le_of_eq hf.freetop
  top := by
    intro i hi hi'
    rw [hf.freetop] at hi
    omega
  canon := by
    intro i
    rw [hf.key]
    trivial
  reach := by
    intro i hi
    rw [hf.val] at hi
    exact absurd rfl hi
  first := by
    intro i j hi
    rw [hf.val] at hi
    exact absurd rfl hi

theorem Fresh.tInv (hf : Fresh hbits t) (hb : hbits ≤ maxHbits) (ha : t.asize ≤ maxAsize)
    (cfg : Cfg S) : TInv cfg t :=
  ⟨hf.hInv cfg, ha, ⟨hbits, hb, hf.hmask⟩, by
    intro i hi
    rw [hf.val] at hi
    exact absurd rfl hi⟩

theorem Fresh.settled (hf : Fresh hbits t) (cfg : Cfg S) : Settled cfg t := by
  intro j hj
  rw [hf.key] at hj
  exact absurd rfl hj

theorem Fresh.keyed (hf : Fresh hbits t) : t.keyed = 0 := by
  simp [GCtab.keyed, hf.key, TValue.isNil]

theorem Fresh.not_has (hf : Fresh hbits t) (k v : TValue S) : ¬ t.Has k v := by
  rintro ⟨i, -, hv, hne⟩
  rw [hf.val] at hv
  exact hne hv.symm

/-- The pair that a round of a reinsertion loop moves, if its value is not nil. -/
def pairItem (key val : ℕ → TValue S) (i : ℕ) : Option (TValue S × TValue S) :=
  if (val i).isNil then none else some (key i, val i)

theorem pairItem_eq_none {key val : ℕ → TValue S} {i : ℕ} :
    pairItem key val i = none ↔ (val i).isNil = true := by
  rw [pairItem]
  split
  · simp [*]
  · simp [*]

theorem pairItem_eq_some {key val : ℕ → TValue S} {i : ℕ} {k v : TValue S} :
    pairItem key val i = some (k, v) ↔ k = key i ∧ v = val i ∧ v ≠ .nil := by
  rw [pairItem]
  split
  · rename_i hnil
    rw [TValue.isNil_eq_true_iff] at hnil
    constructor
    · intro h
      exact absurd h (by simp)
    · rintro ⟨-, rfl, hne⟩
      exact absurd hnil hne
  · rename_i hnil
    simp only [Option.some.injEq, Prod.mk.injEq]
    constructor
    · rintro ⟨rfl, rfl⟩
      exact ⟨rfl, rfl, by simpa using hnil⟩
    · rintro ⟨rfl, rfl, -⟩
      exact ⟨rfl, rfl⟩

/-- The pairs of a reinsertion loop. -/
theorem filterMap_pairItem (key val : ℕ → TValue S) (l : List ℕ) :
    l.filterMap (pairItem key val) =
      (l.filter fun i => !(val i).isNil).map fun i => (key i, val i) := by
  induction l with
  | nil => rfl
  | cons i l ih =>
      cases hnil : (val i).isNil with
      | true =>
          rw [List.filterMap_cons_none (pairItem_eq_none.2 hnil),
            List.filter_cons_of_neg (by simp [hnil]), ih]
      | false =>
          have hitem : pairItem key val i = some (key i, val i) := by
            rw [pairItem, if_neg (by simp [hnil])]
          rw [List.filterMap_cons_some hitem, List.filter_cons_of_pos (by simp [hnil]),
            List.map_cons, ih]

theorem nodup_pairItem {key val : ℕ → TValue S} {l : List ℕ} (hl : l.Nodup)
    (hinj : ∀ i ∈ l, ∀ j ∈ l, val i ≠ .nil → val j ≠ .nil → key i = key j → i = j) :
    ((l.filterMap (pairItem key val)).map Prod.fst).Nodup := by
  rw [filterMap_pairItem, List.map_map]
  refine List.Nodup.map_on ?_ (hl.filter _)
  intro i hi j hj heq
  simp only [List.mem_filter, Bool.not_eq_true', TValue.isNil_eq_false_iff] at hi hj
  exact hinj i hi.1 j hj.1 hi.2 hj.2 heq

variable {nk : GCtab S → TValue S → Except TabErr (GCtab S × Slot)} {room : Prop}
  {asize arrayId : ℕ} {colo : ℤ}

/-- The rounds of the shrinking loop, as long as no insertion rehashes. -/
theorem roundSpec_reinsertArray (hnk : NkSpec cfg True nk) {i : ℕ} (hlo : asize ≤ i)
    (hhi : i < maxAsize) :
    RoundSpec cfg True asize old.arrayId colo (reinsertArray cfg nk old)
      (pairItem slotKey old.array) i := by
  have hread : ∀ t : GCtab S, t.arrayId = old.arrayId → readArray old t i = .ok (old.array i) := by
    intro t ht
    rw [readArray, if_pos (.inl ht)]
  have hto : (BitVec.ofNat 32 i).toNat = i := by
    rw [BitVec.toNat_ofNat, Nat.mod_eq_of_lt]
    have : maxAsize < 2 ^ 32 := by decide
    lia
  constructor
  · intro hitem t need ht
    have hnil := pairItem_eq_none.1 hitem
    rw [reinsertArray, hread t (ht.kept trivial).2.1]
    simp [bind, Except.bind, pure, Except.pure, hnil]
  · intro k v hitem t need ht hnot
    obtain ⟨rfl, rfl, hv⟩ := pairItem_eq_some.1 hitem
    have hcases : SetCases cfg t (slotKey i) nk (setinthWith cfg nk t (BitVec.ofNat 32 i)) := by
      refine ht.inv.setinthWith_cases ?_
      rw [hto, (ht.kept trivial).1]
      exact hlo
    rcases ht.round hnk (canon_num_int2num _) (by simp [slotKey]) hv hnot hcases with
      ⟨t', slot, heq, hid, hst, hpair⟩ | ⟨hr, -⟩
    · refine .inl ⟨_, ?_, hst, hpair⟩
      have hnil : (old.array i).isNil = false := TValue.isNil_eq_false_iff.2 hv
      rw [reinsertArray, hread t (ht.kept trivial).2.1]
      simp [bind, Except.bind, pure, Except.pure, hnil, heq, hread t' (hid trivial)]
    · exact absurd trivial hr

variable [DecidableEq S]

/-- The rounds of the loop over the old nodes. -/
theorem roundSpec_reinsertNode (hnk : NkSpec cfg room nk) (h : TInv cfg old) (i : ℕ) :
    RoundSpec cfg room asize arrayId colo (reinsertNode cfg nk old)
      (pairItem old.key old.val) i := by
  constructor
  · intro hitem t need _
    rw [reinsertNode, if_pos (pairItem_eq_none.1 hitem)]
    rfl
  · intro k v hitem t need ht hnot
    obtain ⟨rfl, rfl, hv⟩ := pairItem_eq_some.1 hitem
    have hc := h.canon i
    have hne := h.key_ne_nil hv
    have hcases : SetCases cfg t (old.key i) nk (setWith cfg nk t (old.key i)) := by
      have hset : SetCases cfg t (canonKey (old.key i)) nk (setWith cfg nk t (old.key i)) :=
        ht.inv.setWith_cases (validKey_of_canon hc hne)
      rwa [canonKey_of_canon hc] at hset
    have hnil : (old.val i).isNil = false := TValue.isNil_eq_false_iff.2 hv
    rcases ht.round hnk hc hne hv hnot hcases with ⟨t', slot, heq, -, hst, hpair⟩ | ⟨hr, heq, hle⟩
    · refine .inl ⟨_, ?_, hst, hpair⟩
      simp [reinsertNode, bind, Except.bind, pure, Except.pure, hnil, heq]
    · refine .inr ⟨hr, ?_, hle⟩
      simp [reinsertNode, bind, Except.bind, hnil, heq]

/-- The array part before the new hash part is filled: the old slots, and no values beyond. -/
structure SameArray (old t : GCtab S) : Prop where
  asize_le : t.asize ≤ maxAsize
  le_asize : old.asize ≤ t.asize
  array : ∀ i < old.asize, t.array i = old.array i
  beyond : ∀ i, old.asize ≤ i → i < t.asize → t.array i = .nil

omit [DecidableEq S] in
theorem SameArray.arrayPair_iff (hs : SameArray old t) (k v : TValue S) :
    t.ArrayPair k v ↔ old.ArrayPair k v := by
  constructor
  · rintro ⟨i, rfl, hi, hv, hne⟩
    rcases Nat.lt_or_ge i.toNat old.asize with hlt | hge
    · exact ⟨i, rfl, hlt, by rw [← hs.array _ hlt, hv], hne⟩
    · exact absurd (hv.symm.trans (hs.beyond _ hge hi)) hne
  · rintro ⟨i, rfl, hi, hv, hne⟩
    exact ⟨i, rfl, lt_of_lt_of_le hi hs.le_asize, by rw [hs.array _ hi, hv], hne⟩

omit [DecidableEq S] in
theorem growArray_cases (h : old.asize ≤ maxAsize) (asize : ℕ) :
    (growArray old asize = .error .tabov ∧ maxAsize < asize) ∨
      ∃ t, growArray old asize = .ok t ∧ SameArray old t ∧ t.asize = max old.asize asize := by
  rw [growArray]
  by_cases hle : asize ≤ old.asize
  · rw [if_pos hle]
    refine .inr ⟨old, rfl, ⟨h, le_refl _, fun _ _ => rfl, ?_⟩, by lia⟩
    intro i hi hi'
    omega
  · rw [if_neg hle]
    by_cases hmax : maxAsize < asize
    · rw [if_pos hmax]
      exact .inl ⟨rfl, hmax⟩
    · rw [if_neg hmax]
      refine .inr ⟨_, rfl, ⟨by simpa using hmax, ?_, ?_, ?_⟩, ?_⟩
      · change old.asize ≤ asize
        omega
      · intro i hi
        exact if_neg (by omega)
      · intro i hi hi'
        exact if_pos ⟨hi, hi'⟩
      · change asize = max old.asize asize
        lia

omit [DecidableEq S] in
/-- Shrinking the array part moves its values to the hash part. -/
theorem shrinkArray_spec (hnk : NkSpec cfg True nk) (hf : Fresh hbits t) (hb : hbits ≤ maxHbits)
    (ha : t.asize ≤ maxAsize) (hlt : asize < t.asize) {need : ℕ}
    (hneed : need + (arrKeys t asize (t.asize - asize)).length ≤ hashSize hbits) :
    ∃ t', shrinkArray cfg nk t asize = .ok t' ∧
      LoopSt cfg True asize t'.arrayId t'.colo need t' ∧
      ∀ k v, t'.Pair k v ↔ t.ArrayPair k v := by
  set t₀ : GCtab S := { t with asize := asize } with ht₀
  set l := List.range' asize (t.asize - asize) with hl
  have hf₀ : Fresh hbits t₀ := ⟨hf.key, hf.val, hf.next, hf.hmask, hf.freetop, hf.cap⟩
  have hinv₀ : TInv cfg t₀ := hf₀.tInv hb (show asize ≤ maxAsize by omega) cfg
  have hmem : ∀ i ∈ l, asize ≤ i ∧ i < t.asize := by
    intro i hi
    rw [hl, List.mem_range'_1] at hi
    lia
  have hto : ∀ i < t.asize, (BitVec.ofNat 32 i).toNat = i := fun i => toNat_ofNat_of_lt ha
  have hpair₀ : ∀ k v, t₀.Pair k v ↔ ∃ i : BitVec 32, k = .num (int2num i) ∧ i.toNat < asize ∧
      t.array i.toNat = v ∧ v ≠ .nil := by
    intro k v
    constructor
    · rintro (hp | hp)
      · exact hp
      · exact absurd hp (hf₀.not_has k v)
    · exact .inl
  have hnodup : ((l.filterMap (pairItem slotKey t.array)).map Prod.fst).Nodup := by
    refine nodup_pairItem (List.nodup_range' ..) ?_
    intro i hi j hj _ _ heq
    have hij : BitVec.ofNat 32 i = BitVec.ofNat 32 j :=
      int2num_injective (by simpa [slotKey] using heq)
    rw [← hto i (hmem i hi).2, hij, hto j (hmem j hj).2]
  have hneed₀ : needed cfg asize (l.filterMap (pairItem slotKey t.array)) ≤
      (arrKeys t asize (t.asize - asize)).length := by
    refine le_trans (List.countP_le_length) ?_
    rw [filterMap_pairItem, List.length_map]
    exact le_refl _
  have hst : LoopSt cfg True asize t.arrayId t.colo
      (need + needed cfg asize (l.filterMap (pairItem slotKey t.array))) t₀ := by
    refine ⟨hinv₀, hf₀.settled cfg, fun _ => ⟨rfl, rfl, rfl, ?_⟩⟩
    rw [hf₀.keyed, hf₀.cap]
    lia
  have hnew : ∀ p ∈ l.filterMap (pairItem slotKey t.array), ∀ v, ¬ t₀.Pair p.1 v := by
    rintro ⟨k, v'⟩ hp v hpv
    obtain ⟨i, hi, hitem⟩ := List.mem_filterMap.1 hp
    obtain ⟨rfl, -, -⟩ := pairItem_eq_some.1 hitem
    obtain ⟨j, hj, hlt', -⟩ := (hpair₀ _ _).1 hpv
    have hij : BitVec.ofNat 32 i = j := int2num_injective (by simpa [slotKey] using hj)
    rw [← hij, hto i (hmem i hi).2] at hlt'
    have := (hmem i hi).1
    omega
  have hround : ∀ i ∈ l, RoundSpec cfg True asize t.arrayId t.colo (reinsertArray cfg nk t)
      (pairItem slotKey t.array) i := by
    intro i hi
    exact roundSpec_reinsertArray hnk (hmem i hi).1 (lt_of_lt_of_le (hmem i hi).2 ha)
  rcases insertLoop_spec (P := fun _ _ => True) (b := 0) hround hnodup hst hnew
    (fun _ _ _ => trivial) (fun hr => absurd trivial hr) with ⟨t', heq, hst', hpair⟩ | ⟨hr, -⟩
  · -- what the array part has lost is among the items
    have hpair' : ∀ k v, t'.Pair k v ↔ t.ArrayPair k v := by
      intro k v
      rw [hpair, hpair₀, List.mem_filterMap]
      constructor
      · rintro (⟨i, rfl, hi, hv, hne⟩ | ⟨i, hi, hitem⟩)
        · exact ⟨i, rfl, by lia, hv, hne⟩
        · obtain ⟨rfl, rfl, hne⟩ := pairItem_eq_some.1 hitem
          refine ⟨BitVec.ofNat 32 i, rfl, ?_, ?_, hne⟩
          · rw [hto i (hmem i hi).2]
            exact (hmem i hi).2
          · rw [hto i (hmem i hi).2]
      · rintro ⟨i, rfl, hi, hv, hne⟩
        rcases Nat.lt_or_ge i.toNat asize with hlo | hhi
        · exact .inl ⟨i, rfl, hlo, hv, hne⟩
        · refine .inr ⟨i.toNat, List.mem_range'_1.2 (by lia), ?_⟩
          rw [pairItem_eq_some, slotKey, BitVec.ofNat_toNat, BitVec.setWidth_eq]
          exact ⟨rfl, hv.symm, hne⟩
    obtain ⟨ha', hid, hco, hle⟩ := hst'.kept trivial
    have heq' : (List.range' asize (t.asize - asize)).foldlM (reinsertArray cfg nk t)
        { t with asize := asize } = .ok t' := heq
    rw [shrinkArray, if_neg (by lia)]
    simp only [heq', bind, Except.bind]
    rw [shrinkBlock]
    split
    · exact ⟨t', rfl, ⟨hst'.inv, hst'.settled, fun _ => ⟨ha', rfl, rfl, hle⟩⟩, hpair'⟩
    · refine ⟨_, rfl, ⟨⟨{ hst'.inv.toHInv with }, hst'.inv.asize_le, hst'.inv.hmask_eq,
        hst'.inv.notArray⟩, hst'.settled, fun _ => ⟨ha', rfl, rfl, hle⟩⟩, hpair'⟩
  · exact absurd trivial hr

/-- The reinsertion of the old hash part into a table that holds the old array part. -/
theorem reinsertNodes_spec (hnk : NkSpec cfg room nk) (h : TInv cfg old) {need : ℕ}
    (ht : LoopSt cfg room asize arrayId colo (need + (liveNodes old (old.hmask + 1)).countP
      fun i => toHash cfg asize (old.key i)) t)
    (hpair : ∀ k v, t.Pair k v ↔ old.ArrayPair k v) :
    (∃ t', (List.range (old.hmask + 1)).foldlM (reinsertNode cfg nk old) t = .ok t' ∧
      LoopSt cfg room asize arrayId colo need t' ∧ ∀ k v, t'.Pair k v ↔ old.Pair k v) ∨
    (¬ room ∧ (List.range (old.hmask + 1)).foldlM (reinsertNode cfg nk old) t = .error .tabov ∧
      2 ^ maxHbits ≤ usedCount old) := by
  set l := List.range (old.hmask + 1) with hl
  have hitems : ∀ k v, (k, v) ∈ l.filterMap (pairItem old.key old.val) ↔ old.Has k v := by
    intro k v
    rw [List.mem_filterMap]
    constructor
    · rintro ⟨i, -, hitem⟩
      obtain ⟨rfl, rfl, hne⟩ := pairItem_eq_some.1 hitem
      exact ⟨i, rfl, rfl, hne⟩
    · rintro ⟨i, rfl, rfl, hne⟩
      exact ⟨i, List.mem_range.2 (h.live_lt hne), pairItem_eq_some.2 ⟨rfl, rfl, hne⟩⟩
  have hneed : needed cfg asize (l.filterMap (pairItem old.key old.val)) =
      (liveNodes old (old.hmask + 1)).countP fun i => toHash cfg asize (old.key i) := by
    rw [needed, filterMap_pairItem, List.countP_map]
    rfl
  have hnodup : ((l.filterMap (pairItem old.key old.val)).map Prod.fst).Nodup :=
    nodup_pairItem List.nodup_range fun i _ j _ hi hj heq => h.live_unique hi hj heq
  have hnew : ∀ p ∈ l.filterMap (pairItem old.key old.val), ∀ v, ¬ t.Pair p.1 v := by
    rintro ⟨k, v'⟩ hp v hpv
    exact h.has_not_inArray ((hitems _ _).1 hp) ((hpair _ _).1 hpv).inArray
  have hall : ∀ k v, t.Pair k v ∨ (k, v) ∈ l.filterMap (pairItem old.key old.val) →
      old.Pair k v := by
    intro k v
    rw [hpair, hitems]
    exact id
  rw [← hneed] at ht
  rcases insertLoop_spec (fun i _ => roundSpec_reinsertNode hnk h i) hnodup ht hnew hall
    (fun _ t' ht' hsub => ht'.usedCount_le h hsub) with ⟨t', heq, hst, hp⟩ | herr
  · refine .inl ⟨t', heq, hst, ?_⟩
    intro k v
    rw [hp, hpair, hitems]
    exact Iff.rfl
  · exact .inr herr

omit [DecidableEq S] in
/-- The array part of a resize, with the new hash part in place. -/
theorem arrayPhase_spec (hnk : NkSpec cfg True nk) (hs : SameArray old t)
    (hasize : t.asize = max old.asize asize) (hf : Fresh hbits t) (hb : hbits ≤ maxHbits)
    {need : ℕ}
    (hneed : need + (arrKeys old asize (old.asize - asize)).length ≤ hashSize hbits) :
    ∃ t', shrinkArray cfg nk t asize = .ok t' ∧
      LoopSt cfg True asize t'.arrayId t'.colo need t' ∧
      ∀ k v, t'.Pair k v ↔ old.ArrayPair k v := by
  by_cases hlt : asize < old.asize
  · have hsz : t.asize = old.asize := by lia
    have hkeys : arrKeys t asize (t.asize - asize) = arrKeys old asize (old.asize - asize) := by
      rw [hsz]
      refine List.filter_congr ?_
      intro i hi
      rw [List.mem_range'_1] at hi
      rw [hs.array i (by lia)]
    obtain ⟨t', heq, hst, hpair⟩ :=
      shrinkArray_spec hnk hf hb hs.asize_le (by lia : asize < t.asize) (by rwa [hkeys])
    refine ⟨t', heq, hst, ?_⟩
    intro k v
    rw [hpair, hs.arrayPair_iff]
  · rw [shrinkArray, if_pos (by lia)]
    refine ⟨t, rfl, ⟨hf.tInv hb hs.asize_le cfg, hf.settled cfg, fun _ => ⟨by lia, rfl, rfl, ?_⟩⟩,
      ?_⟩
    · rw [hf.keyed, hf.cap]
      omega
    · intro k v
      rw [← hs.arrayPair_iff]
      constructor
      · rintro (hp | hp)
        · exact hp
        · exact absurd hp (hf.not_has k v)
      · exact .inl

/-- `lj_tab_resize` keeps the pairs, if the values that leave the array part fit the new hash part.
With `room`, everything fits and `extra` nodes stay free. -/
theorem resizeWith_spec (hnkT : NkSpec cfg True nk) (hnk : NkSpec cfg room nk) (h : TInv cfg old)
    (extra : ℕ) (hshrink : (arrKeys old asize (old.asize - asize)).length ≤ hashSize hbits)
    (hroom : room → (arrKeys old asize (old.asize - asize)).length +
      ((liveNodes old (old.hmask + 1)).countP fun i => toHash cfg asize (old.key i)) + extra ≤
      hashSize hbits) :
    (∃ t', resizeWith cfg nk old asize hbits = .ok t' ∧ TInv cfg t' ∧ Settled cfg t' ∧
      (∀ k v, t'.Pair k v ↔ old.Pair k v) ∧
      (room → t'.asize = asize ∧ t'.keyed + extra ≤ t'.cap)) ∨
    (resizeWith cfg nk old asize hbits = .error .tabov ∧
      (maxAsize < asize ∨ maxHbits < hbits ∨ (¬ room ∧ 2 ^ maxHbits ≤ usedCount old))) := by
  rw [resizeWith]
  rcases growArray_cases h.asize_le asize with ⟨heq, hmax⟩ | ⟨t₁, heq₁, hs₁, hsz₁⟩
  · exact .inr ⟨by rw [heq]; rfl, .inl hmax⟩
  rw [heq₁]
  simp only [bind, Except.bind]
  rcases newHash_cases t₁ hbits with ⟨heq, hmax⟩ | ⟨t₂, heq₂, hb, hf, ha₂, harr₂, -, -⟩
  · exact .inr ⟨by rw [heq], .inr (.inl hmax)⟩
  rw [heq₂]
  have hs₂ : SameArray old t₂ := by
    refine ⟨?_, ?_, ?_, ?_⟩
    · rw [ha₂]
      exact hs₁.asize_le
    · rw [ha₂]
      exact hs₁.le_asize
    · rw [harr₂]
      exact hs₁.array
    · rw [ha₂, harr₂]
      exact hs₁.beyond
  -- without room nothing is promised beyond the values that leave the array part
  obtain ⟨need, hneed, hneedr⟩ : ∃ need,
      need + (arrKeys old asize (old.asize - asize)).length ≤ hashSize hbits ∧
      (room → need = extra +
        (liveNodes old (old.hmask + 1)).countP fun i => toHash cfg asize (old.key i)) := by
    by_cases hr : room
    · have := hroom hr
      exact ⟨_, by lia, fun _ => rfl⟩
    · exact ⟨0, by omega, fun hr' => absurd hr' hr⟩
  obtain ⟨t₃, heq₃, hst₃, hpair₃⟩ :=
    arrayPhase_spec hnkT hs₂ (by rw [ha₂, hsz₁]) hf hb hneed
  simp only [heq₃]
  have hst : LoopSt cfg room asize t₃.arrayId t₃.colo (extra +
      (liveNodes old (old.hmask + 1)).countP fun i => toHash cfg asize (old.key i)) t₃ := by
    refine ⟨hst₃.inv, hst₃.settled, ?_⟩
    intro hr
    rw [← hneedr hr]
    exact hst₃.kept trivial
  by_cases hm : 0 < old.hmask
  · rw [if_pos hm]
    rcases reinsertNodes_spec hnk h hst hpair₃ with ⟨t', heq, hst', hpair⟩ | ⟨hr, heq, hle⟩
    · refine .inl ⟨t', heq, hst'.inv, hst'.settled, hpair, ?_⟩
      intro hr
      exact ⟨(hst'.kept hr).1, (hst'.kept hr).2.2.2⟩
    · exact .inr ⟨heq, .inr (.inr ⟨hr, hle⟩)⟩
  · rw [if_neg hm]
    -- no hash part, so nothing to reinsert
    have hnone : ∀ k v, ¬ old.Has k v := by
      rintro k v ⟨i, -, hv, hne⟩
      have hlt := h.lt_cap (h.key_ne_nil (by rwa [hv]))
      rw [GCtab.cap, if_pos (by lia)] at hlt
      omega
    refine .inl ⟨t₃, rfl, hst.inv, hst.settled, ?_, ?_⟩
    · intro k v
      rw [hpair₃]
      constructor
      · exact .inl
      · rintro (hp | hp)
        · exact hp
        · exact absurd hp (hnone k v)
    · intro hr
      obtain ⟨h₁, -, -, h₄⟩ := hst.kept hr
      exact ⟨h₁, by lia⟩

end Resize

/-! ### Insertion with rehash -/

section Newkey

variable [DecidableEq S] {cfg : Cfg S}

/-- With a free node, insertion does not rehash. -/
theorem nkSpec_newkey_room (cfg : Cfg S) (fuel : ℕ) : NkSpec cfg True (newkey cfg fuel) := by
  intro t k h ha hk hc hne hs hroom
  rcases newkeyNode_spec h.toHInv ha hc hne hs with ⟨-, hfull⟩ | ⟨t', n, heq, hins⟩
  · have hcap := GCtab.keyed_eq_cap hfull
    have hlt := hroom trivial
    omega
  · refine .inl ⟨t', .node n, ?_, hins.setPost h hk hne, fun _ => hins.kept⟩
    cases fuel with
    | zero =>
        rw [newkey, heq]
        rfl
    | succ fuel =>
        rw [newkey, heq]
        rfl

/-- `lj_tab_newkey` with at least one rehash to spend. -/
theorem nkSpec_newkey (cfg : Cfg S) (fuel : ℕ) : NkSpec cfg False (newkey cfg (fuel + 1)) := by
  intro t k h ha hk hc hne hs _
  rcases newkeyNode_spec h.toHInv ha hc hne hs with ⟨heq, -⟩ | ⟨t', n, heq, hins⟩
  swap
  · refine .inl ⟨t', .node n, ?_, hins.setPost h hk hne, fun hr => hr.elim⟩
    rw [newkey, heq]
    rfl
  -- no free node: rehash, which leaves room for the key
  have hnk := nkSpec_newkey_room cfg fuel
  have hroom := @rehashSizes_room S cfg t k h.asize_le
  have hshrink : (arrKeys t (rehashSizes cfg t k).1 (t.asize - (rehashSizes cfg t k).1)).length ≤
      hashSize (rehashSizes cfg t k).2 := by omega
  rcases resizeWith_spec hnk hnk h _ hshrink (fun _ => hroom) with
    ⟨t₁, heq₁, hinv₁, hset₁, hpair₁, hkept₁⟩ | ⟨heq₁, hlim⟩
  · obtain ⟨hsz₁, hfree₁⟩ := hkept₁ trivial
    have hcases : SetCases cfg t₁ k (newkey cfg fuel) (setWith cfg (newkey cfg fuel) t₁ k) := by
      have hset : SetCases cfg t₁ (canonKey k) (newkey cfg fuel)
          (setWith cfg (newkey cfg fuel) t₁ k) := hinv₁.setWith_cases (validKey_of_canon hc hne)
      rwa [canonKey_of_canon hc] at hset
    have hroom₁ : True → ¬ t₁.InArray k → t₁.keyed < t₁.cap := by
      intro _ hnot
      rw [← toHash_eq_false_iff hinv₁ hc, hsz₁, Bool.not_eq_false] at hnot
      rw [if_pos hnot] at hfree₁
      omega
    rcases hnk.of_cases hinv₁ hc hne (Settled.newkeySafe hinv₁.toHInv hset₁ k) hroom₁ hcases with
      ⟨t', slot, heq', hpost, -⟩ | ⟨hr, -⟩
    · refine .inl ⟨t', slot, ?_, ⟨hpost.inv, fun _ => hpost.settled hset₁, hpost.slot, ?_⟩,
        fun hr => hr.elim⟩
      · rw [newkey, heq]
        simp only [bind, Except.bind, rehashtabWith, heq₁, heq']
      · intro k' v
        rw [hpost.pair_iff, hpair₁]
    · exact absurd trivial hr
  · refine .inr ⟨id, ?_, ?_⟩
    · rw [newkey, heq]
      simp only [bind, Except.bind, rehashtabWith, heq₁]
    · rcases hlim with hlim | hlim | ⟨hr, -⟩
      · exact absurd (rehashSizes_eq k h.asize_le).1 (not_le.2 hlim)
      · by_contra hcount
        exact absurd (rehashSizes_le k h.asize_le (not_le.1 hcount)) (not_le.2 hlim)
      · exact absurd trivial hr

end Newkey

end Tab
