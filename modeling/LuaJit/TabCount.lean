/-
**Sizing a table.**

`rehashtab` counts the keys that could live in the array part, by powers of two, picks the array
size and gives the rest to the hash part.  The counts are compared here with lists of array keys:
the bins are the bin counts of that list, and the chosen size leaves room for everything that does
not go to the array part, the key to be inserted included.

Main definitions:

* `Tab.arrKeys`, `Tab.hashKeys`, `Tab.liveNodes` — the array keys in use in either part, and the
  nodes in use;
* `Tab.binsOf` — bin counts of a list of array keys;
* `Tab.hashSize` — the number of nodes of a hash part;
* `Tab.toHash` — a key that does not fit an array part of the given size.

Main results:

* `Tab.countarray_eq`, `Tab.counthash_eq` — the counting loops count the lists;
* `Tab.bestasize_spec` — the chosen size and the number of keys below it;
* `Tab.rehashSizes_room` — **the new sizes have room for every pair and the new key**;
* `Tab.rehashSizes_le` — they are within the limits while the table has fewer than `2 ^ 26` pairs.
-/

import LuaJit.TabPairs

set_option relaxedAutoImplicit false
set_option autoImplicit false

namespace Tab

open Obj

variable {S : Type}

/-- The array slots in use among `n` slots from `i` on. -/
def arrKeys (t : GCtab S) (i n : ℕ) : List ℕ :=
  (List.range' i n).filter fun j => !(t.array j).isNil

/-- The nodes in use among the first `n`. -/
def liveNodes (t : GCtab S) (n : ℕ) : List ℕ := (List.range n).filter fun i => !(t.val i).isNil

/-- The array keys among the keys in use of the first `n` nodes. -/
def hashKeys (cfg : Cfg S) (t : GCtab S) (n : ℕ) : List ℕ :=
  (liveNodes t n).filterMap fun i => arrayKey cfg (t.key i)

/-- The bin counts of a list of array keys. -/
def binsOf (ks : List ℕ) (b : ℕ) : ℕ := ks.countP fun k => decide (binOf k = b)

/-- The number of nodes of a hash part with `hbits` bits. -/
def hashSize (hbits : ℕ) : ℕ := if hbits = 0 then 0 else 2 ^ hbits

/-- The key does not fit an array part of size `asize`. -/
def toHash (cfg : Cfg S) (asize : ℕ) (k : TValue S) : Bool :=
  match arrayKey cfg k with
  | some j => decide (asize ≤ j)
  | none => true

/-! ### Bins -/

theorem binOf_le_iff {k b : ℕ} : binOf k ≤ b ↔ k ≤ 2 * 2 ^ b := by
  have hpos : 0 < 2 ^ b := by positivity
  rw [binOf]
  split
  · rename_i hk
    rw [fls, ← Nat.lt_succ_iff, Nat.log2_lt (by omega), Nat.pow_succ]
    lia
  · constructor
    · intro _
      omega
    · intro _
      omega

theorem binsOf_append (ks ks' : List ℕ) (b : ℕ) :
    binsOf (ks ++ ks') b = binsOf ks b + binsOf ks' b := List.countP_append

/-- The first array key of bin `b`. -/
def binLo (b : ℕ) : ℕ := if b = 0 then 0 else 2 ^ b + 1

theorem binOf_eq_of_le {k b : ℕ} (hlo : binLo b ≤ k) (hhi : k ≤ 2 * 2 ^ b) : binOf k = b := by
  refine le_antisymm (binOf_le_iff.2 hhi) ?_
  rcases Nat.eq_zero_or_pos b with rfl | hb
  · exact Nat.zero_le _
  · by_contra hlt
    have hle : binOf k ≤ b - 1 := by lia
    rw [binOf_le_iff, ← Nat.pow_succ', Nat.succ_eq_add_one, Nat.sub_add_cancel hb] at hle
    rw [binLo, if_neg (by omega)] at hlo
    omega

theorem binsOf_eq_of_forall {ks : List ℕ} {b : ℕ} (h : ∀ k ∈ ks, binOf k = b) (c : ℕ) :
    binsOf ks c = if c = b then ks.length else 0 := by
  rw [binsOf]
  split
  · rename_i hcb
    subst hcb
    rw [List.countP_eq_length]
    intro k hk
    simpa using h k hk
  · rename_i hcb
    rw [List.countP_eq_zero]
    intro k hk
    have hkb := h k hk
    simp only [decide_eq_true_eq]
    lia

/-- The keys in the bins up to `b`. -/
theorem countP_lt_succ (ks : List ℕ) (b : ℕ) :
    ks.countP (fun k => decide (binOf k < b + 1)) =
      ks.countP (fun k => decide (binOf k < b)) + binsOf ks b := by
  induction ks with
  | nil => rfl
  | cons k ks ih =>
      simp only [List.countP_cons, binsOf] at ih ⊢
      rw [ih]
      rcases Nat.lt_trichotomy (binOf k) b with h | h | h
      · simp [h, Nat.lt_succ_of_lt h, Nat.ne_of_lt h]
        lia
      · simp [h]
        omega
      · have h₁ : ¬ binOf k < b + 1 := by omega
        have h₂ : ¬ binOf k < b := by omega
        simp [h₁, h₂, Nat.ne_of_gt h]

/-! ### The counting loops -/

theorem countSlots_eq (t : GCtab S) (i n : ℕ) : countSlots t i n = (arrKeys t i n).length := by
  induction n generalizing i with
  | zero => rfl
  | succ n ih =>
      rw [countSlots, ih]
      simp only [arrKeys, List.range'_succ, List.filter_cons]
      cases (t.array i).isNil with
      | true => simp
      | false =>
          simp
          omega

theorem arrKeys_append (t : GCtab S) (i m n : ℕ) :
    arrKeys t i (m + n) = arrKeys t i m ++ arrKeys t (i + m) n := by
  simp [arrKeys, ← List.filter_append, List.range'_append_1]

theorem mem_arrKeys {t : GCtab S} {i n j : ℕ} :
    j ∈ arrKeys t i n ↔ i ≤ j ∧ j < i + n ∧ t.array j ≠ .nil := by
  simp [arrKeys, List.mem_range'_1, and_assoc]

/-- The loop of `countarray` from any of its rounds. -/
theorem countarrayLoop_eq {t : GCtab S} (hpos : 0 < t.asize) (rest b i na : ℕ) (bins : ℕ → ℕ)
    (hi : i = binLo b ∨ (t.asize ≤ i ∧ t.asize ≤ 2 * 2 ^ b))
    (hend : t.asize ≤ binLo (b + rest)) :
    countarrayLoop t rest b i na bins =
      (na + (arrKeys t i (t.asize - i)).length,
        fun c => bins c + binsOf (arrKeys t i (t.asize - i)) c) := by
  induction rest generalizing b i na bins with
  | zero =>
      have h0 : t.asize - i = 0 := by
        rcases hi with rfl | ⟨h, -⟩
        · rw [Nat.add_zero] at hend
          lia
        · lia
      rw [countarrayLoop, h0]
      simp [arrKeys, binsOf]
  | succ rest ih =>
      rw [countarrayLoop]
      have hpow : 0 < 2 ^ b := by positivity
      by_cases hlast : t.asize ≤ 2 * 2 ^ b
      · -- the last round, or one too many
        simp only [hlast, if_true, true_and]
        by_cases hdone : t.asize - 1 < i
        · have h0 : t.asize - i = 0 := by lia
          rw [if_pos hdone, h0]
          simp [arrKeys, binsOf]
        · have hlo : i = binLo b := by
            rcases hi with h | ⟨h, -⟩
            · exact h
            · lia
          have hsub : t.asize - 1 + 1 - i = t.asize - i := by lia
          have hmax : max i (t.asize - 1 + 1) = t.asize := by lia
          have hbin : ∀ k ∈ arrKeys t i (t.asize - i), binOf k = b := by
            intro k hk
            rw [mem_arrKeys] at hk
            exact binOf_eq_of_le (by omega) (by lia)
          have hpow' : 2 ^ (b + 1) = 2 * 2 ^ b := Nat.pow_succ'
          rw [if_neg hdone, hsub, hmax, countSlots_eq,
            ih (b + 1) t.asize _ _ (.inr ⟨le_refl _, by lia⟩) (by convert hend using 2; lia)]
          refine Prod.ext ?_ (funext fun c => ?_)
          · simp [arrKeys]
          · simp only [binsOf_eq_of_forall hbin]
            by_cases hcb : c = b
            · subst hcb
              simp [addBin, arrKeys, binsOf]
            · simp [addBin, arrKeys, binsOf, hcb]
      · have hlo : i = binLo b := by
          rcases hi with h | ⟨-, h⟩
          · exact h
          · omega
        have hle : i ≤ 2 * 2 ^ b := by
          rw [hlo, binLo]
          split <;> lia
        have hmax : max i (2 * 2 ^ b + 1) = 2 * 2 ^ b + 1 := by lia
        have hnext : 2 * 2 ^ b + 1 = binLo (b + 1) := by
          rw [binLo, if_neg (by omega), Nat.pow_succ']
        have hbin : ∀ k ∈ arrKeys t i (2 * 2 ^ b + 1 - i), binOf k = b := by
          intro k hk
          rw [mem_arrKeys] at hk
          exact binOf_eq_of_le (by omega) (by lia)
        have hsplit : arrKeys t i (t.asize - i) = arrKeys t i (2 * 2 ^ b + 1 - i) ++
            arrKeys t (2 * 2 ^ b + 1) (t.asize - (2 * 2 ^ b + 1)) := by
          have h₁ : t.asize - i = (2 * 2 ^ b + 1 - i) + (t.asize - (2 * 2 ^ b + 1)) := by lia
          have h₂ : i + (2 * 2 ^ b + 1 - i) = 2 * 2 ^ b + 1 := by lia
          rw [h₁, arrKeys_append, h₂]
        simp only [hlast, if_false, false_and]
        rw [hmax, countSlots_eq, hsplit,
          ih (b + 1) _ _ _ (.inl hnext) (by convert hend using 2; lia)]
        refine Prod.ext ?_ (funext fun c => ?_)
        · simp only [List.length_append]
          lia
        · simp only [binsOf_append, binsOf_eq_of_forall hbin]
          by_cases hcb : c = b
          · subst hcb
            simp [addBin]
            lia
          · simp [addBin, hcb]

theorem countarray_eq {t : GCtab S} (hle : t.asize ≤ maxAsize) (bins : ℕ → ℕ) :
    countarray t bins =
      ((arrKeys t 0 t.asize).length, fun c => bins c + binsOf (arrKeys t 0 t.asize) c) := by
  rw [countarray]
  split
  · rename_i h0
    simp [h0, arrKeys, binsOf]
  · rename_i h0
    have hend : t.asize ≤ binLo (0 + maxAbits) := by
      refine le_trans hle ?_
      decide
    have hloop := countarrayLoop_eq (by omega) maxAbits 0 0 0 bins (.inl rfl) hend
    simpa using hloop

theorem liveNodes_succ (t : GCtab S) (n : ℕ) :
    liveNodes t (n + 1) = liveNodes t n ++ if (t.val n).isNil then [] else [n] := by
  simp only [liveNodes, List.range_succ, List.filter_append]
  cases hv : (t.val n).isNil with
  | true => simp [hv]
  | false => simp [hv]

theorem countint_eq (cfg : Cfg S) (key : TValue S) (bins : ℕ → ℕ) :
    countint cfg key bins = ((arrayKey cfg key).toList.length,
      fun c => bins c + binsOf (arrayKey cfg key).toList c) := by
  rw [countint]
  cases arrayKey cfg key with
  | none => simp [binsOf]
  | some k =>
      refine Prod.ext rfl (funext fun c => ?_)
      by_cases hc : c = binOf k
      · subst hc
        simp [addBin, binsOf]
      · simp [addBin, binsOf, Function.update_of_ne hc, Ne.symm hc]

theorem counthashLoop_eq (cfg : Cfg S) (t : GCtab S) (n : ℕ) (bins : ℕ → ℕ) :
    counthashLoop cfg t n (0, 0, bins) = ((liveNodes t n).length, (hashKeys cfg t n).length,
      fun c => bins c + binsOf (hashKeys cfg t n) c) := by
  induction n with
  | zero => simp [counthashLoop, liveNodes, hashKeys, binsOf]
  | succ n ih =>
      rw [counthashLoop, ih]
      simp only [hashKeys, liveNodes_succ]
      cases hv : (t.val n).isNil with
      | true => simp
      | false =>
          simp only [countint_eq, List.filterMap_append, Bool.false_eq_true, if_false]
          have hone : ([n].filterMap fun i => arrayKey cfg (t.key i)) =
              (arrayKey cfg (t.key n)).toList := by
            cases hk : arrayKey cfg (t.key n) with
            | none => simp [hk]
            | some k => simp [hk]
          simp only [hone, List.length_append, List.length_singleton, binsOf_append]
          simp [Nat.add_assoc]

theorem counthash_eq (cfg : Cfg S) (t : GCtab S) (bins : ℕ → ℕ) :
    counthash cfg t bins = ((liveNodes t (t.hmask + 1)).length,
      (hashKeys cfg t (t.hmask + 1)).length,
      fun c => bins c + binsOf (hashKeys cfg t (t.hmask + 1)) c) :=
  counthashLoop_eq cfg t _ bins

/-! ### The chosen size -/

theorem bestasizeLoop_spec {ks : List ℕ} (hks : ∀ k ∈ ks, k < maxAsize) (nn rest b na sz : ℕ)
    (hna : na = ks.countP fun k => decide (k < sz)) (hsz : sz ≤ maxAsize) :
    ∃ na' sz', bestasizeLoop (binsOf ks) nn rest b
        (ks.countP fun k => decide (binOf k < b)) na sz = (na', sz') ∧
      na' = (ks.countP fun k => decide (k < sz')) ∧ sz' ≤ maxAsize := by
  induction rest generalizing b na sz with
  | zero => exact ⟨na, sz, rfl, hna, hsz⟩
  | succ rest ih =>
      rw [bestasizeLoop]
      split
      · simp only [← countP_lt_succ]
        split
        · rename_i hbin
          refine ih (b + 1) _ _ ?_ ?_
          · refine List.countP_congr ?_
            intro k _
            simp only [decide_eq_true_eq, Nat.lt_succ_iff]
            exact binOf_le_iff
          · -- some key is in the bin, so the bin is one of the array keys
            obtain ⟨k, hk, hkb⟩ := List.countP_pos_iff.1 hbin.1
            have hkb' : binOf k = b := by simpa using hkb
            have hklt := hks k hk
            by_contra hgt
            have hb : 27 ≤ b := by
              by_contra hb
              have : 2 ^ b ≤ 2 ^ 26 := Nat.pow_le_pow_right (by omega) (by lia)
              simp only [maxAsize, maxAbits] at hgt
              omega
            have hle : binOf k ≤ 26 := by
              rw [binOf_le_iff]
              simp only [maxAsize, maxAbits] at hklt
              omega
            omega
        · exact ih (b + 1) na sz hna hsz
      · exact ⟨na, sz, rfl, hna, hsz⟩

/-- The size that `bestasize` chooses, and the number of keys below it. -/
theorem bestasize_spec {ks : List ℕ} (hks : ∀ k ∈ ks, k < maxAsize) (nn : ℕ) :
    (bestasize (binsOf ks) nn).1 = (ks.countP fun k => decide (k < (bestasize (binsOf ks) nn).2)) ∧
      (bestasize (binsOf ks) nn).2 ≤ maxAsize := by
  have h0 : ks.countP (fun k => decide (binOf k < 0)) = 0 := by simp
  obtain ⟨na, sz, heq, hna, hsz⟩ := bestasizeLoop_spec hks nn maxAbits 0 0 0 (by simp) (by simp)
  rw [h0] at heq
  rw [bestasize, heq]
  exact ⟨hna, hsz⟩

theorem le_hashSize_hsize2hbits (n : ℕ) : n ≤ hashSize (hsize2hbits n) := by
  rcases Nat.lt_trichotomy n 1 with h | h | h
  · omega
  · subst h
    decide
  · have hlt : n - 1 < 2 ^ ((n - 1).log2 + 1) := Nat.lt_log2_self
    have hbits : hsize2hbits n = (n - 1).log2 + 1 := by
      rw [hsize2hbits, if_neg (by omega), if_neg (by omega), fls, Nat.add_comm]
    rw [hbits, hashSize, if_neg (Nat.succ_ne_zero _)]
    exact Nat.le_of_pred_lt hlt

theorem hsize2hbits_le {n : ℕ} (h : n ≤ 2 ^ maxHbits) : hsize2hbits n ≤ maxHbits := by
  rw [hsize2hbits]
  split
  · omega
  · split
    · decide
    · rename_i h0 h1
      have hlog : (n - 1).log2 < maxHbits := (Nat.log2_lt (by lia)).2 (by lia)
      rw [fls]
      omega

/-! ### The sizes of a rehash -/

variable (cfg : Cfg S) (t : GCtab S) (ek : TValue S)

/-- The array keys that `rehashtab` counts. -/
def countedKeys : List ℕ :=
  arrKeys t 0 t.asize ++ hashKeys cfg t (t.hmask + 1) ++ (arrayKey cfg ek).toList

theorem arrayKey_lt {k : TValue S} {j : ℕ} (h : arrayKey cfg k = some j) : j < maxAsize := by
  cases k with
  | num x =>
      simp only [arrayKey] at h
      split at h
      · split at h
        · rename_i hlt
          simp only [Option.some.injEq] at h
          omega
        · exact absurd h (by simp)
      · exact absurd h (by simp)
  | _ => simp [arrayKey] at h

variable {cfg t}

theorem countedKeys_lt (hle : t.asize ≤ maxAsize) : ∀ k ∈ countedKeys cfg t ek, k < maxAsize := by
  intro k hk
  simp only [countedKeys, List.mem_append, Option.mem_toList] at hk
  rcases hk with (hk | hk) | hk
  · rw [mem_arrKeys] at hk
    omega
  · simp only [hashKeys, List.mem_filterMap] at hk
    obtain ⟨i, -, hi⟩ := hk
    exact arrayKey_lt cfg hi
  · exact arrayKey_lt cfg hk

/-- The number of pairs in use, as `rehashtab` counts them. -/
def usedCount (t : GCtab S) : ℕ :=
  (arrKeys t 0 t.asize).length + (liveNodes t (t.hmask + 1)).length

/-- The sizes of a rehash, from the list of array keys. -/
theorem rehashSizes_eq (hle : t.asize ≤ maxAsize) :
    (rehashSizes cfg t ek).1 ≤ maxAsize ∧
      (rehashSizes cfg t ek).2 = hsize2hbits (1 + usedCount t -
        (countedKeys cfg t ek).countP fun k => decide (k < (rehashSizes cfg t ek).1)) := by
  have hbins : (fun c => (fun c => 0 + binsOf (arrKeys t 0 t.asize) c) c +
      binsOf (hashKeys cfg t (t.hmask + 1)) c + binsOf (arrayKey cfg ek).toList c) =
      binsOf (countedKeys cfg t ek) := by
    funext c
    simp only [countedKeys, binsOf_append]
    lia
  obtain ⟨hna, hsz⟩ := bestasize_spec (countedKeys_lt ek hle) ((arrKeys t 0 t.asize).length +
    (hashKeys cfg t (t.hmask + 1)).length + (arrayKey cfg ek).toList.length)
  simp only [rehashSizes, countarray_eq hle, counthash_eq, countint_eq, hbins, usedCount]
  refine ⟨hsz, ?_⟩
  rw [hna]
  congr 2
  lia

theorem countP_arrKeys_lt (asize : ℕ) :
    (arrKeys t 0 t.asize).countP (fun k => decide (k < asize)) +
      (arrKeys t asize (t.asize - asize)).length = (arrKeys t 0 t.asize).length := by
  rcases Nat.lt_or_ge asize t.asize with h | h
  · have hsplit : arrKeys t 0 t.asize =
        arrKeys t 0 asize ++ arrKeys t asize (t.asize - asize) := by
      have h₁ : t.asize = asize + (t.asize - asize) := by lia
      conv_lhs => rw [h₁, arrKeys_append, Nat.zero_add]
    have hlo : (arrKeys t 0 asize).countP (fun k => decide (k < asize)) =
        (arrKeys t 0 asize).length := by
      rw [List.countP_eq_length]
      intro k hk
      rw [mem_arrKeys] at hk
      simp only [decide_eq_true_eq]
      omega
    have hhi : (arrKeys t asize (t.asize - asize)).countP (fun k => decide (k < asize)) = 0 := by
      rw [List.countP_eq_zero]
      intro k hk
      rw [mem_arrKeys] at hk
      simp only [decide_eq_true_eq]
      omega
    rw [hsplit, List.countP_append, hlo, hhi, List.length_append]
    lia
  · have h0 : t.asize - asize = 0 := by lia
    have hall : (arrKeys t 0 t.asize).countP (fun k => decide (k < asize)) =
        (arrKeys t 0 t.asize).length := by
      rw [List.countP_eq_length]
      intro k hk
      rw [mem_arrKeys] at hk
      simp only [decide_eq_true_eq]
      omega
    rw [h0, hall]
    simp [arrKeys]

theorem countP_arrayKeys_lt (cfg : Cfg S) (asize : ℕ) (ns : List ℕ) (key : ℕ → TValue S) :
    (ns.filterMap fun i => arrayKey cfg (key i)).countP (fun k => decide (k < asize)) +
      ns.countP (fun i => toHash cfg asize (key i)) = ns.length := by
  induction ns with
  | nil => rfl
  | cons i ns ih =>
      rw [List.filterMap_cons, List.countP_cons, List.length_cons]
      cases hk : arrayKey cfg (key i) with
      | none =>
          have hto : toHash cfg asize (key i) = true := by simp [toHash, hk]
          simp only [hto, if_true]
          lia
      | some j =>
          have hto : toHash cfg asize (key i) = decide (asize ≤ j) := by simp [toHash, hk]
          simp only [hto, List.countP_cons, decide_eq_true_eq]
          split <;> split <;> lia

/-- The new sizes have room for everything that does not go to the array part. -/
theorem rehashSizes_room (hle : t.asize ≤ maxAsize) :
    (arrKeys t (rehashSizes cfg t ek).1 (t.asize - (rehashSizes cfg t ek).1)).length +
      (liveNodes t (t.hmask + 1)).countP (fun i => toHash cfg (rehashSizes cfg t ek).1 (t.key i)) +
      (if toHash cfg (rehashSizes cfg t ek).1 ek then 1 else 0) ≤
      hashSize (rehashSizes cfg t ek).2 := by
  obtain ⟨-, hbits⟩ := rehashSizes_eq ek hle
  set asize := (rehashSizes cfg t ek).1
  rw [hbits]
  refine le_trans ?_ (le_hashSize_hsize2hbits _)
  have harr := countP_arrKeys_lt (t := t) asize
  have hhash := countP_arrayKeys_lt cfg asize (liveNodes t (t.hmask + 1)) t.key
  have hek := countP_arrayKeys_lt cfg asize [0] (fun _ => ek)
  have hek' : ([0].filterMap fun _ => arrayKey cfg ek) = (arrayKey cfg ek).toList := by
    cases arrayKey cfg ek <;> rfl
  rw [hek'] at hek
  simp only [List.countP_cons, List.countP_nil, List.length_cons, List.length_nil] at hek
  simp only [countedKeys, List.countP_append, usedCount, hashKeys]
  lia

/-- The hash part stays within its limit while the table has fewer than `2 ^ 26` pairs. -/
theorem rehashSizes_le (hle : t.asize ≤ maxAsize) (hc : usedCount t < 2 ^ maxHbits) :
    (rehashSizes cfg t ek).2 ≤ maxHbits := by
  rw [(rehashSizes_eq ek hle).2]
  exact hsize2hbits_le (by lia)

end Tab
