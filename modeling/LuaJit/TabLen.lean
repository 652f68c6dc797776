/-
**The length of a table.**

`lj_tab_len` looks for a border: an index with a value, or zero, before an index without one.  The values
may have holes, so both binary searches keep one index of either kind and say nothing about the others.
Indexes are `uint32_t`, and the doubling search stops before they wrap around.

Main definitions:

* `Tab.bisect`, `Tab.doubling`, `Tab.linear` — the searches;
* `Tab.unboundSearch`, `Tab.len` — `unbound_search` and `lj_tab_len`;
* `Tab.Searchable` — what a table must satisfy for its lookups to end;
* `Tab.Border` — a border.

Main results:

* `Tab.bisect_spec`, `Tab.linear_spec`, `Tab.doubling_spec` — each search finds a border;
* `Tab.len_border` — **the length is a border**.
-/

import LuaJit.TabPairs

set_option relaxedAutoImplicit false
set_option autoImplicit false

namespace Tab

open Obj

variable {S : Type}

/-! ### The code -/

/-- A binary search between an index that passes the test and one that does not, with the number of
rounds that are left. -/
def bisect (test : BitVec 32 → Except TabErr Bool) : ℕ → BitVec 32 → BitVec 32 → Except TabErr (BitVec 32)
  | 0, _, _ => .error .loop
  | fuel + 1, i, j =>
    if 1 < j - i then do
      let m := (i + j) / 2
      if ← test m then bisect test fuel m j else bisect test fuel i m
    else pure i

/-- `tv && !tvisnil(tv)`. -/
def live (tv : Option (TValue S)) : Bool := tv.any fun v => !v.isNil

section Code

variable (cfg : Cfg S) (t : GCtab S)

/-- The test of `unbound_search`: there is a value at the index. -/
def present (i : BitVec 32) : Except TabErr Bool := do return live (← getint cfg t i)

/-- The linear search of `unbound_search`. -/
def linear : ℕ → BitVec 32 → Except TabErr (BitVec 32)
  | 0, _ => .error .loop
  | fuel + 1, i => do
    if ← present cfg t i then linear fuel (i + 1) else pure (i - 1)

/-- The doubling search of `unbound_search`, and the searches that follow it. -/
def doubling : ℕ → BitVec 32 → BitVec 32 → Except TabErr (BitVec 32)
  | 0, _, _ => .error .loop
  | fuel + 1, i, j => do
    if ← present cfg t j then
      let i := j
      let j := j * 2
      if 0x7fffffff - 2 < j then linear cfg t (2 ^ 31) 1 else doubling fuel i j
    else bisect (present cfg t) 33 i j

/-- `unbound_search`. -/
def unboundSearch (j : BitVec 32) : Except TabErr (BitVec 32) := doubling cfg t 32 j (j + 1)

/-- The test of the search in the array part; it has its indexes one higher. -/
def arrayTest (m : BitVec 32) : Except TabErr Bool := pure !(t.array (m - 1).toNat).isNil

/-- `lj_tab_len`. -/
def len : Except TabErr (BitVec 32) :=
  let j := BitVec.ofNat 32 t.asize
  if 1 < j ∧ (t.array (j - 1).toNat).isNil then do
    let i ← bisect (arrayTest t) 33 1 j
    pure (i - 1)
  else
    let j := if j ≠ 0 then j - 1 else j
    if t.hmask ≤ 0 then pure j else unboundSearch cfg t j

end Code

/-! ### Lookups end -/

/-- Chains end in the node vector, both parts are within their limits, and the nil node has no key. -/
structure Searchable (t : GCtab S) : Prop where
  linear : Chain.Linear t.next
  closed : Chain.Closed t.next (Finset.range (t.hmask + 1))
  asize_le : t.asize ≤ maxAsize
  hmask_lt : t.hmask < 2 ^ maxHbits
  nilnode : t.hmask = 0 → ∀ i, t.key i = .nil

variable {cfg : Cfg S} {t : GCtab S}

/-- A lookup of an integer ends at a node with that key. -/
theorem Searchable.getinth_ok (h : Searchable t) (k : BitVec 32) :
    ∃ n : Option ℕ, getinth cfg t k = .ok (n.map t.val) ∧ ∀ i ∈ n, i ≤ t.hmask ∧ isNumKey (int2num k) (t.key i) = true := by
  have hmem : t.main cfg (.num (int2num k)) ∈ Finset.range (t.hmask + 1) :=
    Finset.mem_range.2 (Nat.lt_succ_of_le (t.main_le cfg _))
  obtain ⟨n, hn, hhit⟩ := @Chain.walk_spec _ _ _ _ h.linear h.closed (fun i => isNumKey (int2num k) (t.key i))
    (t.hmask + 1) hmem ((Chain.card_reachSet_le _ _ _).trans (by simp))
  refine ⟨n, by rw [getinth, lookup, hn]; rfl, ?_⟩
  intro i hi
  obtain rfl : n = some i := hi
  refine ⟨?_, hhit.2.1⟩
  rcases hhit.1.cases_tail with heq | ⟨j, -, hj⟩
  · rw [← heq]
    exact t.main_le cfg _
  · exact Nat.le_of_lt_succ (Finset.mem_range.1 (h.closed j i hj))

theorem Searchable.getint_ok (h : Searchable t) (k : BitVec 32) : ∃ tv, getint cfg t k = .ok tv := by
  rw [getint]
  split
  · exact ⟨_, rfl⟩
  · obtain ⟨n, hn, -⟩ := @Searchable.getinth_ok _ cfg _ h k
    exact ⟨_, hn⟩

theorem Searchable.present_ok (h : Searchable t) (k : BitVec 32) : ∃ b, present cfg t k = .ok b := by
  obtain ⟨tv, htv⟩ := @Searchable.getint_ok _ cfg _ h k
  exact ⟨live tv, by rw [present, htv]; rfl⟩

/-- A number is equal to one integer at most. -/
theorem isNumKey_inj {k : TValue S} {i j : BitVec 32} (hi : isNumKey (int2num i) k = true)
    (hj : isNumKey (int2num j) k = true) : i = j := by
  cases k with
  | num x =>
      rcases numEq_int2num_iff.1 hi with rfl | ⟨rfl, rfl⟩
      · rcases numEq_int2num_iff.1 hj with heq | ⟨heq, -⟩
        · exact int2num_injective heq
        · exact absurd heq (int2num_ne_mzero i)
      · rcases numEq_int2num_iff.1 hj with heq | ⟨-, rfl⟩
        · exact absurd heq.symm (int2num_ne_mzero j)
        · rfl
  | _ => exact absurd hi (by simp [isNumKey])

/-- Not all indexes have values: behind the array part there are more indexes than nodes. -/
theorem Searchable.exists_absent (h : Searchable t) :
    ∃ i, 1 ≤ i ∧ i ≤ t.asize + t.hmask + 2 ∧ present cfg t (BitVec.ofNat 32 i) = .ok false := by
  by_contra hall
  have hall' : ∀ i, 1 ≤ i → i ≤ t.asize + t.hmask + 2 → present cfg t (BitVec.ofNat 32 i) = .ok true := by
    intro i h₁ h₂
    obtain ⟨b, hb⟩ := @Searchable.present_ok _ cfg _ h (BitVec.ofNat 32 i)
    cases b with
    | true => exact hb
    | false => exact absurd ⟨i, h₁, h₂, hb⟩ hall
  have hsize : t.asize + t.hmask + 2 < 2 ^ 32 := by
    have h₁ := h.asize_le
    have h₂ := h.hmask_lt
    simp only [maxAsize, maxAbits, maxHbits] at h₁ h₂
    omega
  -- the node of each index
  have hnode : ∀ d < t.hmask + 2, ∃ n ≤ t.hmask,
      isNumKey (int2num (BitVec.ofNat 32 (t.asize + 1 + d))) (t.key n) = true := by
    intro d hd
    have hp := hall' (t.asize + 1 + d) (by omega) (by omega)
    have hge : ¬ (BitVec.ofNat 32 (t.asize + 1 + d)).toNat < t.asize := by
      rw [BitVec.toNat_ofNat, Nat.mod_eq_of_lt (by omega)]
      omega
    obtain ⟨n, hn, hkey⟩ := @Searchable.getinth_ok _ cfg _ h (BitVec.ofNat 32 (t.asize + 1 + d))
    rw [present, getint, if_neg hge, hn] at hp
    cases n with
    | none => cases hp
    | some n => exact ⟨n, hkey n rfl⟩
  choose! f hf hkey using hnode
  obtain ⟨a, ha, b, hb, hab, heq⟩ := Finset.exists_ne_map_eq_of_card_lt_of_maps_to (f := f)
    (s := Finset.range (t.hmask + 2)) (t := Finset.range (t.hmask + 1)) (by simp)
    (fun d hd => by simpa [Nat.lt_succ_iff] using hf d (Finset.mem_range.1 hd))
  have ha' := hkey a (Finset.mem_range.1 ha)
  have hb' := hkey b (Finset.mem_range.1 hb)
  rw [heq] at ha'
  have hofNat := congrArg BitVec.toNat (isNumKey_inj ha' hb')
  rw [Finset.mem_range] at ha hb
  rw [BitVec.toNat_ofNat, BitVec.toNat_ofNat, Nat.mod_eq_of_lt (by lia), Nat.mod_eq_of_lt (by lia)] at hofNat
  exact hab (by lia)

/-! ### The searches -/

/-- **The binary search** keeps an index that passes the test, or the first one, before one that does not. -/
theorem bisect_spec {test : BitVec 32 → Except TabErr Bool} (htest : ∀ m, ∃ b, test m = .ok b) {k : ℕ}
    {i j : BitVec 32} (hij : i.toNat < j.toNat) (hj31 : j.toNat ≤ 2 ^ 31)
    (hk : j.toNat - i.toNat ≤ 2 ^ k) (hj : test j = .ok false) :
    ∃ r, bisect test (k + 1) i j = .ok r ∧ i.toNat ≤ r.toNat ∧ r.toNat < j.toNat ∧ test (r + 1) = .ok false ∧
      (r = i ∨ test r = .ok true) := by
  induction k generalizing i j with
  | zero =>
    have hone : j.toNat = i.toNat + 1 := by lia
    have hnext : i + 1 = j := BitVec.eq_of_toNat_eq (by rw [BitVec.toNat_add, hone]; simp; lia)
    refine ⟨i, ?_, le_rfl, hij, by rw [hnext, hj], .inl rfl⟩
    rw [bisect, if_neg (by rw [← hnext]; bv_omega)]
    rfl
  | succ k ih =>
    rw [bisect]
    by_cases hgap : 1 < j - i
    swap
    · have hnext : i + 1 = j := by bv_omega
      rw [if_neg hgap]
      exact ⟨i, rfl, le_rfl, hij, by rw [hnext, hj], .inl rfl⟩
    rw [if_pos hgap]
    have hgap' : 1 < j.toNat - i.toNat := by bv_omega
    have hm : ((i + j) / 2).toNat = (i.toNat + j.toNat) / 2 := by
      rw [BitVec.toNat_udiv, BitVec.toNat_add, Nat.mod_eq_of_lt (by lia)]
      rfl
    rw [pow_succ] at hk
    obtain ⟨b, hb⟩ := htest ((i + j) / 2)
    dsimp only
    rw [hb]
    cases b with
    | true =>
      obtain ⟨r, hr, hle, hlt, hnext, hself⟩ := ih (i := (i + j) / 2) (j := j) (by lia) (by omega) (by lia) hj
      refine ⟨r, hr, by lia, hlt, hnext, .inr ?_⟩
      rcases hself with rfl | hself
      · exact hb
      · exact hself
    | false =>
      obtain ⟨r, hr, hle, hlt, hnext, hself⟩ := ih (i := i) (j := (i + j) / 2) (by lia) (by lia) (by lia) hb
      exact ⟨r, hr, hle, by lia, hnext, hself⟩

/-- A border, as an index that can be continued. -/
structure Border (cfg : Cfg S) (t : GCtab S) (n : BitVec 32) : Prop where
  lt : n.toNat + 1 < 2 ^ 31
  next : present cfg t (n + 1) = .ok false
  self : n = 0 ∨ present cfg t n = .ok true

/-- **The linear search** ends before an index without value. -/
theorem linear_spec (h : Searchable t) {fuel d : ℕ} {i : BitVec 32} (hi : 1 ≤ i.toNat) (hd : d < fuel)
    (hlt : i.toNat + d < 2 ^ 31) (hprev : i - 1 = 0 ∨ present cfg t (i - 1) = .ok true)
    (habs : present cfg t (BitVec.ofNat 32 (i.toNat + d)) = .ok false) :
    ∃ r, linear cfg t fuel i = .ok r ∧ Border cfg t r := by
  induction fuel generalizing d i with
  | zero => omega
  | succ fuel ih =>
    rw [linear]
    obtain ⟨b, hb⟩ := @Searchable.present_ok _ cfg _ h i
    rw [hb]
    cases b with
    | false =>
      refine ⟨i - 1, rfl, by bv_omega, ?_, hprev⟩
      rw [BitVec.sub_add_cancel]
      exact hb
    | true =>
      have hdpos : d ≠ 0 := by
        rintro rfl
        rw [Nat.add_zero, BitVec.ofNat_toNat, BitVec.setWidth_eq, hb] at habs
        cases habs
      have hsucc : (i + 1).toNat = i.toNat + 1 := by bv_omega
      have hsub : i + 1 - 1 = i := by bv_omega
      refine ih (d := d - 1) (i := i + 1) (by omega) (by lia) (by lia) (by rw [hsub]; exact .inr hb) ?_
      have heq : (i + 1).toNat + (d - 1) = i.toNat + d := by lia
      rw [heq]
      exact habs

theorem linear_border (h : Searchable t) : ∃ r, linear cfg t (2 ^ 31) 1 = .ok r ∧ Border cfg t r := by
  obtain ⟨i, hi, hile, habs⟩ := @Searchable.exists_absent _ cfg _ h
  have h₁ := h.asize_le
  have h₂ := h.hmask_lt
  simp only [maxAsize, maxAbits, maxHbits] at h₁ h₂
  refine linear_spec h (d := i - 1) (by decide) (by lia) ?_ (.inl (by decide)) ?_
  · simp
    lia
  · have heq : (1 : BitVec 32).toNat + (i - 1) = i := by simp; lia
    rw [heq]
    exact habs

/-- **The doubling search.** -/
theorem doubling_spec (h : Searchable t) {k : ℕ} {i j : BitVec 32} (hij : i.toNat < j.toNat)
    (hj : j.toNat ≤ 2 ^ 31 - 3) (hk : 2 ^ 31 ≤ j.toNat * 2 ^ k) (hi : i = 0 ∨ present cfg t i = .ok true) :
    ∃ r, doubling cfg t k i j = .ok r ∧ Border cfg t r := by
  induction k generalizing i j with
  | zero => omega
  | succ k ih =>
    rw [doubling]
    obtain ⟨b, hb⟩ := @Searchable.present_ok _ cfg _ h j
    rw [hb]
    cases b with
    | false =>
      obtain ⟨r, hr, hle, hlt, hnext, hself⟩ :=
        bisect_spec (fun m => @Searchable.present_ok _ cfg _ h m) (k := 32) hij (by omega) (by lia) hb
      refine ⟨r, hr, by lia, hnext, ?_⟩
      rcases hself with rfl | hself
      · exact hi
      · exact .inr hself
    | true =>
      have hdouble : (j * 2).toNat = j.toNat * 2 := by bv_omega
      by_cases hover : 0x7fffffff - 2 < j * 2
      · obtain ⟨r, hr, hborder⟩ := @linear_border _ cfg _ h
        refine ⟨r, ?_, hborder⟩
        rw [← hr]
        exact if_pos hover
      · have hk' : 2 ^ 31 ≤ (j * 2).toNat * 2 ^ k :=
          calc 2 ^ 31 ≤ j.toNat * 2 ^ (k + 1) := hk
            _ = (j * 2).toNat * 2 ^ k := by rw [hdouble, pow_succ', Nat.mul_assoc]
        obtain ⟨r, hr, hborder⟩ := ih (i := j) (j := j * 2) (by lia) (by bv_omega) hk' (.inr hb)
        refine ⟨r, ?_, hborder⟩
        rw [← hr]
        exact if_neg hover

/-! ### The length -/

theorem present_array {i : BitVec 32} (hi : i.toNat < t.asize) :
    present cfg t i = .ok !(t.array i.toNat).isNil := by
  rw [present, getint, if_pos hi]
  rfl

theorem arrayTest_eq {i : BitVec 32} (hi : (i - 1).toNat < t.asize) :
    arrayTest t i = present cfg t (i - 1) := by
  rw [present_array hi]
  rfl

/-- Without a hash part there is no value behind the array part. -/
theorem Searchable.present_beyond (h : Searchable t) (hm : t.hmask ≤ 0) {i : BitVec 32} (hi : t.asize ≤ i.toNat) : present cfg t i = .ok false := by
  obtain ⟨n, hn, hnode⟩ := @Searchable.getinth_ok _ cfg _ h i
  rw [present, getint, if_neg (by omega), hn]
  cases n with
  | none => rfl
  | some n =>
    have hk := (hnode n rfl).2
    rw [h.nilnode (Nat.le_zero.1 hm) n] at hk
    exact absurd hk (by simp [isNumKey])

theorem unboundSearch_spec (h : Searchable t) {j : BitVec 32} (hj : j.toNat < maxAsize)
    (hself : j = 0 ∨ present cfg t j = .ok true) : ∃ r, unboundSearch cfg t j = .ok r ∧ Border cfg t r := by
  simp only [maxAsize, maxAbits] at hj
  have hsucc : (j + 1).toNat = j.toNat + 1 := by bv_omega
  exact doubling_spec h (k := 32) (by omega) (by omega) (by omega) hself

/-- The length is a border, in terms of the test of the searches. -/
theorem len_spec (h : Searchable t) : ∃ n, len cfg t = .ok n ∧ Border cfg t n := by
  have hle := h.asize_le
  simp only [maxAsize, maxAbits] at hle
  have hsize : (BitVec.ofNat 32 t.asize).toNat = t.asize := by
    rw [BitVec.toNat_ofNat, Nat.mod_eq_of_lt (by omega)]
  rw [len]
  by_cases hfree : 1 < BitVec.ofNat 32 t.asize ∧ (t.array (BitVec.ofNat 32 t.asize - 1).toNat).isNil
  · -- the array part has a free slot at its end
    obtain ⟨hone, hnil⟩ := hfree
    rw [if_pos ⟨hone, hnil⟩]
    have hone' : 1 < t.asize := by bv_omega
    have htest : ∀ m, ∃ b, arrayTest t m = .ok b := fun m => ⟨_, rfl⟩
    obtain ⟨r, hr, hle', hlt, hnext, hself⟩ := bisect_spec htest (k := 32) (i := 1) (j := BitVec.ofNat 32 t.asize)
      (by rw [hsize]; exact hone') (by rw [hsize]; omega) (by rw [hsize]; lia) (by rw [arrayTest, hnil]; rfl)
    have hr1 : 1 ≤ r.toNat := hle'
    have hpred : (r - 1).toNat = r.toNat - 1 := by bv_omega
    refine ⟨r - 1, by rw [hr]; rfl, by lia, ?_, ?_⟩
    · have hsub : r + 1 - 1 = r := by bv_omega
      rw [BitVec.sub_add_cancel, ← hnext, @arrayTest_eq _ cfg _ _ (by rw [hsub]; omega), hsub]
    · rcases hself with rfl | hself
      · exact .inl (by decide)
      · rw [@arrayTest_eq _ cfg _ _ (by lia)] at hself
        exact .inr hself
  · -- the last index of the array part, or zero
    rw [if_neg hfree]
    set j : BitVec 32 := if BitVec.ofNat 32 t.asize ≠ 0 then BitVec.ofNat 32 t.asize - 1 else BitVec.ofNat 32 t.asize
      with hj
    have hjsize : j.toNat = t.asize - 1 := by
      rw [hj]
      split <;> bv_omega
    have hself : j = 0 ∨ present cfg t j = .ok true := by
      by_cases hone : t.asize ≤ 1
      · exact .inl (by bv_omega)
      · have hjeq : BitVec.ofNat 32 t.asize - 1 = j := by rw [hj, if_pos (by bv_omega)]
        rw [hjeq, not_and] at hfree
        rw [present_array (by lia), Bool.eq_false_of_not_eq_true (hfree (by bv_omega))]
        exact .inr rfl
    by_cases hm : t.hmask ≤ 0
    · refine ⟨j, if_pos hm, by lia, ?_, hself⟩
      exact h.present_beyond hm (by bv_omega)
    · dsimp only
      rw [if_neg hm]
      exact unboundSearch_spec h (by simp only [maxAsize, maxAbits]; lia) hself

/-- **The length is a border.**  For every table whose lookups end, `lj_tab_len` ends; there is no value
behind the index it returns, and one at the index, unless it is zero. -/
theorem len_border [DecidableEq S] (cfg : Cfg S) (t : GCtab S) (h : Searchable t) :
    ∃ n, len cfg t = .ok n ∧ n.toNat + 1 < 2 ^ 31 ∧ get cfg t (.int (n + 1)) = .ok .nil ∧
      (n = 0 ∨ ∃ v, v ≠ .nil ∧ get cfg t (.int n) = .ok v) := by
  obtain ⟨n, hn, hlt, hnext, hself⟩ := @len_spec _ cfg _ h
  refine ⟨n, hn, hlt, ?_, ?_⟩
  · obtain ⟨tv, htv⟩ := @Searchable.getint_ok _ cfg _ h (n + 1)
    rw [present, htv] at hnext
    have hlive : live tv = false := Except.ok.inj hnext
    rw [get]
    dsimp only
    rw [htv]
    cases tv with
    | none => rfl
    | some v =>
      have hv : v = .nil := by simpa [live] using hlive
      rw [hv]
      rfl
  · refine hself.imp_right fun hpres => ?_
    obtain ⟨tv, htv⟩ := @Searchable.getint_ok _ cfg _ h n
    rw [present, htv] at hpres
    have hlive : live tv = true := Except.ok.inj hpres
    cases tv with
    | none => cases hlive
    | some v =>
      refine ⟨v, by simpa [live] using hlive, ?_⟩
      rw [get]
      dsimp only
      rw [htv]
      rfl

/-- A table with the indexes 1 and 2 in the array part and 3 in the hash part. -/
def threeIndexes : GCtab ℕ where
  asize := 3
  array i := if i = 0 then .nil else .bool true
  arrayId := 0
  colo := 3
  hmask := 1
  freetop := 0
  key i := if i = 1 then .num (int2num 3) else .num (int2num 5)
  val i := if i = 1 then .bool true else .nil
  next _ := none

theorem searchable_threeIndexes : Searchable threeIndexes where
  linear := ⟨nofun, nofun⟩
  closed := nofun
  asize_le := by decide
  hmask_lt := by decide
  nilnode h := absurd h (by decide)

/-- The length is 3: the array part is full and the search goes on in the hash part. -/
theorem len_border_three : ∃ n : BitVec 32, len ⟨fun _ => 0, false, Num2Int.trunc⟩ threeIndexes = .ok n ∧ n = 3 ∧
    get ⟨fun _ => 0, false, Num2Int.trunc⟩ threeIndexes (.int (n + 1)) = .ok .nil := by
  obtain ⟨n, hn, -, hnext, -⟩ := len_border ⟨fun _ => 0, false, Num2Int.trunc⟩ threeIndexes searchable_threeIndexes
  refine ⟨n, hn, ?_, hnext⟩
  have heq : len ⟨fun _ => 0, false, Num2Int.trunc⟩ threeIndexes = .ok 3 := by decide
  exact (Except.ok.inj (heq.symm.trans hn)).symm

end Tab
