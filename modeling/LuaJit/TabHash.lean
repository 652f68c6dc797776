/-
**The hash part of a table.**

The invariant of the collision chains and what an insertion without rehash does to it.

A chain is not the list of keys of one main position: a node whose value became nil is reused in
place for a new key while it still sits in the middle of the chain of another main position, so
chains of several main positions share suffixes.  What stays true is that every live key can be
reached from its own main position, and that the first node with that key on the way is the live
one.

Main definitions:

* `Tab.HInv` — the invariant of the hash part;
* `Tab.Located` — a node is the one a lookup of the key returns;
* `Tab.GCtab.Has` — the pairs in the hash part;
* `Tab.RelocSafe` — relocating the node at a main position strands no key;
* `Tab.Settled` — every key has a key of its own main position there; it makes relocation safe.

Main results:

* `Tab.HInv.lookup_cases` — a lookup finds the first node with the key or there is none;
* `Tab.HInv.store` — storing at a located node updates the pairs;
* `Tab.newkeyNode_spec` — **insertion keeps the invariant and the pairs** if relocation is safe;
* `Tab.Settled.newkeyNode` — hashes that do not change keep relocation safe.
-/

import LuaJit.Tab

set_option relaxedAutoImplicit false
set_option autoImplicit false

namespace Tab

open Obj
open Chain (Reach Linear Isolated)

variable {S : Type}

/-! ### The invariant -/

/-- The number of nodes that may hold a key. -/
def GCtab.cap (t : GCtab S) : ℕ := if t.hmask = 0 then 0 else t.hmask + 1

/-- The keys that occur in nodes: numbers are neither NaN nor `-0`, integers are numbers. -/
def Canon : TValue S → Prop
  | .num x => isNaN x = false ∧ x ≠ mzero
  | .int _ => False
  | _ => True

/-- The invariant of the hash part. -/
structure HInv (cfg : Cfg S) (t : GCtab S) : Prop where
  linear : Linear t.next
  free : ∀ i, t.key i = .nil → t.val i = .nil ∧ Isolated t.next i
  outside : ∀ i, t.cap ≤ i → t.key i = .nil
  top_le : t.freetop ≤ t.cap
  top : ∀ i, t.freetop ≤ i → i < t.cap → t.key i ≠ .nil
  canon : ∀ i, Canon (t.key i)
  /-- A live key is reached from its main position. -/
  reach : ∀ i, t.val i ≠ .nil → Reach t.next (t.main cfg (t.key i)) i
  /-- No other node with the same key comes before it. -/
  first : ∀ i j, t.val i ≠ .nil → t.key j = t.key i →
    Reach t.next (t.main cfg (t.key i)) j → Reach t.next i j

/-- The node `n` is the first one with the key `k` on the way from the main position. -/
structure Located (cfg : Cfg S) (t : GCtab S) (k : TValue S) (n : ℕ) : Prop where
  key_eq : t.key n = k
  reach : Reach t.next (t.main cfg k) n
  first : ∀ j, t.key j = k → Reach t.next (t.main cfg k) j → Reach t.next n j

/-- A lookup of `k` finds nothing. -/
def Absent (cfg : Cfg S) (t : GCtab S) (k : TValue S) : Prop :=
  ∀ j, Reach t.next (t.main cfg k) j → t.key j ≠ k

/-- The hash part holds the pair. -/
def GCtab.Has (t : GCtab S) (k v : TValue S) : Prop := ∃ i, t.key i = k ∧ t.val i = v ∧ v ≠ .nil

theorem GCtab.main_le (t : GCtab S) (cfg : Cfg S) (k : TValue S) : t.main cfg k ≤ t.hmask :=
  Nat.and_le_right

namespace HInv

variable {cfg : Cfg S} {t : GCtab S} (h : HInv cfg t)

include h

theorem lt_cap {i : ℕ} (hk : t.key i ≠ .nil) : i < t.cap := by
  by_contra hi
  exact hk (h.outside i (by omega))

theorem key_ne_nil {i : ℕ} (hv : t.val i ≠ .nil) : t.key i ≠ .nil :=
  fun hk => hv (h.free i hk).1

theorem next_lt {a b : ℕ} (hab : t.next a = some b) : b ∈ Finset.range (t.hmask + 1) := by
  have hk : t.key b ≠ .nil := fun hk => (h.free b hk).2.2 a hab
  have hlt := h.lt_cap hk
  simp only [GCtab.cap] at hlt
  rw [Finset.mem_range]
  split at hlt <;> omega

theorem closed : Chain.Closed t.next (Finset.range (t.hmask + 1)) := fun _ _ hab => h.next_lt hab

/-- There is only one live node for a key. -/
theorem live_unique {i j : ℕ} (hi : t.val i ≠ .nil) (hj : t.val j ≠ .nil)
    (hk : t.key i = t.key j) : i = j := by
  refine h.linear.antisymm ?_ ?_
  · refine h.first i j hi hk.symm ?_
    rw [hk]
    exact h.reach j hj
  · refine h.first j i hj hk ?_
    rw [← hk]
    exact h.reach i hi

theorem walk_spec (test : ℕ → Bool) {n : ℕ} (hn : n ≤ t.hmask) :
    ∃ r, Chain.walk t.next test (t.hmask + 1) n = some r ∧ Chain.FirstHit t.next test n r := by
  refine Chain.walk_spec h.linear h.closed test (Finset.mem_range.2 (by omega)) ?_
  refine le_trans (Chain.card_reachSet_le _ _ _) ?_
  simp

/-- A lookup whose test recognises the key in canonical keys. -/
theorem lookup_cases (k : TValue S) {test : TValue S → Bool}
    (ht : ∀ k', Canon k' → (test k' = true ↔ k' = k)) :
    (∃ n, lookup t (t.main cfg k) test = .ok (some n) ∧ Located cfg t k n) ∨
      (lookup t (t.main cfg k) test = .ok none ∧ Absent cfg t k) := by
  obtain ⟨r, hr, hhit⟩ := h.walk_spec (fun i => test (t.key i)) (t.main_le cfg k)
  have hlookup : lookup t (t.main cfg k) test = .ok r := by rw [lookup, hr]
  cases r with
  | none =>
      refine .inr ⟨hlookup, ?_⟩
      intro j hj hk
      have hf : test (t.key j) = false := hhit j hj
      rw [(ht _ (h.canon j)).2 hk] at hf
      exact Bool.noConfusion hf
  | some n =>
      obtain ⟨hreach, htest, hfirst⟩ := hhit
      refine .inl ⟨n, hlookup, (ht _ (h.canon n)).1 htest, hreach, ?_⟩
      intro j hj hr'
      exact hfirst j hr' ((ht _ (h.canon j)).2 hj)

theorem located_has_iff {k v : TValue S} {n : ℕ} (hl : Located cfg t k n) :
    t.Has k v ↔ t.val n = v ∧ v ≠ .nil := by
  constructor
  · rintro ⟨i, hk, hv, hne⟩
    have hi : t.val i ≠ .nil := by rwa [hv]
    have hin : i = n := by
      refine h.linear.antisymm ?_ ?_
      · refine h.first i n hi (hl.key_eq.trans hk.symm) ?_
        rw [hk]
        exact hl.reach
      · refine hl.first i hk ?_
        have hr := h.reach i hi
        rwa [hk] at hr
    subst hin
    exact ⟨hv, hne⟩
  · rintro ⟨hv, hne⟩
    exact ⟨n, hl.key_eq, hv, hne⟩

theorem absent_not_has {k v : TValue S} (ha : Absent cfg t k) : ¬ t.Has k v := by
  rintro ⟨i, hk, hv, hne⟩
  have hr := h.reach i (by rwa [hv])
  rw [hk] at hr
  exact ha i hr hk

theorem absent_ne_key {k : TValue S} (ha : Absent cfg t k) {i : ℕ} (hi : t.val i ≠ .nil) :
    t.key i ≠ k := by
  intro hk
  exact h.absent_not_has ha ⟨i, hk, rfl, hi⟩

/-- Storing at a located node. -/
theorem store {k v : TValue S} {n : ℕ} (hl : Located cfg t k n) (hk : k ≠ .nil) :
    HInv cfg (t.store v (.node n)) where
  linear := h.linear
  free := by
    intro i hi
    have hne : i ≠ n := by
      rintro rfl
      exact hk (hl.key_eq.symm.trans hi)
    obtain ⟨hv, hiso⟩ := h.free i hi
    exact ⟨by simp [GCtab.store, Function.update_of_ne hne, hv], hiso⟩
  outside := h.outside
  top_le := h.top_le
  top := h.top
  canon := h.canon
  reach := by
    intro i hi
    by_cases hin : i = n
    · subst hin
      simp only [GCtab.store]
      rw [hl.key_eq]
      exact hl.reach
    · refine h.reach i ?_
      simpa [GCtab.store, Function.update_of_ne hin] using hi
  first := by
    intro i j hi hj hr
    by_cases hin : i = n
    · subst hin
      simp only [GCtab.store] at hj hr ⊢
      rw [hl.key_eq] at hj hr
      exact hl.first j hj hr
    · refine h.first i j ?_ hj hr
      simpa [GCtab.store, Function.update_of_ne hin] using hi

theorem store_has_iff {k v k' v' : TValue S} {n : ℕ} (hl : Located cfg t k n) :
    (t.store v (.node n)).Has k' v' ↔
      (k' = k ∧ v' = v ∧ v ≠ .nil) ∨ (k' ≠ k ∧ t.Has k' v') := by
  have hkey : (t.store v (.node n)).key = t.key := rfl
  have hval : (t.store v (.node n)).val = Function.update t.val n v := rfl
  constructor
  · rintro ⟨i, hk, hv, hne⟩
    rw [hkey] at hk
    rw [hval] at hv
    by_cases hin : i = n
    · subst hin
      rw [Function.update_self] at hv
      exact .inl ⟨hk.symm.trans hl.key_eq, hv.symm, by rwa [hv]⟩
    · rw [Function.update_of_ne hin] at hv
      refine .inr ⟨?_, i, hk, hv, hne⟩
      -- any other live node with this key would be the located one
      rintro rfl
      refine hin (h.linear.antisymm ?_ ?_)
      · refine h.first i n (by rwa [hv]) (hl.key_eq.trans hk.symm) ?_
        rw [hk]
        exact hl.reach
      · refine hl.first i hk ?_
        have hr := h.reach i (by rwa [hv])
        rwa [hk] at hr
  · rintro (⟨rfl, rfl, hne⟩ | ⟨hne', i, hk, hv, hne⟩)
    · exact ⟨n, hl.key_eq, by rw [hval, Function.update_self], hne⟩
    · have hin : i ≠ n := by
        rintro rfl
        exact hne' (hk.symm.trans hl.key_eq)
      exact ⟨i, hk, by rw [hval, Function.update_of_ne hin, hv], hne⟩

end HInv

/-! ### Insertion -/

theorem freeScan_eq_some {key : ℕ → TValue S} {top f : ℕ} (h : freeScan key top = some f) :
    f < top ∧ key f = .nil ∧ ∀ i, f < i → i < top → key i ≠ .nil := by
  induction top with
  | zero => simp [freeScan] at h
  | succ top ih =>
      rw [freeScan] at h
      split at h
      · rename_i hnil
        obtain rfl : top = f := by simpa using h
        exact ⟨by omega, by simpa using hnil, fun i _ _ => by omega⟩
      · rename_i hnil
        obtain ⟨hlt, hk, hrest⟩ := ih h
        refine ⟨by omega, hk, ?_⟩
        intro i hi hi'
        rcases Nat.lt_or_ge i top with hlt' | hge
        · exact hrest i hi hlt'
        · obtain rfl : i = top := by lia
          simpa using hnil

theorem freeScan_eq_none {key : ℕ → TValue S} {top : ℕ} (h : freeScan key top = none) :
    ∀ i < top, key i ≠ .nil := by
  induction top with
  | zero => intro i hi; omega
  | succ top ih =>
      rw [freeScan] at h
      split at h
      · exact absurd h (by simp)
      · rename_i hnil
        intro i hi
        rcases Nat.lt_or_ge i top with hlt | hge
        · exact ih h i hlt
        · obtain rfl : i = top := by lia
          simpa using hnil

/-- Relocating the node `n` strands no key: the live keys with main position `n` are strings, and
no live key has its main position at one of their nodes. -/
def RelocSafe (cfg : Cfg S) (t : GCtab S) (n : ℕ) : Prop :=
  (∀ w, t.val w ≠ .nil → t.main cfg (t.key w) = n → w ≠ n → (t.key w).isStr = true) ∧
  ∀ x w, Reach t.next n x → x ≠ n → t.val x ≠ .nil → t.main cfg (t.key x) = n →
    t.val w ≠ .nil → t.main cfg (t.key w) ≠ x

/-- If inserting `k` relocates a node, it is safe to do so. -/
def NewkeySafe (cfg : Cfg S) (t : GCtab S) (k : TValue S) : Prop :=
  t.val (t.main cfg k) ≠ .nil → freeScan t.key t.freetop ≠ none →
    t.main cfg (t.key (t.main cfg k)) ≠ t.main cfg k → RelocSafe cfg t (t.main cfg k)

/-- The main position of every key holds a key of that main position.  Hashes that do not change
keep it so. -/
def Settled (cfg : Cfg S) (t : GCtab S) : Prop :=
  ∀ j, t.key j ≠ .nil → t.key (t.main cfg (t.key j)) ≠ .nil ∧
    t.main cfg (t.key (t.main cfg (t.key j))) = t.main cfg (t.key j)

/-- In a settled table a node outside its main position is nobody's main position. -/
theorem Settled.newkeySafe {cfg : Cfg S} {t : GCtab S} (h : HInv cfg t) (hs : Settled cfg t)
    (k : TValue S) : NewkeySafe cfg t k := by
  intro _ _ hm
  have hno : ∀ w, t.val w ≠ .nil → t.main cfg (t.key w) ≠ t.main cfg k := by
    intro w hw heq
    have hset := (hs w (h.key_ne_nil hw)).2
    rw [heq] at hset
    exact hm hset
  refine ⟨?_, ?_⟩
  · intro w hw heq
    exact absurd heq (hno w hw)
  · intro x w _ _ hx heq
    exact absurd heq (hno x hx)

/-- What an insertion without rehash guarantees. -/
structure Inserted (cfg : Cfg S) (t : GCtab S) (k : TValue S) (t' : GCtab S) (n : ℕ) : Prop where
  inv : HInv cfg t'
  located : Located cfg t' k n
  val_eq : t'.val n = .nil
  has_iff : ∀ k' v, t'.Has k' v ↔ t.Has k' v
  asize : t'.asize = t.asize
  array : t'.array = t.array
  arrayId : t'.arrayId = t.arrayId
  colo : t'.colo = t.colo
  hmask : t'.hmask = t.hmask
  /-- At most one more node has a key. -/
  keyed : ∃ x, ∀ i, t'.key i ≠ .nil → t.key i ≠ .nil ∨ i = x
  settled : Settled cfg t → Settled cfg t'

theorem canonZero_of_canon {k : TValue S} (hk : Canon k) : canonZero k = k := by
  cases k with
  | num x => rw [canonZero, normZero, if_neg hk.2]
  | _ => rfl

section Insert

variable {cfg : Cfg S} {t : GCtab S} {k : TValue S} {f : ℕ}

/-- The main node is dead: its key is replaced in place. -/
theorem inserted_reuse (h : HInv cfg t) (ha : Absent cfg t k) (hc : Canon k) (hk : k ≠ .nil)
    (hv : t.val (t.main cfg k) = .nil) (hm : t.hmask ≠ 0) :
    Inserted cfg t k (putKey t (t.main cfg k) k) (t.main cfg k) := by
  set n := t.main cfg k with hn
  have hkey : (putKey t n k).key = Function.update t.key n k := by
    simp [putKey, canonZero_of_canon hc]
  have hlt : n < t.cap := by
    have := t.main_le cfg k
    rw [GCtab.cap, if_neg hm]
    omega
  have hlive : ∀ i, t.val i ≠ .nil → i ≠ n := by
    rintro i hi rfl
    exact hi hv
  refine ⟨⟨h.linear, ?_, ?_, h.top_le, ?_, ?_, ?_, ?_⟩, ⟨?_, Reach.refl _ _, ?_⟩, hv, ?_,
    rfl, rfl, rfl, rfl, rfl, ⟨n, ?_⟩, ?_⟩
  · intro i hi
    rw [hkey] at hi
    by_cases hin : i = n
    · subst hin
      rw [Function.update_self] at hi
      exact absurd hi hk
    · rw [Function.update_of_ne hin] at hi
      exact h.free i hi
  · intro i hi
    have hin : i ≠ n := by
      rintro rfl
      exact absurd hlt (not_lt.2 hi)
    rw [hkey, Function.update_of_ne hin]
    exact h.outside i hi
  · intro i hi hi'
    rw [hkey]
    by_cases hin : i = n
    · subst hin
      rwa [Function.update_self]
    · rw [Function.update_of_ne hin]
      exact h.top i hi hi'
  · intro i
    rw [hkey]
    by_cases hin : i = n
    · subst hin
      rwa [Function.update_self]
    · rw [Function.update_of_ne hin]
      exact h.canon i
  · intro i hi
    rw [hkey, Function.update_of_ne (hlive i hi)]
    exact h.reach i hi
  · intro i j hi hj hr
    rw [hkey, Function.update_of_ne (hlive i hi)] at hj hr
    by_cases hjn : j = n
    · subst hjn
      rw [Function.update_self] at hj
      exact absurd hj.symm (h.absent_ne_key ha hi)
    · rw [Function.update_of_ne hjn] at hj
      exact h.first i j hi hj hr
  · rw [hkey, Function.update_self]
  · intro j _ hr
    exact hr
  · intro k' v
    constructor
    · rintro ⟨i, hi, hiv, hne⟩
      have hin := hlive i (by rwa [show t.val i = v from hiv])
      rw [hkey, Function.update_of_ne hin] at hi
      exact ⟨i, hi, hiv, hne⟩
    · rintro ⟨i, hi, hiv, hne⟩
      have hin := hlive i (by rwa [hiv])
      exact ⟨i, by rw [hkey, Function.update_of_ne hin, hi], hiv, hne⟩
  · intro i hi
    rw [hkey] at hi
    by_cases hin : i = n
    · exact .inr hin
    · rw [Function.update_of_ne hin] at hi
      exact .inl hi
  · intro hs j hj
    have hmain : ∀ k', (putKey t n k).main cfg k' = t.main cfg k' := fun _ => rfl
    simp only [hkey, hmain] at hj ⊢
    by_cases hjn : j = n
    · rw [hjn, Function.update_self, ← hn, Function.update_self]
      exact ⟨hk, hn.symm⟩
    · rw [Function.update_of_ne hjn] at hj ⊢
      by_cases hm' : t.main cfg (t.key j) = n
      · rw [hm', Function.update_self]
        exact ⟨hk, hn.symm⟩
      · rw [Function.update_of_ne hm']
        exact hs j hj

/-- What the search for a free node leaves behind. -/
structure FreeNode (t : GCtab S) (f : ℕ) : Prop where
  lt : f < t.cap
  key_eq : t.key f = .nil
  above : ∀ i, f < i → i < t.cap → t.key i ≠ .nil

theorem HInv.freeNode (h : HInv cfg t) (hf : freeScan t.key t.freetop = some f) :
    FreeNode t f := by
  obtain ⟨hlt, hk, hrest⟩ := freeScan_eq_some hf
  refine ⟨lt_of_lt_of_le hlt h.top_le, hk, ?_⟩
  intro i hi hi'
  rcases Nat.lt_or_ge i t.freetop with hlt' | hge
  · exact hrest i hi hlt'
  · exact h.top i hge hi'

/-- The main node holds a key of this main position: the free node goes behind it. -/
theorem inserted_chain (h : HInv cfg t) (ha : Absent cfg t k) (hc : Canon k) (hk : k ≠ .nil)
    (hv : t.val (t.main cfg k) ≠ .nil)
    (hm : t.main cfg (t.key (t.main cfg k)) = t.main cfg k) (hf : FreeNode t f) :
    Inserted cfg t k
      (putKey { t with freetop := f, next := Chain.insertAfter t.next (t.main cfg k) f } f k) f := by
  set n := t.main cfg k with hn
  set t' := putKey { t with freetop := f, next := Chain.insertAfter t.next n f } f k with ht'
  have hkey : t'.key = Function.update t.key f k := by
    simp [ht', putKey, canonZero_of_canon hc]
  have hval : t'.val = t.val := rfl
  have hnext : t'.next = Chain.insertAfter t.next n f := rfl
  have hmain : ∀ k', t'.main cfg k' = t.main cfg k' := fun _ => rfl
  have hcap : t'.cap = t.cap := rfl
  obtain ⟨hfv, hiso⟩ := h.free f hf.key_eq
  have hnf : n ≠ f := by
    rintro heq
    rw [heq] at hv
    exact hv hfv
  have hlive : ∀ i, t.val i ≠ .nil → i ≠ f := by
    rintro i hi rfl
    exact hi hfv
  -- the free node is not the main position of a live key
  have hmf : ∀ i, t.val i ≠ .nil → t.main cfg (t.key i) ≠ f := by
    intro i hi hm
    have hr := h.reach i hi
    rw [hm] at hr
    exact hlive i hi (hiso.eq_of_reach hr)
  refine ⟨⟨?_, ?_, ?_, ?_, ?_, ?_, ?_, ?_⟩, ⟨?_, ?_, ?_⟩, hfv, ?_, rfl, rfl, rfl, rfl, rfl,
    ⟨f, ?_⟩, ?_⟩
  · rw [hnext]
    exact h.linear.insertAfter hiso hnf
  · intro i hi
    have hif : i ≠ f := by
      rintro rfl
      rw [hkey, Function.update_self] at hi
      exact hk hi
    rw [hkey, Function.update_of_ne hif] at hi
    obtain ⟨hvi, hni, hpi⟩ := h.free i hi
    have hin : i ≠ n := by
      rintro rfl
      exact hv hvi
    refine ⟨hvi, ?_, ?_⟩
    · rw [hnext, Chain.insertAfter_of_ne hin hif]
      exact hni
    · intro a hai
      rw [hnext] at hai
      by_cases han : a = n
      · subst han
        rw [Chain.insertAfter_self, Option.some.injEq] at hai
        exact hif hai.symm
      · by_cases haf : a = f
        · subst haf
          rw [Chain.insertAfter_new hnf] at hai
          exact hpi _ hai
        · rw [Chain.insertAfter_of_ne han haf] at hai
          exact hpi _ hai
  · intro i hi
    have hif : i ≠ f := by
      rintro rfl
      exact absurd hf.lt (not_lt.2 hi)
    rw [hkey, Function.update_of_ne hif]
    exact h.outside i hi
  · exact le_of_lt hf.lt
  · intro i hi hi'
    rw [hkey]
    by_cases hif : i = f
    · subst hif
      rwa [Function.update_self]
    · rw [Function.update_of_ne hif]
      exact hf.above i (lt_of_le_of_ne hi (Ne.symm hif)) hi'
  · intro i
    rw [hkey]
    by_cases hif : i = f
    · subst hif
      rwa [Function.update_self]
    · rw [Function.update_of_ne hif]
      exact h.canon i
  · intro i hi
    rw [hkey, Function.update_of_ne (hlive i hi), hnext, hmain]
    exact Chain.reach_insertAfter hiso hnf (h.reach i hi)
  · intro i j hi hj hr
    rw [hkey, Function.update_of_ne (hlive i hi)] at hj hr
    rw [hnext, hmain] at hr
    by_cases hjf : j = f
    · subst hjf
      rw [Function.update_self] at hj
      exact absurd hj.symm (h.absent_ne_key ha hi)
    · rw [Function.update_of_ne hjf] at hj
      rw [Chain.reach_insertAfter_iff hiso hnf (hmf i hi) hjf] at hr
      exact Chain.reach_insertAfter hiso hnf (h.first i j hi hj hr)
  · rw [hkey, Function.update_self]
  · exact Reach.single (Chain.insertAfter_self _ _ _)
  · intro j hj hr
    by_cases hjf : j = f
    · subst hjf
      exact Reach.refl _ _
    · rw [hkey, Function.update_of_ne hjf] at hj
      rw [hnext, hmain, Chain.reach_insertAfter_iff hiso hnf hnf hjf] at hr
      exact absurd hj (ha j hr)
  · intro k' v
    constructor
    · rintro ⟨i, hi, hiv, hne⟩
      have hif := hlive i (by rwa [show t.val i = v from hiv])
      rw [hkey, Function.update_of_ne hif] at hi
      exact ⟨i, hi, hiv, hne⟩
    · rintro ⟨i, hi, hiv, hne⟩
      have hif := hlive i (by rwa [hiv])
      exact ⟨i, by rw [hkey, Function.update_of_ne hif, hi], hiv, hne⟩
  · intro i hi
    rw [hkey] at hi
    by_cases hif : i = f
    · exact .inr hif
    · rw [Function.update_of_ne hif] at hi
      exact .inl hi
  · intro hs j hj
    simp only [hkey, hmain] at hj ⊢
    by_cases hjf : j = f
    · subst hjf
      rw [Function.update_self, ← hn, Function.update_of_ne hnf]
      exact ⟨h.key_ne_nil hv, hm⟩
    · rw [Function.update_of_ne hjf] at hj ⊢
      obtain ⟨hs₁, hs₂⟩ := hs j hj
      have hmj : t.main cfg (t.key j) ≠ f := by
        intro heq
        rw [heq] at hs₁
        exact hs₁ hf.key_eq
      rw [Function.update_of_ne hmj]
      exact ⟨hs₁, hs₂⟩

/-! ### Relocation -/

/-- Moving a node to a free one renames the chains. -/
theorem relink_eq_rename {next : ℕ → Option ℕ} {n f p : ℕ} (hl : Linear next)
    (hf : Isolated next f) (hnf : n ≠ f) (hp : next p = some n) :
    Function.update (Function.update (Function.update next p (some f)) f
      (Function.update next p (some f) n)) n none = Chain.rename (Equiv.swap n f) next := by
  have hpn : p ≠ n := hl.ne_next hp
  have hpf : p ≠ f := by
    rintro rfl
    simp [hf.1] at hp
  funext a
  rw [Chain.rename, Equiv.symm_swap]
  by_cases han : a = n
  · subst han
    rw [Function.update_self, Equiv.swap_apply_left, hf.1]
    rfl
  rw [Function.update_of_ne han]
  by_cases haf : a = f
  · subst haf
    rw [Function.update_self, Function.update_of_ne hpn.symm, Equiv.swap_apply_right]
    cases hnn : next n with
    | none => rfl
    | some b =>
        have hbn : b ≠ n := (hl.ne_next hnn).symm
        have hbf : b ≠ a := by
          rintro rfl
          exact hf.2 _ hnn
        rw [Option.map_some, Equiv.swap_apply_of_ne_of_ne hbn hbf]
  rw [Function.update_of_ne haf, Equiv.swap_apply_of_ne_of_ne han haf]
  by_cases hap : a = p
  · subst hap
    rw [Function.update_self, hp, Option.map_some, Equiv.swap_apply_left]
  rw [Function.update_of_ne hap]
  cases hna : next a with
  | none => rfl
  | some b =>
      have hbn : b ≠ n := by
        rintro rfl
        exact hap (hl.inj _ _ _ hna hp)
      have hbf : b ≠ f := by
        rintro rfl
        exact hf.2 _ hna
      rw [Option.map_some, Equiv.swap_apply_of_ne_of_ne hbn hbf]

/-- The predecessor of a live node outside its main position is found. -/
theorem HInv.pred_walk (h : HInv cfg t) {n : ℕ} (hv : t.val n ≠ .nil)
    (hm : t.main cfg (t.key n) ≠ n) :
    ∃ p, t.next p = some n ∧
      Chain.walk t.next (fun c => decide (t.next c = some n)) (t.hmask + 1)
        (t.main cfg (t.key n)) = some (some p) := by
  obtain ⟨r, hr, hhit⟩ :=
    h.walk_spec (fun c => decide (t.next c = some n)) (t.main_le cfg (t.key n))
  rcases (h.reach n hv).cases_tail with heq | ⟨b, hb, hbn⟩
  · exact absurd heq hm
  · cases r with
    | none =>
        have hfalse := hhit b hb
        simp [hbn] at hfalse
    | some p => exact ⟨p, by simpa using hhit.2.1, hr⟩

/-- The table after the colliding node `n` has moved to `f`, before rechaining. -/
def moved (t : GCtab S) (n f : ℕ) : GCtab S :=
  { t with
    freetop := f
    key := Function.update t.key f (t.key n)
    val := Function.update (Function.update t.val f (t.val n)) n .nil
    next := Chain.rename (Equiv.swap n f) t.next }

theorem moved_val {n : ℕ} (hfv : t.val f = .nil) (i : ℕ) :
    (moved t n f).val i = t.val (Equiv.swap n f i) := by
  simp only [moved]
  by_cases hin : i = n
  · subst hin
    rw [Function.update_self, Equiv.swap_apply_left, hfv]
  rw [Function.update_of_ne hin]
  by_cases hif : i = f
  · subst hif
    rw [Function.update_self, Equiv.swap_apply_right]
  rw [Function.update_of_ne hif, Equiv.swap_apply_of_ne_of_ne hin hif]

theorem moved_key {n i : ℕ} (hin : i ≠ n) : (moved t n f).key i = t.key (Equiv.swap n f i) := by
  simp only [moved]
  by_cases hif : i = f
  · subst hif
    rw [Function.update_self, Equiv.swap_apply_right]
  rw [Function.update_of_ne hif, Equiv.swap_apply_of_ne_of_ne hin hif]

/-- A live string key behind `n` whose main position is `n`. -/
def Stray (cfg : Cfg S) (t : GCtab S) (n b : ℕ) : Prop :=
  Reach t.next n b ∧ b ≠ n ∧ t.val b ≠ .nil ∧ (t.key b).isStr = true ∧ t.main cfg (t.key b) = n

/-- The rechaining loop moves the strays. -/
theorem sifted_moved_iff (h : HInv cfg t) {n : ℕ} (hf : t.key f = .nil) (hnf : n ≠ f) (b : ℕ) :
    Chain.Sifted (moved t n f).next (rechainTest cfg (moved t n f) n) f b ↔ Stray cfg t n b := by
  have hfv := (h.free f hf).1
  have hmain : ∀ k, (moved t n f).main cfg k = t.main cfg k := fun _ => rfl
  have hnext : (moved t n f).next = Chain.rename (Equiv.swap n f) t.next := rfl
  rw [Chain.Sifted, hnext, Chain.reach_rename_iff, Equiv.symm_swap, Equiv.swap_apply_right,
    rechainTest, hmain, moved_val hfv]
  by_cases hbn : b = n
  · subst hbn
    simp [Stray, hfv]
  rw [moved_key hbn]
  by_cases hbf : b = f
  · subst hbf
    simp [Stray, hfv]
  rw [Equiv.swap_apply_of_ne_of_ne hbn hbf]
  simp [Stray, hbn, hbf, and_assoc, and_left_comm]

/-- The outcome of a relocation, from what the rechaining loop does to reachability. -/
theorem inserted_of_rechained (h : HInv cfg t) (ha : Absent cfg t k) (hc : Canon k)
    (hk : k ≠ .nil) (hv : t.val (t.main cfg k) ≠ .nil)
    (hm : t.main cfg (t.key (t.main cfg k)) ≠ t.main cfg k) (hf : FreeNode t f)
    (hs : RelocSafe cfg t (t.main cfg k)) {next' : ℕ → Option ℕ} (hlin : Linear next')
    (hreach : ∀ a b, ¬ Stray cfg t (t.main cfg k) a → ¬ Stray cfg t (t.main cfg k) b →
      (Reach next' a b ↔
        Reach t.next (Equiv.swap (t.main cfg k) f a) (Equiv.swap (t.main cfg k) f b)))
    (hstray : ∀ b, Stray cfg t (t.main cfg k) b → Reach next' (t.main cfg k) b)
    (hisol : ∀ i, Isolated t.next i → i ≠ f → Isolated next' i) :
    Inserted cfg t k (putKey { moved t (t.main cfg k) f with next := next' } (t.main cfg k) k)
      (t.main cfg k) := by
  set n := t.main cfg k with hn
  set σ := Equiv.swap n f with hσ
  set t' := putKey { moved t n f with next := next' } n k with ht'
  obtain ⟨hfv, hiso⟩ := h.free f hf.key_eq
  have hkn : t.key n ≠ .nil := h.key_ne_nil hv
  have hnf : n ≠ f := by
    intro heq
    exact hkn (heq ▸ hf.key_eq)
  have hkey_n : t'.key n = k := by
    simp [ht', putKey, canonZero_of_canon hc]
  have hkey : ∀ i, i ≠ n → t'.key i = t.key (σ i) := by
    intro i hi
    rw [← moved_key hi]
    simp [ht', putKey, Function.update_of_ne hi]
  have hval : ∀ i, t'.val i = t.val (σ i) := fun i => moved_val hfv i
  have hmain : ∀ k', t'.main cfg k' = t.main cfg k' := fun _ => rfl
  have hnext : t'.next = next' := rfl
  have hcap : t'.cap = t.cap := rfl
  have hσn : σ n = f := Equiv.swap_apply_left _ _
  have hσf : σ f = n := Equiv.swap_apply_right _ _
  have hσ_of_ne : ∀ i, i ≠ n → i ≠ f → σ i = i := fun i => Equiv.swap_apply_of_ne_of_ne
  have hσσ : ∀ i, σ (σ i) = i := fun i => Equiv.swap_apply_self _ _ _
  -- the live nodes of the new table
  have hlive : ∀ i, t'.val i ≠ .nil → i ≠ n := by
    rintro i hi rfl
    rw [hval, hσn] at hi
    exact hi hfv
  have hmf : ∀ i, t.val i ≠ .nil → t.main cfg (t.key i) ≠ f := by
    intro i hi hmi
    have hr := h.reach i hi
    rw [hmi] at hr
    rw [hiso.eq_of_reach hr] at hi
    exact hi hfv
  have hstray_of_main : ∀ i, t.val i ≠ .nil → t.main cfg (t.key i) = n → Stray cfg t n i := by
    intro i hi hmi
    have hin : i ≠ n := by
      rintro rfl
      exact hm hmi
    have hr := h.reach i hi
    rw [hmi] at hr
    exact ⟨hr, hin, hi, hs.1 i hi hmi hin, hmi⟩
  have hmain_nostray : ∀ i, t.val i ≠ .nil → ¬ Stray cfg t n (t.main cfg (t.key i)) := by
    intro i hi hst
    exact hs.2 _ i hst.1 hst.2.1 hst.2.2.1 hst.2.2.2.2 hi rfl
  have hσ_stray : ∀ i, Stray cfg t n i → σ i = i := by
    intro i hst
    refine hσ_of_ne i hst.2.1 ?_
    rintro rfl
    exact hst.2.2.1 hfv
  refine ⟨⟨hlin, ?_, ?_, le_of_lt hf.lt, ?_, ?_, ?_, ?_⟩, ⟨hkey_n, Reach.refl _ _, ?_⟩, ?_, ?_,
    rfl, rfl, rfl, rfl, rfl, ⟨f, ?_⟩, ?_⟩
  · -- nodes without key
    intro i hi
    have hin : i ≠ n := by
      rintro rfl
      exact hk (hkey_n.symm.trans hi)
    have hif : i ≠ f := by
      rintro rfl
      rw [hkey _ hin, hσf] at hi
      exact hkn hi
    rw [hkey i hin, hσ_of_ne i hin hif] at hi
    obtain ⟨hvi, hii⟩ := h.free i hi
    exact ⟨by rw [hval, hσ_of_ne i hin hif, hvi], hisol i hii hif⟩
  · -- nodes outside the vector
    intro i hi
    rw [hcap] at hi
    have hin : i ≠ n := by
      rintro rfl
      exact absurd (h.lt_cap hkn) (not_lt.2 hi)
    have hif : i ≠ f := by
      rintro rfl
      exact absurd hf.lt (not_lt.2 hi)
    rw [hkey i hin, hσ_of_ne i hin hif]
    exact h.outside i hi
  · -- nodes from the free top on
    intro i hi hi'
    by_cases hin : i = n
    · rw [hin, hkey_n]
      exact hk
    rw [hkey i hin]
    by_cases hif : i = f
    · rw [hif, hσf]
      exact hkn
    rw [hσ_of_ne i hin hif]
    exact hf.above i (lt_of_le_of_ne hi (Ne.symm hif)) hi'
  · intro i
    by_cases hin : i = n
    · rw [hin, hkey_n]
      exact hc
    rw [hkey i hin]
    exact h.canon _
  · -- every live key is reached from its main position
    intro i hi
    have hin := hlive i hi
    rw [hval] at hi
    rw [hkey i hin, hmain]
    by_cases hst : Stray cfg t n i
    · rw [hσ_stray i hst, hst.2.2.2.2]
      exact hstray i hst
    have hmi : t.main cfg (t.key (σ i)) ≠ n := by
      intro heq
      have hst' := hstray_of_main _ hi heq
      have hid := hσ_stray _ hst'
      rw [hσσ] at hid
      rw [← hid] at hst'
      exact hst hst'
    refine (hreach _ _ (hmain_nostray _ hi) hst).2 ?_
    rw [hσ_of_ne _ hmi (hmf _ hi)]
    exact h.reach _ hi
  · -- and it is the first node with its key
    intro i j hi hj hr
    have hin := hlive i hi
    rw [hval] at hi
    rw [hkey i hin] at hj hr
    rw [hmain] at hr
    by_cases hjn : j = n
    · rw [hjn, hkey_n] at hj
      exact absurd hj.symm (h.absent_ne_key ha hi)
    rw [hkey j hjn] at hj
    by_cases hstj : Stray cfg t n j
    · -- a stray is live, so it is the node itself
      have hjv : t.val (σ j) ≠ .nil := by
        rw [hσ_stray j hstj]
        exact hstj.2.2.1
      rw [σ.injective (h.live_unique hi hjv hj.symm)]
      exact Reach.refl _ _
    rw [hnext, hreach _ _ (hmain_nostray _ hi) hstj] at hr
    have hmi : t.main cfg (t.key (σ i)) ≠ n := by
      intro heq
      rw [heq, hσn] at hr
      have hjf := hiso.eq_of_reach hr
      exact hjn (by rw [← hσσ j, hjf, hσf])
    have hsti : ¬ Stray cfg t n i := by
      intro hst
      refine hmi ?_
      rw [hσ_stray i hst]
      exact hst.2.2.2.2
    rw [hσ_of_ne _ hmi (hmf _ hi)] at hr
    exact (hreach _ _ hsti hstj).2 (h.first _ _ hi hj hr)
  · intro j _ hr
    exact hr
  · rw [hval, hσn, hfv]
  · intro k' v
    constructor
    · rintro ⟨i, hi, hiv, hne⟩
      have hin := hlive i (by rwa [hiv])
      exact ⟨σ i, by rw [← hkey i hin, hi], by rw [← hval, hiv], hne⟩
    · rintro ⟨i, hi, hiv, hne⟩
      have hin : σ i ≠ n := by
        intro heq
        have : i = f := by rw [← hσσ i, heq, hσn]
        subst this
        exact hne (hiv.symm.trans hfv)
      exact ⟨σ i, by rw [hkey _ hin, hσσ, hi], by rw [hval, hσσ, hiv], hne⟩
  · intro i hi
    by_cases hif : i = f
    · exact .inr hif
    by_cases hin : i = n
    · rw [hin]
      exact .inl hkn
    rw [hkey i hin, hσ_of_ne i hin hif] at hi
    exact .inl hi
  · intro hset j hj
    by_cases hjn : j = n
    · rw [hjn, hkey_n, hmain, ← hn, hkey_n, hmain]
      exact ⟨hk, hn.symm⟩
    rw [hkey j hjn] at hj
    rw [hkey j hjn, hmain, hmain]
    obtain ⟨hs₁, hs₂⟩ := hset _ hj
    have hmn : t.main cfg (t.key (σ j)) ≠ n := by
      intro heq
      rw [heq] at hs₂
      exact hm hs₂
    have hmf' : t.main cfg (t.key (σ j)) ≠ f := by
      intro heq
      rw [heq] at hs₁
      exact hs₁ hf.key_eq
    rw [hkey _ hmn, hσ_of_ne _ hmn hmf']
    exact ⟨hs₁, hs₂⟩

/-- The colliding node is not in its main position: it moves to the free node. -/
theorem inserted_relocate (h : HInv cfg t) (ha : Absent cfg t k) (hc : Canon k) (hk : k ≠ .nil)
    (hv : t.val (t.main cfg k) ≠ .nil)
    (hm : t.main cfg (t.key (t.main cfg k)) ≠ t.main cfg k) (hf : FreeNode t f)
    (hs : RelocSafe cfg t (t.main cfg k)) :
    ∃ t', relocate cfg { t with freetop := f } (t.main cfg k) f = .ok t' ∧
      Inserted cfg t k (putKey t' (t.main cfg k) k) (t.main cfg k) := by
  set n := t.main cfg k with hn
  obtain ⟨hfv, hiso⟩ := h.free f hf.key_eq
  have hnf : n ≠ f := by
    intro heq
    exact h.key_ne_nil hv (heq ▸ hf.key_eq)
  have hcap : t.cap ≤ t.hmask + 1 := by
    rw [GCtab.cap]
    split <;> omega
  have hfs : f ∈ Finset.range (t.hmask + 1) := Finset.mem_range.2 (lt_of_lt_of_le hf.lt hcap)
  have hns : n ∈ Finset.range (t.hmask + 1) :=
    Finset.mem_range.2 (Nat.lt_succ_of_le (t.main_le cfg k))
  obtain ⟨p, hp, hwalk⟩ := h.pred_walk hv hm
  -- the chains after the move, before rechaining
  have hlin : Linear (moved t n f).next := h.linear.rename _
  have hclosed : Chain.Closed (moved t n f).next (Finset.range (t.hmask + 1)) := by
    intro a b hab
    have hab' := Chain.rename_eq_some_iff.1 hab
    have hb := h.closed _ _ hab'
    rw [Equiv.symm_swap] at hb
    by_cases hbn : b = n
    · rwa [hbn]
    by_cases hbf : b = f
    · rwa [hbf]
    rwa [Equiv.swap_apply_of_ne_of_ne hbn hbf] at hb
  have hison : Isolated (moved t n f).next n := by
    constructor
    · simp [moved, Chain.rename, hiso.1]
    · intro a han
      have han' := Chain.rename_eq_some_iff.1 han
      rw [Equiv.symm_swap, Equiv.swap_apply_left] at han'
      exact hiso.2 _ han'
  have hfuel : (Finset.range (t.hmask + 1)).card ≤ t.hmask + 1 := by simp
  obtain ⟨next', hsift, hlin', -, -, hreach, hmoved, hisol⟩ :=
    Chain.sift_spec (rechainTest cfg (moved t n f) n) hlin hclosed hison hfs hnf.symm hfuel
  refine ⟨{ moved t n f with next := next' }, ?_, ?_⟩
  · have hrelink := relink_eq_rename h.linear hiso hnf hp
    simp only [relocate]
    rw [show GCtab.main { t with freetop := f } cfg (t.key n) = t.main cfg (t.key n) from rfl,
      hwalk]
    simp only [hrelink]
    split
    · next heq => cases heq.symm.trans hsift
    · next heq => cases heq.symm.trans hsift; rfl
  · refine inserted_of_rechained h ha hc hk hv hm hf hs hlin' ?_ ?_ ?_
    · intro a b hsa hsb
      rw [← sifted_moved_iff h hf.key_eq hnf] at hsa hsb
      rw [hreach a b hsa hsb, ← Equiv.symm_swap n f]
      exact Chain.reach_rename_iff
    · intro b hsb
      exact hmoved b ((sifted_moved_iff h hf.key_eq hnf b).2 hsb)
    · intro i hii hif
      have hin : i ≠ n := by
        rintro rfl
        exact hii.2 p hp
      refine hisol i ⟨?_, ?_⟩ hin hif
      · simp [moved, Chain.rename, Equiv.swap_apply_of_ne_of_ne hin hif, hii.1]
      · intro a hai
        have hai' := Chain.rename_eq_some_iff.1 hai
        rw [Equiv.symm_swap, Equiv.swap_apply_of_ne_of_ne hin hif] at hai'
        exact hii.2 _ hai'

/-- Insertion without rehash: either every node has a key, or the key is put into a node and the
pairs stay as they are. -/
theorem newkeyNode_spec (h : HInv cfg t) (ha : Absent cfg t k) (hc : Canon k) (hk : k ≠ .nil)
    (hs : NewkeySafe cfg t k) :
    (newkeyNode cfg t k = .ok none ∧ ∀ i < t.cap, t.key i ≠ .nil) ∨
      ∃ t' n, newkeyNode cfg t k = .ok (some (t', n)) ∧ Inserted cfg t k t' n := by
  rw [newkeyNode]
  by_cases hcond : t.val (t.main cfg k) = .nil ∧ t.hmask ≠ 0
  · obtain ⟨hv, hm⟩ := hcond
    refine .inr ⟨_, _, ?_, inserted_reuse h ha hc hk hv hm⟩
    simp [hv, hm, TValue.isNil]
  rw [if_pos (by by_cases hv : t.val (t.main cfg k) = .nil <;> simp_all)]
  cases hf : freeScan t.key t.freetop with
  | none =>
      refine .inl ⟨rfl, ?_⟩
      intro i hi
      rcases Nat.lt_or_ge i t.freetop with hlt | hge
      · exact freeScan_eq_none hf i hlt
      · exact h.top i hge hi
  | some f =>
      have hfree := h.freeNode hf
      -- a table with a free node has a hash part, so the main node is live
      have hv : t.val (t.main cfg k) ≠ .nil := by
        intro hv
        refine hcond ⟨hv, ?_⟩
        intro hm
        have hlt := hfree.lt
        simp [GCtab.cap, hm] at hlt
      have hmain : ∀ k', GCtab.main { t with freetop := f } cfg k' = t.main cfg k' := fun _ => rfl
      refine .inr ?_
      by_cases hm : t.main cfg (t.key (t.main cfg k)) = t.main cfg k
      · refine ⟨_, _, ?_, inserted_chain h ha hc hk hv hm hfree⟩
        simp [hmain, hm]
      · obtain ⟨t', ht', hins⟩ :=
          inserted_relocate h ha hc hk hv hm hfree (hs hv (by simp [hf]) hm)
        refine ⟨_, _, ?_, hins⟩
        simp only [hmain, ne_eq, hm, not_false_eq_true, if_true, ht']
        rfl

end Insert

end Tab
