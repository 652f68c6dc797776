/-
**The ring of decimal digits.**

The ring holds a list of digits of base 100.  Scaling down divides the list by 64, digit by digit from the
first one, and scaling up multiplies it, from the last one; the digits that become zero at the ends are
given up.  Every step moves one index around the ring, so the loops end when the index has passed the list.

Main definitions:

* `Strscan.Seg` — the entries of the ring from an index on are the digits of a list;
* `Strscan.divDigits`, `Strscan.mulDigits` — the long division and multiplication of a list of digits;
* `Strscan.Rep` — the ring holds a list.

Main results:

* `Strscan.downDigits_spec`, `Strscan.upDigits_spec` — the inner loops.
-/

import LuaJit.Strscan

set_option relaxedAutoImplicit false
set_option autoImplicit false

namespace Strscan

/-! ### Indices -/

/-- The index `k` places behind another one. -/
def idx (i k : ℕ) : ℕ := (i + k) % ddig

theorem idx_lt (i k : ℕ) : idx i k < ddig := Nat.mod_lt _ (by decide)

theorem idx_zero {i : ℕ} (hi : i < ddig) : idx i 0 = i := Nat.mod_eq_of_lt hi

theorem idx_add (i k l : ℕ) : idx (idx i k) l = idx i (k + l) := by
  unfold idx
  rw [Nat.mod_add_mod, Nat.add_assoc]

theorem dnext_idx (i k : ℕ) : dnext (idx i k) = idx i (k + 1) := idx_add i k 1

theorem dnext_eq (i : ℕ) : dnext i = idx i 1 := rfl

theorem dprev_idx (i k : ℕ) : dprev (idx i (k + 1)) = idx i k := by
  unfold dprev idx ddig
  lia

theorem dprev_lt (i : ℕ) : dprev i < ddig := by
  unfold dprev ddig
  omega

theorem dnext_dprev {i : ℕ} (hi : i < ddig) : dnext (dprev i) = i := by
  unfold dnext dprev ddig at *
  lia

/-- Indices less than a round apart are different. -/
theorem idx_ne {i k l : ℕ} (hkl : k < l) (hl : l < k + ddig) : idx i k ≠ idx i l := by
  unfold idx ddig at *
  lia

theorem idx_ne_dprev {i k : ℕ} (hk : k + 1 < ddig) : idx i k ≠ dprev i := by
  unfold idx dprev ddig at *
  lia

theorem dprev_ne (i : ℕ) : i ≠ dprev i := by
  unfold dprev ddig
  omega

/-! ### Segments -/

/-- The entries from an index on are these digits. -/
@[grind =]
def Seg (xi : ℕ → ℕ) : ℕ → List ℕ → Prop
  | _, [] => True
  | i, d :: ds => xi i = d ∧ Seg xi (idx i 1) ds

/-- The entries from an index on become these digits. -/
@[grind =]
def writeSeg (xi : ℕ → ℕ) : ℕ → List ℕ → ℕ → ℕ
  | _, [] => xi
  | i, d :: ds => writeSeg (Function.update xi i d) (idx i 1) ds

theorem Seg.congr {xi xi' : ℕ → ℕ} {i : ℕ} {ds : List ℕ} (h : Seg xi i ds) (hi : i < ddig)
    (heq : ∀ k < ds.length, xi' (idx i k) = xi (idx i k)) : Seg xi' i ds := by
  induction ds generalizing i with
  | nil => trivial
  | cons d ds ih =>
      obtain ⟨hd, hds⟩ := h
      refine ⟨?_, ih hds (idx_lt _ _) fun k hk => ?_⟩
      · have h0 := heq 0 (Nat.succ_pos _)
        rw [idx_zero hi] at h0
        rw [h0, hd]
      · have hk' := heq (1 + k) (by rw [List.length_cons]; omega)
        rw [idx_add]
        exact hk'

theorem seg_append {xi : ℕ → ℕ} {i : ℕ} {ds es : List ℕ} (hi : i < ddig) :
    Seg xi i (ds ++ es) ↔ Seg xi i ds ∧ Seg xi (idx i ds.length) es := by
  induction ds generalizing i with
  | nil =>
      rw [List.nil_append, List.length_nil, idx_zero hi]
      exact ⟨fun h => ⟨trivial, h⟩, fun h => h.2⟩
  | cons d ds ih =>
      rw [List.cons_append, Seg, Seg, ih (idx_lt _ _), idx_add, List.length_cons,
        Nat.add_comm 1 ds.length, and_assoc]

/-- The last digit. -/
theorem seg_concat {xi : ℕ → ℕ} {i d : ℕ} {ds : List ℕ} (hi : i < ddig) :
    Seg xi i (ds ++ [d]) ↔ Seg xi i ds ∧ xi (idx i ds.length) = d := by
  rw [seg_append hi, Seg, Seg, and_true]

theorem writeSeg_of_ne {xi : ℕ → ℕ} {i j : ℕ} {ds : List ℕ} (hi : i < ddig)
    (hj : ∀ k < ds.length, j ≠ idx i k) : writeSeg xi i ds j = xi j := by
  induction ds generalizing i xi with
  | nil => rfl
  | cons d ds ih =>
      rw [writeSeg, ih (idx_lt _ _) fun k hk => ?_, Function.update_of_ne]
      · have h0 := hj 0 (Nat.succ_pos _)
        rwa [idx_zero hi] at h0
      · rw [idx_add]
        exact hj (1 + k) (by rw [List.length_cons]; omega)

theorem seg_writeSeg {xi : ℕ → ℕ} {i : ℕ} {ds : List ℕ} (hi : i < ddig) (hlen : ds.length ≤ ddig) :
    Seg (writeSeg xi i ds) i ds := by
  induction ds generalizing i xi with
  | nil => trivial
  | cons d ds ih =>
      rw [List.length_cons] at hlen
      refine ⟨?_, ih (idx_lt _ _) (by omega)⟩
      rw [writeSeg, writeSeg_of_ne (idx_lt _ _), Function.update_self]
      intro k hk
      rw [idx_add]
      have := idx_ne (i := i) (k := 0) (l := 1 + k) (by omega) (by omega)
      rwa [idx_zero hi] at this

/-! ### Division -/

/-- The digits divided by 64, from the first one; the carry has been multiplied by the base. -/
def divDigits : List ℕ → ℕ → List ℕ × ℕ
  | [], cy => ([], cy)
  | d :: ds, cy =>
    ((cy + d) / 64 :: (divDigits ds (100 * ((cy + d) % 64))).1,
      (divDigits ds (100 * ((cy + d) % 64))).2)

@[simp] theorem length_divDigits (ds : List ℕ) (cy : ℕ) : (divDigits ds cy).1.length = ds.length := by
  induction ds generalizing cy with
  | nil => rfl
  | cons d ds ih => rw [divDigits, List.length_cons, ih, List.length_cons]

/-- How many zeros a list begins with. -/
def zerosLen (ds : List ℕ) : ℕ := (ds.takeWhile (· = 0)).length

@[simp] theorem zerosLen_nil : zerosLen [] = 0 := rfl

@[simp] theorem zerosLen_cons_zero (ds : List ℕ) : zerosLen (0 :: ds) = zerosLen ds + 1 := rfl

theorem zerosLen_cons {d : ℕ} (hd : d ≠ 0) (ds : List ℕ) : zerosLen (d :: ds) = 0 := by
  rw [zerosLen, List.takeWhile_cons_of_neg (by simpa using hd)]
  rfl

/-- A step of the division stores a byte. -/
theorem div_byte {cy d : ℕ} (hcy : cy ≤ 6300) (hd : d < 256) : (cy + d) / 64 % 256 = (cy + d) / 64 := by
  lia

theorem and_63 (n : ℕ) : n &&& 0x3f = n % 64 := Nat.and_two_pow_sub_one_eq_mod n 6

theorem shr_6 (n : ℕ) : n >>> 6 = n / 64 := Nat.shiftRight_eq_div_pow n 6

/-- The rest of the inner loop of scaling down, behind the digit at an index. -/
def downNext (fuel i cy : ℕ) (r : Ring) : Except Err (ℕ × Ring) :=
  if idx i 1 = r.lo then .ok (cy, r) else downDigits fuel (idx i 1) cy r

theorem downDigits_keep {fuel i cy d : ℕ} {r : Ring} (hd : r.xi i = d) (hb : d < 256) (hcy : cy ≤ 6300)
    (h : ¬((cy + d) / 64 = 0 ∧ i = r.hi)) :
    downDigits (fuel + 1) i cy r =
      downNext fuel i (100 * ((cy + d) % 64))
        { r with xi := Function.update r.xi i ((cy + d) / 64) } := by
  have hset : r.set i ((cy + d) / 64) = { r with xi := Function.update r.xi i ((cy + d) / 64) } := by
    rw [Ring.set, div_byte hcy hb]
  rw [downDigits, hd, and_63, shr_6, hset]
  simp only [Function.update_self, if_neg h]
  rw [downNext, dnext_eq]
  by_cases hlo : idx i 1 = r.lo
  · rw [if_pos hlo, if_neg (fun hne => hne hlo)]
  · rw [if_neg hlo, if_pos hlo]

theorem downDigits_drop {fuel i cy d : ℕ} {r : Ring} (hd : r.xi i = d) (h0 : (cy + d) / 64 = 0)
    (hi : i = r.hi) :
    downDigits (fuel + 1) i cy r =
      downNext fuel i (100 * ((cy + d) % 64))
        { r with xi := Function.update r.xi i 0, hi := idx i 1, idig := r.idig - 1 } := by
  rw [downDigits, hd, and_63, shr_6, h0, Ring.set]
  simp only [Nat.zero_mod, Function.update_self, hi, true_and, if_true]
  rw [downNext, dnext_eq]
  by_cases hlo : idx r.hi 1 = r.lo
  · rw [if_pos hlo, if_neg (fun hne => hne hlo)]
  · rw [if_neg hlo, if_pos hlo]

/-- Behind the first of its digits a segment does not come back to the index. -/
theorem idx_succ_ne {i k : ℕ} (hi : i < ddig) (hk : k + 1 < ddig) : idx (idx i 1) k ≠ i := by
  have := idx_ne (i := i) (k := 0) (l := 1 + k) (by omega) (by omega)
  rw [idx_zero hi] at this
  rw [idx_add]
  exact this.symm

theorem Seg.update_head {xi : ℕ → ℕ} {i d : ℕ} {ds : List ℕ} (h : Seg xi (idx i 1) ds) (hi : i < ddig)
    (hlen : ds.length < ddig) : Seg (Function.update xi i d) (idx i 1) ds :=
  h.congr (idx_lt _ _) fun _ hk => Function.update_of_ne (idx_succ_ne hi (by omega)) _ _

/-- The inner loop of scaling down where the first digit is not met. -/
theorem downDigits_tail {ds : List ℕ} : ∀ {fuel i cy : ℕ} {r : Ring}, ds ≠ [] → ds.length ≤ fuel →
    ds.length ≤ ddig → i < ddig → Seg r.xi i ds → r.lo = idx i ds.length → cy ≤ 6300 →
    (∀ d ∈ ds, d < 256) → (∀ k < ds.length, idx i k ≠ r.hi) →
    downDigits fuel i cy r =
      .ok ((divDigits ds cy).2, { r with xi := writeSeg r.xi i (divDigits ds cy).1 }) := by
  induction ds with
  | nil => intro _ _ _ _ h; exact absurd rfl h
  | cons d ds ih =>
      intro fuel i cy r _ hfuel hlen hi hseg hlo hcy hb hhi
      rw [List.length_cons] at hfuel hlen hlo
      obtain ⟨fuel, rfl⟩ : ∃ f, fuel = f + 1 := ⟨fuel - 1, by lia⟩
      obtain ⟨hd, hds⟩ := hseg
      have hi0 : i ≠ r.hi := by
        have h0 := hhi 0 (Nat.succ_pos _)
        rwa [idx_zero hi] at h0
      rw [downDigits_keep hd (hb d List.mem_cons_self) hcy (fun h => hi0 h.2), downNext]
      by_cases hnil : ds = []
      · subst hnil
        rw [if_pos (show idx i 1 = r.lo from hlo.symm)]
        rfl
      · have hpos : 0 < ds.length := List.length_pos_of_ne_nil hnil
        rw [if_neg (fun h => idx_ne (by omega) (by omega) (h.trans hlo)),
          ih hnil (by omega) (by omega) (idx_lt _ _) (hds.update_head hi (by omega)) ?_ (by lia)
            (fun e he => hb e (List.mem_cons_of_mem _ he)) ?_]
        · rfl
        · rw [idx_add, Nat.add_comm 1]
          exact hlo
        · intro k hk
          rw [idx_add]
          exact hhi (1 + k) (by rw [List.length_cons]; omega)

/-- The inner loop of scaling down from the first digit: the zeros at the front are given up. -/
theorem downDigits_spec {ds : List ℕ} : ∀ {fuel i cy : ℕ} {r : Ring}, ds ≠ [] → ds.length ≤ fuel →
    ds.length ≤ ddig → i < ddig → i = r.hi → Seg r.xi i ds → r.lo = idx i ds.length → cy ≤ 6300 →
    (∀ d ∈ ds, d < 256) →
    downDigits fuel i cy r =
      .ok ((divDigits ds cy).2,
        { r with
          xi := writeSeg r.xi i (divDigits ds cy).1
          hi := idx i (zerosLen (divDigits ds cy).1)
          idig := r.idig - zerosLen (divDigits ds cy).1 }) := by
  induction ds with
  | nil => intro _ _ _ _ h; exact absurd rfl h
  | cons d ds ih =>
      intro fuel i cy r _ hfuel hlen hi hhi hseg hlo hcy hb
      rw [List.length_cons] at hfuel hlen hlo
      obtain ⟨fuel, rfl⟩ : ∃ f, fuel = f + 1 := ⟨fuel - 1, by lia⟩
      obtain ⟨hd, hds⟩ := hseg
      have hbs : ∀ e ∈ ds, e < 256 := fun e he => hb e (List.mem_cons_of_mem _ he)
      have hlo' : r.lo = idx (idx i 1) ds.length := by
        rw [idx_add, Nat.add_comm 1]
        exact hlo
      rw [divDigits]
      by_cases h0 : (cy + d) / 64 = 0
      · rw [downDigits_drop hd h0 hhi, downNext, h0, zerosLen_cons_zero]
        by_cases hnil : ds = []
        · subst hnil
          rw [if_pos (show idx i 1 = r.lo from hlo.symm)]
          rfl
        · have hpos : 0 < ds.length := List.length_pos_of_ne_nil hnil
          rw [if_neg (fun h => idx_ne (by omega) (by omega) (h.trans hlo)),
            @ih _ _ _ { r with xi := Function.update r.xi i 0, hi := idx i 1, idig := r.idig - 1 } hnil
              (by omega) (by omega) (idx_lt _ _) rfl (hds.update_head hi (by omega)) hlo' (by lia) hbs]
          dsimp only
          rw [writeSeg, idx_add, Nat.add_comm 1, Int.sub_sub, Nat.cast_succ, Int.add_comm 1]
      · rw [downDigits_keep hd (hb d List.mem_cons_self) hcy (fun h => h0 h.1), downNext, zerosLen_cons h0,
          idx_zero hi, Nat.cast_zero, Int.sub_zero, hhi]
        rw [hhi] at hi hlo hlo' hds
        by_cases hnil : ds = []
        · subst hnil
          rw [if_pos (show idx r.hi 1 = r.lo from hlo.symm)]
          rfl
        · have hpos : 0 < ds.length := List.length_pos_of_ne_nil hnil
          rw [if_neg (fun h => idx_ne (by omega) (by omega) (h.trans hlo)),
            @downDigits_tail _ _ _ _ { r with xi := Function.update r.xi r.hi ((cy + d) / 64) } hnil
              (by omega) (by omega) (idx_lt _ _) (hds.update_head hi (by omega)) hlo' (by lia) hbs
              (fun k hk => idx_succ_ne hi (by lia))]
          rfl

theorem divDigits_byte {ds : List ℕ} : ∀ {cy : ℕ}, cy ≤ 6300 → (∀ d ∈ ds, d < 256) →
    ∀ q ∈ (divDigits ds cy).1, q < 256 := by
  induction ds with
  | nil => intro _ _ _ q hq; cases hq
  | cons d ds ih =>
      intro cy hcy hb q hq
      have hd : d < 256 := hb d List.mem_cons_self
      rw [divDigits] at hq
      rcases List.mem_cons.mp hq with rfl | hq
      · lia
      · exact ih (by omega) (fun e he => hb e (List.mem_cons_of_mem _ he)) q hq

/-- The carry that division leaves is one of the base. -/
theorem divDigits_carry {ds : List ℕ} : ∀ {cy : ℕ}, (∃ c < 64, cy = 100 * c) →
    ∃ c < 64, (divDigits ds cy).2 = 100 * c := by
  induction ds with
  | nil => intro _ h; exact h
  | cons d ds ih =>
      intro cy _
      exact ih ⟨(cy + d) % 64, Nat.mod_lt _ (by decide), rfl⟩

/-! ### The ring and a list -/

/-- The ring holds the digits of a list. -/
structure Rep (r : Ring) (ds : List ℕ) : Prop where
  hi_lt : r.hi < ddig
  pos : 0 < ds.length
  le : ds.length ≤ ddig
  seg : Seg r.xi r.hi ds
  lo_eq : r.lo = idx r.hi ds.length
  byte : ∀ d ∈ ds, d < 256

namespace Rep

variable {r : Ring} {ds : List ℕ}

theorem ne_nil (h : Rep r ds) : ds ≠ [] := List.ne_nil_of_length_pos h.pos

theorem lo_lt (h : Rep r ds) : r.lo < ddig := h.lo_eq ▸ idx_lt _ _

/-- The indices meet when the ring is full. -/
theorem hi_eq_lo_iff (h : Rep r ds) : r.hi = r.lo ↔ ds.length = ddig := by
  have hi := h.hi_lt
  have hpos := h.pos
  have hle := h.le
  rw [h.lo_eq]
  unfold idx ddig at *
  lia

/-- The last digit. -/
theorem last (h : Rep r ds) : r.xi (dprev r.lo) = ds.getLastD 0 := by
  obtain ⟨es, e, rfl⟩ : ∃ es e, ds = es ++ [e] :=
    ⟨ds.dropLast, ds.getLast h.ne_nil, (List.dropLast_append_getLast h.ne_nil).symm⟩
  have hseg := (seg_concat h.hi_lt).mp h.seg
  rw [h.lo_eq, List.length_append, List.length_singleton, dprev_idx, hseg.2]
  simp

theorem congr {r' : Ring} (h : Rep r ds) (hxi : r'.xi = r.xi) (hhi : r'.hi = r.hi) (hlo : r'.lo = r.lo) :
    Rep r' ds := by
  refine ⟨hhi ▸ h.hi_lt, h.pos, h.le, ?_, ?_, h.byte⟩
  · rw [hxi, hhi]
    exact h.seg
  · rw [hlo, hhi]
    exact h.lo_eq

/-- A digit behind the last one. -/
theorem push (h : Rep r ds) (hlt : ds.length < ddig) {d : ℕ} (hd : d < 256) :
    Rep { r with xi := Function.update r.xi r.lo d, lo := dnext r.lo } (ds ++ [d]) where
  hi_lt := h.hi_lt
  pos := by rw [List.length_append]; exact Nat.lt_of_lt_of_le h.pos (Nat.le_add_right _ _)
  le := by rw [List.length_append, List.length_singleton]; exact hlt
  seg := by
    rw [seg_concat h.hi_lt, ← h.lo_eq]
    refine ⟨h.seg.congr h.hi_lt fun k hk => Function.update_of_ne ?_ _ _, Function.update_self _ _ _⟩
    rw [h.lo_eq]
    exact idx_ne hk (by omega)
  lo_eq := by
    rw [List.length_append, List.length_singleton]
    dsimp only
    rw [h.lo_eq, dnext_idx]
  byte := by
    intro e he
    rcases List.mem_append.mp he with he | he
    · exact h.byte e he
    · rw [List.mem_singleton.mp he]
      exact hd

/-- The last digit is changed. -/
theorem setLast (h : Rep r ds) {d : ℕ} (hd : d < 256) :
    Rep { r with xi := Function.update r.xi (dprev r.lo) d } (ds.dropLast ++ [d]) := by
  obtain ⟨es, e, rfl⟩ : ∃ es e, ds = es ++ [e] :=
    ⟨ds.dropLast, ds.getLast h.ne_nil, (List.dropLast_append_getLast h.ne_nil).symm⟩
  rw [List.dropLast_concat]
  have hseg := (seg_concat h.hi_lt).mp h.seg
  have hlen : (es ++ [e]).length = es.length + 1 := by rw [List.length_append, List.length_singleton]
  have hle := h.le
  have hprev : dprev r.lo = idx r.hi es.length := by rw [h.lo_eq, hlen, dprev_idx]
  have hlen' : (es ++ [d]).length = (es ++ [e]).length := by
    rw [List.length_append, List.length_append]
    rfl
  refine ⟨h.hi_lt, hlen' ▸ h.pos, hlen' ▸ h.le, ?_, hlen' ▸ h.lo_eq, ?_⟩
  · rw [seg_concat h.hi_lt]
    dsimp only
    rw [hprev, Function.update_self]
    refine ⟨hseg.1.congr h.hi_lt fun k hk => Function.update_of_ne ?_ _ _, rfl⟩
    exact idx_ne hk (by lia)
  · intro a ha
    rcases List.mem_append.mp ha with ha | ha
    · exact h.byte a (List.mem_append_left _ ha)
    · rw [List.mem_singleton.mp ha]
      exact hd

end Rep

/-- The digits of a carry behind the last digit; where the ring is full the last digit is marked. -/
def pushTail : ℕ → ℕ → List ℕ → List ℕ
  | 0, _, ds => ds
  | fuel + 1, cy, ds =>
    if cy = 0 then ds
    else if ds.length = ddig then ds.dropLast ++ [ds.getLastD 0 ||| 1]
    else pushTail fuel (100 * (cy % 64)) (ds ++ [cy / 64])

theorem or_one_lt {d : ℕ} (hd : d < 256) : d ||| 1 < 256 := Nat.or_lt_two_pow (n := 8) hd (by decide)

theorem Rep.getLastD_lt {r : Ring} {ds : List ℕ} (h : Rep r ds) : ds.getLastD 0 < 256 := by
  rw [List.getLastD_eq_getLast?, List.getLast?_eq_some_getLast h.ne_nil]
  exact h.byte _ (List.getLast_mem _)

/-- The loop behind the division ends, and what its two kinds of steps keep holds at the end. -/
theorem downTail_induct {P : ℕ → ℕ → Ring → Prop} {Q : Ring → Prop}
    (hdone : ∀ n r, P (n + 1) 0 r → Q r)
    (hfull : ∀ n cy r, cy ≠ 0 → P (n + 1) cy r → r.hi = r.lo →
      Q (r.set (dprev r.lo) (r.xi (dprev r.lo) ||| 1)))
    (hpush : ∀ n cy r, cy ≠ 0 → P (n + 1) cy r → r.hi ≠ r.lo →
      P n (100 * (cy % 64)) { r.set r.lo (cy / 64) with lo := dnext r.lo }) {f : ℕ} :
    ∀ {cy : ℕ} {r : Ring}, P (f + 2) cy r → 100 ^ f * cy % 64 = 0 →
      ∃ r', downTail (f + 2) cy r = .ok r' ∧ Q r' := by
  induction f with
  | zero =>
      intro cy r h hdiv
      rw [Nat.pow_zero, Nat.one_mul] at hdiv
      rw [downTail]
      by_cases h0 : cy = 0
      · subst h0
        rw [if_pos rfl]
        exact ⟨r, rfl, hdone _ r h⟩
      · rw [if_neg h0]
        by_cases hlo : r.hi = r.lo
        · rw [if_pos hlo]
          exact ⟨_, rfl, hfull _ cy r h0 h hlo⟩
        · have hp := hpush _ cy r h0 h hlo
          rw [hdiv, Nat.mul_zero] at hp
          rw [if_neg hlo, shr_6, and_63, hdiv, Nat.mul_zero, downTail, if_pos rfl]
          exact ⟨_, rfl, hdone _ _ hp⟩
  | succ f ih =>
      intro cy r h hdiv
      rw [downTail]
      by_cases h0 : cy = 0
      · subst h0
        rw [if_pos rfl]
        exact ⟨r, rfl, hdone _ r h⟩
      · rw [if_neg h0]
        by_cases hlo : r.hi = r.lo
        · rw [if_pos hlo]
          exact ⟨_, rfl, hfull _ cy r h0 h hlo⟩
        · have hnext : 100 ^ f * (100 * (cy % 64)) % 64 = 0 := by
            rw [← Nat.mul_assoc, ← pow_succ, Nat.mul_mod, Nat.mod_mod, ← Nat.mul_mod]
            exact hdiv
          rw [if_neg hlo, shr_6, and_63]
          exact ih (hpush _ cy r h0 h hlo) hnext

/-- The loop behind the division appends the digits of the carry. -/
theorem downTail_rep {f cy : ℕ} {r r' : Ring} {ds : List ℕ} (h : Rep r ds) (hcy : cy ≤ 6300)
    (hdiv : 100 ^ f * cy % 64 = 0) (hr : downTail (f + 2) cy r = .ok r') :
    Rep r' (pushTail (f + 2) cy ds) := by
  have hrun : ∃ s, downTail (f + 2) cy r = .ok s ∧ Rep s (pushTail (f + 2) cy ds) := by
    refine downTail_induct
      (P := fun n c s => c ≤ 6300 ∧ ∃ es, Rep s es ∧ pushTail n c es = pushTail (f + 2) cy ds)
      ?_ ?_ ?_ ⟨hcy, ds, h, rfl⟩ hdiv
    · rintro n s ⟨-, es, he, hp⟩
      rw [← hp, pushTail, if_pos rfl]
      exact he
    · rintro n c s h0 ⟨-, es, he, hp⟩ hlo
      rw [← hp, pushTail, if_neg h0, if_pos (he.hi_eq_lo_iff.mp hlo), Ring.set, he.last,
        Nat.mod_eq_of_lt (or_one_lt he.getLastD_lt)]
      exact he.setLast (or_one_lt he.getLastD_lt)
    · rintro n c s h0 ⟨hc, es, he, hp⟩ hlo
      have hlen : es.length ≠ ddig := fun hl => hlo (he.hi_eq_lo_iff.mpr hl)
      rw [pushTail, if_neg h0, if_neg hlen] at hp
      rw [Ring.set, Nat.mod_eq_of_lt (show c / 64 < 256 by lia)]
      exact ⟨by omega, _, he.push (Nat.lt_of_le_of_ne he.le hlen) (by lia), hp⟩
  obtain ⟨s, hs, hrep⟩ := hrun
  rw [hr] at hs
  cases hs
  exact hrep

/-! ### The ring in any state -/

/-- The ring is well formed. -/
structure Good (r : Ring) : Prop where
  hi_lt : r.hi < ddig
  lo_lt : r.lo < ddig
  byte : ∀ j, r.xi j < 256

theorem Ring.set_of_ne {r : Ring} {i j d : ℕ} (h : j ≠ i) : (r.set i d).xi j = r.xi j :=
  Function.update_of_ne h _ _

theorem Ring.set_self {r : Ring} {i d : ℕ} : (r.set i d).xi i = d % 256 := Function.update_self _ _ _

theorem Good.set {r : Ring} (h : Good r) (i d : ℕ) : Good (r.set i d) where
  hi_lt := h.hi_lt
  lo_lt := h.lo_lt
  byte j := by
    rcases eq_or_ne j i with rfl | hj
    · rw [Ring.set_self]
      exact Nat.mod_lt _ (by decide)
    · rw [Ring.set_of_ne hj]
      exact h.byte j

/-- The loop behind the division ends, and changes neither the first digit nor the counters. -/
theorem downTail_good {f cy : ℕ} {r : Ring} (h : Good r) (hcy : cy ≤ 6300) (hdiv : 100 ^ f * cy % 64 = 0) :
    ∃ r', downTail (f + 2) cy r = .ok r' ∧ Good r' ∧ r'.hi = r.hi ∧ r'.xi r.hi = r.xi r.hi ∧
      r'.idig = r.idig ∧ r'.ex2 = r.ex2 := by
  refine downTail_induct
    (P := fun _ c s => c ≤ 6300 ∧ Good s ∧ s.hi = r.hi ∧ s.xi r.hi = r.xi r.hi ∧ s.idig = r.idig ∧ s.ex2 = r.ex2)
    ?_ ?_ ?_ ⟨hcy, h, rfl, rfl, rfl, rfl⟩ hdiv
  · rintro n s ⟨-, hs⟩
    exact hs
  · rintro n c s _ ⟨-, hs, hhi, hxi, hkeep⟩ hlo
    refine ⟨hs.set _ _, hhi, ?_, hkeep⟩
    have hne : r.hi ≠ dprev s.lo := by
      rw [← hlo, hhi]
      exact dprev_ne _
    rw [Ring.set_of_ne hne, hxi]
  · rintro n c s _ ⟨hc, hs, hhi, hxi, hkeep⟩ hlo
    have hg := hs.set s.lo (c / 64)
    refine ⟨by lia, ⟨hg.hi_lt, idx_lt _ 1, hg.byte⟩, hhi, ?_, hkeep⟩
    exact (Ring.set_of_ne (fun he => hlo (hhi.trans he))).trans hxi

/-- The digits from an index on. -/
def readSeg (xi : ℕ → ℕ) (i : ℕ) : ℕ → List ℕ
  | 0 => []
  | n + 1 => xi i :: readSeg xi (idx i 1) n

theorem seg_readSeg (xi : ℕ → ℕ) (n : ℕ) : ∀ i, Seg xi i (readSeg xi i n) ∧ (readSeg xi i n).length = n := by
  induction n with
  | zero => exact fun _ => ⟨trivial, rfl⟩
  | succ n ih => exact fun i => ⟨⟨rfl, (ih _).1⟩, congrArg Nat.succ (ih _).2⟩

theorem mem_readSeg {xi : ℕ → ℕ} {n d : ℕ} : ∀ {i : ℕ}, d ∈ readSeg xi i n → ∃ j, xi j = d := by
  induction n with
  | zero => intro _ h; cases h
  | succ n ih =>
      intro i h
      rcases List.mem_cons.mp h with rfl | h
      · exact ⟨i, rfl⟩
      · exact ih h

/-- A ring in any state holds a list; where the indices meet it is full. -/
theorem Good.rep {r : Ring} (h : Good r) : ∃ ds, Rep r ds := by
  have hhi := h.hi_lt
  have hlo := h.lo_lt
  let n := if r.hi = r.lo then ddig else dlen r.lo r.hi
  have hn : 0 < n ∧ n ≤ ddig ∧ r.lo = idx r.hi n := by
    dsimp only [n]
    unfold dlen idx ddig at *
    split <;> lia
  obtain ⟨hseg, hlen⟩ := seg_readSeg r.xi n r.hi
  refine ⟨readSeg r.xi r.hi n, hhi, hlen.symm ▸ hn.1, hlen.symm ▸ hn.2.1, hseg, hlen.symm ▸ hn.2.2, ?_⟩
  intro d hd
  obtain ⟨j, rfl⟩ := mem_readSeg hd
  exact h.byte j

theorem Rep.head {r : Ring} {d : ℕ} {ds : List ℕ} (h : Rep r (d :: ds)) : r.xi r.hi = d := h.seg.1

/-! ### Scaling down -/

theorem writeSeg_byte {ds : List ℕ} : ∀ {xi : ℕ → ℕ} {i : ℕ}, (∀ j, xi j < 256) → (∀ d ∈ ds, d < 256) →
    ∀ j, writeSeg xi i ds j < 256 := by
  induction ds with
  | nil => exact fun h _ => h
  | cons d ds ih =>
      intro xi i h hb
      refine ih (fun j => ?_) (fun e he => hb e (List.mem_cons_of_mem _ he))
      rcases eq_or_ne j i with rfl | hj
      · rw [Function.update_self]
        exact hb d List.mem_cons_self
      · rw [Function.update_of_ne hj]
        exact h j

/-- One step of scaling down. -/
def downStep (r : Ring) : Except Err Ring := do
  let (cy, r) ← downDigits ddig r.hi 0 { r with ex2 := r.ex2 + 6 }
  downTail 4 cy r

theorem scaleDown_succ (fuel : ℕ) (r : Ring) :
    scaleDown (fuel + 1) r = if r.idig > 9 then downStep r >>= scaleDown fuel else .ok r := by
  rw [scaleDown, downStep]
  split
  · cases downDigits ddig r.hi 0 { r with ex2 := r.ex2 + 6 } <;> rfl
  · rfl

/-- What a step of scaling down on a list does. -/
structure Down (r r' : Ring) (ds : List ℕ) : Prop where
  good : Good r'
  idig : r'.idig = r.idig - zerosLen (divDigits ds 0).1
  ex2 : r'.ex2 = r.ex2 + 6
  /-- A first digit that is not given up is the quotient. -/
  head : zerosLen (divDigits ds 0).1 = 0 → r'.xi r'.hi = ds.headD 0 / 64
  rep : zerosLen (divDigits ds 0).1 < ds.length →
    Rep r' (pushTail 4 (divDigits ds 0).2 ((divDigits ds 0).1.drop (zerosLen (divDigits ds 0).1)))

theorem downStep_spec {r : Ring} {ds : List ℕ} (h : Rep r ds) (hg : Good r) :
    ∃ r', downStep r = .ok r' ∧ Down r r' ds := by
  have hrun : downDigits ddig r.hi 0 { r with ex2 := r.ex2 + 6 } = _ :=
    downDigits_spec h.ne_nil h.le h.le h.hi_lt rfl h.seg h.lo_eq (Nat.zero_le _) h.byte
  obtain ⟨c, hc, hcy⟩ := @divDigits_carry ds 0 ⟨0, by decide, rfl⟩
  have hbyte := divDigits_byte (Nat.zero_le _) h.byte
  have hlen := length_divDigits ds 0
  have hseg := @seg_writeSeg r.xi r.hi (divDigits ds 0).1 h.hi_lt (by rw [hlen]; exact h.le)
  revert hrun hcy hbyte hlen hseg
  generalize hdiv : divDigits ds 0 = qc
  obtain ⟨q, cy⟩ := qc
  dsimp only
  intro hrun hcy hbyte hlen hseg
  subst hcy
  have hgood : Good { r with
      ex2 := r.ex2 + 6, xi := writeSeg r.xi r.hi q, hi := idx r.hi (zerosLen q), idig := r.idig - zerosLen q } :=
    ⟨idx_lt _ _, h.lo_lt, writeSeg_byte hg.byte hbyte⟩
  obtain ⟨r', hr', hg', hhi, hxi, hidig, hex⟩ :=
    downTail_good (f := 2) hgood (show 100 * c ≤ 6300 by omega) (by lia)
  refine ⟨r', ?_, hg', ?_, hex, ?_, ?_⟩
  · rw [downStep, hrun]
    exact hr'
  · rw [hdiv]
    exact hidig
  · rw [hdiv]
    intro hz
    dsimp only at hz hhi hxi
    rw [hz, idx_zero h.hi_lt] at hhi hxi
    rw [hhi, hxi]
    obtain ⟨d, es, rfl⟩ := List.exists_cons_of_ne_nil h.ne_nil
    rw [divDigits, Nat.zero_add, Prod.mk.injEq] at hdiv
    rw [← hdiv.1] at hseg ⊢
    exact hseg.1
  · rw [hdiv]
    intro hz
    dsimp only at hz ⊢
    have hq : q.take (zerosLen q) ++ q.drop (zerosLen q) = q := List.take_append_drop _ _
    rw [← hq, seg_append h.hi_lt, List.length_take, Nat.min_eq_left (by lia)] at hseg
    have hrep : Rep { r with
        ex2 := r.ex2 + 6, xi := writeSeg r.xi r.hi q, hi := idx r.hi (zerosLen q), idig := r.idig - zerosLen q }
        (q.drop (zerosLen q)) := by
      refine ⟨idx_lt _ _, ?_, ?_, ?_, ?_, fun d hd => hbyte d (List.mem_of_mem_drop hd)⟩
      · rw [List.length_drop]
        lia
      · have := h.le
        rw [List.length_drop]
        lia
      · rw [hq] at hseg
        exact hseg.2
      · dsimp only
        rw [List.length_drop, idx_add, hlen, Nat.add_sub_cancel' (Nat.le_of_lt hz)]
        exact h.lo_eq
    exact downTail_rep hrep (by omega) (by lia) hr'

/-- A first digit below 64 is given up. -/
theorem zerosLen_pos {d : ℕ} (ds : List ℕ) (hd : d < 64) : 0 < zerosLen (divDigits (d :: ds) 0).1 := by
  rw [divDigits, Nat.zero_add, Nat.div_eq_of_lt hd, zerosLen_cons_zero]
  exact Nat.succ_pos _

/-- Scaling down ends: two steps give up a digit. -/
theorem scaleDown_total {fuel : ℕ} : ∀ {r : Ring}, Good r →
    2 * (r.idig - 9).toNat + (if r.xi r.hi < 64 then 0 else 1) < fuel →
    ∃ r', scaleDown fuel r = .ok r' ∧ Good r' ∧ r'.idig ≤ 9 := by
  induction fuel with
  | zero => intro r _ h; exact absurd h (Nat.not_lt_zero _)
  | succ fuel ih =>
      intro r hg h
      rw [scaleDown_succ]
      split
      · next hidig =>
          obtain ⟨ds, hrep⟩ := hg.rep
          obtain ⟨r', hr', hdown⟩ := downStep_spec hrep hg
          obtain ⟨d, es, rfl⟩ := List.exists_cons_of_ne_nil hrep.ne_nil
          have hd := hrep.head
          have hb := hg.byte r.hi
          rw [hr']
          refine ih hdown.good ?_
          have hi := hdown.idig
          by_cases hz : zerosLen (divDigits (d :: es) 0).1 = 0
          · have hhead := hdown.head hz
            rw [List.headD_cons] at hhead
            have hge : ¬ d < 64 := fun hlt => by have := zerosLen_pos es hlt; omega
            rw [hd, if_neg hge] at h
            rw [hhead, if_pos (by lia), hi, hz]
            lia
          · rw [hi]
            split at h <;> split <;> lia
      · next hidig => exact ⟨r, rfl, hg, by omega⟩

/-! ### Multiplication -/

/-- The digits multiplied by 64, from the last one. -/
def mulDigits : List ℕ → ℕ → List ℕ × ℕ
  | [], cy => ([], cy)
  | d :: ds, cy =>
    ((d * 64 + (mulDigits ds cy).2) % 100 :: (mulDigits ds cy).1, (d * 64 + (mulDigits ds cy).2) / 100)

theorem mulDigits_concat (ds : List ℕ) (d cy : ℕ) :
    mulDigits (ds ++ [d]) cy =
      ((mulDigits ds ((d * 64 + cy) / 100)).1 ++ [(d * 64 + cy) % 100],
        (mulDigits ds ((d * 64 + cy) / 100)).2) := by
  induction ds with
  | nil => rfl
  | cons e ds ih => rw [List.cons_append, mulDigits, ih, mulDigits, List.cons_append]

@[simp] theorem length_mulDigits (ds : List ℕ) (cy : ℕ) : (mulDigits ds cy).1.length = ds.length := by
  induction ds with
  | nil => rfl
  | cons d ds ih => rw [mulDigits, List.length_cons, ih, List.length_cons]

theorem mulDigits_lt (ds : List ℕ) (cy : ℕ) : ∀ m ∈ (mulDigits ds cy).1, m < 100 := by
  induction ds with
  | nil => intro m hm; cases hm
  | cons d ds ih =>
      intro m hm
      rw [mulDigits] at hm
      rcases List.mem_cons.mp hm with rfl | hm
      · exact Nat.mod_lt _ (by decide)
      · exact ih m hm

theorem mulDigits_carry {ds : List ℕ} {cy : ℕ} (hcy : cy ≤ 165) (hb : ∀ d ∈ ds, d < 256) :
    (mulDigits ds cy).2 ≤ 165 := by
  induction ds with
  | nil => exact hcy
  | cons d ds ih =>
      have hd := hb d List.mem_cons_self
      have := ih fun e he => hb e (List.mem_cons_of_mem _ he)
      rw [mulDigits]
      dsimp only
      lia

theorem writeSeg_concat {ds : List ℕ} {d : ℕ} : ∀ {xi : ℕ → ℕ} {i : ℕ}, ds.length < ddig → i < ddig →
    writeSeg xi i (ds ++ [d]) = writeSeg (Function.update xi (idx i ds.length) d) i ds := by
  induction ds with
  | nil =>
      intro xi i _ hi
      rw [List.nil_append, List.length_nil, idx_zero hi]
      rfl
  | cons e ds ih =>
      intro xi i hlen hi
      rw [List.length_cons] at hlen
      have hne : i ≠ idx i (ds.length + 1) := by
        have := idx_ne (i := i) (k := 0) (l := ds.length + 1) (by omega) (by omega)
        rwa [idx_zero hi] at this
      rw [List.cons_append, writeSeg, ih (by omega) (idx_lt _ _), writeSeg, idx_add, List.length_cons,
        Nat.add_comm 1, Function.update_comm hne]

/-- The division of the carry is exact on the sums that occur. -/
theorem div_100 {t : ℕ} (ht : t < 174600) : ((t >>> 2) * 5243) >>> 17 = t / 100 := by
  rw [Nat.shiftRight_eq_div_pow, Nat.shiftRight_eq_div_pow]
  lia

/-- A step of the inner loop of scaling up, with the end of the digits that it leaves. -/
theorem upDigits_succ {fuel i cy d : ℕ} {r : Ring} (hd : r.xi i = d) (hb : d < 256) (hcy : cy ≤ 165) :
    upDigits (fuel + 1) i cy r =
      if i = r.hi then
        .ok ((d * 64 + cy) / 100, { r with xi := Function.update r.xi i ((d * 64 + cy) % 100) })
      else
        upDigits fuel (dprev i) ((d * 64 + cy) / 100)
          { r with
            xi := Function.update r.xi i ((d * 64 + cy) % 100)
            lo := if (d * 64 + cy) % 100 = 0 ∧ i = dprev r.lo then i else r.lo } := by
  have ht : r.xi i <<< 6 + cy = d * 64 + cy := by rw [hd, Nat.shiftLeft_eq]
  have hrem : d * 64 + cy - (d * 64 + cy) / 100 * 100 = (d * 64 + cy) % 100 := by lia
  rw [upDigits, ht, div_100 (by lia), hrem, Ring.set,
    Nat.mod_eq_of_lt (show (d * 64 + cy) % 100 < 256 by lia)]
  dsimp only
  split
  · rfl
  · split <;> rfl

/-- The inner loop of scaling up where the end stays. -/
theorem upDigits_keep {n : ℕ} : ∀ {fuel cy : ℕ} {r : Ring} {ds : List ℕ}, ds.length = n + 1 → n < fuel →
    n < ddig → r.hi < ddig → Seg r.xi r.hi ds → cy ≤ 165 → (∀ d ∈ ds, d < 256) →
    (∀ k ≤ n, idx r.hi k ≠ dprev r.lo) →
    upDigits fuel (idx r.hi n) cy r =
      .ok ((mulDigits ds cy).2, { r with xi := writeSeg r.xi r.hi (mulDigits ds cy).1 }) := by
  induction n with
  | zero =>
      intro fuel cy r ds hlen hfuel _ hhi hseg hcy hb _
      obtain ⟨d, rfl⟩ := List.length_eq_one_iff.mp hlen
      obtain ⟨fuel, rfl⟩ : ∃ f, fuel = f + 1 := ⟨fuel - 1, by lia⟩
      rw [idx_zero hhi, upDigits_succ hseg.1 (hb d List.mem_cons_self) hcy, if_pos rfl]
      rfl
  | succ n ih =>
      intro fuel cy r ds hlen hfuel hn hhi hseg hcy hb hlo
      obtain ⟨fuel, rfl⟩ : ∃ f, fuel = f + 1 := ⟨fuel - 1, by lia⟩
      have hne : ds ≠ [] := List.ne_nil_of_length_eq_add_one hlen
      obtain ⟨es, e, rfl⟩ : ∃ es e, ds = es ++ [e] :=
        ⟨ds.dropLast, ds.getLast hne, (List.dropLast_append_getLast hne).symm⟩
      have hlen' : es.length = n + 1 := by
        rw [List.length_append, List.length_singleton] at hlen
        lia
      obtain ⟨hes, he⟩ := (seg_concat hhi).mp hseg
      have hbe : e < 256 := hb e (List.mem_append_right _ (List.mem_singleton_self e))
      have hi : idx r.hi (n + 1) ≠ r.hi := by
        have := idx_ne (i := r.hi) (k := 0) (l := n + 1) (by lia) (by lia)
        rw [idx_zero hhi] at this
        exact this.symm
      rw [hlen'] at he
      rw [upDigits_succ he hbe hcy, if_neg hi, if_neg (fun h => hlo (n + 1) (Nat.le_refl _) h.2), dprev_idx,
        mulDigits_concat, writeSeg_concat (by rw [length_mulDigits]; lia) hhi, length_mulDigits, hlen']
      refine @ih _ _ { r with xi := Function.update r.xi (idx r.hi (n + 1)) ((e * 64 + cy) % 100) } es hlen'
        (by lia) (by lia) hhi ?_ (by lia) (fun d hd => hb d (List.mem_append_left _ hd))
        (fun k hk => hlo k (by lia))
      exact hes.congr hhi fun k hk => Function.update_of_ne (idx_ne (by lia) (by lia)) _ _

/-- The length of a list without the zeros at its end; the first digit stays. -/
def trimLen (ds : List ℕ) : ℕ := max 1 (ds.rdropWhile (· = 0)).length

theorem trimLen_concat_zero {ds : List ℕ} : trimLen (ds ++ [0]) = trimLen ds := by
  rw [trimLen, List.rdropWhile_concat_pos _ _ _ (by simp), trimLen]

theorem trimLen_concat {ds : List ℕ} {d : ℕ} (hd : d ≠ 0) : trimLen (ds ++ [d]) = ds.length + 1 := by
  rw [trimLen, List.rdropWhile_concat_neg _ _ _ (by simpa using hd), List.length_append,
    List.length_singleton, Nat.max_eq_right (Nat.le_add_left _ _)]

theorem trimLen_singleton (d : ℕ) : trimLen [d] = 1 := by
  rcases eq_or_ne d 0 with rfl | hd
  · rfl
  · exact @trimLen_concat [] d hd

/-- The inner loop of scaling up: the zeros at the end are given up. -/
theorem upDigits_spec {n : ℕ} : ∀ {fuel cy : ℕ} {r : Ring} {ds : List ℕ}, ds.length = n + 1 → n < fuel →
    n + 1 < ddig → r.hi < ddig → Seg r.xi r.hi ds → r.lo = idx r.hi (n + 1) → cy ≤ 165 →
    (∀ d ∈ ds, d < 256) →
    upDigits fuel (idx r.hi n) cy r =
      .ok ((mulDigits ds cy).2,
        { r with
          xi := writeSeg r.xi r.hi (mulDigits ds cy).1
          lo := idx r.hi (trimLen (mulDigits ds cy).1) }) := by
  induction n with
  | zero =>
      intro fuel cy r ds hlen hfuel _ hhi hseg hlo hcy hb
      obtain ⟨d, rfl⟩ := List.length_eq_one_iff.mp hlen
      obtain ⟨fuel, rfl⟩ : ∃ f, fuel = f + 1 := ⟨fuel - 1, by lia⟩
      rw [idx_zero hhi, upDigits_succ hseg.1 (hb d List.mem_cons_self) hcy, if_pos rfl, mulDigits, mulDigits,
        trimLen_singleton, ← hlo]
      rfl
  | succ n ih =>
      intro fuel cy r ds hlen hfuel hn hhi hseg hlo hcy hb
      obtain ⟨fuel, rfl⟩ : ∃ f, fuel = f + 1 := ⟨fuel - 1, by lia⟩
      have hne : ds ≠ [] := List.ne_nil_of_length_eq_add_one hlen
      obtain ⟨es, e, rfl⟩ : ∃ es e, ds = es ++ [e] :=
        ⟨ds.dropLast, ds.getLast hne, (List.dropLast_append_getLast hne).symm⟩
      have hlen' : es.length = n + 1 := by
        rw [List.length_append, List.length_singleton] at hlen
        lia
      obtain ⟨hes, he⟩ := (seg_concat hhi).mp hseg
      have hbe : e < 256 := hb e (List.mem_append_right _ (List.mem_singleton_self e))
      have hbs : ∀ d ∈ es, d < 256 := fun d hd => hb d (List.mem_append_left _ hd)
      have hi : idx r.hi (n + 1) ≠ r.hi := by
        have := idx_ne (i := r.hi) (k := 0) (l := n + 1) (by lia) (by lia)
        rw [idx_zero hhi] at this
        exact this.symm
      have hseg' : Seg (Function.update r.xi (idx r.hi (n + 1)) ((e * 64 + cy) % 100)) r.hi es :=
        hes.congr hhi fun k hk => Function.update_of_ne (idx_ne (by lia) (by lia)) _ _
      rw [hlen'] at he
      rw [upDigits_succ he hbe hcy, if_neg hi, dprev_idx, mulDigits_concat,
        writeSeg_concat (by rw [length_mulDigits]; lia) hhi, length_mulDigits, hlen']
      by_cases h0 : (e * 64 + cy) % 100 = 0
      · rw [if_pos ⟨h0, by rw [hlo, dprev_idx]⟩, h0, trimLen_concat_zero]
        rw [h0] at hseg'
        exact @ih _ _ { r with
            xi := Function.update r.xi (idx r.hi (n + 1)) 0, lo := idx r.hi (n + 1) } es hlen' (by lia)
          (by lia) hhi hseg' rfl (by lia) hbs
      · rw [if_neg (fun h => h0 h.1), trimLen_concat h0, length_mulDigits, hlen', ← hlo]
        refine @upDigits_keep _ _ _ { r with
            xi := Function.update r.xi (idx r.hi (n + 1)) ((e * 64 + cy) % 100) } es hlen' (by lia)
          (by lia) hhi hseg' (by lia) hbs fun k hk => ?_
        dsimp only
        rw [hlo, dprev_idx]
        exact idx_ne (by lia) (by lia)

/-! ### Scaling up -/

/-- The carry in front of the digits; a list that would fill the ring gives up its last digit. -/
def carryDigits (c : ℕ) (ds : List ℕ) : List ℕ :=
  if ds.getLastD 0 = 0 then c :: ds.dropLast
  else if ds.length = ddig - 1 then
    c :: (ds.dropLast.dropLast ++ [ds.dropLast.getLastD 0 ||| ds.getLastD 0])
  else c :: ds

/-- The digits multiplied by 64, without the zeros at the end. -/
def upDigitsTrim (ds : List ℕ) : List ℕ := (mulDigits ds 0).1.take (trimLen (mulDigits ds 0).1)

/-- What a step of scaling up makes of the digits. -/
def upList (ds : List ℕ) : List ℕ :=
  if (mulDigits ds 0).2 ≠ 0 then carryDigits (mulDigits ds 0).2 (upDigitsTrim ds) else upDigitsTrim ds

/-- One step of scaling up. -/
def upStep (r : Ring) : Except Err Ring := do
  let (cy, r) ← upDigits ddig (dprev r.lo) 0 { r with ex2 := r.ex2 - 6 }
  .ok (if cy ≠ 0 then upCarry cy r else r)

theorem scaleUp_succ (fuel : ℕ) (r : Ring) :
    scaleUp (fuel + 1) r =
      if r.idig < 9 ∧ r.idig < dlen r.lo r.hi then upStep r >>= scaleUp fuel else .ok r := by
  rw [scaleUp, upStep]
  split
  · cases upDigits ddig (dprev r.lo) 0 { r with ex2 := r.ex2 - 6 } <;> rfl
  · rfl

theorem trimLen_le {ds : List ℕ} (h : ds ≠ []) : trimLen ds ≤ ds.length := by
  have hpos := List.length_pos_of_ne_nil h
  have := (List.rdropWhile_prefix (fun d => d = 0) ds).length_le
  rw [trimLen]
  lia

theorem trimLen_pos (ds : List ℕ) : 0 < trimLen ds := by
  rw [trimLen]
  omega

/-- A digit in front of the first one. -/
theorem rep_cons {r : Ring} {ds : List ℕ} {c : ℕ} (hhi : r.hi < ddig) (hlen : ds.length < ddig)
    (hseg : Seg r.xi r.hi ds) (hlo : r.lo = idx r.hi ds.length) (hb : ∀ d ∈ ds, d < 256) (hc : c < 256) :
    Rep { r with xi := Function.update r.xi (dprev r.hi) c, hi := dprev r.hi } (c :: ds) where
  hi_lt := dprev_lt _
  pos := Nat.succ_pos _
  le := hlen
  seg := by
    have hnext : idx (dprev r.hi) 1 = r.hi := dnext_dprev hhi
    dsimp only
    rw [Seg, hnext]
    constructor
    · rw [Function.update_self]
    · exact hseg.congr hhi fun k hk => Function.update_of_ne (idx_ne_dprev (by lia)) _ _
  lo_eq := by
    have hnext : idx (dprev r.hi) 1 = r.hi := dnext_dprev hhi
    dsimp only
    rw [hlo, List.length_cons, Nat.add_comm, ← idx_add, hnext]
  byte := by
    intro d hd
    rcases List.mem_cons.mp hd with rfl | hd
    · exact hc
    · exact hb d hd

/-- The last digit is given up. -/
theorem Rep.pop {r : Ring} {ds : List ℕ} {d : ℕ} (h : Rep r (ds ++ [d])) (hne : ds ≠ []) :
    Rep { r with lo := dprev r.lo } ds where
  hi_lt := h.hi_lt
  pos := List.length_pos_of_ne_nil hne
  le := by
    have := h.le
    rw [List.length_append] at this
    omega
  seg := ((seg_concat h.hi_lt).mp h.seg).1
  lo_eq := by
    dsimp only
    rw [h.lo_eq, List.length_append, List.length_singleton, dprev_idx]
  byte e he := h.byte e (List.mem_append_left _ he)

theorem Good.pop {r : Ring} (h : Good r) : Good { r with lo := dprev r.lo } :=
  ⟨h.hi_lt, dprev_lt _, h.byte⟩

/-- A digit becomes the first one. -/
def Ring.unshift (r : Ring) (c : ℕ) : Ring :=
  { r.set (dprev r.hi) c with hi := dprev r.hi, idig := r.idig + 1 }

theorem Good.unshift {r : Ring} (h : Good r) (c : ℕ) : Good (r.unshift c) :=
  ⟨dprev_lt _, h.lo_lt, (h.set _ _).byte⟩

theorem Rep.unshift {r : Ring} {ds : List ℕ} {c : ℕ} (h : Rep r ds) (hlen : ds.length < ddig) (hc : c < 256) :
    Rep (r.unshift c) (c :: ds) := by
  have hrep := rep_cons h.hi_lt hlen h.seg h.lo_eq h.byte hc
  rw [Ring.unshift, Ring.set, Nat.mod_eq_of_lt hc]
  exact hrep.congr rfl rfl rfl

theorem or_lt {d e : ℕ} (hd : d < 256) (he : e < 256) : d ||| e < 256 := Nat.or_lt_two_pow (n := 8) hd he

section Carry

variable {r : Ring} {c : ℕ}

theorem upCarry_zero (h : r.xi (dprev r.lo) = 0) : upCarry c r = { r with lo := dprev r.lo }.unshift c := by
  rw [upCarry]
  dsimp only
  rw [if_pos h]
  rfl

theorem upCarry_full (h : r.xi (dprev r.lo) ≠ 0) (hlo : dprev r.hi = r.lo) :
    upCarry c r =
      ({ r with lo := dprev r.lo }.set (dprev (dprev r.lo))
        (r.xi (dprev (dprev r.lo)) ||| r.xi (dprev r.lo))).unshift c := by
  rw [upCarry]
  dsimp only
  rw [if_neg h, if_pos hlo]
  rfl

theorem upCarry_room (h : r.xi (dprev r.lo) ≠ 0) (hlo : dprev r.hi ≠ r.lo) : upCarry c r = r.unshift c := by
  rw [upCarry]
  dsimp only
  rw [if_neg h, if_neg hlo]
  rfl

end Carry

/-- The new first digit is at the end of the digits when all entries but one are in use. -/
theorem Rep.dprev_hi {r : Ring} {ds : List ℕ} (h : Rep r ds) : dprev r.hi = r.lo ↔ ds.length + 1 = ddig := by
  have hhi := h.hi_lt
  have hpos := h.pos
  have hle := h.le
  rw [h.lo_eq]
  unfold dprev idx ddig at *
  lia

/-- The carry of scaling up. -/
theorem upCarry_spec {r : Ring} {ds : List ℕ} {c : ℕ} (h : Rep r ds) (hg : Good r) (hlen : ds.length < ddig)
    (hc : c < 256) :
    Rep (upCarry c r) (carryDigits c ds) ∧ Good (upCarry c r) ∧ (upCarry c r).idig = r.idig + 1 ∧
      (upCarry c r).ex2 = r.ex2 := by
  have hlast := h.last
  have hfull := h.dprev_hi
  obtain ⟨es, e, rfl⟩ : ∃ es e, ds = es ++ [e] :=
    ⟨ds.dropLast, ds.getLast h.ne_nil, (List.dropLast_append_getLast h.ne_nil).symm⟩
  rw [List.getLastD_concat] at hlast
  rw [List.length_append, List.length_singleton] at hlen hfull
  rw [carryDigits, List.getLastD_concat, List.dropLast_concat, List.length_append, List.length_singleton]
  by_cases h0 : e = 0
  · rw [if_pos h0, upCarry_zero (hlast.trans h0)]
    refine ⟨?_, hg.pop.unshift c, rfl, rfl⟩
    by_cases hne : es = []
    · subst hne
      have hrep := @rep_cons { r with lo := dprev r.lo } [] c h.hi_lt (by decide) trivial ?_
        (fun _ hd => by cases hd) hc
      · rw [Ring.unshift, Ring.set, Nat.mod_eq_of_lt hc]
        exact hrep.congr rfl rfl rfl
      · dsimp only
        rw [h.lo_eq, List.nil_append, List.length_singleton, List.length_nil, dprev_idx]
    · exact (h.pop hne).unshift (by omega) hc
  · rw [if_neg h0]
    have hxi : r.xi (dprev r.lo) ≠ 0 := by rw [hlast]; exact h0
    by_cases h511 : es.length + 1 = ddig - 1
    · have hd : ddig = 512 := rfl
      have hne : es ≠ [] := List.ne_nil_of_length_pos (by lia)
      have hpop := h.pop hne
      have hor : es.getLastD 0 ||| e < 256 :=
        or_lt hpop.getLastD_lt (h.byte e (List.mem_append_right _ (List.mem_singleton_self e)))
      have hset := hpop.setLast hor
      have hval : r.xi (dprev (dprev r.lo)) ||| r.xi (dprev r.lo) = es.getLastD 0 ||| e := by
        rw [hlast]
        exact congrArg (· ||| e) hpop.last
      rw [if_pos h511, upCarry_full hxi (hfull.mpr (by lia)), hval]
      refine ⟨?_, (hg.pop.set _ _).unshift c, rfl, rfl⟩
      rw [Ring.set, Nat.mod_eq_of_lt hor]
      refine hset.unshift ?_ hc
      rw [List.length_append, List.length_dropLast, List.length_singleton]
      lia
    · rw [if_neg h511, upCarry_room hxi (fun hf => h511 (by have := hfull.mp hf; lia))]
      refine ⟨h.unshift ?_ hc, hg.unshift c, rfl, rfl⟩
      rw [List.length_append, List.length_singleton]
      exact hlen

theorem carryDigits_length {c : ℕ} {ds : List ℕ} (h : ds ≠ []) (hlen : ds.length < ddig) :
    (carryDigits c ds).length < ddig := by
  have hpos := List.length_pos_of_ne_nil h
  have hd : ddig = 512 := rfl
  rw [carryDigits]
  split
  · rw [List.length_cons, List.length_dropLast]
    lia
  · split
    · rw [List.length_cons, List.length_append, List.length_dropLast, List.length_dropLast,
        List.length_singleton]
      lia
    · rw [List.length_cons]
      lia

theorem carryDigits_head (c : ℕ) (ds : List ℕ) : (carryDigits c ds).headD 0 = c := by
  rw [carryDigits]
  split
  · rfl
  · split <;> rfl

theorem length_upDigitsTrim (ds : List ℕ) (h : ds ≠ []) :
    0 < (upDigitsTrim ds).length ∧ (upDigitsTrim ds).length ≤ ds.length := by
  have hne : (mulDigits ds 0).1 ≠ [] := by
    intro hnil
    have := length_mulDigits ds 0
    rw [hnil] at this
    exact h (List.length_eq_zero_iff.mp this.symm)
  have := trimLen_le hne
  have := trimLen_pos (mulDigits ds 0).1
  rw [length_mulDigits] at *
  rw [upDigitsTrim, List.length_take, length_mulDigits]
  lia

/-- A step of scaling up. -/
theorem upStep_spec {r : Ring} {ds : List ℕ} (h : Rep r ds) (hg : Good r) (hlen : ds.length < ddig) :
    ∃ r', upStep r = .ok r' ∧ Rep r' (upList ds) ∧ Good r' ∧ r'.ex2 = r.ex2 - 6 ∧
      r'.idig = r.idig + (if (mulDigits ds 0).2 ≠ 0 then 1 else 0) := by
  obtain ⟨n, hn⟩ : ∃ n, ds.length = n + 1 := ⟨ds.length - 1, by have := h.pos; lia⟩
  have hprev : dprev r.lo = idx r.hi n := by rw [h.lo_eq, hn, dprev_idx]
  have hlo : r.lo = idx r.hi (n + 1) := by rw [← hn]; exact h.lo_eq
  have hrun := @upDigits_spec n ddig 0 { r with ex2 := r.ex2 - 6 } ds hn (by omega) (by omega) h.hi_lt h.seg
    hlo (Nat.zero_le _) h.byte
  dsimp only at hrun
  obtain ⟨hpos, hle⟩ := length_upDigitsTrim ds h.ne_nil
  have hmlen := length_mulDigits ds 0
  have hmb : ∀ m ∈ (mulDigits ds 0).1, m < 256 := fun m hm => by
    have := mulDigits_lt ds 0 m hm
    omega
  have htrim : trimLen (mulDigits ds 0).1 = (upDigitsTrim ds).length := by
    have hne : (mulDigits ds 0).1 ≠ [] := List.ne_nil_of_length_pos (by omega)
    rw [upDigitsTrim, List.length_take, Nat.min_eq_left (trimLen_le hne)]
  have hgood : Good { r with
      ex2 := r.ex2 - 6, xi := writeSeg r.xi r.hi (mulDigits ds 0).1
      lo := idx r.hi (trimLen (mulDigits ds 0).1) } :=
    ⟨h.hi_lt, idx_lt _ _, writeSeg_byte hg.byte hmb⟩
  have hrep : Rep { r with
      ex2 := r.ex2 - 6, xi := writeSeg r.xi r.hi (mulDigits ds 0).1
      lo := idx r.hi (trimLen (mulDigits ds 0).1) } (upDigitsTrim ds) := by
    refine ⟨h.hi_lt, hpos, by lia, ?_, congrArg (idx r.hi) htrim,
      fun d hd => hmb d (List.mem_of_mem_take hd)⟩
    have hseg := @seg_writeSeg r.xi r.hi (mulDigits ds 0).1 h.hi_lt (by lia)
    have hsplit := List.take_append_drop (trimLen (mulDigits ds 0).1) (mulDigits ds 0).1
    rw [← hsplit, seg_append h.hi_lt, hsplit] at hseg
    exact hseg.1
  have hcarry := mulDigits_carry (Nat.zero_le 165) h.byte
  rw [upStep, hprev, hrun, upList]
  by_cases h0 : (mulDigits ds 0).2 = 0
  · refine ⟨_, rfl, ?_⟩
    simp only [h0, ne_eq, not_true_eq_false, if_false]
    exact ⟨hrep, hgood, trivial, (Int.add_zero _).symm⟩
  · obtain ⟨hr, hg', hi, he⟩ := upCarry_spec hrep hgood (by lia) (Nat.lt_of_le_of_lt hcarry (by decide))
    refine ⟨_, rfl, ?_⟩
    simp only [h0, ne_eq, not_false_eq_true, if_true]
    exact ⟨hr, hg', he, hi⟩

theorem upList_length {ds : List ℕ} (h : ds ≠ []) (hlen : ds.length < ddig) : (upList ds).length < ddig := by
  obtain ⟨hpos, hle⟩ := length_upDigitsTrim ds h
  rw [upList]
  split
  · exact carryDigits_length (List.ne_nil_of_length_pos hpos) (by omega)
  · omega

/-- The first digit after a step of scaling up: the carry, or the product where there is none. -/
theorem upList_head {d : ℕ} {ds : List ℕ} :
    (upList (d :: ds)).headD 0 =
      if (mulDigits (d :: ds) 0).2 ≠ 0 then (mulDigits (d :: ds) 0).2
      else d * 64 + (mulDigits ds 0).2 := by
  rw [upList]
  split
  · exact carryDigits_head _ _
  · next h0 =>
      have hcarry : (d * 64 + (mulDigits ds 0).2) / 100 = 0 := not_not.mp h0
      obtain ⟨n, hn⟩ : ∃ n, trimLen (mulDigits (d :: ds) 0).1 = n + 1 :=
        ⟨_, (Nat.succ_pred_eq_of_pos (trimLen_pos _)).symm⟩
      rw [upDigitsTrim, hn, mulDigits, List.take_succ_cons, List.headD_cons]
      lia

/-- Scaling up ends: two steps give a digit. -/
theorem scaleUp_total {fuel : ℕ} : ∀ {r : Ring} {ds : List ℕ}, Rep r ds → Good r → ds.length < ddig →
    ds.headD 0 ≠ 0 → 2 * (9 - r.idig).toNat + (if ds.headD 0 < 2 then 1 else 0) < fuel →
    ∃ r', scaleUp fuel r = .ok r' ∧ Good r' ∧ (r'.idig = r.idig ∨ r'.idig ≤ 9) := by
  induction fuel with
  | zero => intro r ds _ _ _ _ h; exact absurd h (Nat.not_lt_zero _)
  | succ fuel ih =>
      intro r ds hrep hg hlen hhead h
      rw [scaleUp_succ]
      split
      · next hidig =>
          obtain ⟨r', hr', hrep', hg', -, hi⟩ := upStep_spec hrep hg hlen
          obtain ⟨d, es, rfl⟩ := List.exists_cons_of_ne_nil hrep.ne_nil
          have hup := @upList_head d es
          have hcarry : (mulDigits (d :: es) 0).2 = (d * 64 + (mulDigits es 0).2) / 100 := rfl
          rw [List.headD_cons] at hhead h
          have hhead' : (upList (d :: es)).headD 0 ≠ 0 := by
            rw [hup]
            split <;> lia
          have hmeasure :
              2 * (9 - r'.idig).toNat + (if (upList (d :: es)).headD 0 < 2 then 1 else 0) < fuel := by
            by_cases h0 : (mulDigits (d :: es) 0).2 = 0
            · rw [if_neg (fun hne => hne h0)] at hup hi
              rw [if_pos (by lia)] at h
              rw [hup, hi, if_neg (by lia)]
              lia
            · rw [if_pos h0] at hup hi
              rw [hup, hi]
              split at h <;> split <;> lia
          obtain ⟨r'', hr'', hg'', hle⟩ := ih hrep' hg' (upList_length hrep.ne_nil hlen) hhead' hmeasure
          refine ⟨r'', ?_, hg'', .inr (by split at hi <;> lia)⟩
          rw [hr']
          exact hr''
      · exact ⟨r, rfl, hg, .inl rfl⟩

end Strscan
