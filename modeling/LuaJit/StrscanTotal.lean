/-
**The parser of decimal numbers ends.**

The buffer of a numeral that does not begin with a zero has a first digit, so scaling up and scaling down
both end, and the integer part of the ring can be collected.

Main definitions:

* `Strscan.Digits` — what holds of the buffer of a numeral.

Main results:

* `Strscan.decBuffer_digits` — the buffer;
* `Strscan.rescale_total` — rescaling ends;
* `Strscan.strscanDec_total` — a numeral that is no integer of C has a value.
-/

import LuaJit.StrscanRing

set_option relaxedAutoImplicit false
set_option autoImplicit false

namespace Strscan

/-! ### The integer part -/

theorem collect_total {fuel : ℕ} : ∀ {i : ℕ} {idig : ℤ} {x : BitVec 64} {r : Ring}, i < ddig →
    idig.toNat < fuel → ∃ i' idig' x', collect fuel i idig x r = .ok (i', idig', x') ∧ i' < ddig := by
  induction fuel with
  | zero => intro _ _ _ _ _ h; exact absurd h (Nat.not_lt_zero _)
  | succ fuel ih =>
      intro i idig x r hi h
      rw [collect]
      split
      · next hgo => exact ih (idx_lt i 1) (by lia)
      · exact ⟨i, _, x, rfl, hi⟩

theorem roundBit_total {n : ℕ} : ∀ {fuel i : ℕ} {x : BitVec 64} {r : Ring}, n < fuel → n < ddig → i < ddig →
    r.lo = idx i (n + 1) → ∃ x', roundBit fuel i x r = .ok x' := by
  induction n with
  | zero =>
      intro fuel i x r hfuel _ _ hlo
      obtain ⟨fuel, rfl⟩ : ∃ f, fuel = f + 1 := ⟨fuel - 1, by lia⟩
      rw [roundBit]
      split
      · exact ⟨_, rfl⟩
      · rw [if_neg (fun h => h hlo.symm)]
        exact ⟨_, rfl⟩
  | succ n ih =>
      intro fuel i x r hfuel hn hi hlo
      obtain ⟨fuel, rfl⟩ : ∃ f, fuel = f + 1 := ⟨fuel - 1, by lia⟩
      rw [roundBit]
      split
      · exact ⟨_, rfl⟩
      · split
        · refine ih (by omega) (by omega) (idx_lt i 1) ?_
          rw [hlo, dnext_eq, idx_add, Nat.add_comm 1]
        · exact ⟨_, rfl⟩

/-- The integer part of a ring in any state is collected. -/
theorem ringDouble_total {r : Ring} (h : Good r) (hidig : r.idig ≤ 9) : ∃ x, ringDouble r = .ok x := by
  obtain ⟨i, idig, x, hrun, hi⟩ :=
    @collect_total ddig (dnext r.hi) r.idig (BitVec.ofNat 64 (r.xi r.hi)) r (idx_lt r.hi 1) (by rw [ddig]; omega)
  rw [ringDouble, hrun]
  by_cases hlo : i = r.lo
  · exact ⟨_, if_pos hlo⟩
  · obtain ⟨n, hn, hlt⟩ : ∃ n, r.lo = idx i (n + 1) ∧ n < ddig := by
      have := h.lo_lt
      refine ⟨dlen r.lo i - 1, ?_, ?_⟩ <;> unfold dlen ddig at * <;> try unfold idx ddig
      all_goals lia
    obtain ⟨x', hx'⟩ := @roundBit_total n ddig i (x <<< 1) r hlt hlt hi hn
    refine ⟨(x', r.ex2 - 1), (if_neg hlo).trans ?_⟩
    rw [hx']
    rfl

/-- Rescaling ends. -/
theorem rescale_total {r : Ring} {ds : List ℕ} (h : Rep r ds) (hg : Good r) (hlen : ds.length < ddig)
    (hhead : ds.headD 0 ≠ 0) (hlow : -163 ≤ r.idig) (hhigh : r.idig ≤ 155) : ∃ x, rescale r = .ok x := by
  obtain ⟨r₁, h₁, hg₁, hi₁⟩ := @scaleUp_total 512 r ds h hg hlen hhead (by split <;> lia)
  obtain ⟨r₂, h₂, hg₂, hi₂⟩ := @scaleDown_total 512 r₁ hg₁ (by split <;> lia)
  obtain ⟨x, hx⟩ := ringDouble_total hg₂ hi₂
  refine ⟨x, ?_⟩
  rw [rescale, h₁]
  dsimp only [bind, Except.bind]
  rw [h₂]
  exact hx

/-! ### The buffer -/

/-- What holds of the buffer of a numeral: there is a first digit, and there are bytes. -/
structure Digits (xi : List ℕ) (n : ℕ) : Prop where
  head : xi.headD 0 ≠ 0
  byte : ∀ d ∈ xi, d < 256
  length : xi.length ≤ n

namespace Digits

variable {xi : List ℕ} {n : ℕ}

theorem ne_nil (h : Digits xi n) : xi ≠ [] := by
  rintro rfl
  exact h.head rfl

theorem mono (h : Digits xi n) {m : ℕ} (hm : n ≤ m) : Digits xi m :=
  ⟨h.head, h.byte, Nat.le_trans h.length hm⟩

theorem append (h : Digits xi n) {ds : List ℕ} (hb : ∀ d ∈ ds, d < 256) : Digits (xi ++ ds) (n + ds.length) where
  head := by
    obtain ⟨d, es, rfl⟩ := List.exists_cons_of_ne_nil h.ne_nil
    exact h.head
  byte d hd := by
    rcases List.mem_append.mp hd with hd | hd
    · exact h.byte d hd
    · exact hb d hd
  length := by
    rw [List.length_append]
    exact Nat.add_le_add_right h.length _

theorem setLast (h : Digits xi n) : Digits (setLast xi) n := by
  obtain ⟨es, e, rfl⟩ : ∃ es e, xi = es ++ [e] :=
    ⟨xi.dropLast, xi.getLast h.ne_nil, (List.dropLast_append_getLast h.ne_nil).symm⟩
  have he : e < 256 := h.byte e (List.mem_append_right _ (List.mem_singleton_self e))
  rw [Strscan.setLast, List.dropLast_concat, List.getLastD_concat]
  refine ⟨?_, fun d hd => ?_, ?_⟩
  · cases es with
    | nil =>
        have hor : 1 ≤ e ||| 1 := Nat.right_le_or
        exact Nat.pos_iff_ne_zero.mp hor
    | cons d es => exact h.head
  · rcases List.mem_append.mp hd with hd | hd
    · exact h.byte d (List.mem_append_left _ hd)
    · rw [List.mem_singleton.mp hd]
      exact or_one_lt he
  · have := h.length
    rw [List.length_append] at this ⊢
    exact this

end Digits

theorem decDigit_lt (p : List UInt8) : decDigit p < 16 := Nat.mod_lt _ (by decide)

/-- The loop over the double digits appends one for each pair. -/
theorem decPairs_spec {i : ℕ} : ∀ (p : List UInt8) (xi : List ℕ),
    ∃ ds, (decPairs i p xi).1 = xi ++ ds ∧ ds.length = i ∧ (∀ d ∈ ds, d < 256) ∧
      (i ≠ 0 → 10 * decDigit p ≤ ds.headD 0) := by
  induction i with
  | zero =>
      intro p xi
      exact ⟨[], (List.append_nil _).symm, rfl, (fun _ h => by cases h), fun h => absurd rfl h⟩
  | succ i ih =>
      intro p xi
      obtain ⟨ds, hds, hlen, hb, -⟩ := ih (readDigit (readDigit p).2).2
        (xi ++ [10 * decDigit p + decDigit (readDigit p).2])
      refine ⟨(10 * decDigit p + decDigit (readDigit p).2) :: ds, ?_, congrArg Nat.succ hlen, ?_, ?_⟩
      · rw [decPairs, hds, List.append_assoc, List.singleton_append]
      · intro d hd
        have h₁ := decDigit_lt p
        have h₂ := decDigit_lt (readDigit p).2
        rcases List.mem_cons.mp hd with rfl | hd
        · lia
        · exact hb d hd
      · intro _
        rw [List.headD_cons]
        omega

theorem decExcess_digits {i n : ℕ} : ∀ {p : List UInt8} {xi : List ℕ}, Digits xi n → Digits (decExcess i p xi) n := by
  induction i with
  | zero => exact fun h => h
  | succ i ih =>
      intro p xi h
      rw [decExcess]
      split
      · exact h.setLast
      · exact ih h

theorem decZeros_digits {fuel : ℕ} : ∀ {n : ℕ} {xi : List ℕ} {ex10 : ℤ} {dig : ℕ}, Digits xi n →
    Digits (decZeros fuel xi ex10 dig).1 (n + fuel) := by
  induction fuel with
  | zero => exact fun h => h
  | succ fuel ih =>
      intro n xi ex10 dig h
      rw [decZeros]
      split
      · have hpush : Digits (xi ++ [0]) (n + 1) := h.append (by decide)
        exact (ih hpush).mono (by omega)
      · exact h.mono (by omega)

theorem decCut_le {ex10 : ℤ} {dig : ℕ} (hdig : dig ≠ 0) :
    (decCut ex10 dig).1 ≤ 800 ∧ (decCut ex10 dig).1 ≠ 0 := by
  have hmax : maxdig = 800 := rfl
  rw [decCut]
  split <;> dsimp only <;> lia

/-- Behind the leading digit there are digits, or none has been read. -/
theorem decLead_digits {p : List UInt8} {ex10 : ℤ} {i : ℕ} (hp : decDigit p ≠ 0) :
    (decLead p ex10 i).2.1 ≤ i ∧
      (Digits (decLead p ex10 i).1 1 ∨ decLead p ex10 i = ([], i, p)) := by
  have hlt := decDigit_lt p
  rw [decLead]
  split
  · refine ⟨Nat.sub_le _ _, .inl ⟨hp, ?_, Nat.le_refl _⟩⟩
    intro d hd
    rw [List.mem_singleton.mp hd]
    omega
  · exact ⟨Nat.le_refl _, .inr rfl⟩

theorem trail_byte (p : List UInt8) : ∀ d ∈ [10 * decDigit p], d < 256 := by
  intro d hd
  have := decDigit_lt p
  rw [List.mem_singleton.mp hd]
  omega

theorem decTrail_digits {i n : ℕ} {xi : List ℕ} {p : List UInt8} {ex10 : ℤ} {dig : ℕ} (h : Digits xi n) :
    Digits (decTrail i xi p ex10 dig).1 (n + 1) := by
  rw [decTrail]
  split
  · exact h.append (trail_byte p)
  · exact h.mono (Nat.le_succ n)

/-- The digits that are read in pairs and the trailing one, behind a leading digit. -/
theorem decMain_lead {i n : ℕ} {xi : List ℕ} {p : List UInt8} {ex10 : ℤ} {dig : ℕ} (h : Digits xi n) :
    Digits (decTrail i (decPairs (i / 2) p xi).1 (decPairs (i / 2) p xi).2 ex10 dig).1 (n + i / 2 + 1) := by
  obtain ⟨ds, hds, hlen, hb, -⟩ := @decPairs_spec (i / 2) p xi
  rw [hds]
  exact decTrail_digits (hlen ▸ h.append hb)

/-- The same, from the first digit on. -/
theorem decMain_first {i : ℕ} {p : List UInt8} {ex10 : ℤ} {dig : ℕ} (hp : decDigit p ≠ 0) (hi : i ≠ 0) :
    Digits (decTrail i (decPairs (i / 2) p []).1 (decPairs (i / 2) p []).2 ex10 dig).1 (i / 2 + 1) := by
  by_cases h2 : i / 2 = 0
  · rw [h2, decPairs, decTrail, if_pos (by lia)]
    refine ⟨?_, trail_byte p, Nat.le_refl _⟩
    exact Nat.mul_ne_zero (by decide) hp
  · obtain ⟨ds, hds, hlen, hb, hhead⟩ := decPairs_spec (i := i / 2) p []
    have hmain : Digits ds (i / 2) := ⟨fun h0 => by have := hhead h2; lia, hb, Nat.le_of_eq hlen⟩
    rw [hds, List.nil_append]
    exact decTrail_digits hmain

/-- The buffer of a numeral that does not begin with a zero. -/
theorem decBuffer_digits {p : List UInt8} {ex10 : ℤ} {dig : ℕ} (hp : decDigit p ≠ 0) (hdig : dig ≠ 0) :
    Digits (decBuffer p ex10 dig).1 412 := by
  obtain ⟨hle, hne⟩ := @decCut_le ex10 dig hdig
  rw [decBuffer]
  generalize decCut ex10 dig = ie at hle hne ⊢
  obtain ⟨i, ex⟩ := ie
  obtain ⟨hi, hlead⟩ := @decLead_digits p ex i hp
  have hmain : Digits (decTrail (decLead p ex i).2.1 (decPairs ((decLead p ex i).2.1 / 2) (decLead p ex i).2.2
      (decLead p ex i).1).1 (decPairs ((decLead p ex i).2.1 / 2) (decLead p ex i).2.2 (decLead p ex i).1).2
        ex dig).1 402 := by
    rcases hlead with hlead | hlead
    · exact (decMain_lead hlead).mono (by dsimp only at hle hi; lia)
    · rw [hlead]
      exact (decMain_first hp hne).mono (by dsimp only at hle hi; omega)
  dsimp only
  split
  · dsimp only
    exact (decExcess_digits hmain).mono (by omega)
  · exact decZeros_digits hmain

/-! ### The slow path -/

theorem seg_getD {xi : List ℕ} {ds : List ℕ} : ∀ {k : ℕ}, xi.drop k = ds → xi.length < ddig →
    Seg (fun i => xi.getD i 0) k ds := by
  induction ds with
  | nil => intro _ _ _; trivial
  | cons d ds ih =>
      intro k hk hlen
      have hlt : k < xi.length := by
        by_contra hge
        rw [List.drop_eq_nil_of_le (by omega)] at hk
        cases hk
      have hget : xi[k] = d ∧ xi.drop (k + 1) = ds := by
        rw [List.drop_eq_getElem_cons hlt] at hk
        exact List.cons.inj hk
      have hidx : idx k 1 = k + 1 := Nat.mod_eq_of_lt (by omega)
      refine ⟨?_, ?_⟩
      · dsimp only
        rw [List.getD_eq_getElem _ _ hlt]
        exact hget.1
      · rw [hidx]
        exact ih hget.2 hlen

/-- The ring of a buffer holds the buffer. -/
theorem Digits.rep {xi : List ℕ} (h : Digits xi 412) (ex10 : ℤ) :
    Rep (Ring.ofBuffer xi ex10) xi ∧ Good (Ring.ofBuffer xi ex10) := by
  have hlen : xi.length < ddig := Nat.lt_of_le_of_lt h.length (by decide)
  constructor
  · refine ⟨show 0 < ddig by decide, List.length_pos_of_ne_nil h.ne_nil, Nat.le_of_lt hlen, seg_getD rfl hlen, ?_, h.byte⟩
    change xi.length = (0 + xi.length) % ddig
    rw [Nat.zero_add, Nat.mod_eq_of_lt hlen]
  · refine ⟨show 0 < ddig by decide, hlen, fun j => ?_⟩
    change xi.getD j 0 < 256
    by_cases hj : j < xi.length
    · rw [List.getD_eq_getElem _ _ hj]
      exact h.byte _ (List.getElem_mem hj)
    · rw [List.getD_eq_default _ _ (by omega)]
      decide

variable {xi : List ℕ} {ex10 : ℤ} {fmt : StrScanFmt} {opt : Opt} {neg : Bool} {dig : ℕ} {p : List UInt8}

/-- A number that is no integer of C. -/
def Plain (fmt : StrScanFmt) (opt : Opt) : Prop := fmt = .num ∨ fmt = .int ∧ has opt optC = false

/-- The slow path gives a value. -/
theorem decSlow_total (h : Digits xi 412) (hfmt : Plain fmt opt) :
    ∃ d, decSlow xi ex10 fmt opt neg = .ok (.num, .n d) := by
  obtain ⟨hrep, hgood⟩ := h.rep ex10
  have hlen : xi.length < ddig := Nat.lt_of_le_of_lt h.length (by decide)
  have hgo : decSlow xi ex10 fmt opt neg = decSlow xi ex10 .num opt neg := by
    rcases hfmt with rfl | ⟨rfl, hc⟩
    · rfl
    · unfold decSlow
      dsimp only
      rw [hc]
      rfl
  rw [hgo, decSlow]
  dsimp only
  split
  · exact ⟨_, rfl⟩
  · split
    · exact ⟨_, rfl⟩
    · obtain ⟨x, hx⟩ := rescale_total hrep hgood hlen h.head (by omega) (by omega)
      rw [hx]
      exact ⟨_, rfl⟩

/-- The digits of a numeral, or none of a zero, have a value. -/
theorem decValue_total (h : Digits xi 412 ∨ xi = [] ∧ ex10 = 0 ∧ dig = 0) (hfmt : Plain fmt opt) :
    ∃ r, decValue xi ex10 dig fmt opt neg = .ok r := by
  have hslow : ∀ fmt', Plain fmt' opt → ¬((xi = [] ∧ ex10 = 0) ∧ dig = 0) →
      ∃ r, decSlow xi ex10 fmt' opt neg = .ok r := by
    intro fmt' hfmt' hne
    rcases h with h | ⟨rfl, rfl, rfl⟩
    · obtain ⟨d, hd⟩ := @decSlow_total xi ex10 fmt' opt neg h hfmt'
      exact ⟨_, hd⟩
    · exact absurd ⟨⟨rfl, rfl⟩, rfl⟩ hne
  have hplain : ∃ r, (if (decInt xi).toInt < 0 then decSlow xi ex10 .num opt neg
      else .ok (.num, .n (if neg then (F64.ofInt (decInt xi).toInt).neg else F64.ofInt (decInt xi).toInt))) =
        Except.ok r := by
    split
    · next hneg =>
        refine hslow .num (.inl rfl) ?_
        rintro ⟨⟨rfl, -⟩, -⟩
        exact absurd hneg (by decide)
    · exact ⟨_, rfl⟩
  rw [decValue]
  dsimp only
  split
  · rcases hfmt with rfl | ⟨rfl, hc⟩
    · exact hplain
    · dsimp only
      split
      · exact ⟨_, rfl⟩
      · rw [hc]
        exact hplain
  · next hfast =>
      refine hslow fmt hfmt ?_
      rintro ⟨⟨rfl, rfl⟩, rfl⟩
      exact hfast (by decide)

/-- A numeral that does not begin with a zero, and is no integer of C, has a value. -/
theorem strscanDec_total (hp : dig ≠ 0 → decDigit p ≠ 0) (hfmt : Plain fmt opt) :
    ∃ r, strscanDec p fmt opt ex10 neg dig = .ok r := by
  rw [strscanDec]
  by_cases h0 : dig = 0
  · rw [if_neg (fun h => h h0)]
    exact decValue_total (.inr ⟨rfl, rfl, rfl⟩) hfmt
  · rw [if_pos h0]
    exact decValue_total (.inl (decBuffer_digits (hp h0) h0)) hfmt

end Strscan
