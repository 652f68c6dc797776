/-
**Integers and their numerals.**

An integer is printed by reciprocal multiplications: a shifted product gives the digit in front, and the
rest goes on at the next label.  The number of digits decides at which label to begin.  The scanner reads
the numeral back on its fast path.

Main definitions:

* `Strfmt.wint` — `lj_strfmt_wint`;
* `Strfmt.decimal` — the decimal numeral of a natural number.

Main results:

* `Strfmt.wintR_eq` — the digit in front and the rest are a quotient and a remainder;
* `Strfmt.wintDigits_eq` — the digits are those of the numeral;
* `Strfmt.wint_scan` — **an integer is printed canonically and read back**.
-/

import LuaJit.StrfmtSound
import LuaJit.StrscanNum
import LuaJit.Word

set_option relaxedAutoImplicit false
set_option autoImplicit false

namespace Strfmt

open StrMatch (isa isdigit)

/-! ### The writer of integers -/

/-- `WINT_R`: the digit, and what is left of the number. -/
def wintR (x : BitVec 32) (sh sc : ℕ) : BitVec 32 × BitVec 32 :=
  let d := (x * BitVec.ofNat 32 ((2 ^ sh + sc - 1) / sc)) >>> sh
  (d, x - d * BitVec.ofNat 32 sc)

/-- The digits from the label `dig1` on. -/
def dig1 (u : BitVec 32) : List (BitVec 32) := [u]

def dig2 (u : BitVec 32) : List (BitVec 32) :=
  let (d, u) := wintR u 10 10
  d :: dig1 u

def dig3 (u : BitVec 32) : List (BitVec 32) :=
  let (d, u) := wintR u 12 100
  d :: dig2 u

/-- There is no label here. -/
def dig4 (u : BitVec 32) : List (BitVec 32) :=
  let (d, u) := wintR u 23 1000
  d :: dig3 u

def dig5 (v u : BitVec 32) : List (BitVec 32) := v :: dig4 u

def dig6 (v u : BitVec 32) : List (BitVec 32) :=
  let (d, v) := wintR v 10 10
  d :: dig5 v u

def dig7 (v u : BitVec 32) : List (BitVec 32) :=
  let (d, v) := wintR v 12 100
  d :: dig6 v u

/-- There is no label here. -/
def dig8 (v u : BitVec 32) : List (BitVec 32) :=
  let (d, v) := wintR v 23 1000
  d :: dig7 v u

/-- The digits that are written. -/
def wintDigits (u : BitVec 32) : List (BitVec 32) :=
  if u < 10000#32 then
    if u < 10#32 then dig1 u else if u < 100#32 then dig2 u else if u < 1000#32 then dig3 u else dig4 u
  else
    let v := u / 10000#32
    let u := u - v * 10000#32
    if v < 10000#32 then
      if v < 10#32 then dig5 v u else if v < 100#32 then dig6 v u else if v < 1000#32 then dig7 v u else dig8 v u
    else
      let w := v / 10000#32
      let v := v - w * 10000#32
      if w ≥ 10#32 then
        let (d, w) := wintR w 10 10
        d :: w :: dig8 v u
      else w :: dig8 v u

/-- `(char)('0'+d)`. -/
def wintChar (d : BitVec 32) : UInt8 := UInt8.ofNat (48#32 + d).toNat

/-- `lj_strfmt_wint`. -/
def wint (k : BitVec 32) : List UInt8 :=
  if k.slt 0 then ch '-' :: (wintDigits (-k)).map wintChar else (wintDigits k).map wintChar

/-! ### Decimal numerals -/

/-- The last digits of a number. -/
@[grind =]
def lowDigits : ℕ → ℕ → List ℕ
  | 0, _ => []
  | j + 1, n => lowDigits j (n / 10) ++ [n % 10]

/-- The digits of a number without leading zeros; zero has one. -/
def decimalDigits (n : ℕ) : List ℕ := if n = 0 then [0] else (Nat.digits 10 n).reverse

/-- The decimal numeral of an integer. -/
def decimal (k : ℤ) : List UInt8 :=
  (if k < 0 then [ch '-'] else []) ++ (decimalDigits k.natAbs).map digit

theorem lowDigits_cons (j : ℕ) : ∀ n, lowDigits (j + 1) n = n / 10 ^ j % 10 :: lowDigits j n := by
  induction j with
  | zero => intro n; rw [pow_zero, Nat.div_one]; rfl
  | succ j ih =>
      intro n
      rw [lowDigits, ih, Nat.div_div_eq_div_mul, ← pow_succ', List.cons_append, lowDigits]

theorem lowDigits_mod (j : ℕ) : ∀ n, lowDigits j (n % 10 ^ j) = lowDigits j n := by
  induction j with
  | zero => intro n; rfl
  | succ j ih =>
      intro n
      rw [lowDigits, lowDigits, pow_succ', Nat.mod_mul_right_div_self, ih, Nat.mod_mul_right_mod]

/-- The digit in front of a number that has few enough digits. -/
theorem lowDigits_front {j n : ℕ} (h : n < 10 ^ (j + 1)) :
    lowDigits (j + 1) n = n / 10 ^ j :: lowDigits j (n % 10 ^ j) := by
  have hd : n / 10 ^ j < 10 := Nat.div_lt_of_lt_mul (by rwa [← pow_succ])
  rw [lowDigits_cons, lowDigits_mod, Nat.mod_eq_of_lt hd]

theorem lowDigits_lt {j : ℕ} : ∀ {n : ℕ}, ∀ d ∈ lowDigits j n, d < 10 := by
  induction j with
  | zero => intro n d hd; cases hd
  | succ j ih =>
      intro n d hd
      rw [lowDigits, List.mem_append, List.mem_singleton] at hd
      rcases hd with hd | rfl
      · exact ih d hd
      · exact Nat.mod_lt _ (by decide)

theorem length_lowDigits (j : ℕ) : ∀ n, (lowDigits j n).length = j := by
  induction j with
  | zero => intro n; rfl
  | succ j ih => intro n; rw [lowDigits, List.length_append, ih, List.length_singleton]

theorem lowDigits_append (i j : ℕ) : ∀ n, lowDigits (i + j) n = lowDigits i (n / 10 ^ j) ++ lowDigits j (n % 10 ^ j) := by
  induction j with
  | zero => intro n; rw [pow_zero, Nat.div_one, lowDigits, List.append_nil, Nat.add_zero]
  | succ j ih =>
      intro n
      have hq : n / 10 % 10 ^ j = n % 10 ^ (j + 1) / 10 := by
        rw [pow_succ', Nat.mod_mul_right_div_self]
      have hr : n % 10 ^ (j + 1) % 10 = n % 10 := by
        rw [pow_succ', Nat.mod_mul_right_mod]
      rw [← Nat.add_assoc, lowDigits, ih, Nat.div_div_eq_div_mul, ← pow_succ', lowDigits, hq, hr, List.append_assoc]

/-- The numeral of a number with `j + 1` digits. -/
theorem decimalDigits_eq {j : ℕ} : ∀ {n : ℕ}, (j = 0 ∨ 10 ^ j ≤ n) → n < 10 ^ (j + 1) →
    decimalDigits n = lowDigits (j + 1) n := by
  induction j with
  | zero =>
      intro n _ hn
      rw [zero_add, pow_one] at hn
      rw [decimalDigits, lowDigits_front (by rwa [zero_add, pow_one]), pow_zero, Nat.div_one, Nat.mod_one]
      split
      · next h0 => rw [h0]; rfl
      · next h0 => rw [Nat.digits_of_lt 10 n h0 hn]; rfl
  | succ j ih =>
      intro n hj hn
      have hle : 10 ^ (j + 1) ≤ n := hj.resolve_left (Nat.succ_ne_zero j)
      have h10 : 10 ≤ n := (Nat.le_self_pow (Nat.succ_ne_zero j) 10).trans hle
      have hq : n / 10 ≠ 0 := by lia
      rw [decimalDigits, if_neg (by omega), Nat.digits_def' (by decide) (by omega), List.reverse_cons, lowDigits,
        ← ih (n := n / 10), decimalDigits, if_neg hq]
      · exact .inr ((Nat.le_div_iff_mul_le (by decide)).mpr (by rwa [← pow_succ]))
      · exact Nat.div_lt_of_lt_mul (by rwa [← pow_succ'])

/-! ### The digits that are written -/

/-- Multiplication by a rounded reciprocal is division, as long as the error stays below one unit. -/
theorem mul_reciprocal {x m e w sc : ℕ} (hw : 0 < w) (hm : m * sc = w + e) (h : x / sc * e + x % sc * m < w) :
    x * m / w = x / sc := by
  have hx : x * m = w * (x / sc) + (x / sc * e + x % sc * m) := by
    calc x * m = (sc * (x / sc) + x % sc) * m := by rw [Nat.div_add_mod]
      _ = m * sc * (x / sc) + x % sc * m := by ring
      _ = w * (x / sc) + (x / sc * e + x % sc * m) := by rw [hm]; ring
  rw [hx, Nat.mul_add_div hw, Nat.div_eq_of_lt h, Nat.add_zero]

/-- A number below ten units is split into the digit in front and the rest. -/
theorem wintR_split {x : BitVec 32} {sh sc e : ℕ} (hm : (2 ^ sh + sc - 1) / sc * sc = 2 ^ sh + e)
    (he : 9 * e + (sc - 1) * ((2 ^ sh + sc - 1) / sc) < 2 ^ sh) (hw : 10 * sc * ((2 ^ sh + sc - 1) / sc) < 2 ^ 32)
    (hpos : 0 < sc) (hx : x.toNat < 10 * sc) :
    (wintR x sh sc).1.toNat = x.toNat / sc ∧ (wintR x sh sc).2.toNat = x.toNat % sc := by
  obtain ⟨m, hmeq⟩ : ∃ m, m = (2 ^ sh + sc - 1) / sc := ⟨_, rfl⟩
  rw [← hmeq] at hm he hw
  have hmpos : 0 < m := by
    rcases Nat.eq_zero_or_pos m with rfl | h
    · rw [Nat.zero_mul] at hm
      have := Nat.two_pow_pos sh
      omega
    · exact h
  have hxm : x.toNat * m < 2 ^ 32 := (Nat.mul_lt_mul_of_pos_right hx hmpos).trans hw
  have hm32 : m < 2 ^ 32 := (Nat.le_mul_of_pos_left m (by omega)).trans_lt hw
  have hsc32 : sc < 2 ^ 32 := by
    have := Nat.le_mul_of_pos_right (10 * sc) hmpos
    lia
  have hd : (wintR x sh sc).1.toNat = x.toNat / sc := by
    have hq : x.toNat / sc ≤ 9 := Nat.le_of_lt_succ (Nat.div_lt_of_lt_mul (by omega))
    have hr : x.toNat % sc ≤ sc - 1 := Nat.le_sub_one_of_lt (Nat.mod_lt _ hpos)
    have herr := (Nat.add_le_add (Nat.mul_le_mul_right e hq) (Nat.mul_le_mul_right m hr)).trans_lt he
    rw [wintR, BitVec.toNat_ushiftRight, BitVec.toNat_mul, BitVec.toNat_ofNat, Nat.shiftRight_eq_div_pow, ← hmeq,
      Nat.mod_eq_of_lt hm32, Nat.mod_eq_of_lt hxm, mul_reciprocal (Nat.two_pow_pos sh) hm herr]
  refine ⟨hd, ?_⟩
  have hsub : (wintR x sh sc).2 = x - (wintR x sh sc).1 * BitVec.ofNat 32 sc := rfl
  have hle : x.toNat / sc * sc ≤ x.toNat := Nat.div_mul_le_self _ _
  have hmul : ((wintR x sh sc).1 * BitVec.ofNat 32 sc).toNat = x.toNat / sc * sc := by
    rw [BitVec.toNat_mul, hd, BitVec.toNat_ofNat, Nat.mod_eq_of_lt hsc32, Nat.mod_eq_of_lt (hle.trans_lt x.isLt)]
  rw [hsub, BitVec.toNat_sub_of_le (by rw [BitVec.le_def, hmul]; exact hle), hmul, Nat.mod_eq_sub_div_mul]

theorem wintR_ten {x : BitVec 32} (hx : x.toNat < 10 * 10) :
    (wintR x 10 10).1.toNat = x.toNat / 10 ∧ (wintR x 10 10).2.toNat = x.toNat % 10 :=
  wintR_split (e := 6) (by decide) (by decide) (by decide) (by decide) hx

/-- The error bound is exhausted here but for one unit. -/
theorem wintR_hundred {x : BitVec 32} (hx : x.toNat < 10 * 100) :
    (wintR x 12 100).1.toNat = x.toNat / 100 ∧ (wintR x 12 100).2.toNat = x.toNat % 100 :=
  wintR_split (e := 4) (by decide) (by decide) (by decide) (by decide) hx

theorem wintR_thousand {x : BitVec 32} (hx : x.toNat < 10 * 1000) :
    (wintR x 23 1000).1.toNat = x.toNat / 1000 ∧ (wintR x 23 1000).2.toNat = x.toNat % 1000 :=
  wintR_split (e := 392) (by decide) (by decide) (by decide) (by decide) hx

/-- Digits as natural numbers. -/
def values (ds : List (BitVec 32)) : List ℕ := ds.map BitVec.toNat

section Labels

variable {u v : BitVec 32}

theorem dig1_values (hu : u.toNat < 10) : values (dig1 u) = lowDigits 1 u.toNat := by
  rw [lowDigits_front (by omega), pow_zero, Nat.div_one, dig1]
  rfl

theorem dig2_values (hu : u.toNat < 100) : values (dig2 u) = lowDigits 2 u.toNat := by
  obtain ⟨hd, hr⟩ := wintR_ten hu
  have h1 := dig1_values (u := (wintR u 10 10).2) (by lia)
  rw [lowDigits_front (by omega), pow_one, ← hd, ← hr, ← h1]
  rfl

theorem dig3_values (hu : u.toNat < 1000) : values (dig3 u) = lowDigits 3 u.toNat := by
  obtain ⟨hd, hr⟩ := wintR_hundred hu
  have h2 := dig2_values (u := (wintR u 12 100).2) (by lia)
  rw [lowDigits_front (by omega), show 10 ^ 2 = 100 from rfl, ← hd, ← hr, ← h2]
  rfl

theorem dig4_values (hu : u.toNat < 10000) : values (dig4 u) = lowDigits 4 u.toNat := by
  obtain ⟨hd, hr⟩ := wintR_thousand hu
  have h3 := dig3_values (u := (wintR u 23 1000).2) (by lia)
  rw [lowDigits_front (by omega), show 10 ^ 3 = 1000 from rfl, ← hd, ← hr, ← h3]
  rfl

theorem values_append (as bs : List (BitVec 32)) : values (as ++ bs) = values as ++ values bs := List.map_append

/-- The quotient and the remainder of a division by ten thousand. -/
theorem toNat_split (u : BitVec 32) : (u / 10000#32).toNat = u.toNat / 10 ^ 4 ∧
    (u - u / 10000#32 * 10000#32).toNat = u.toNat % 10 ^ 4 := by
  have hu := u.isLt
  have hq : (u / 10000#32).toNat = u.toNat / 10000 := BitVec.toNat_udiv
  refine ⟨hq, ?_⟩
  rw [BitVec.toNat_sub, BitVec.toNat_mul, hq, BitVec.toNat_ofNat]
  lia

/-- Two words, of which the second one has four digits. -/
theorem values_split {j : ℕ} {hi : List (BitVec 32)} (u : BitVec 32)
    (h : values hi = lowDigits j (u / 10000#32).toNat) :
    values (hi ++ dig4 (u - u / 10000#32 * 10000#32)) = lowDigits (j + 4) u.toNat := by
  obtain ⟨hq, hr⟩ := toNat_split u
  have hlt : u.toNat % 10 ^ 4 < 10000 := Nat.mod_lt _ (by decide)
  rw [values_append, h, dig4_values (by rwa [hr]), lowDigits_append, hq, hr]

end Labels

/-- A text of as many digits as the number has is its numeral. -/
theorem values_numeral {j n : ℕ} {ds : List (BitVec 32)} (h : values ds = lowDigits (j + 1) n)
    (hj : j = 0 ∨ 10 ^ j ≤ n) (hn : n < 10 ^ (j + 1)) : values ds = decimalDigits n := by
  rw [h, decimalDigits_eq hj hn]

/-- The digits are those of the numeral. -/
theorem wintDigits_eq (u : BitVec 32) : values (wintDigits u) = decimalDigits u.toNat := by
  have hu := u.isLt
  have hq : (u / 10000#32).toNat = u.toNat / 10000 := (toNat_split u).1
  have hqq : (u / 10000#32 / 10000#32).toNat = u.toNat / 10000 / 10000 := by
    have := (toNat_split (u / 10000#32)).1
    rwa [hq] at this
  rw [wintDigits]
  dsimp only
  simp only [BitVec.lt_def, BitVec.le_def, ge_iff_le, hq, hqq, BitVec.toNat_ofNat]
  split_ifs with h4 h1 h2 h3 h8 h5 h6 h7 h10
  · exact values_numeral (j := 0) (dig1_values (by omega)) (.inl rfl) (by omega)
  · exact values_numeral (j := 1) (dig2_values (by omega)) (.inr (by lia)) (by omega)
  · exact values_numeral (j := 2) (dig3_values (by omega)) (.inr (by lia)) (by omega)
  · exact values_numeral (j := 3) (dig4_values (by omega)) (.inr (by lia)) (by omega)
  · exact values_numeral (j := 4) (values_split u (dig1_values (by lia))) (.inr (by omega)) (by lia)
  · exact values_numeral (j := 5) (values_split u (dig2_values (by lia))) (.inr (by lia)) (by lia)
  · exact values_numeral (j := 6) (values_split u (dig3_values (by lia))) (.inr (by lia)) (by lia)
  · exact values_numeral (j := 7) (values_split u (dig4_values (by lia))) (.inr (by lia)) (by lia)
  · exact values_numeral (j := 9) (values_split u (values_split _ (dig2_values (by lia)))) (.inr (by lia))
      (by omega)
  · exact values_numeral (j := 8) (values_split u (values_split _ (dig1_values (by lia)))) (.inr (by lia))
      (by lia)

/-- No digit is outside the range. -/
theorem wintDigits_lt {u : BitVec 32} : ∀ d ∈ wintDigits u, d < 10#32 := by
  intro d hd
  have hmem : d.toNat ∈ decimalDigits u.toNat := by
    rw [← wintDigits_eq]
    exact List.mem_map_of_mem hd
  rw [BitVec.lt_def]
  rw [decimalDigits] at hmem
  split at hmem
  · rw [List.mem_singleton.mp hmem]
    decide
  · exact Nat.digits_lt_base (by decide) (List.mem_reverse.mp hmem)

theorem map_wintChar (u : BitVec 32) : (wintDigits u).map wintChar = (decimalDigits u.toNat).map digit := by
  rw [← wintDigits_eq, values, List.map_map]
  refine List.map_congr_left fun d hd => ?_
  have hlt : d.toNat < 10 := wintDigits_lt d hd
  rw [wintChar, Function.comp_apply, digit, BitVec.toNat_add, BitVec.toNat_ofNat,
    Nat.mod_eq_of_lt (by omega : 48 % 2 ^ 32 + d.toNat < 2 ^ 32)]
  rfl

/-- The text is the numeral. -/
theorem wint_eq (k : BitVec 32) : wint k = decimal k.toInt := by
  have hmag := Word.toNat_magnitude k
  rw [wint, decimal]
  by_cases h : k.toInt < 0
  · rw [if_pos (Word.slt_zero.mpr h)] at hmag ⊢
    rw [if_pos h, map_wintChar, hmag]
    rfl
  · have hs : ¬k.slt 0 = true := fun hs => h (Word.slt_zero.mp hs)
    rw [if_neg hs] at hmag ⊢
    rw [if_neg h, map_wintChar, hmag]
    rfl

/-! ### Reading a numeral -/

/-- What is known of a numeral of at most ten digits. -/
theorem decimalDigits_lowDigits {n : ℕ} (hn : n < 10 ^ 10) : ∃ j ≤ 9, decimalDigits n = lowDigits (j + 1) n ∧
    (j = 0 ∨ 10 ^ j ≤ n) ∧ n < 10 ^ (j + 1) := by
  rcases Nat.eq_zero_or_pos n with rfl | hpos
  · exact ⟨0, by decide, decimalDigits_eq (.inl rfl) (by decide), .inl rfl, by decide⟩
  · have hle := Nat.pow_log_le_self 10 (Nat.ne_of_gt hpos)
    have hlt := Nat.lt_pow_succ_log_self (b := 10) (by decide) n
    have hj : Nat.log 10 n < 10 := Nat.log_lt_of_lt_pow (Nat.ne_of_gt hpos) hn
    exact ⟨Nat.log 10 n, Nat.le_of_lt_succ hj, decimalDigits_eq (.inr hle) hlt, .inr hle, hlt⟩

theorem digit_toNat {d : ℕ} (hd : d < 10) : (digit d).toNat = 48 + d := by
  rw [digit, UInt8.toNat_ofNat']
  lia

theorem isdigit_digit : ∀ d < 10, isdigit (digit d) = true := by decide

/-- The value of the digits. -/
theorem foldl_lowDigits (j : ℕ) : ∀ n, (lowDigits j n).foldl (fun x d => x * 10 + d) 0 = n % 10 ^ j := by
  induction j with
  | zero => intro n; rw [pow_zero, Nat.mod_one]; rfl
  | succ j ih =>
      intro n
      rw [lowDigits, List.foldl_append, ih, List.foldl_cons, List.foldl_nil, pow_succ', Nat.mod_mul]
      ring

/-- The value that the scanner accumulates. -/
theorem accum_digits {ds : List ℕ} : ∀ {x y : ℕ}, (∀ d ∈ ds, d < 10) → x = y % 2 ^ 32 →
    Strscan.accum x (ds.map digit) = ds.foldl (fun x d => x * 10 + d) y % 2 ^ 32 := by
  induction ds with
  | nil => intro x y _ h; exact h
  | cons d ds ih =>
      intro x y hd h
      have hlt := hd d List.mem_cons_self
      refine ih (fun e he => hd e (List.mem_cons_of_mem _ he)) ?_
      dsimp only
      rw [digit_toNat hlt, h]
      lia

section Numeral

variable {c : Strscan.Target} {neg : Bool} {n : ℕ} {seen : List UInt8}

/-- The digits of a number, as they are written. -/
def numeralText (n : ℕ) : List UInt8 := (decimalDigits n).map digit

theorem digit_ne_zero : ∀ d < 10, d ≠ 0 → digit d ≠ Strscan.ch '0' := by decide

/-- The numeral of a number that is not zero begins with its first digit. -/
theorem numeralText_cons (h0 : n ≠ 0) (hn : n < 10 ^ 10) : ∃ j ≤ 9, numeralText n =
    digit (n / 10 ^ j) :: (lowDigits j (n % 10 ^ j)).map digit ∧ n / 10 ^ j ≠ 0 ∧ n / 10 ^ j < 10 := by
  obtain ⟨j, hj, hd, hle, hlt⟩ := decimalDigits_lowDigits hn
  refine ⟨j, hj, by rw [numeralText, hd, lowDigits_front hlt, List.map_cons], ?_, ?_⟩
  · have hge : 10 ^ j ≤ n := by
      rcases hle with rfl | h
      · exact Nat.one_le_iff_ne_zero.mpr h0
      · exact h
    exact Nat.ne_of_gt (Nat.div_pos hge (by positivity))
  · exact Nat.div_lt_of_lt_mul (by rwa [← pow_succ])

theorem numeralText_isdigit (n : ℕ) : ∀ d ∈ numeralText n, isdigit d = true := by
  intro d hd
  obtain ⟨e, he, rfl⟩ := List.mem_map.mp hd
  rw [decimalDigits] at he
  split at he
  · rw [List.mem_singleton.mp he]
    decide
  · exact isdigit_digit e (Nat.digits_lt_base (by decide) (List.mem_reverse.mp he))

theorem numeralText_ne_nil (n : ℕ) : numeralText n ≠ [] := by
  rw [numeralText, decimalDigits, Ne, List.map_eq_nil_iff]
  split
  · exact List.cons_ne_nil _ _
  · next h => rw [List.reverse_eq_nil_iff, Nat.digits_eq_nil_iff_eq_zero]; exact h

/-- All digits are significant, but for the one of zero. -/
theorem significant_numeralText (hn : n < 10 ^ 10) :
    Strscan.significant (numeralText n) = if n = 0 then [] else numeralText n := by
  split
  · next h => rw [h]; rfl
  · next h =>
      obtain ⟨j, -, ht, h0, hlt⟩ := numeralText_cons h hn
      have hne := digit_ne_zero _ hlt h0
      rw [ht, Strscan.significant, List.dropWhile_cons_of_neg]
      rwa [decide_eq_true_eq]

theorem accum_numeralText (hn : n < 10 ^ 10) (h32 : n < 2 ^ 32) :
    Strscan.accum 0 (Strscan.significant (numeralText n)) = n := by
  rw [significant_numeralText hn]
  split
  · next h => rw [h]; rfl
  · obtain ⟨j, -, hd, -, hlt⟩ := decimalDigits_lowDigits hn
    have h0 : (0 : ℕ) = 0 % 2 ^ 32 := rfl
    rw [numeralText, hd, accum_digits lowDigits_lt h0, foldl_lowDigits, Nat.mod_eq_of_lt hlt, Nat.mod_eq_of_lt h32]

theorem length_numeralText (hn : n < 10 ^ 10) : (numeralText n).length ≤ 10 := by
  obtain ⟨j, hj, hd, -, -⟩ := decimalDigits_lowDigits hn
  rw [numeralText, List.length_map, hd, length_lowDigits]
  omega

/-- The condition of the fast path. -/
theorem numeralText_fast (hn : n < 2 ^ 31 + neg.toNat) :
    (Strscan.significant (numeralText n)).length < 10 ∨ (Strscan.significant (numeralText n)).length = 10 ∧
      (Strscan.significant (numeralText n)).headD 0 ≤ Strscan.ch '2' ∧ Strscan.below31 n neg := by
  have hneg : neg.toNat ≤ 1 := Bool.toNat_le neg
  have hn10 : n < 10 ^ 10 := by omega
  rw [significant_numeralText hn10]
  split
  · exact .inl (by decide)
  · next h0 =>
      obtain ⟨j, hj, ht, -, hlt⟩ := numeralText_cons h0 hn10
      rw [ht, List.length_cons, List.length_map, length_lowDigits]
      rcases Nat.lt_or_ge j 9 with h9 | h9
      · exact .inl (by omega)
      · obtain rfl : j = 9 := by lia
        refine .inr ⟨rfl, ?_, hn⟩
        rw [List.headD_cons, UInt8.le_iff_toNat_le, digit_toNat hlt]
        change 48 + n / 10 ^ 9 ≤ 50
        lia

/-- The base of a numeral is ten: behind a zero there is no letter. -/
theorem parseBase_numeralText (hn : n < 10 ^ 10) :
    Strscan.parseBase Strscan.optToint ⟨seen, numeralText n⟩ = (10, ⟨seen, numeralText n⟩) := by
  rcases eq_or_ne n 0 with rfl | h0
  · have h1 : Strscan.Ptr.get ⟨seen, numeralText 0⟩ 1 = 0 := rfl
    have hx : ¬Strscan.casecmp 0 'x' = true := by decide
    have hb : ¬Strscan.casecmp 0 'b' = true := by decide
    have hC : ¬Strscan.has Strscan.optToint Strscan.optC = true := by decide
    have h0 : Strscan.Ptr.get ⟨seen, numeralText 0⟩ 0 = Strscan.ch '0' := rfl
    rw [Strscan.parseBase, if_pos h0, h1, if_neg hx, if_neg hb, if_neg hC]
  · obtain ⟨j, -, ht, hne, hlt⟩ := numeralText_cons h0 hn
    rw [Strscan.parseBase, if_neg]
    rw [Strscan.Ptr.get, ht, List.getD_cons_zero]
    exact digit_ne_zero _ hlt hne

/-- The end of a numeral of base ten. -/
theorem parseTail_end {opt : Strscan.Opt} {sp : List UInt8} {x dig : ℕ} :
    Strscan.parseTail c opt neg 10 sp ⟨seen, []⟩ x dig none = Strscan.dispatch c opt neg 10 sp .int x 0 dig := by
  have he : Strscan.exponentPart 10 .int ⟨seen, []⟩ 0 = .ok (.int, ⟨seen, []⟩, 0) :=
    if_neg fun h => absurd h.2 (by decide : ¬Strscan.casecmp 0 'e' = true)
  have hs : Strscan.parseSuffix c opt .int ⟨seen, []⟩ = .ok .int := if_neg fun h => h rfl
  have hf : (if (none : Option ℕ).isSome = true then Strscan.StrScanFmt.num else .int) = .int := rfl
  rw [Strscan.parseTail, hf]
  dsimp only [Option.map_none, Option.getD_none, bind, Except.bind]
  rw [he]
  dsimp only
  rw [hs]

/-- A numeral in the range of the integers is read on the fast path. -/
theorem parseNumber_numeralText (hn : n < 2 ^ 31 + neg.toNat) :
    Strscan.parseNumber c Strscan.optToint neg ⟨seen, numeralText n⟩ =
      .ok (.int, .i (Strscan.signed32 (BitVec.ofNat 64 n) neg)) := by
  have hneg : neg.toNat ≤ 1 := Bool.toNat_le neg
  have hn10 : n < 10 ^ 10 := by omega
  have hbehind : Strscan.Behind (Strscan.digitMask 10) [] :=
    ⟨(by decide : isa 0 0x08 = false), (by decide : (0 : UInt8) ≠ Strscan.ch '.')⟩
  have hdigits : Strscan.parseDigits c Strscan.optToint neg 10 ⟨seen, numeralText n ++ []⟩ = _ :=
    Strscan.parseDigits_digits (numeralText_isdigit n) hbehind
  rw [List.append_nil, List.append_nil, if_neg (numeralText_ne_nil n), parseTail_end, accum_numeralText hn10
    (by omega), Strscan.dispatch, if_pos ⟨rfl, rfl, numeralText_fast hn⟩] at hdigits
  rw [Strscan.parseNumber_eq, parseBase_numeralText hn10, hdigits]
  exact if_neg (by decide)

end Numeral

/-- The sign of an integer and its magnitude give it back. -/
theorem signed32_magnitude (k : BitVec 32) :
    Strscan.signed32 (BitVec.ofNat 64 k.toInt.natAbs) (decide (k.toInt < 0)) = k := by
  have hk := k.isLt
  have hset : (BitVec.ofNat 64 k.toInt.natAbs).setWidth 32 = BitVec.ofNat 32 k.toInt.natAbs :=
    BitVec.setWidth_ofNat_of_le (by decide) _
  have hmag := Word.toNat_magnitude k
  rw [Strscan.signed32, hset, ← hmag, BitVec.ofNat_toNat, BitVec.setWidth_eq]
  by_cases h : k.toInt < 0
  · rw [if_pos (decide_eq_true h), if_pos (Word.slt_zero.mpr h), BitVec.neg_neg]
  · rw [if_neg (by rwa [decide_eq_true_eq]), if_neg (fun hs => h (Word.slt_zero.mp hs))]

/-- The numeral of an integer is read back. -/
theorem scan_decimal (c : Strscan.Target) (k : BitVec 32) :
    Strscan.scan c Strscan.optToint (decimal k.toInt) = .ok (.int, .i k) := by
  have hlo := BitVec.le_toInt k
  have hhi := BitVec.toInt_lt (x := k)
  have hbound : k.toInt.natAbs < 2 ^ 31 + (decide (k.toInt < 0)).toNat := by
    by_cases h : k.toInt < 0
    · rw [decide_eq_true h, Bool.toNat_true]
      lia
    · rw [decide_eq_false h, Bool.toNat_false]
      lia
  have hparse (seen : List UInt8) : Strscan.parseNumber c Strscan.optToint (decide (k.toInt < 0))
      ⟨seen, numeralText k.toInt.natAbs⟩ = .ok (.int, .i k) := by
    rw [parseNumber_numeralText hbound, signed32_magnitude]
  have htext : decimal k.toInt = (if k.toInt < 0 then [ch '-'] else []) ++ numeralText k.toInt.natAbs := rfl
  rw [htext]
  obtain ⟨d, t, ht⟩ := List.exists_cons_of_ne_nil (numeralText_ne_nil k.toInt.natAbs)
  have hd : isdigit d = true := numeralText_isdigit k.toInt.natAbs d (ht ▸ List.mem_cons_self)
  rw [ht] at hparse ⊢
  by_cases h : k.toInt < 0
  · have hspace : (⟨[], ch '-' :: d :: t⟩ : Strscan.Ptr).skipSpace = ⟨[], ch '-' :: d :: t⟩ := rfl
    have hsign : Strscan.parseSign ⟨[], ch '-' :: d :: t⟩ = (true, ⟨[ch '-'], d :: t⟩) := rfl
    have hminus : (!isdigit (Strscan.Ptr.get ⟨[], ch '-' :: d :: t⟩ 0)) = true := by
      rw [Strscan.Ptr.get, List.getD_cons_zero]
      decide
    rw [if_pos h, List.singleton_append, Strscan.scan, if_pos hminus, hspace, hsign]
    rw [decide_eq_true h] at hparse
    exact (if_neg (Strscan.digit_byte d hd).2.2.2).trans (hparse _)
  · rw [if_neg h, List.nil_append, Strscan.scan]
    rw [decide_eq_false h] at hparse
    refine (if_neg ?_).trans (hparse _)
    rw [Strscan.Ptr.get, List.getD_cons_zero, hd]
    decide

/-- **An integer is printed canonically and read back**: the digits are in their range, the text is the decimal
numeral of the integer, without leading zeros and with at most eleven characters, and the scanner gives the
integer back. -/
theorem wint_scan (c : Strscan.Target) (k : BitVec 32) :
    (∀ u, ∀ d ∈ wintDigits u, d < 10#32) ∧ wint k = decimal k.toInt ∧
      (k.toInt ≠ 0 → (decimalDigits k.toInt.natAbs).head? ≠ some 0) ∧ (wint k).length ≤ 11 ∧
      Strscan.scan c Strscan.optToint (wint k) = .ok (.int, .i k) := by
  have hlo := BitVec.le_toInt k
  have hhi := BitVec.toInt_lt (x := k)
  refine ⟨fun u => wintDigits_lt, wint_eq k, ?_, ?_, ?_⟩
  · intro h0 hhead
    rw [decimalDigits, if_neg (by lia), List.head?_reverse] at hhead
    exact Nat.getLast_digit_ne_zero 10 (by lia : k.toInt.natAbs ≠ 0)
      ((List.getLast?_eq_some_getLast _).symm.trans hhead |> Option.some_inj.mp)
  · have hlen := length_numeralText (n := k.toInt.natAbs) (by lia)
    have hsign : (if k.toInt < 0 then [ch '-'] else []).length ≤ 1 := by
      split <;> decide
    rw [wint_eq, decimal, List.length_append]
    exact (Nat.add_le_add hsign hlen)
  · rw [wint_eq, scan_decimal]

end Strfmt
