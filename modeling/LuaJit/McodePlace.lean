/-
**Machine code areas lie where jumps reach.**

An area that is less than the range has all of its addresses within the range of the target, so any two
addresses are within the range of jumps.  For such a size the probing loop ends, since the generator
goes through all states, and one of them gives the hint 0.  For larger sizes there is no hint at all.

Main results:

* `Mcode.near_mem` — the addresses of an area that is near enough;
* `Mcode.reaches_of_near` — jumps between such addresses;
* `Mcode.probe_isSome`, `Mcode.mcodeAllocarea_isSome` — **allocation ends**;
* `Mcode.probe_none` — and it does not for a size that is not less than the range;
* `Mcode.mcode_holds` — **all of this for every run**.
-/

import LuaJit.Lcg
import LuaJit.McodeInv

set_option relaxedAutoImplicit false
set_option autoImplicit false

namespace Mcode

variable {T : Target}

/-! ### Differences of addresses -/

/-- The integer that a word stands for, if it is small. -/
theorem toInt_of_modEq {w : ℕ} {x : BitVec w} {d : ℤ} (hw : 0 < w) (h : (x.toNat : ℤ) ≡ d [ZMOD 2 ^ w])
    (h₁ : -2 ^ (w - 1) ≤ d) (h₂ : d < 2 ^ (w - 1)) : x.toInt = d := by
  obtain ⟨v, rfl⟩ : ∃ v, w = v + 1 := ⟨w - 1, by lia⟩
  have hpow : ((2 ^ (v + 1) : ℕ) : ℤ) = 2 ^ (v + 1) := by push_cast; rfl
  rw [BitVec.toInt_eq_toNat_bmod, Int.bmod_def, hpow, h, ← hpow, ← Int.bmod_def]
  refine Int.bmod_eq_of_le ?_ ?_
  · rw [hpow, pow_succ]
    simp only [Nat.add_sub_cancel] at h₁
    lia
  · rw [hpow, pow_succ]
    simp only [Nat.add_sub_cancel] at h₂
    lia

theorem modEq_toInt {w : ℕ} (x : BitVec w) : (x.toInt : ℤ) ≡ x.toNat [ZMOD 2 ^ w] := by
  rw [BitVec.toInt_eq_toNat_bmod]
  have := Int.bmod_emod (x := (x.toNat : ℤ)) (m := 2 ^ w)
  push_cast at this
  exact this

theorem modEq_add {w : ℕ} (x y : BitVec w) : ((x + y).toNat : ℤ) ≡ x.toNat + y.toNat [ZMOD 2 ^ w] := by
  rw [BitVec.toNat_add]
  push_cast
  exact Int.mod_modEq _ _

theorem modEq_sub {w : ℕ} (x y : BitVec w) : ((x - y).toNat : ℤ) ≡ x.toNat - y.toNat [ZMOD 2 ^ w] := by
  have h := modEq_add (x - y) y
  rw [BitVec.sub_add_cancel] at h
  have := h.symm.sub_right (y.toNat : ℤ)
  rwa [add_sub_cancel_right] at this

/-! ### The range -/

/-- The range, as a number. -/
def Target.rangeNat (T : Target) : ℕ := 2 ^ (T.jumprange - 1) - 2 ^ 21

theorem range_lt (T : Target) : 2 * T.rangeNat + 2 ^ 22 = 2 ^ T.jumprange ∧ 2 * 2 ^ T.jumprange ≤ 2 ^ T.w := by
  obtain ⟨j, hj⟩ : ∃ j, T.jumprange = j + 1 := ⟨T.jumprange - 1, by have := T.jump; lia⟩
  have hlow : 2 ^ 21 ≤ 2 ^ j := Nat.pow_le_pow_right (by decide) (by have := T.jump; omega)
  constructor
  · have h22 : (2 : ℕ) ^ 22 = 2 * 2 ^ 21 := by norm_num
    have hrange : T.rangeNat = 2 ^ j - 2 ^ 21 := by
      unfold Target.rangeNat
      rewrite [hj]
      exact congrArg (2 ^ · - 2 ^ 21) (Nat.add_sub_cancel j 1)
    calc 2 * T.rangeNat + 2 ^ 22 = 2 * (2 ^ j - 2 ^ 21) + 2 * 2 ^ 21 := by rw [h22, hrange]
      _ = 2 * 2 ^ j := by rw [← Nat.mul_add, Nat.sub_add_cancel hlow]
      _ = 2 ^ T.jumprange := by rw [hj, pow_succ, mul_comm]
  · calc 2 * 2 ^ T.jumprange = 2 ^ (T.jumprange + 1) := by rw [pow_succ, mul_comm]
      _ ≤ 2 ^ T.w := Nat.pow_le_pow_right (by decide) T.jumpWidth

theorem rangeNat_lt_width (T : Target) : T.rangeNat < 2 ^ T.w := by
  have ⟨h₁, h₂⟩ := range_lt T
  have hpos : 0 < 2 ^ T.jumprange := Nat.pow_pos (by decide)
  generalize 2 ^ T.jumprange = j at *
  generalize 2 ^ T.w = n at *
  lia

theorem toNat_range (T : Target) : T.range.toNat = T.rangeNat := by
  have h : T.range = BitVec.ofNat T.w T.rangeNat := by
    unfold Target.range Target.rangeNat
    exact rfl
  rw [h, BitVec.toNat_ofNat]
  exact Nat.mod_eq_of_lt (rangeNat_lt_width T)

/-- An address within the range of the target. -/
def Near (T : Target) (x : Addr T) : Prop :=
  -(T.rangeNat : ℤ) < (x - T.target).toInt ∧ (x - T.target).toInt < T.rangeNat

theorem width_pos (T : Target) : 0 < T.w := by
  have := T.width
  omega

/-- A small difference. -/
theorem toInt_of_small {x : Addr T} {d : ℤ} (h : (x.toNat : ℤ) ≡ d [ZMOD 2 ^ T.w])
    (h₁ : -2 ^ T.jumprange < d) (h₂ : d < 2 ^ T.jumprange) : x.toInt = d := by
  have hle : (2 : ℤ) ^ T.jumprange ≤ 2 ^ (T.w - 1) :=
    pow_le_pow_right₀ (by decide) (by have := T.jumpWidth; lia)
  exact toInt_of_modEq (width_pos T) h (by omega) (by omega)

theorem near_of_modEq {x : Addr T} {d : ℤ} (h : ((x - T.target).toNat : ℤ) ≡ d [ZMOD 2 ^ T.w])
    (h₁ : -(T.rangeNat : ℤ) < d) (h₂ : d < T.rangeNat) : Near T x := by
  have hr := (range_lt T).1
  have hd : (x - T.target).toInt = d := by
    zify at hr
    exact toInt_of_small h (by lia) (by lia)
  rw [Near, hd]
  exact ⟨h₁, h₂⟩

/-- **The addresses of an area** that is near enough, and less than the range. -/
theorem near_mem {p sz x : Addr T} (hn : near p sz = true) (hsz : sz.ult T.range = true) {k : ℕ}
    (hk : k < sz.toNat) (hx : x = p + BitVec.ofNat T.w k) : Near T x := by
  rw [BitVec.ult, decide_eq_true_eq, toNat_range] at hsz
  have hkw : (BitVec.ofNat T.w k).toNat = k := by
    rw [BitVec.toNat_ofNat]
    exact Nat.mod_eq_of_lt (hk.trans sz.isLt)
  have hoff : ((x - T.target).toNat : ℤ) ≡ p.toNat + k - T.target.toNat [ZMOD 2 ^ T.w] := by
    rw [hx]
    have h := modEq_add p (BitVec.ofNat T.w k)
    rw [hkw] at h
    exact (modEq_sub _ _).trans (h.sub_right _)
  rw [near, Bool.or_eq_true] at hn
  rcases hn with hn | hn
  · rw [BitVec.ult, decide_eq_true_eq, toNat_range] at hn
    have hu : ((p + sz - T.target).toNat : ℤ) ≡ p.toNat + sz.toNat - T.target.toNat [ZMOD 2 ^ T.w] :=
      (modEq_sub _ _).trans ((modEq_add _ _).sub_right _)
    refine near_of_modEq (d := (p + sz - T.target).toNat - sz.toNat + k) ?_ (by lia) (by lia)
    refine hoff.trans ?_
    have := (hu.symm.sub_right (sz.toNat : ℤ)).add_right (k : ℤ)
    rwa [show (p.toNat : ℤ) + sz.toNat - T.target.toNat - sz.toNat + k = p.toNat + k - T.target.toNat by ring]
      at this
  · rw [BitVec.ult, decide_eq_true_eq, toNat_range] at hn
    have hv := modEq_sub T.target p
    refine near_of_modEq (d := k - (T.target - p).toNat) ?_ (by lia) (by lia)
    refine hoff.trans ?_
    have := (Int.ModEq.refl (k : ℤ)).sub hv.symm
    rwa [show (k : ℤ) - (T.target.toNat - p.toNat) = p.toNat + k - T.target.toNat by ring] at this

/-- The region of a target with 256MB regions: the target is in the middle of it. -/
theorem near_region {x : Addr T} (hm : T.mips = true) (hx : Near T x) :
    x >>> 28 = (T.exitHandler &&& BitVec.ofNat T.w 0xf0000000) >>> 28 := by
  obtain ⟨hw, hj⟩ := T.mips32 hm
  have hpow : 2 ^ T.w = 4294967296 := by rw [hw]; norm_num
  have htarget : T.target = (T.exitHandler &&& BitVec.ofNat T.w 0xf0000000) + BitVec.ofNat T.w 0x08000000 := by
    rw [Target.target, if_pos hm]
  have hregion : (T.exitHandler &&& BitVec.ofNat T.w 0xf0000000).toNat = T.exitHandler.toNat &&& 0xf0000000 := by
    rw [BitVec.toNat_and, BitVec.toNat_ofNat, hpow]
  have hle : T.exitHandler.toNat &&& 0xf0000000 ≤ 0xf0000000 := Nat.and_le_right
  have hdvd : (T.exitHandler.toNat &&& 0xf0000000) % 2 ^ 28 = 0 := by
    rw [Nat.and_mod_two_pow, show 0xf0000000 % 2 ^ 28 = 0 by norm_num, Nat.and_zero]
  have hadd : T.target.toNat = (T.exitHandler.toNat &&& 0xf0000000) + 0x08000000 := by
    rw [htarget, BitVec.toNat_add, hregion, BitVec.toNat_ofNat, hpow]
    lia
  have hrange : T.rangeNat = 65011712 := by
    unfold Target.rangeNat
    rw [hj]
    norm_num
  have hoff := (modEq_toInt (x - T.target)).trans (modEq_sub x T.target)
  have hpow' : (2 : ℤ) ^ T.w = 4294967296 := by rw [hw]; norm_num
  obtain ⟨h₁, h₂⟩ := hx
  have hlt := x.isLt
  rw [hrange] at h₁ h₂
  rw [hpow', hadd] at hoff
  rw [hpow] at hlt
  apply BitVec.eq_of_toNat_eq
  rw [BitVec.toNat_ushiftRight, BitVec.toNat_ushiftRight, hregion, Nat.shiftRight_eq_div_pow,
    Nat.shiftRight_eq_div_pow]
  obtain ⟨k, hk⟩ := hoff.dvd
  generalize T.exitHandler.toNat &&& 0xf0000000 = g at *
  lia

/-- **Jumps between such addresses.** -/
theorem reaches_of_near {x y : Addr T} (hx : Near T x) (hy : Near T y) : Reaches T x y := by
  have hr := (range_lt T).1
  have hd : ((y - x).toNat : ℤ) ≡ (y - T.target).toInt - (x - T.target).toInt [ZMOD 2 ^ T.w] := by
    have h := ((modEq_toInt (y - T.target)).trans (modEq_sub _ _)).sub
      ((modEq_toInt (x - T.target)).trans (modEq_sub _ _))
    rw [sub_sub_sub_cancel_right] at h
    exact (modEq_sub y x).trans h.symm
  obtain ⟨hx₁, hx₂⟩ := id hx
  obtain ⟨hy₁, hy₂⟩ := id hy
  zify at hr
  have hint := toInt_of_small hd (by lia) (by lia)
  refine ⟨by lia, by lia, fun hm => ?_⟩
  rw [near_region hm hx, near_region hm hy]

/-! ### The areas of a run -/

/-- Every area is near enough, and less than the range; the size of the next one is less too. -/
structure Placed (J : JState T) : Prop where
  areas : ∀ a ∈ J.areas.map Area.shape, near a.1 a.2 = true ∧ a.2.ult T.range = true
  fits : Fits T J.sizemcode

theorem Placed.wellPlaced {J : JState T} (h : Placed J) : WellPlaced J := by
  have hnear : ∀ a ∈ J.areas, ∀ x, a.Mem x → Near T x := by
    rintro a ha x ⟨k, hk, hx⟩
    obtain ⟨hn, hsz⟩ := h.areas a.shape (List.mem_map_of_mem ha)
    exact near_mem hn hsz hk hx
  intro a ha b hb x y hx hy
  exact reaches_of_near (hnear a ha x hx) (hnear b hb y hy)

theorem Placed.of_sameCode {J J' : JState T} (h : Placed J) (hs : SameCode J J')
    (hsize : J'.sizemcode = J.sizemcode) : Placed J' :=
  ⟨hs.areas ▸ h.areas, hsize ▸ h.fits⟩

theorem protect_sizemcode (J : JState T) (prot : Prot) : (mcodeProtect J prot).sizemcode = J.sizemcode := by
  rw [mcodeProtect]
  split <;> rfl

theorem Placed.alloc {J J' : JState T} (h : Placed J) (hlim : T.limited = true)
    {mmap : ℕ → Addr T → Addr T} {fuel : ℕ} {e : Option TraceError}
    (ha : mcodeAllocarea mmap fuel J = some (J', e)) : Placed J' := by
  obtain ⟨s, rfl, -⟩ | ⟨p, s, i, hint, -, hn, -, rfl⟩ := mcodeAllocarea_cases ha
  · exact ⟨h.areas, h.fits⟩
  · refine ⟨fun a ha => ?_, h.fits⟩
    cases ha with
    | head => exact ⟨hn hlim, h.fits⟩
    | tail _ ha => exact h.areas a ha

/-- One operation: only an allocation adds to the areas. -/
theorem Placed.step {J J' : JState T} (h : Placed J) (hlim : T.limited = true) {op : Op T} {fuel : ℕ}
    {e : Option TraceError} (hc : ∀ a b, op = .param a b → Fits T a)
    (hs : step fuel J op = some (J', e)) : Placed J' := by
  cases op with
  | param a b =>
    cases hs
    exact ⟨h.areas, hc a b rfl⟩
  | reserve mmap =>
    rw [Mcode.step] at hs
    split at hs
    · exact h.alloc hlim hs
    · cases hs
      exact h.of_sameCode ((sameCode_protect J .rw).open_ _) (protect_sizemcode J .rw)
  | commit top =>
    cases hs
    have hp : Placed { J with committed := (top, J.mctop) :: J.committed, mctop := top } := ⟨h.areas, h.fits⟩
    exact hp.of_sameCode ((sameCode_protect _ .rx).close _) (protect_sizemcode _ .rx)
  | commitbot m =>
    cases hs
    exact ⟨h.areas, h.fits⟩
  | abort =>
    cases hs
    exact h.of_sameCode (sameCode_abort J) (abort_sizemcode J)
  | patchBegin ptr =>
    rw [Mcode.step] at hs
    split at hs
    · cases hs
      exact h
    · split at hs
      · cases hs
        exact h.of_sameCode ((sameCode_protect J .rw).open_ _) (protect_sizemcode J .rw)
      · split at hs <;> cases hs
        · exact h
        · exact h.of_sameCode ((sameCode_setprot J _ .rw).open_ _) rfl
  | patchFinish ptr =>
    rw [Mcode.step] at hs
    split at hs <;> cases hs
    · exact h.of_sameCode ((sameCode_protect J .rx).close _) (protect_sizemcode J .rx)
    · exact h.of_sameCode ((sameCode_setprot J ptr .rx).close ptr) rfl
  | limiterr mmap need =>
    have habort : Placed (mcodeAbort J) := h.of_sameCode (sameCode_abort J) (abort_sizemcode J)
    rw [Mcode.step] at hs
    split at hs
    · cases hs
      exact habort
    · split at hs
      · cases hs
        exact habort
      · split at hs
        · cases hs
        · rename_i ha
          cases hs
          exact habort.alloc hlim ha
        · rename_i ha
          cases hs
          exact habort.alloc hlim ha

theorem run_placed (hlim : T.limited = true) {C : BitVec 32 → Prop} (hC : ∀ n, C n → Fits T n) {J : JState T}
    (h : Run T C J) : Placed J := by
  induction h with
  | init s a b h =>
    refine ⟨?_, hC a h⟩
    rintro a ⟨⟩
  | step _ _ hc hs ih => exact ih.step hlim (fun a b hop => hC a (hc a b hop)) hs

/-! ### The probing loop -/

theorem prng_modEq (s : BitVec 32) : ((prng s).toNat : ℤ) ≡ Lcg.step 1103515245 12345 s.toNat [ZMOD 2 ^ 32] := by
  rw [prng, Lcg.step]
  have hmul : ((s * 1103515245#32).toNat : ℤ) ≡ 1103515245 * s.toNat [ZMOD 2 ^ 32] := by
    rw [BitVec.toNat_mul, mul_comm]
    push_cast
    exact Int.mod_modEq _ _
  exact (modEq_add _ _).trans (hmul.add_right _)

theorem lcg_step_congr {a c x y m : ℤ} (h : x ≡ y [ZMOD m]) : Lcg.step a c x ≡ Lcg.step a c y [ZMOD m] :=
  (h.mul_left a).add_right c

theorem lcg_iter_congr {a c x y m : ℤ} (n : ℕ) (h : x ≡ y [ZMOD m]) :
    Lcg.iter a c n x ≡ Lcg.iter a c n y [ZMOD m] := by
  induction n generalizing x y with
  | zero => exact h
  | succ n ih => exact ih (lcg_step_congr h)

theorem prng_iterate (n : ℕ) (s : BitVec 32) :
    ((prng^[n] s).toNat : ℤ) ≡ Lcg.iter 1103515245 12345 n s.toNat [ZMOD 2 ^ 32] := by
  induction n generalizing s with
  | zero => rfl
  | succ n ih =>
    rw [Function.iterate_succ_apply, Lcg.iter]
    exact (ih (prng s)).trans (lcg_iter_congr n (prng_modEq s))

/-- The generator goes through all states. -/
theorem prng_reaches (s t : BitVec 32) : ∃ n, prng^[n] s = t := by
  obtain ⟨n, hn⟩ := Lcg.exists_iter_modEq (by norm_num : (4 : ℤ) ∣ 1103515245 - 1)
    (by norm_num : ¬(2 : ℤ) ∣ 12345) 32 s.toNat t.toNat
  refine ⟨n, BitVec.eq_of_toNat_eq ?_⟩
  have h : (((prng^[n] s).toNat : ℕ) : ℤ) ≡ (t.toNat : ℕ) [ZMOD ((2 ^ 32 : ℕ) : ℤ)] := (prng_iterate n s).trans hn
  exact ((Int.natCast_modEq_iff.1 h).eq_of_lt_of_lt (prng^[n] s).isLt t.isLt)

/-- The state that gives the hint 0. -/
def zeroHint : BitVec 32 := 0x78fb#32 <<< 17

theorem probe_of_reaches {sz : Addr T} (hsz : sz.ult T.range = true) (n : ℕ) (s : BitVec 32)
    (h : prng^[n + 1] s = zeroHint) : ∃ r, probe T sz (n + 1) s = some r := by
  induction n generalizing s with
  | zero =>
    have hs : prng s = zeroHint := by rwa [zero_add, Function.iterate_one] at h
    have hhint : ((0x78fb#32 ^^^ (zeroHint >>> 17)) <<< 16).setWidth T.w = 0 := by
      rw [show (0x78fb#32 ^^^ (zeroHint >>> 17)) <<< 16 = 0#32 by decide]
      exact BitVec.setWidth_zero _ _
    rw [probe]
    simp only [hs, hhint, zero_add, hsz, if_true]
    exact ⟨_, rfl⟩
  | succ n ih =>
    rw [probe]
    split
    · exact ⟨_, rfl⟩
    · rw [Function.iterate_succ_apply] at h
      exact ih (prng s) h

/-- **The probing loop ends**, for a size that is less than the range. -/
theorem probe_isSome {sz : Addr T} (hsz : sz.ult T.range = true) (s : BitVec 32) :
    ∃ fuel r, probe T sz fuel s = some r := by
  obtain ⟨n, hn⟩ := prng_reaches (prng s) zeroHint
  rw [← Function.iterate_succ_apply] at hn
  exact ⟨n + 1, probe_of_reaches hsz n s hn⟩

theorem probe_mono {sz : Addr T} {fuel fuel' : ℕ} (h : fuel ≤ fuel') {s : BitVec 32} {r : Addr T × BitVec 32}
    (hr : probe T sz fuel s = some r) : probe T sz fuel' s = some r := by
  induction fuel generalizing fuel' s with
  | zero => cases hr
  | succ fuel ih =>
    obtain ⟨m, rfl⟩ : ∃ m, fuel' = m + 1 := ⟨fuel' - 1, by lia⟩
    rw [probe] at hr ⊢
    split at hr
    · rename_i hfit
      rw [if_pos hfit]
      exact hr
    · rename_i hfit
      rw [if_neg hfit]
      exact ih (by omega) hr

theorem mcodeAllocLoop_mono {mmap : ℕ → Addr T → Addr T} {sz : Addr T} {fuel fuel' : ℕ} (h : fuel ≤ fuel')
    (i : ℕ) {hint : Addr T} {s : BitVec 32} {r : Option (Addr T) × BitVec 32}
    (hr : mcodeAllocLoop T mmap sz fuel i hint s = some r) : mcodeAllocLoop T mmap sz fuel' i hint s = some r := by
  induction i generalizing hint s with
  | zero => exact hr
  | succ i ih =>
    rw [mcodeAllocLoop] at hr ⊢
    split
    · rename_i hok
      rwa [if_pos hok] at hr
    · rename_i hok
      rw [if_neg hok] at hr
      split at hr
      · cases hr
      · rename_i hp
        rw [probe_mono h hp]
        exact ih hr

theorem mcodeAllocLoop_isSome (mmap : ℕ → Addr T → Addr T) {sz : Addr T} (hsz : sz.ult T.range = true) (i : ℕ)
    (hint : Addr T) (s : BitVec 32) : ∃ fuel r, mcodeAllocLoop T mmap sz fuel i hint s = some r := by
  induction i generalizing hint s with
  | zero => exact ⟨0, _, rfl⟩
  | succ i ih =>
    by_cases hok : validptr hint && (validptr (mmap i hint) && near (mmap i hint) sz)
    · refine ⟨0, (some (mmap i hint), s), ?_⟩
      rw [mcodeAllocLoop, if_pos hok]
    · obtain ⟨f₁, ⟨h, s'⟩, hprobe⟩ := probe_isSome hsz s
      obtain ⟨f₂, r, hrest⟩ := ih (T.target + h - T.range >>> 1) s'
      refine ⟨max f₁ f₂, r, ?_⟩
      rw [mcodeAllocLoop, if_neg hok, probe_mono (le_max_left f₁ f₂) hprobe]
      exact mcodeAllocLoop_mono (le_max_right f₁ f₂) i hrest

/-- **Allocation ends.** -/
theorem mcodeAllocarea_isSome (mmap : ℕ → Addr T → Addr T) (J : JState T)
    (hfit : T.limited = true → Fits T J.sizemcode) : ∃ fuel r, mcodeAllocarea mmap fuel J = some r := by
  obtain ⟨fuel, ⟨p, s⟩, h⟩ : ∃ fuel r, mcodeAlloc mmap fuel J (szmcode T J.sizemcode) = some r := by
    by_cases hlim : T.limited = true
    · obtain ⟨fuel, r, hr⟩ := mcodeAllocLoop_isSome mmap (hfit hlim) 32
        (if J.areas.isEmpty then 0 else J.mcarea - szmcode T J.sizemcode) J.prngstate
      exact ⟨fuel, r, by rw [mcodeAlloc, if_pos hlim, hr]⟩
    · exact ⟨0, _, by rw [mcodeAlloc, if_neg hlim]⟩
  refine ⟨fuel, ?_⟩
  rw [mcodeAllocarea, h]
  cases p <;> exact ⟨_, rfl⟩

theorem step_isSome (J : JState T) (hfit : T.limited = true → Fits T J.sizemcode) (op : Op T) :
    ∃ fuel r, step fuel J op = some r := by
  cases op with
  | reserve mmap =>
    obtain ⟨fuel, r, hr⟩ := mcodeAllocarea_isSome mmap J hfit
    refine ⟨fuel, ?_⟩
    rw [step]
    split
    · exact ⟨r, hr⟩
    · exact ⟨_, rfl⟩
  | limiterr mmap need =>
    obtain ⟨fuel, ⟨J', e⟩, hr⟩ := mcodeAllocarea_isSome mmap (mcodeAbort J) (abort_sizemcode J ▸ hfit)
    refine ⟨fuel, ?_⟩
    rw [step, hr]
    split
    · exact ⟨_, rfl⟩
    · split
      · exact ⟨_, rfl⟩
      · cases e <;> exact ⟨_, rfl⟩
  | patchBegin ptr =>
    refine ⟨0, ?_⟩
    rw [step]
    split
    · exact ⟨_, rfl⟩
    · split
      · exact ⟨_, rfl⟩
      · split <;> exact ⟨_, rfl⟩
  | patchFinish ptr =>
    refine ⟨0, ?_⟩
    rw [step]
    split <;> exact ⟨_, rfl⟩
  | _ => exact ⟨0, _, rfl⟩

/-- A hint has 31 bits, so none fits a size that is not less than the range. -/
theorem probe_none {sz : Addr T} (hsz : sz.ult T.range = false) (hw : sz.toNat + 2 ^ 31 ≤ 2 ^ T.w) (fuel : ℕ)
    (s : BitVec 32) : probe T sz fuel s = none := by
  induction fuel generalizing s with
  | zero => rfl
  | succ fuel ih =>
    have hhint : (((0x78fb#32 ^^^ (prng s >>> 17)) <<< 16).setWidth T.w).toNat < 2 ^ 31 := by
      rw [BitVec.toNat_setWidth]
      refine lt_of_le_of_lt (Nat.mod_le _ _) ?_
      have hbits : (0x78fb#32 ^^^ (prng s >>> 17)).toNat < 2 ^ 15 := by
        rw [BitVec.toNat_xor]
        refine Nat.xor_lt_two_pow (by decide) ?_
        rw [BitVec.toNat_ushiftRight, Nat.shiftRight_eq_div_pow]
        exact Nat.div_lt_of_lt_mul (prng s).isLt
      rw [BitVec.toNat_shiftLeft, Nat.shiftLeft_eq]
      refine lt_of_le_of_lt (Nat.mod_le _ _) ?_
      omega
    have hnot : ((((0x78fb#32 ^^^ (prng s >>> 17)) <<< 16).setWidth T.w) + sz).ult T.range = false := by
      rw [BitVec.ult, decide_eq_false_iff_not] at hsz ⊢
      rw [BitVec.toNat_add_of_lt (by omega)]
      omega
    rw [probe, if_neg (by rw [hnot]; exact Bool.false_ne_true)]
    exact ih (prng s)

/-! ### Every run -/

/-- **Machine code areas in every run**: the protections, the code that is kept and the sum of the sizes
do not depend on the sizes that are set.  Jumps reach, and operations end, where the size of an area is
less than the range. -/
theorem mcode_holds (T : Target) :
    (∀ J : JState T, Run T (fun _ => True) J → Protected J ∧ Kept J ∧ Summed J) ∧
      ∀ J : JState T, Run T (fun n => T.limited = true → Fits T n) J →
        (T.limited = true → WellPlaced J) ∧ ∀ op, ∃ fuel r, step fuel J op = some r := by
  constructor
  · intro J h
    have hi := run_inv h
    exact ⟨hi.prot, hi.kept, hi.summed⟩
  · intro J h
    refine ⟨fun hlim => (run_placed hlim (fun _ hn => hn hlim) h).wellPlaced, fun op => ?_⟩
    exact step_isSome J (fun hlim => (run_placed hlim (fun _ hn => hn hlim) h).fits) op

/-- The target x64, where the interpreter is at 4MB. -/
def x64 : Target where
  w := 64
  limited := true
  jumprange := 31
  mips := false
  exitHandler := 0x400000#64
  validLimit := 0x800000000000#64
  szlink := 16
  width := by decide
  jump := by decide
  jumpWidth := by decide
  jump32 := by decide
  mips32 := by decide
  szlink16 := by decide

/-- Areas below the interpreter. -/
def mmapBelow (_ : ℕ) (_ : Addr x64) : Addr x64 := 0x300000#64

/-- The start, where the size of an area is given in kilobytes. -/
def start (sizemcode : BitVec 32) : JState x64 := { sizemcode := sizemcode, maxmcode := 512#32 }

theorem fresh_below (sizemcode : BitVec 32) (h : (szmcode x64 sizemcode).toNat < 2 ^ 63) (i : ℕ) (hint : Addr x64) :
    Fresh (start sizemcode).areas (mmapBelow i hint) (szmcode x64 sizemcode) := by
  have hbase : (mmapBelow i hint).toNat = 3145728 := rfl
  refine ⟨?_, show 3145728 + 16 < 2 ^ 64 by norm_num, ?_⟩
  · change 3145728 + (szmcode x64 sizemcode).toNat < 2 ^ 64
    omega
  · rintro a ⟨⟩

theorem run_start {C : BitVec 32 → Prop} {sizemcode : BitVec 32} (h : C sizemcode) : Run x64 C (start sizemcode) :=
  .init 0 sizemcode 512#32 h

/-- The default size, and the first area. -/
theorem mcode_holds_first :
    ∃ J, step 40 (start 64#32) (.reserve mmapBelow) = some (J, none) ∧ J.areas ≠ [] ∧ Protected J ∧ WellPlaced J := by
  obtain ⟨J, hJ, hne⟩ : ∃ J, step 40 (start 64#32) (.reserve mmapBelow) = some (J, none) ∧ J.areas ≠ [] :=
    ⟨_, rfl, List.cons_ne_nil _ _⟩
  have hrun : ∀ C : BitVec 32 → Prop, C 64#32 → Run x64 C J := by
    intro C hC
    have hl : Legal (start 64#32) (.reserve mmapBelow) := fun _ => fresh_below 64#32 (by decide)
    exact .step (run_start hC) hl (fun _ _ h => by cases h) hJ
  have hfits : x64.limited = true → Fits x64 64#32 := fun _ => by
    unfold Fits
    decide
  exact ⟨J, hJ, hne, ((mcode_holds x64).1 J (hrun _ trivial)).1, ((mcode_holds x64).2 J (hrun _ hfits)).1 rfl⟩

/-- **An area of a gigabyte is never allocated**: the range of jumps is two gigabytes, and no hint has an
end within half of it. -/
theorem reserve_never_ends :
    Run x64 (fun _ => True) (start 1048576#32) ∧ Legal (start 1048576#32) (.reserve mmapBelow) ∧
      ¬∃ fuel r, step fuel (start 1048576#32) (.reserve mmapBelow) = some r := by
  refine ⟨run_start trivial, fun _ => fresh_below 1048576#32 (by decide), ?_⟩
  rintro ⟨fuel, r, h⟩
  have hprobe := @probe_none x64 (szmcode x64 1048576#32) (by decide) (by decide) fuel 0#32
  have hnone : mcodeAlloc mmapBelow fuel (start 1048576#32) (szmcode x64 (start 1048576#32).sizemcode) = none := by
    change mcodeAllocLoop x64 mmapBelow (szmcode x64 1048576#32) fuel 32 0 0#32 = none
    rw [mcodeAllocLoop, if_neg (by decide), hprobe]
  have hstep : mcodeAllocarea mmapBelow fuel (start 1048576#32) = none := by rw [mcodeAllocarea, hnone]
  exact Option.some_ne_none r (h.symm.trans hstep)

end Mcode
