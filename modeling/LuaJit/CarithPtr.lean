/-
**Arithmetic with pointers.**

A pointer and an index give a pointer, in either order, and the difference of two pointers is divided by
the size of an element.  All differences of valid pointers are small enough for a double, but the number is
made from the difference cut to 32 bits.

Main definitions:

* `CrecArith.IsIndex` — the operands that are indices, with their value;
* `CrecArith.PtrConsistent` — what pointer arithmetic should satisfy;
* `CrecArith.DiffFits` — the differences that are not cut.

Main results:

* `CrecArith.carithPtr_add`, `CrecArith.carithPtr_sub`, `CrecArith.carithPtr_diff` — the operations;
* `CrecArith.carithPtr_consistent_iff` — **when pointer arithmetic is consistent**.
-/

import LuaJit.CrecArith

set_option relaxedAutoImplicit false
set_option autoImplicit false

namespace CrecArith

open Cconv (IntSize NumSem)

section Index

variable {D : Type} (C : Ctx) (N : NumSem D)

/-- A number is an index: an integer of up to 64 bits, or a double, which is converted. -/
inductive IsIndex : Ct D → ℤ → Prop
  | signed {sz : IntSize} (x : BitVec (8 * sz.bytes)) : IsIndex (.int false sz x) x.toInt
  | unsigned {sz : IntSize} (x : BitVec (8 * sz.bytes)) : IsIndex (.int true sz x) x.toNat
  | fp (d : D) : IsIndex (.fp d) (if C.is64 then N.toI64 d else N.toI32 d)

/-- Adding the index `c` of value `i` to `p`, in either order, gives a pointer whose difference from `p` is `i`
and that gives `p` back; its comparisons with `p` agree with the sign of `i`.  The number `c` lies at `a`. -/
def PtrConsistent (child : ℕ) (size : ElemSize) (p a : BitVec C.width) (c : Ct D) (i : ℤ) : Prop :=
  ∃ q, carithPtr C N .add (.ptr child size) c p a = some (.boxPtr child q) ∧
    carithPtr C N .add c (.ptr child size) a p = some (.boxPtr child q) ∧
    carithPtr C N .sub (.ptr child size) (.ptr child size) q p = some (.num i) ∧
    carithPtr C N .sub (.ptr child size) c q a = some (.boxPtr child p) ∧
    carithPtr C N .lt (.ptr child size) (.ptr child size) q p = some (.bool (i < 0)) ∧
    carithPtr C N .le (.ptr child size) (.ptr child size) q p = some (.bool (i ≤ 0))

/-- The difference is in the range of a signed word, and the number of elements in that of an `int32_t`. -/
def DiffFits (sz : ℕ) (i : ℤ) : Prop :=
  (-2 ^ (C.width - 1) ≤ i * sz ∧ i * sz < 2 ^ (C.width - 1)) ∧ -2 ^ 31 ≤ i ∧ i < 2 ^ 31

end Index

section Arith

variable {D : Type} {C : Ctx} {N : NumSem D} {child : ℕ} {sz : { n : ℕ // n < 2 ^ 31 }} {p a : BitVec C.width}
  {c : Ct D} {i : ℤ}

theorem width_cases (C : Ctx) : C.width = 64 ∨ C.width = 32 := by
  rw [Ctx.width]
  cases C.is64
  · exact .inr rfl
  · exact .inl rfl

/-- An index is converted to its value. -/
theorem toIntPsz_index (h : IsIndex C N c i) : toIntPsz C N c = some (BitVec.ofInt C.width i) := by
  cases h with
  | signed x =>
      rw [toIntPsz, if_neg (by decide)]
      rfl
  | unsigned x =>
      rw [toIntPsz, if_pos rfl, BitVec.ofInt_natCast, BitVec.ofNat_toNat]
  | fp d => rfl

theorem isNum_index (h : IsIndex C N c i) : c.isNum = true := by
  cases h <;> rfl

/-- A pointer and a number. -/
theorem carithPtr_number {mm : MM} {size : ElemSize} (hmm : mm = .add ∨ mm = .sub) (hc : c.isNum = true) :
    carithPtr C N mm (.ptr child size) c p a = carithIndex C N mm child size p c := by
  cases c with
  | ptr _ _ => cases hc
  | other => cases hc
  | int u sz x => exact if_pos ⟨hmm, hc⟩
  | wideInt x => exact if_pos ⟨hmm, hc⟩
  | wideFp => exact if_pos ⟨hmm, hc⟩
  | fp d => exact if_pos ⟨hmm, hc⟩

/-- A number and a pointer. -/
theorem carithPtr_number_swap {size : ElemSize} (hc : c.isNum = true) :
    carithPtr C N .add c (.ptr child size) a p = carithIndex C N .add child size p c := by
  cases c with
  | ptr _ _ => cases hc
  | other => cases hc
  | int u sz x =>
      rw [carithPtr, if_pos ⟨rfl, hc⟩]
      nofun
  | wideInt x =>
      rw [carithPtr, if_pos ⟨rfl, hc⟩]
      nofun
  | wideFp =>
      rw [carithPtr, if_pos ⟨rfl, hc⟩]
      nofun
  | fp d =>
      rw [carithPtr, if_pos ⟨rfl, hc⟩]
      nofun

/-- An index is added in either order. -/
theorem carithPtr_add (child : ℕ) (sz : { n : ℕ // n < 2 ^ 31 }) (p a : BitVec C.width) (h : IsIndex C N c i) :
    carithPtr C N .add (.ptr child (some sz)) c p a =
      some (.boxPtr child (p + BitVec.ofInt C.width i * BitVec.ofNat C.width sz)) ∧
    carithPtr C N .add c (.ptr child (some sz)) a p =
      some (.boxPtr child (p + BitVec.ofInt C.width i * BitVec.ofNat C.width sz)) := by
  have hidx : carithIndex C N .add child (some sz) p c =
      some (.boxPtr child (p + BitVec.ofInt C.width i * BitVec.ofNat C.width sz)) := by
    rw [carithIndex, toIntPsz_index h]
    rfl
  rw [carithPtr_number (.inl rfl) (isNum_index h), carithPtr_number_swap (isNum_index h)]
  exact ⟨hidx, hidx⟩

theorem carithPtr_sub (child : ℕ) (sz : { n : ℕ // n < 2 ^ 31 }) (p a : BitVec C.width) (h : IsIndex C N c i) :
    carithPtr C N .sub (.ptr child (some sz)) c p a =
      some (.boxPtr child (p + -BitVec.ofInt C.width i * BitVec.ofNat C.width sz)) := by
  rw [carithPtr_number (.inr rfl) (isNum_index h), carithIndex, toIntPsz_index h]
  rfl

/-- The difference of two pointers. -/
theorem carithPtr_diff {q : BitVec C.width} (hc : C.compat = true) (hsz : 0 < sz.1) :
    carithPtr C N .sub (.ptr child (some sz)) (.ptr child (some sz)) q p =
      some (.num (((q - p).toInt.tdiv sz.1).bmod (2 ^ 32))) := by
  rw [carithPtr, if_neg (by decide), if_pos (.inl rfl), if_neg (by rw [hc]; decide), if_pos rfl]
  exact if_neg (Nat.ne_of_gt hsz)

theorem carithPtr_lt {q : BitVec C.width} {size : ElemSize} (hc : C.compat = true) :
    carithPtr C N .lt (.ptr child size) (.ptr child size) q p = some (.bool (q.ult p)) := by
  simp [carithPtr, hc]

theorem carithPtr_le {q : BitVec C.width} {size : ElemSize} (hc : C.compat = true) :
    carithPtr C N .le (.ptr child size) (.ptr child size) q p = some (.bool (q.ule p)) := by
  simp [carithPtr, hc]

/-! ### The words -/

/-- The distance of two pointers in bytes. -/
theorem ofInt_mul_size (W : ℕ) (i : ℤ) (n : ℕ) :
    BitVec.ofInt W i * BitVec.ofNat W n = BitVec.ofInt W (i * n) := by
  rw [BitVec.ofInt_mul, BitVec.ofInt_natCast]

/-- Going back. -/
theorem add_neg_mul {W : ℕ} (p x y : BitVec W) : p + x * y + -x * y = p := by
  rw [BitVec.neg_mul, BitVec.add_assoc, BitVec.add_right_neg, BitVec.add_zero]

/-- A sum that does not wrap. -/
theorem toNat_add_ofInt {W : ℕ} {p : BitVec W} {d : ℤ} (h0 : 0 ≤ p.toNat + d) (h1 : p.toNat + d < 2 ^ W) :
    ((p + BitVec.ofInt W d).toNat : ℤ) = p.toNat + d := by
  rw [BitVec.toNat_add, BitVec.toNat_ofInt]
  push_cast
  rw [Int.toNat_of_nonneg (Int.emod_nonneg _ (by positivity)), Int.add_emod_emod, Int.emod_eq_of_lt h0 h1]

theorem toInt_add_sub {W : ℕ} (p : BitVec W) (d : ℤ) : (p + BitVec.ofInt W d - p).toInt = d.bmod (2 ^ W) := by
  rw [BitVec.add_comm, BitVec.add_sub_cancel, BitVec.toInt_ofInt]

/-- A quotient that is cut to 32 bits is exact when neither the difference nor the quotient is cut. -/
theorem tdiv_of_fits {W sz : ℕ} (hW : 0 < W) (hsz : 0 < sz) (h0 : -2 ^ (W - 1) ≤ i * sz) (h1 : i * sz < 2 ^ (W - 1))
    (h32 : -2 ^ 31 ≤ i ∧ i < 2 ^ 31) : (((i * sz).bmod (2 ^ W)).tdiv sz).bmod (2 ^ 32) = i := by
  have hpow : (2 : ℤ) ^ W = 2 * 2 ^ (W - 1) := by
    rw [← pow_succ', Nat.sub_add_cancel hW]
  have hd : (i * sz).bmod (2 ^ W) = i * sz := by
    refine Int.bmod_eq_of_le_mul_two ?_ ?_
    · push_cast
      lia
    · push_cast
      omega
  rw [hd, Int.mul_tdiv_cancel _ (by omega)]
  exact Int.bmod_eq_of_le_mul_two (by push_cast; omega) (by push_cast; omega)

/-- A difference beyond a signed word of 32 bits changes its sign, and so does the quotient. -/
theorem fits_of_tdiv {sz : ℕ} (h0 : -2 ^ 32 < i * sz) (h1 : i * sz < 2 ^ 32)
    (h : (((i * sz).bmod (2 ^ 32)).tdiv sz).bmod (2 ^ 32) = i) : -2 ^ 31 ≤ i * sz ∧ i * sz < 2 ^ 31 := by
  have hsz : (0 : ℤ) ≤ sz := Int.natCast_nonneg sz
  obtain ⟨d, hd⟩ : ∃ d, d = i * sz := ⟨_, rfl⟩
  have hq : ((d.bmod (2 ^ 32)).tdiv sz).bmod (2 ^ 32) = (d.bmod (2 ^ 32)).tdiv sz := by
    have hlo := Int.le_bmod (x := d) (m := 2 ^ 32) (by decide)
    have hhi := Int.bmod_lt (x := d) (m := 2 ^ 32) (by decide)
    generalize d.bmod (2 ^ 32) = b at hlo hhi ⊢
    have hle := Int.natAbs_tdiv_le_natAbs b sz
    have hsign : b < 0 → b.tdiv sz ≤ 0 := fun hneg => by
      have := Int.tdiv_nonneg (a := -b) (by lia) hsz
      rw [Int.neg_tdiv] at this
      omega
    have hsign' : 0 ≤ b → b.tdiv sz ≤ b := Int.tdiv_le_self _
    push_cast at hlo hhi
    refine Int.bmod_eq_of_le_mul_two ?_ ?_
    · push_cast
      lia
    · push_cast
      lia
  rw [← hd] at h0 h1 h ⊢
  rw [hq] at h
  refine ⟨Int.not_lt.mp fun hlt => ?_, Int.not_le.mp fun hge => ?_⟩
  · have hpos : 0 ≤ d.bmod (2 ^ 32) := by
      rw [Int.bmod_def]
      lia
    have hi : 0 ≤ i := h ▸ Int.tdiv_nonneg hpos hsz
    have := Int.mul_nonneg hi hsz
    lia
  · have hneg : 0 ≤ -d.bmod (2 ^ 32) := by
      rw [Int.bmod_def]
      lia
    have hi : 0 ≤ -i := by
      rw [← h, ← Int.neg_tdiv]
      exact Int.tdiv_nonneg hneg hsz
    have := Int.mul_nonneg hi hsz
    rw [Int.neg_mul] at this
    lia

/-- The number of a difference is the index exactly when nothing is cut. -/
theorem diff_iff {W sz : ℕ} (hW : W = 64 ∨ W = 32) (hsz : 0 < sz) (h47 : |i * sz| < 2 ^ 47)
    (h0 : -2 ^ W < i * sz) (h1 : i * sz < 2 ^ W) : (((i * sz).bmod (2 ^ W)).tdiv sz).bmod (2 ^ 32) = i ↔
      (-2 ^ (W - 1) ≤ i * sz ∧ i * sz < 2 ^ (W - 1)) ∧ -2 ^ 31 ≤ i ∧ i < 2 ^ 31 := by
  refine ⟨fun h => ⟨?_, ?_⟩, fun h => tdiv_of_fits (by lia) hsz h.1.1 h.1.2 h.2⟩
  · rcases hW with rfl | rfl
    · rw [abs_lt] at h47
      lia
    · exact fits_of_tdiv h0 h1 h
  · have hlo := Int.le_bmod (x := ((i * sz).bmod (2 ^ W)).tdiv sz) (m := 2 ^ 32) (by decide)
    have hhi := Int.bmod_lt (x := ((i * sz).bmod (2 ^ W)).tdiv sz) (m := 2 ^ 32) (by decide)
    rw [h] at hlo hhi
    push_cast at hlo hhi
    lia

/-- The sign of a multiple. -/
theorem mul_neg_iff {sz : ℕ} (hsz : 0 < sz) : i * sz < 0 ↔ i < 0 := by
  have hpos : (0 : ℤ) < sz := by omega
  constructor
  · intro h
    by_contra hi
    have := Int.mul_nonneg (Int.not_lt.mp hi) hpos.le
    omega
  · intro h
    exact Int.mul_neg_of_neg_of_pos h hpos

theorem mul_nonpos_iff_le {sz : ℕ} (hsz : 0 < sz) : i * sz ≤ 0 ↔ i ≤ 0 := by
  have h := mul_neg_iff (i := -i) hsz
  rw [Int.neg_mul] at h
  lia

/-- **When pointer arithmetic is consistent**: for an index whose multiple neither wraps nor leaves the range
of addresses, exactly if the difference is a signed word and the index an `int32_t`. -/
theorem carithPtr_consistent_iff (hcompat : C.compat = true) (hsz : 0 < sz.1) (hidx : IsIndex C N c i)
    (h47 : |i * sz.1| < 2 ^ 47) (h0 : 0 ≤ p.toNat + i * sz.1) (h1 : p.toNat + i * sz.1 < 2 ^ C.width) :
    PtrConsistent C N child (some sz) p a c i ↔ DiffFits C sz.1 i := by
  have hp := p.isLt
  obtain ⟨q, hq⟩ : ∃ q, q = p + BitVec.ofInt C.width (i * sz.1) := ⟨_, rfl⟩
  have hqn : (q.toNat : ℤ) = p.toNat + i * sz.1 := by
    rw [hq]
    exact toNat_add_ofInt h0 h1
  obtain ⟨hadd, hswap⟩ := carithPtr_add child sz p a hidx
  rw [ofInt_mul_size, ← hq] at hadd hswap
  have hback := carithPtr_sub child sz q a hidx
  rw [hq, ← ofInt_mul_size, add_neg_mul, ofInt_mul_size, ← hq] at hback
  have hdiff : (q - p).toInt = (i * sz.1).bmod (2 ^ C.width) := by
    rw [hq, toInt_add_sub]
  have hlt : q.ult p = decide (i < 0) := by
    rw [BitVec.ult, decide_eq_decide, ← mul_neg_iff hsz]
    lia
  have hle : q.ule p = decide (i ≤ 0) := by
    rw [BitVec.ule, decide_eq_decide, ← mul_nonpos_iff_le hsz]
    lia
  have hpow : (2 : ℤ) ^ C.width = (2 ^ C.width : ℕ) := by push_cast; rfl
  rw [DiffFits, ← diff_iff (width_cases C) hsz h47 (by lia) (by lia), ← hdiff]
  constructor
  · rintro ⟨q', hadd', -, hd, -⟩
    rw [hadd] at hadd'
    cases hadd'
    rw [carithPtr_diff hcompat hsz] at hd
    exact Res.num.inj (Option.some.inj hd)
  · intro h
    refine ⟨q, hadd, hswap, ?_, hback, ?_, ?_⟩
    · rw [carithPtr_diff hcompat hsz, h]
    · rw [carithPtr_lt hcompat, hlt]
    · rw [carithPtr_le hcompat, hle]

end Arith

/-- A 64 bit target, with pointers to characters. -/
def x64Ctx : Ctx := { is64 := true, compat := true, hasMeta := false, enumConst := fun _ _ => none, voidId := 0 }

def charSize : { n : ℕ // n < 2 ^ 31 } := ⟨1, by decide⟩

/-- A pointer to the third character from another one. -/
theorem carithPtr_consistent_three :
    PtrConsistent x64Ctx NumSem.integers 1 (some charSize) 0x1000 0x2000 (.int false .s8 (3 : BitVec 64)) 3 ↔
      DiffFits x64Ctx charSize.1 3 :=
  carithPtr_consistent_iff rfl (by decide) (@IsIndex.signed _ x64Ctx NumSem.integers .s8 3) (by decide) (by decide) (by decide)

/-- Two gigabytes behind a pointer: the range of addresses is not left, but the difference is negative. -/
theorem carithPtr_far : IsIndex x64Ctx NumSem.integers (.int false .s8 (0x80000000 : BitVec 64)) (2 ^ 31) ∧
    |(2 ^ 31 : ℤ) * charSize.1| < 2 ^ 47 ∧
    carithPtr x64Ctx NumSem.integers .add (.ptr 1 (some charSize)) (.int false .s8 (0x80000000 : BitVec 64))
      (0x1000 : BitVec 64) 0x2000 = some (.boxPtr 1 (0x80001000 : BitVec 64)) ∧
    carithPtr x64Ctx NumSem.integers .sub (.ptr 1 (some charSize)) (.ptr 1 (some charSize))
      (0x80001000 : BitVec 64) (0x1000 : BitVec 64) = some (.num (-2 ^ 31)) ∧
    ¬PtrConsistent x64Ctx NumSem.integers 1 (some charSize) 0x1000 0x2000
      (.int false .s8 (0x80000000 : BitVec 64)) (2 ^ 31) := by
  have hadd : carithPtr x64Ctx NumSem.integers .add (.ptr 1 (some charSize)) (.int false .s8 (0x80000000 : BitVec 64))
      (0x1000 : BitVec 64) 0x2000 = some (.boxPtr 1 (0x80001000 : BitVec 64)) := rfl
  have hsub : carithPtr x64Ctx NumSem.integers .sub (.ptr 1 (some charSize)) (.ptr 1 (some charSize))
      (0x80001000 : BitVec 64) (0x1000 : BitVec 64) = some (.num (-2 ^ 31)) := rfl
  refine ⟨@IsIndex.signed _ x64Ctx NumSem.integers .s8 0x80000000, by decide, hadd, hsub, ?_⟩
  rintro ⟨q, hq, -, hd, -⟩
  cases hadd.symm.trans hq
  exact absurd (Res.num.inj (Option.some.inj (hsub.symm.trans hd))) (by decide)

end CrecArith
