/-
**Argument slots of C calls are disjoint and in bounds.**

On every target the counters of `ccall_set_args` only grow, and an argument is stored at or above
them and below what they become.  The one exception is an argument that begins in the last core
registers and goes on at the start of the stack.  On MIPS and with the soft-float ABI of ARM the stack
is only used once the core registers are exhausted, so nothing is there yet.  With the hard-float ABI
of ARM it may already hold FP arguments, which are then overwritten.

Main definitions:

* `Ccall.mark` — the counters as marks in bytes;
* `Ccall.Clash` — an argument is split between registers and a stack that is in use;
* `Ccall.SlotsOk` — the arguments are in bounds, pairwise disjoint and aligned.

Main results:

* `Ccall.setArg_ok` — what one argument does to the marks;
* `Ccall.setArgs_ok`, `Ccall.setArgs_clash`, `Ccall.setArgs_aligned` — the run lemmas;
* `Ccall.slotsOk_iff` — **the slots of a call are in order exactly if no argument is split between
  registers and a stack that is in use**.
-/

import LuaJit.Ccall

set_option relaxedAutoImplicit false
set_option autoImplicit false

namespace Ccall

/-! ### The statement -/

/-- The sizes of the arrays of `CCallState`. -/
def Target.room (t : Target) : Region → ℕ
  | .gpr => t.ptr * t.numGpr
  | .fpr => t.fprSize * t.numFpr
  | .stack => t.ptr * maxstack

/-- An integer or a number of 64 bits. -/
def CType.is64 (t : Target) (d : CType) : Prop := d.isNum = true ∧ d.size t = 8

/-- An argument begins in the last core registers and goes on on the stack although the stack is in
use.  Only the hard-float ABI of ARM has arguments on the stack while core registers are free. -/
def Clash (t : Target) (f : FuncType) (st : State) (d : CType) : Prop :=
  t = .arm false ∧ 0 < st.nsp ∧ armGpr t f st d < 4 ∧
    ∃ p, pass t f d = some p ∧ (p.isfp = 0 ∨ f.vararg = true) ∧ 4 < armGpr t f st d + p.n t

/-- No argument of the run clashes with the stack. -/
def NoClashFrom (t : Target) (f : FuncType) : State → List Arg → Prop
  | _, [] => True
  | st, a :: as =>
      ¬ Clash t f st a.d ∧ ∀ p st', setArg t f st a = some (p, st') → NoClashFrom t f st' as

/-- No argument of the call clashes with the stack. -/
def NoClash (t : Target) (f : FuncType) (va : List CType) : Prop :=
  ∀ ret st, setRet t f = some (ret, st) → NoClashFrom t f st (callArgs f va)

/-- Two arguments, in this order: what is kept of the first is not overwritten. -/
def Placed.Apart (p q : Placed) : Prop := ∀ s ∈ p.spans, ∀ u ∈ q.spans ++ q.stray, s.Apart u

/-- The 64 bit arguments are aligned to 8 bytes, except on x86. -/
def AlignedArg (t : Target) (d : CType) (p : Placed) : Prop :=
  (∀ abi, t ≠ .x86 abi) → d.is64 t → ∀ s ∈ p.spans, 8 ∣ s.start

/-- The arguments of a call are in bounds, pairwise disjoint and aligned.  `ret` is the pointer to a
result that is returned by reference, if any. -/
structure SlotsOk (t : Target) (as : List Arg) (ret ps : List Placed) (st : State) : Prop where
  room : ∀ p ∈ ret ++ ps, ∀ s ∈ p.spans ++ p.stray, s.Below t.room
  apart : (ret ++ ps).Pairwise Placed.Apart
  nsp_le : st.nsp ≤ maxstack
  aligned : List.Forall₂ (fun a => AlignedArg t a.d) as ps

/-! ### Marks -/

/-- The first free byte of each array.  After an odd number of singles the upper half of the last FP
register of ARM is free. -/
def mark (t : Target) (st : State) : Region → ℕ
  | .gpr => t.ptr * st.ngpr
  | .fpr =>
      if st.fprodd ≠ 0 ∧ st.fprodd = st.nfpr then t.fprSize * st.nfpr - 4 else t.fprSize * st.nfpr
  | .stack => t.ptr * st.nsp

/-- The targets on which the stack is used last. -/
def Target.stackLast : Target → Bool
  | .arm soft => soft
  | .mips .. => true
  | _ => false

/-- What holds of the counters between arguments. -/
structure Inv (t : Target) (f : FuncType) (st : State) : Prop where
  ngpr_le : (∀ soft be, t ≠ .mips soft be) → st.ngpr ≤ maxgpr t f
  nfpr_le : st.nfpr ≤ t.nargFpr
  nsp_le : st.nsp ≤ maxstack
  fprodd_le : st.fprodd ≤ st.nfpr
  fprodd_zero : t ≠ .arm false → st.fprodd = 0
  stackLast : t.stackLast = true → 0 < st.nsp → maxgpr t f ≤ st.ngpr

/-- An argument is stored between the marks before and after it, and in bounds. -/
structure Fits (t : Target) (f : FuncType) (st st' : State) (spans : List (Span Region)) : Prop where
  above : ∀ s ∈ spans, s.Above (mark t st)
  below : ∀ s ∈ spans, s.Below (mark t st')
  room : ∀ s ∈ spans, s.Below t.room
  mono : ∀ r, mark t st r ≤ mark t st' r
  inv : Inv t f st'

/-- An argument is left for the stack. -/
structure Left (t : Target) (f : FuncType) (st st' : State) : Prop where
  mono : ∀ r, mark t st r ≤ mark t st' r
  inv : Inv t f st'
  nsp_eq : st'.nsp = st.nsp
  last : t.stackLast = true → maxgpr t f ≤ st'.ngpr

section Marks

variable {t : Target} {f : FuncType} {st st' st1 : State} {d : CType} {r : Region} {byte n len : ℕ}
  {spans : List (Span Region)}

theorem Fits.of_le (h : Fits t f st1 st' spans) (hm : ∀ r, mark t st r ≤ mark t st1 r) :
    Fits t f st st' spans :=
  ⟨fun s hs => (h.above s hs).mono hm, h.below, h.room, fun r => (hm r).trans (h.mono r), h.inv⟩

theorem Left.of_le (h : Left t f st1 st') (hm : ∀ r, mark t st r ≤ mark t st1 r)
    (hn : st1.nsp = st.nsp) : Left t f st st' :=
  ⟨fun r => (hm r).trans (h.mono r), h.inv, h.nsp_eq.trans hn, h.last⟩

/-- The marks only depend on the counters. -/
theorem mark_le (hg : st.ngpr ≤ st'.ngpr) (hf : mark t st .fpr ≤ mark t st' .fpr)
    (hs : st.nsp ≤ st'.nsp) (r : Region) : mark t st r ≤ mark t st' r := by
  cases r with
  | gpr => exact Nat.mul_le_mul_left _ hg
  | fpr => exact hf
  | stack => exact Nat.mul_le_mul_left _ hs

/-- Without a free half register the mark is the next register. -/
theorem mark_fpr (h : st.fprodd = 0) : mark t st .fpr = t.fprSize * st.nfpr := by
  simp only [mark, h, ne_eq, not_true_eq_false, false_and, if_false]

theorem mark_fpr_le_of (h : st.fprodd = 0) (h' : st'.fprodd = 0) (hn : st.nfpr ≤ st'.nfpr) :
    mark t st .fpr ≤ mark t st' .fpr := by
  rw [mark_fpr h, mark_fpr h']
  exact Nat.mul_le_mul_left _ hn

theorem contiguous_single (h : r = .gpr → byte + len ≤ t.ptr * t.numGpr) :
    contiguous t r byte len = [⟨r, byte, len⟩] := by
  unfold contiguous
  rw [if_neg]
  rintro ⟨hr, hlt⟩
  have := h hr
  omega

/-- One span that lies between the marks. -/
theorem fits_single (h1 : 0 < len → mark t st r ≤ byte) (h2 : 0 < len → byte + len ≤ mark t st' r)
    (h3 : 0 < len → byte + len ≤ t.room r) (hm : ∀ r, mark t st r ≤ mark t st' r) (hi : Inv t f st') :
    Fits t f st st' [⟨r, byte, len⟩] where
  above := by
    intro s hs
    rw [List.mem_singleton] at hs
    subst hs
    exact h1
  below := by
    intro s hs
    rw [List.mem_singleton] at hs
    subst hs
    exact h2
  room := by
    intro s hs
    rw [List.mem_singleton] at hs
    subst hs
    exact h3
  mono := hm
  inv := hi

theorem le_regpair (n : ℕ) : n ≤ regpair n := Align.le_up (by omega)

theorem regpair_le {n m : ℕ} (h : n ≤ m) (hm : 2 ∣ m) : regpair n ≤ m := Align.up_le (by omega) h hm

end Marks

/-! ### The stack -/

section Stack

variable {t : Target} {f : FuncType} {st st' st1 : State} {d : CType} {p : Pass} {byte len : ℕ}

/-- The slots of an argument on the stack. -/
theorem stackArg_spec (h : stackArg t d p st = some (byte, st')) :
    ∃ k, st.nsp ≤ k ∧ byte = t.ptr * k ∧ k + p.n t ≤ maxstack ∧ st' = { st with nsp := k + p.n t } ∧
      (st.nsp = 0 → k = 0) ∧
      (t.alignStackarg = true → p.byref = false → d.overAligned t = true →
        2 ^ (d.align t - t.ptrAlign) ∣ k) := by
  unfold stackArg at h
  set k := if t.alignStackarg = true ∧ ¬ p.byref = true ∧ d.overAligned t = true then
      Align.up (2 ^ (d.align t - t.ptrAlign)) st.nsp
    else st.nsp with hk
  have hle : st.nsp ≤ k := by
    rw [hk]
    split
    · exact Align.le_up (by positivity)
    · exact le_rfl
  have hzero : st.nsp = 0 → k = 0 := by
    intro h0
    rw [hk]
    split
    · rw [h0]
      exact Nat.le_zero.1 (Align.up_le (by positivity) le_rfl (dvd_zero _))
    · exact h0
  dsimp only at h
  by_cases hmax : maxstack < k + p.n t
  · rw [if_pos hmax] at h
    cases h
  · rw [if_neg hmax, Option.some.injEq, Prod.mk.injEq] at h
    obtain ⟨rfl, rfl⟩ := h
    refine ⟨k, hle, rfl, by omega, rfl, hzero, fun h1 h2 h3 => ?_⟩
    rw [hk, if_pos ⟨h1, by simp [h2], h3⟩]
    exact Align.dvd_up _ _

theorem stackArg_fits (hl : Left t f st st1) (h : stackArg t d p st1 = some (byte, st'))
    (hlen : len ≤ t.ptr * p.n t) : Fits t f st st' [⟨.stack, byte, len⟩] := by
  obtain ⟨k, hk, rfl, hle, rfl, -, -⟩ := stackArg_spec h
  have hm : ∀ r, mark t st1 r ≤ mark t { st1 with nsp := k + p.n t } r :=
    mark_le le_rfl le_rfl (by show st1.nsp ≤ k + p.n t; omega)
  have hmul : t.ptr * k + t.ptr * p.n t ≤ t.ptr * maxstack := by
    rw [← Nat.mul_add]
    exact Nat.mul_le_mul_left _ hle
  refine fits_single (fun _ => ?_) (fun _ => ?_) (fun _ => ?_) (fun r => (hl.mono r).trans (hm r)) ?_
  · refine (hl.mono .stack).trans ?_
    exact Nat.mul_le_mul_left _ hk
  · show _ ≤ t.ptr * (k + p.n t)
    rw [Nat.mul_add]
    omega
  · show _ ≤ t.ptr * maxstack
    lia
  · exact ⟨hl.inv.ngpr_le, hl.inv.nfpr_le, hle, hl.inv.fprodd_le, hl.inv.fprodd_zero,
      fun h0 _ => hl.last h0⟩

end Stack

/-! ### What is written -/

section Pass

variable {t : Target} {f : FuncType} {d : CType} {p : Pass}

/-- The bytes written at `dp`. -/
def written (t : Target) (d : CType) (p : Pass) : ℕ := if p.byref then t.ptr else d.stored t

theorem Target.four_le_ptr (t : Target) : 4 ≤ t.ptr := by
  cases t <;> simp [Target.ptr]

/-- The words cover the size, and not one of them is too many. -/
theorem Pass.le_n (t : Target) (p : Pass) : p.sz ≤ t.ptr * p.n t := by
  have hp := t.four_le_ptr
  have h := Nat.div_add_mod (p.sz + t.ptr - 1) t.ptr
  have hlt := Nat.mod_lt (p.sz + t.ptr - 1) (by omega : 0 < t.ptr)
  unfold Pass.n
  lia

theorem Pass.n_lt (t : Target) (p : Pass) (h : 0 < p.sz) : t.ptr * p.n t < p.sz + t.ptr := by
  have hd := Nat.div_mul_le_self (p.sz + t.ptr - 1) t.ptr
  unfold Pass.n
  rw [Nat.mul_comm]
  lia

theorem Pass.n_eq_zero (t : Target) (p : Pass) (h : p.sz = 0) : p.n t = 0 := by
  have hp := t.four_le_ptr
  unfold Pass.n
  rw [h]
  exact Nat.div_eq_of_lt (by omega)

/-- A struct is passed by reference, or with its own size. -/
theorem structarg_cases (t : Target) (size : ℕ) (cls : StructClass) :
    ((structarg t size cls).byref = true ∧ (structarg t size cls).sz = t.ptr ∧
        (structarg t size cls).isfp = 0 ∧ ((∃ ios, t = .arm64 ios) ∨ t = .ppc)) ∨
      ((structarg t size cls).byref = false ∧ (structarg t size cls).sz = size) := by
  cases t with
  | arm64 ios =>
    simp only [structarg]
    split
    · exact .inl ⟨rfl, rfl, rfl, .inl ⟨ios, rfl⟩⟩
    · split
      · exact .inr ⟨rfl, rfl⟩
      · exact .inr ⟨rfl, rfl⟩
  | ppc => exact .inl ⟨rfl, rfl, rfl, .inr rfl⟩
  | x86 abi | x64 | arm soft | mips soft be => exact .inr ⟨rfl, rfl⟩

/-- An argument is passed by reference, or with its own size, or in a word of which four bytes are
written. -/
theorem pass_cases (h : pass t f d = some p) :
    (p.byref = true ∧ p.sz = t.ptr ∧ ((∃ ios, t = .arm64 ios) ∨ t = .ppc)) ∨
      (p.byref = false ∧ (p.sz = d.stored t ∨ (d.stored t = 4 ∧ 0 < p.sz ∧ p.sz ≤ t.ptr))) := by
  have hptr := t.four_le_ptr
  cases d with
  | void => cases h
  | int u k =>
    simp only [pass] at h
    split at h
    · cases h
    · obtain rfl := Option.some.inj h
      refine .inr ⟨rfl, ?_⟩
      simp only [CType.stored, CType.isIntegerOrBool, true_and, CType.size]
      have hk : 0 < 2 ^ k := by positivity
      split
      · exact .inr ⟨rfl, hk, by omega⟩
      · exact .inl rfl
  | bool =>
    simp only [pass, CType.size] at h
    obtain rfl := Option.some.inj h
    have hst : CType.stored t .bool = 4 := by simp [CType.stored, CType.isIntegerOrBool, CType.size]
    exact .inr ⟨rfl, .inr ⟨hst, Nat.one_pos, (by omega : 1 ≤ t.ptr)⟩⟩
  | fp k =>
    simp only [pass] at h
    split at h
    · cases h
    · obtain rfl := Option.some.inj h
      exact .inr ⟨rfl, .inl (by simp [CType.stored, CType.isIntegerOrBool])⟩
  | «enum» =>
    obtain rfl := Option.some.inj h
    have hst : CType.stored t .enum = 4 := by simp [CType.stored, CType.isIntegerOrBool, CType.size]
    exact .inr ⟨rfl, .inr ⟨hst, (by omega : 0 < t.ptr), le_rfl⟩⟩
  | ptr =>
    obtain rfl := Option.some.inj h
    exact .inr ⟨rfl, .inl (by simp [CType.stored, CType.isIntegerOrBool, CType.size])⟩
  | vector k =>
    simp only [pass] at h
    split at h
    · obtain rfl := Option.some.inj h
      exact .inr ⟨rfl, .inl (by simp [CType.stored, CType.isIntegerOrBool])⟩
    · cases h
  | complex k =>
    obtain rfl := Option.some.inj h
    refine .inr ⟨?_, .inl ?_⟩
    · cases t <;> rfl
    · cases t <;> simp [CType.stored, CType.isIntegerOrBool, complexarg]
  | struct size align ha cls =>
    obtain rfl := Option.some.inj h
    have hst : CType.stored t (.struct size align ha cls) = size := by
      simp [CType.stored, CType.isIntegerOrBool, CType.size]
    rw [hst]
    rcases structarg_cases t size cls with ⟨h1, h2, -, h3⟩ | ⟨h1, h2⟩
    · exact .inl ⟨h1, h2, h3⟩
    · exact .inr ⟨h1, .inl h2⟩

/-- What is written starts in the first word and ends in the last one. -/
theorem pass_written (h : pass t f d = some p) :
    written t d p ≤ t.ptr * p.n t ∧ (0 < p.n t → t.ptr * p.n t < written t d p + t.ptr) := by
  have hle := p.le_n t
  have hptr := t.four_le_ptr
  rcases pass_cases h with ⟨hb, hs, -⟩ | ⟨hb, hs⟩
  · have hw : written t d p = t.ptr := by simp [written, hb]
    have hlt := p.n_lt t (by omega)
    rw [hw]
    exact ⟨by omega, fun _ => by lia⟩
  · have hw : written t d p = d.stored t := by simp [written, hb]
    rw [hw]
    rcases hs with hs | ⟨hs, h0, h1⟩
    · refine ⟨by omega, fun hn => ?_⟩
      by_cases h0 : 0 < p.sz
      · have hlt := p.n_lt t h0
        omega
      · have := p.n_eq_zero t (by lia)
        omega
    · have hlt := p.n_lt t h0
      have hn : p.n t = 1 := by
        have h2 : t.ptr * p.n t < t.ptr * 2 := by omega
        have h3 : t.ptr * 0 < t.ptr * p.n t := by omega
        have := Nat.lt_of_mul_lt_mul_left h2
        have := Nat.lt_of_mul_lt_mul_left h3
        lia
      rw [hn]
      exact ⟨by omega, fun _ => by omega⟩

/-- What is passed by reference is passed in a core register. -/
theorem pass_byref (h : pass t f d = some p) (hb : p.byref = true) : p.isfp = 0 := by
  cases d with
  | void => cases h
  | int u k =>
    simp only [pass] at h
    split at h
    · cases h
    · obtain rfl := Option.some.inj h
      cases hb
  | bool =>
    obtain rfl := Option.some.inj h
    cases hb
  | fp k =>
    simp only [pass] at h
    split at h
    · cases h
    · obtain rfl := Option.some.inj h
      cases hb
  | «enum» | ptr =>
    obtain rfl := Option.some.inj h
    cases hb
  | vector k =>
    simp only [pass] at h
    split at h
    · obtain rfl := Option.some.inj h
      cases hb
    · cases h
  | complex k =>
    obtain rfl := Option.some.inj h
    cases t <;> cases hb
  | struct size align ha cls =>
    obtain rfl := Option.some.inj h
    rcases structarg_cases t size cls with ⟨-, -, h1, -⟩ | ⟨h1, -⟩
    · exact h1
    · rw [h1] at hb
      cases hb

/-- Vectors are only passed on x64, each in one register. -/
theorem pass_vector (h : pass t f d = some p) (hv : d.isVector = true) :
    t = .x64 ∧ p.isfp = 1 ∧ p.sz ≤ 16 := by
  cases d with
  | vector k =>
    simp only [pass] at h
    split at h
    case isTrue hk =>
      obtain rfl := Option.some.inj h
      obtain ⟨hr, hk⟩ := hk
      refine ⟨?_, rfl, ?_⟩
      · cases t <;> first | rfl | cases hr
      · show CType.size t (.vector k) ≤ 16
        omega
    case isFalse => cases h
  | void | int | bool | fp | «enum» | ptr | complex | struct => cases hv

/-- The FP registers of PPC and MIPS are for single numbers. -/
theorem pass_isfp (h : pass t f d = some p) (ht : t = .ppc ∨ ∃ soft be, t = .mips soft be)
    (hf : p.isfp ≠ 0) : d.isFp = true ∧ p.sz ≤ 8 := by
  cases d with
  | void => cases h
  | int u k =>
    simp only [pass] at h
    split at h
    · cases h
    · obtain rfl := Option.some.inj h
      exact absurd rfl hf
  | bool =>
    obtain rfl := Option.some.inj h
    exact absurd rfl hf
  | fp k =>
    simp only [pass] at h
    split at h
    case isTrue => cases h
    case isFalse hk =>
      obtain rfl := Option.some.inj h
      exact ⟨rfl, Nat.le_of_not_lt hk⟩
  | «enum» | ptr =>
    obtain rfl := Option.some.inj h
    exact absurd rfl hf
  | vector k =>
    obtain ⟨rfl, -, -⟩ := pass_vector h rfl
    rcases ht with ht | ⟨soft, be, ht⟩
    · cases ht
    · cases ht
  | complex k | struct size align ha cls =>
    obtain rfl := Option.some.inj h
    rcases ht with rfl | ⟨soft, be, rfl⟩
    · exact absurd rfl hf
    · exact absurd rfl hf

/-- The size of an argument that is aligned to more than a word is a multiple of two words. -/
theorem overAligned_dvd (h : pass t f d = some p) (hb : p.byref = false)
    (ha : d.overAligned t = true) : 2 ^ (t.ptrAlign + 1) ∣ p.sz := by
  have hlt : t.ptrAlign < d.align t := of_decide_eq_true ha
  have hd : 2 ^ (t.ptrAlign + 1) ∣ d.size t ∧ (p.sz = d.size t) := by
    cases d with
    | void => cases h
    | int u k | fp k =>
      simp only [pass] at h
      split at h
      · cases h
      · obtain rfl := Option.some.inj h
        exact ⟨Nat.pow_dvd_pow 2 hlt, rfl⟩
    | bool => exact absurd hlt (Nat.not_lt_zero _)
    | «enum» =>
      cases t <;> exact absurd hlt (by simp [Target.ptrAlign, CType.align])
    | ptr => exact absurd hlt (lt_irrefl _)
    | vector k =>
      simp only [pass] at h
      split at h
      · obtain rfl := Option.some.inj h
        exact ⟨Nat.pow_dvd_pow 2 hlt, rfl⟩
      · cases h
    | complex k =>
      obtain rfl := Option.some.inj h
      refine ⟨Dvd.dvd.mul_left (Nat.pow_dvd_pow 2 hlt) 2, ?_⟩
      cases t <;> rfl
    | struct size align hal cls =>
      obtain rfl := Option.some.inj h
      refine ⟨(Nat.pow_dvd_pow 2 hlt).trans hal, ?_⟩
      rcases structarg_cases t size cls with ⟨h1, -⟩ | ⟨-, h1⟩
      · rw [h1] at hb
        cases hb
      · exact h1
  rw [hd.2]
  exact hd.1

end Pass

/-! ### The registers -/

section Registers

variable {f : FuncType} {st st' : State} {d : CType} {p : Pass} {isva : Bool} {r : Region} {byte : ℕ}

section General

variable {t : Target} {g m n len off : ℕ} {a b : List (Span Region)}

theorem Inv.setGpr (hi : Inv t f st) (hg : st.ngpr ≤ g)
    (hmax : (∀ soft be, t ≠ .mips soft be) → g ≤ maxgpr t f) : Inv t f { st with ngpr := g } :=
  ⟨hmax, hi.nfpr_le, hi.nsp_le, hi.fprodd_le, hi.fprodd_zero,
    fun h0 h1 => (hi.stackLast h0 h1).trans hg⟩

theorem Inv.setFpr (hi : Inv t f st) (hm : st.nfpr ≤ m) (hle : m ≤ t.nargFpr) :
    Inv t f { st with nfpr := m } :=
  ⟨hi.ngpr_le, hle, hi.nsp_le, hi.fprodd_le.trans hm, hi.fprodd_zero, hi.stackLast⟩

/-- Two parts of an argument. -/
theorem Fits.append (ha : Fits t f st st' a) (hb : Fits t f st st' b) : Fits t f st st' (a ++ b) where
  above := by
    intro s hs
    rcases List.mem_append.1 hs with hs | hs
    · exact ha.above s hs
    · exact hb.above s hs
  below := by
    intro s hs
    rcases List.mem_append.1 hs with hs | hs
    · exact ha.below s hs
    · exact hb.below s hs
  room := by
    intro s hs
    rcases List.mem_append.1 hs with hs | hs
    · exact ha.room s hs
    · exact hb.room s hs
  mono := ha.mono
  inv := ha.inv

/-- An argument in core registers. -/
theorem gpr_fits (hi : Inv t f st) (hg : st.ngpr ≤ g) (hroom : g + n ≤ t.numGpr)
    (hmax : (∀ soft be, t ≠ .mips soft be) → g + n ≤ maxgpr t f) (hlen : len ≤ t.ptr * n) :
    Fits t f st { st with ngpr := g + n } (contiguous t .gpr (t.ptr * g) len) := by
  have hend : t.ptr * g + t.ptr * n ≤ t.ptr * t.numGpr := by
    rw [← Nat.mul_add]
    exact Nat.mul_le_mul_left _ hroom
  rw [contiguous_single fun _ => by lia]
  refine fits_single (fun _ => ?_) (fun _ => ?_) (fun _ => ?_) ?_ (hi.setGpr (by omega) hmax)
  · exact Nat.mul_le_mul_left _ hg
  · show _ ≤ t.ptr * (g + n)
    rw [Nat.mul_add]
    omega
  · show _ ≤ t.ptr * t.numGpr
    lia
  · exact mark_le (by show st.ngpr ≤ g + n; omega) le_rfl le_rfl

/-- A part of an argument in FP registers, where these are only used whole. -/
theorem fpr_fits (ht : t ≠ .arm false) (hi : Inv t f st) (hg : st.ngpr ≤ g)
    (hmax : (∀ soft be, t ≠ .mips soft be) → g ≤ maxgpr t f) (hm : st.nfpr + m ≤ t.nargFpr)
    (hlen : off + len ≤ t.fprSize * m) :
    Fits t f st { st with nfpr := st.nfpr + m, ngpr := g } [⟨.fpr, t.fprSize * st.nfpr + off, len⟩] := by
  have hz := hi.fprodd_zero ht
  have hz' : ({ st with nfpr := st.nfpr + m, ngpr := g } : State).fprodd = 0 := hz
  have hmul : t.fprSize * (st.nfpr + m) ≤ t.fprSize * t.numFpr :=
    Nat.mul_le_mul_left _ (hm.trans (Nat.le_max_left _ _))
  have hsum := Nat.mul_add t.fprSize st.nfpr m
  refine fits_single (fun _ => ?_) (fun _ => ?_) (fun _ => ?_) ?_
    ((hi.setFpr (by omega) hm).setGpr hg hmax)
  · rw [mark_fpr hz]
    omega
  · rw [mark_fpr hz']
    show _ ≤ t.fprSize * (st.nfpr + m)
    lia
  · show _ ≤ t.fprSize * t.numFpr
    lia
  · exact mark_le hg (mark_fpr_le_of hz hz' (by show st.nfpr ≤ st.nfpr + m; omega)) le_rfl

end General

/-! ### x86 and x64 -/

theorem maxgpr_x86 (abi : X86Abi) : maxgpr (.x86 abi) f ≤ (Target.x86 abi).numGpr := by
  rw [show (Target.x86 abi).numGpr = 2 from rfl, maxgpr]
  split <;> omega

/-- A value that is not passed by reference. -/
theorem stored_le {t : Target} (hp : pass t f d = some p) (hb : p.byref = false) : d.stored t ≤ t.ptr * p.n t := by
  have h := (pass_written hp).1
  rwa [written, hb, if_neg (by decide)] at h

theorem byref_of_ne {t : Target} (hp : pass t f d = some p) (h1 : ∀ ios, t ≠ .arm64 ios) (h2 : t ≠ .ppc) :
    p.byref = false := by
  rcases pass_cases hp with ⟨-, -, ⟨ios, ht⟩ | ht⟩ | ⟨hb, -⟩
  · exact absurd ht (h1 ios)
  · exact absurd ht h2
  · exact hb

theorem regargX86_fits (abi : X86Abi) (hi : Inv (.x86 abi) f st) (hp : pass (.x86 abi) f d = some p)
    (h : regarg (.x86 abi) f st d isva p.isfp (p.n (.x86 abi)) = .done r byte st') :
    Fits (.x86 abi) f st st' (argSpans (.x86 abi) d p r byte) := by
  have hlen := stored_le hp (byref_of_ne hp (by simp) (by simp))
  have hmax := @maxgpr_x86 f abi
  simp only [regarg, regargX86] at h
  split at h
  case isFalse => cases h
  case isTrue =>
    split at h
    case isTrue => cases h
    case isFalse hn =>
      split at h
      case isFalse => cases h
      case isTrue hle =>
        obtain ⟨rfl, rfl, rfl⟩ := RegArg.done.inj h
        exact gpr_fits hi le_rfl (by lia) (fun _ => by lia) hlen

theorem regargX64_fits (hi : Inv .x64 f st) (hp : pass .x64 f d = some p)
    (h : regarg .x64 f st d isva p.isfp (p.n .x64) = .done r byte st') :
    Fits .x64 f st st' (argSpans .x64 d p r byte) := by
  have hb := byref_of_ne hp (by simp) (by simp)
  have hlen := stored_le hp hb
  have hng := hi.ngpr_le
  simp only [regarg, regargX64] at h
  split at h
  case isTrue hf =>
    split at h
    case isFalse => cases h
    case isTrue hle =>
      obtain ⟨rfl, rfl, rfl⟩ := RegArg.done.inj h
      have part (off len : ℕ) (hl : off + len ≤ Target.x64.fprSize * n2 d (p.n .x64)) :=
        fpr_fits (by simp) hi le_rfl hng hle hl
      by_cases hv : d.isVector = true
      · obtain ⟨-, h1, hsz⟩ := pass_vector hp hv
        have hs : d.stored .x64 ≤ 16 := by
          rcases pass_cases hp with ⟨hb', -⟩ | ⟨-, hs | ⟨hs, -⟩⟩
          · rw [hb] at hb'
            cases hb'
          · omega
          · omega
        have h2 : ¬ (p.isfp = 2 ∧ p.n .x64 = 2 ∧ Region.fpr = .fpr) := by omega
        have hs' : argSpans .x64 d p .fpr (Target.x64.fprSize * st.nfpr) =
            contiguous .x64 .fpr (Target.x64.fprSize * st.nfpr) (d.stored .x64) := if_neg h2
        rw [hs', contiguous_single (by simp)]
        have hn : n2 d (p.n .x64) = 1 := if_pos hv
        exact part 0 _ (by rw [hn]; show 0 + d.stored .x64 ≤ 16 * 1; omega)
      · have hn : n2 d (p.n .x64) = p.n .x64 := if_neg hv
        change d.stored .x64 ≤ 8 * p.n .x64 at hlen
        by_cases h2 : p.isfp = 2 ∧ p.n .x64 = 2 ∧ Region.fpr = .fpr
        · have hs' : argSpans .x64 d p .fpr (Target.x64.fprSize * st.nfpr) =
              [⟨.fpr, Target.x64.fprSize * st.nfpr, 16⟩,
                ⟨.fpr, Target.x64.fprSize * st.nfpr + 16, 8⟩] := if_pos h2
          rw [hs']
          rw [hn, h2.2.1] at part ⊢
          exact (part 0 16 (by decide)).append (part 16 8 (by decide))
        · have hs' : argSpans .x64 d p .fpr (Target.x64.fprSize * st.nfpr) =
              contiguous .x64 .fpr (Target.x64.fprSize * st.nfpr) (d.stored .x64) := if_neg h2
          rw [hs', contiguous_single (by simp)]
          exact part 0 _ (by rw [hn]; show 0 + d.stored .x64 ≤ 16 * p.n .x64; lia)
  case isFalse hf =>
    split at h
    case isFalse => cases h
    case isTrue hle =>
      obtain ⟨rfl, rfl, rfl⟩ := RegArg.done.inj h
      have h2 : ¬ (p.isfp = 2 ∧ p.n .x64 = 2 ∧ Region.gpr = .fpr) := by simp
      simp only [argSpans, if_neg h2]
      exact gpr_fits hi le_rfl hle.2 (fun _ => hle.2) hlen

/-! ### ARM64 and PPC -/

theorem regargArm64_fits (ios : Bool) (hi : Inv (.arm64 ios) f st)
    (hp : pass (.arm64 ios) f d = some p)
    (h : regarg (.arm64 ios) f st d isva p.isfp (p.n (.arm64 ios)) = .done r byte st') :
    Fits (.arm64 ios) f st st' (argSpans (.arm64 ios) d p r byte) := by
  have hlen := (pass_written hp).1
  have hng := hi.ngpr_le
  simp only [regarg, regargArm64] at h
  split at h
  case isTrue => cases h
  case isFalse =>
    split at h
    case isTrue hf =>
      have hb : p.byref = false := by
        by_contra hb
        exact hf (pass_byref hp (by simpa using hb))
      have hv : ¬ d.isVector = true := fun hv => by cases (pass_vector hp hv).1
      rw [written, hb, if_neg (by decide)] at hlen
      change d.stored _ ≤ 8 * _ at hlen
      split at h
      case isFalse =>
        split at h
        · cases h
        · cases h
      case isTrue hle =>
        obtain ⟨rfl, rfl, rfl⟩ := RegArg.done.inj h
        have hn : n2 d (p.n (.arm64 ios) * p.isfp) = p.n (.arm64 ios) * p.isfp := if_neg hv
        have part (len : ℕ) (hl : 0 + len ≤ 8 * n2 d (p.n (.arm64 ios) * p.isfp)) :=
          fpr_fits (by simp) hi le_rfl hng hle hl
        rw [hn] at part ⊢
        simp only [argSpans, hb, if_neg (by decide : ¬ (false = true))]
        by_cases h2 : p.isfp = 2 ∧ Region.fpr ≠ .stack
        · rw [if_pos h2]
          refine part _ ?_
          rw [h2.1]
          show 0 + 8 * (p.n (.arm64 ios) * 8 / 4) ≤ 8 * (p.n (.arm64 ios) * 2)
          lia
        · rw [if_neg h2, contiguous_single (by simp)]
          refine part _ ?_
          have : p.n (.arm64 ios) * 1 ≤ p.n (.arm64 ios) * p.isfp :=
            Nat.mul_le_mul_left _ (by lia)
          lia
    case isFalse hf =>
      have hf : p.isfp = 0 := by omega
      split at h
      case isFalse =>
        split at h
        · cases h
        · cases h
      case isTrue hle =>
        obtain ⟨rfl, rfl, rfl⟩ := RegArg.done.inj h
        have hg : st.ngpr ≤ arm64Gpr (.arm64 ios) st d ios := by
          unfold arm64Gpr
          split
          · exact le_regpair _
          · exact le_rfl
        have key := gpr_fits hi hg hle (fun _ => hle) hlen
        by_cases hb : p.byref = true
        · simp only [argSpans, if_pos hb]
          rwa [written, if_pos hb] at key
        · have h2 : ¬ (p.isfp = 2 ∧ Region.gpr ≠ .stack) := by omega
          simp only [argSpans, if_neg hb, if_neg h2]
          rwa [written, if_neg hb] at key

/-- The first core register of an argument on PPC. -/
theorem le_ppcGpr (hng : st.ngpr ≤ 8) (n : ℕ) : st.ngpr ≤ ppcGpr .ppc f st d n := by
  have h1 := le_regpair st.ngpr
  have h2 : maxgpr .ppc f = 8 := rfl
  unfold ppcGpr
  split
  · split
    · exact h1
    · split
      · omega
      · exact le_rfl
  · exact le_rfl

theorem ppcGpr_le (hng : st.ngpr ≤ 8) (n : ℕ) : ppcGpr .ppc f st d n ≤ maxgpr .ppc f := by
  have h2 : maxgpr .ppc f = 8 := rfl
  unfold ppcGpr
  rw [h2]
  split
  · split
    · exact regpair_le hng (by decide)
    · split
      · exact le_rfl
      · exact hng
  · exact hng

theorem regargPpc_fits (hi : Inv .ppc f st) (hp : pass .ppc f d = some p)
    (h : regarg .ppc f st d isva p.isfp (p.n .ppc) = .done r byte st') :
    Fits .ppc f st st' (argSpans .ppc d p r byte) := by
  have hlen := (pass_written hp).1
  have hng := hi.ngpr_le
  simp only [regarg, regargPpc] at h
  split at h
  case isTrue hf =>
    have hb : p.byref = false := by
      by_contra hb
      exact hf (pass_byref hp (by simpa using hb))
    split at h
    case isFalse => cases h
    case isTrue hle =>
      obtain ⟨rfl, rfl, rfl⟩ := RegArg.done.inj h
      have h2 : d.isFp = true ∧ Region.fpr = .fpr := ⟨(pass_isfp hp (.inl rfl) hf).1, rfl⟩
      rw [argSpans, hb, if_neg (by decide), if_pos h2]
      exact fpr_fits (by simp) hi le_rfl hng hle (by decide : 0 + 8 ≤ 8 * 1)
  case isFalse hf =>
    have hg := @le_ppcGpr f st d (hng (by simp)) (p.n .ppc)
    split at h
    case isFalse => cases h
    case isTrue hle =>
      obtain ⟨rfl, rfl, rfl⟩ := RegArg.done.inj h
      have key := gpr_fits hi hg hle (fun _ => hle) hlen
      by_cases hb : p.byref = true
      · simp only [argSpans, if_pos hb]
        rwa [written, if_pos hb] at key
      · have h2 : ¬ (d.isFp = true ∧ Region.gpr = .fpr) := by simp
        simp only [argSpans, if_neg hb, if_neg h2]
        rwa [written, if_neg hb] at key

/-! ### ARM and MIPS -/

section Split

variable {t : Target} {g n len : ℕ}

/-- An argument that may begin in the core registers and go on on the stack. -/
theorem split_fits (hi : Inv t f st) (hmax : maxgpr t f = t.numGpr) (hg : st.ngpr ≤ g)
    (hlen : len ≤ t.ptr * n) (hs : g < maxgpr t f → maxgpr t f < g + n → st.nsp = 0)
    (h : regargSplit t f st n g = .done r byte st') :
    r = .gpr ∧ byte = t.ptr * g ∧ Fits t f st st' (contiguous t .gpr (t.ptr * g) len) := by
  simp only [regargSplit] at h
  split at h
  case isFalse => cases h
  case isTrue hlt =>
    split at h
    case isFalse hle =>
      obtain ⟨rfl, rfl, rfl⟩ := RegArg.done.inj h
      exact ⟨rfl, rfl, gpr_fits hi hg (by omega) (fun _ => by lia) hlen⟩
    case isTrue hsplit =>
      split at h
      case isTrue => cases h
      case isFalse hstack =>
        obtain ⟨rfl, rfl, rfl⟩ := RegArg.done.inj h
        have h0 := hs hlt hsplit
        have hnsp : st.nsp + (g + n - maxgpr t f) ≤ maxstack := Nat.le_of_not_lt hstack
        have hi' : Inv t f { st with ngpr := maxgpr t f, nsp := st.nsp + (g + n - maxgpr t f) } :=
          ⟨fun _ => le_rfl, hi.nfpr_le, hnsp, hi.fprodd_le, hi.fprodd_zero, fun _ _ => le_rfl⟩
        have hm : ∀ r, mark t st r ≤
            mark t { st with ngpr := maxgpr t f, nsp := st.nsp + (g + n - maxgpr t f) } r :=
          mark_le (by show st.ngpr ≤ maxgpr t f; lia) le_rfl
            (by show st.nsp ≤ st.nsp + (g + n - maxgpr t f); omega)
        have hgl : t.ptr * g ≤ t.ptr * t.numGpr := Nat.mul_le_mul_left _ (by omega)
        have hsum : t.ptr * g + t.ptr * n = t.ptr * t.numGpr + t.ptr * (g + n - maxgpr t f) := by
          rw [← Nat.mul_add, ← Nat.mul_add, hmax]
          congr 1
          lia
        have hst : t.ptr * (g + n - maxgpr t f) ≤ t.ptr * maxstack :=
          Nat.mul_le_mul_left _ (by lia)
        have hge : t.ptr * st.ngpr ≤ t.ptr * g := Nat.mul_le_mul_left _ hg
        have hstack' : t.ptr * (st.nsp + (g + n - maxgpr t f)) = t.ptr * (g + n - maxgpr t f) := by
          rw [h0, Nat.zero_add]
        have hzero : t.ptr * st.nsp = 0 := by rw [h0, Nat.mul_zero]
        refine ⟨rfl, rfl, ?_⟩
        by_cases hover : t.ptr * t.numGpr < t.ptr * g + len
        · have hc : contiguous t .gpr (t.ptr * g) len =
              [⟨.gpr, t.ptr * g, t.ptr * t.numGpr - t.ptr * g⟩] ++
                [⟨.stack, 0, t.ptr * g + len - t.ptr * t.numGpr⟩] := if_pos ⟨rfl, hover⟩
          rw [hc]
          refine Fits.append ?_ ?_
          · refine fits_single (fun _ => hge) (fun _ => ?_) (fun _ => ?_) hm hi'
            · show _ ≤ t.ptr * maxgpr t f
              rw [hmax]
              lia
            · show _ ≤ t.ptr * t.numGpr
              lia
          · refine fits_single (fun _ => ?_) (fun _ => ?_) (fun _ => ?_) hm hi'
            · show t.ptr * st.nsp ≤ 0
              omega
            · show _ ≤ t.ptr * (st.nsp + (g + n - maxgpr t f))
              lia
            · show _ ≤ t.ptr * maxstack
              lia
        · rw [contiguous_single fun _ => by lia]
          refine fits_single (fun _ => hge) (fun _ => ?_) (fun _ => ?_) hm hi'
          · show _ ≤ t.ptr * maxgpr t f
            rw [hmax]
            lia
          · show _ ≤ t.ptr * t.numGpr
            lia

theorem split_onStack (h : regargSplit t f st n g = .onStack st') :
    maxgpr t f ≤ g ∧ st' = { st with ngpr := g } := by
  simp only [regargSplit] at h
  split at h
  case isTrue =>
    split at h
    · split at h
      · cases h
      · cases h
    · cases h
  case isFalse hlt => exact ⟨Nat.le_of_not_lt hlt, (RegArg.onStack.inj h).symm⟩

theorem split_left (hi : Inv t f st) (hg : st.ngpr ≤ g)
    (hmax : (∀ soft be, t ≠ .mips soft be) → g ≤ maxgpr t f)
    (h : regargSplit t f st n g = .onStack st') : Left t f st st' := by
  obtain ⟨hle, rfl⟩ := split_onStack h
  exact ⟨mark_le hg le_rfl le_rfl, hi.setGpr hg hmax, rfl, fun _ => hle⟩

end Split

theorem le_armGpr (t : Target) (f : FuncType) (st : State) (d : CType) :
    st.ngpr ≤ armGpr t f st d := by
  unfold armGpr
  split
  · exact le_regpair _
  · exact le_rfl

theorem armGpr_le (soft : Bool) (hi : Inv (.arm soft) f st) :
    armGpr (.arm soft) f st d ≤ maxgpr (.arm soft) f := by
  unfold armGpr
  split
  case isTrue h =>
    have h4 : maxgpr (.arm soft) f = 4 := rfl
    rw [h4] at h ⊢
    exact regpair_le (Nat.le_of_lt h.2) (by decide)
  case isFalse => exact hi.ngpr_le (by simp)

theorem regargArmGpr_fits (soft : Bool) (hi : Inv (.arm soft) f st)
    (hp : pass (.arm soft) f d = some p) (hc : ¬ Clash (.arm soft) f st d)
    (hf : soft = false → p.isfp = 0 ∨ f.vararg = true)
    (h : regargArmGpr (.arm soft) f st d (p.n (.arm soft)) = .done r byte st') :
    Fits (.arm soft) f st st' (argSpans (.arm soft) d p r byte) := by
  have hlen := stored_le hp (byref_of_ne hp (by simp) (by simp))
  have hs : armGpr (.arm soft) f st d < maxgpr (.arm soft) f →
      maxgpr (.arm soft) f < armGpr (.arm soft) f st d + p.n (.arm soft) → st.nsp = 0 := by
    intro h1 h2
    by_contra h0
    cases soft with
    | true =>
      have hlast := hi.stackLast rfl (Nat.pos_of_ne_zero h0)
      have := le_armGpr (.arm true) f st d
      omega
    | false => exact hc ⟨rfl, Nat.pos_of_ne_zero h0, h1, p, hp, hf rfl, h2⟩
  obtain ⟨rfl, rfl, key⟩ := split_fits hi rfl (le_armGpr _ _ _ _) hlen hs h
  exact key

/-- The mark of the FP registers of ARM, from the two counters. -/
def halfMark (nfpr fprodd : ℕ) : ℕ := if fprodd ≠ 0 ∧ fprodd = nfpr then 8 * nfpr - 4 else 8 * nfpr

theorem halfMark_le (m o : ℕ) : halfMark m o ≤ 8 * m := by
  unfold halfMark
  split <;> lia

theorem halfMark_of_ne {m o : ℕ} (h : o ≠ m) : halfMark m o = 8 * m := if_neg fun hh => h hh.2

theorem halfMark_zero (m : ℕ) : halfMark m 0 = 8 * m := if_neg fun hh => hh.1 rfl

theorem halfMark_self {m : ℕ} (h : 0 < m) : halfMark m m = 8 * m - 4 :=
  if_pos ⟨Nat.pos_iff_ne_zero.1 h, rfl⟩

/-- An argument at the first free register of ARM, or at the half register before it.  `m` and `o` are
the new counters. -/
theorem armFpr_fits {m o n len : ℕ} (hi : Inv (.arm false) f st) (hn : len ≤ 4 * n) (hm8 : m ≤ 8)
    (ho : o ≤ m) (hstart : 0 < n → halfMark st.nfpr st.fprodd ≤ byte)
    (hend : 0 < n → byte + 4 * n ≤ halfMark m o)
    (hmono : halfMark st.nfpr st.fprodd ≤ halfMark m o) :
    Fits (.arm false) f st { st with nfpr := m, fprodd := o } (contiguous (.arm false) .fpr byte len) := by
  rw [contiguous_single (by simp)]
  refine fits_single (fun h0 => hstart (by omega)) (fun h0 => ?_) (fun h0 => ?_)
    (mark_le le_rfl hmono le_rfl) ?_
  · have := hend (by omega)
    show _ ≤ halfMark m o
    lia
  · have h1 := hend (by omega)
    have h2 := halfMark_le m o
    show _ ≤ 8 * 8
    lia
  · exact ⟨hi.ngpr_le, hm8, hi.nsp_le, ho, fun h => absurd rfl h, hi.stackLast⟩

/-- Arguments in the FP registers of ARM.  A single may take the half register that another one has
left. -/
theorem regargArmFpr_fits (hi : Inv (.arm false) f st) (hp : pass (.arm false) f d = some p)
    (h : regargArmFpr (.arm false) st d (p.n (.arm false)) = .done r byte st') :
    Fits (.arm false) f st st' (argSpans (.arm false) d p r byte) := by
  have hb := byref_of_ne hp (by simp) (by simp)
  have hlen : d.stored (.arm false) ≤ 4 * p.n (.arm false) := stored_le hp hb
  have hodd := hi.fprodd_le
  have hnf : st.nfpr ≤ 8 := hi.nfpr_le
  simp only [regargArmFpr] at h
  split at h
  case isTrue ha =>
    split at h
    case isFalse => cases h
    case isTrue hroom =>
      obtain ⟨rfl, rfl, rfl⟩ := RegArg.done.inj h
      change st.nfpr + p.n (.arm false) / 2 ≤ 8 at hroom
      -- two words to a register, and the number of words is even
      have h8 : 8 ∣ p.sz := overAligned_dvd hp hb ha
      have hn : p.n (.arm false) = 2 * (p.n (.arm false) / 2) := by
        have : p.n (.arm false) = (p.sz + 4 - 1) / 4 := rfl
        lia
      refine armFpr_fits hi hlen hroom (by lia) (fun h0 => halfMark_le _ _) (fun h0 => ?_) ?_
      · show 8 * st.nfpr + _ ≤ _
        unfold halfMark
        split <;> lia
      · unfold halfMark
        split <;> split <;> lia
  case isFalse ha =>
    split at h
    case isTrue ho =>
      split at h
      case isFalse => cases h
      case isTrue hroom =>
        obtain ⟨rfl, rfl, rfl⟩ := RegArg.done.inj h
        change 2 * st.nfpr + p.n (.arm false) ≤ 2 * 8 + 1 at hroom
        -- the half register is the last one, or nothing is stored
        have hfo : armFprodd (.arm false) st (p.n (.arm false)) = st.fprodd ∧ st.fprodd ≠ 0 ∧
            (0 < p.n (.arm false) → st.fprodd = st.nfpr) := by
          unfold armFprodd at ho ⊢
          change (if 1 < 4 * p.n (.arm false) ∧ st.fprodd ≠ st.nfpr then 0 else st.fprodd) ≠ 0 at ho
          change (if 1 < 4 * p.n (.arm false) ∧ st.fprodd ≠ st.nfpr then 0 else st.fprodd) = _ ∧ _
          split at ho
          · exact absurd rfl ho
          case isFalse hne =>
            rw [if_neg hne]
            exact ⟨rfl, ho, fun h0 => by lia⟩
        obtain ⟨hfo, hne, heq⟩ := hfo
        rw [hfo]
        have hle := halfMark_le st.nfpr st.fprodd
        rcases Nat.mod_two_eq_zero_or_one (p.n (.arm false)) with hpar | hpar
        · rw [hpar, if_neg (by decide)]
          have hmark : halfMark (st.nfpr + p.n (.arm false) / 2) (st.nfpr + p.n (.arm false) / 2 - 1) =
              8 * (st.nfpr + p.n (.arm false) / 2) := halfMark_of_ne (by lia)
          refine armFpr_fits hi hlen (by lia) (by lia) (fun h0 => ?_) (fun h0 => ?_) (by lia)
          · show _ ≤ 8 * (st.fprodd - 1) + 4
            rw [heq h0, halfMark_self (by lia)]
            lia
          · show 8 * (st.fprodd - 1) + 4 + _ ≤ _
            have := heq h0
            lia
        · rw [hpar, if_pos rfl]
          have hmark := halfMark_zero (st.nfpr + p.n (.arm false) / 2)
          refine armFpr_fits hi hlen (by lia) (by lia) (fun h0 => ?_) (fun h0 => ?_) (by lia)
          · show _ ≤ 8 * (st.fprodd - 1) + 4
            rw [heq h0, halfMark_self (by lia)]
            lia
          · show 8 * (st.fprodd - 1) + 4 + _ ≤ _
            have := heq h0
            lia
    case isFalse ho =>
      split at h
      case isFalse => cases h
      case isTrue hroom =>
        obtain ⟨rfl, rfl, rfl⟩ := RegArg.done.inj h
        change 2 * st.nfpr + p.n (.arm false) ≤ 2 * 8 at hroom
        have hle := halfMark_le st.nfpr st.fprodd
        rcases Nat.mod_two_eq_zero_or_one (p.n (.arm false)) with hpar | hpar
        · rw [hpar, if_neg (by decide), if_neg (by decide)]
          have hmark := halfMark_zero (st.nfpr + p.n (.arm false) / 2)
          refine armFpr_fits hi hlen (by lia) (by lia) (fun h0 => hle) (fun h0 => ?_) (by lia)
          show 8 * st.nfpr + _ ≤ _
          lia
        · rw [hpar, if_pos rfl, if_pos rfl]
          have hmark : halfMark (st.nfpr + p.n (.arm false) / 2 + 1) (st.nfpr + p.n (.arm false) / 2 + 1)
              = 8 * (st.nfpr + p.n (.arm false) / 2 + 1) - 4 := halfMark_self (by lia)
          refine armFpr_fits hi hlen (by lia) (by omega) (fun h0 => hle) (fun h0 => ?_) (by lia)
          show 8 * st.nfpr + _ ≤ _
          lia

theorem regargArm_fits (soft : Bool) (hi : Inv (.arm soft) f st)
    (hp : pass (.arm soft) f d = some p) (hc : ¬ Clash (.arm soft) f st d)
    (h : regarg (.arm soft) f st d isva p.isfp (p.n (.arm soft)) = .done r byte st') :
    Fits (.arm soft) f st st' (argSpans (.arm soft) d p r byte) := by
  simp only [regarg, regargArm] at h
  split at h
  case isTrue hf =>
    obtain ⟨hsoft, -, -⟩ := hf
    obtain rfl : soft = false := by simpa using hsoft
    exact regargArmFpr_fits hi hp h
  case isFalse hf =>
    refine regargArmGpr_fits soft hi hp hc (fun hsoft => ?_) h
    by_contra hcon
    push Not at hcon
    exact hf ⟨by simp [hsoft], hcon.1, hcon.2⟩

theorem regargMipsGpr_fits (soft be : Bool) (hi : Inv (.mips soft be) f st)
    (hp : pass (.mips soft be) f d = some p)
    (h : regargMipsGpr (.mips soft be) f st d (p.n (.mips soft be)) = .done r byte st') :
    Fits (.mips soft be) f st st' (argSpans (.mips soft be) d p r byte) := by
  have hlen := stored_le hp (byref_of_ne hp (by simp) (by simp))
  have hg : st.ngpr ≤ if d.overAligned (.mips soft be) then regpair st.ngpr else st.ngpr := by
    split
    · exact le_regpair _
    · exact le_rfl
  obtain ⟨rfl, rfl, key⟩ := split_fits hi rfl hg hlen (fun h1 _ => by
    by_contra h0
    have := hi.stackLast rfl (Nat.pos_of_ne_zero h0)
    omega) h
  exact key

/-- Without FP registers, which MIPS gives up after the first argument in a core register. -/
theorem mips_noFpr {soft be : Bool} (hi : Inv (.mips soft be) f st) :
    Inv (.mips soft be) f { st with nfpr := (Target.mips soft be).nargFpr } ∧
      ∀ r, mark (.mips soft be) st r ≤
        mark (.mips soft be) { st with nfpr := (Target.mips soft be).nargFpr } r := by
  have hz : st.fprodd = 0 := hi.fprodd_zero (by simp)
  exact ⟨hi.setFpr hi.nfpr_le le_rfl, mark_le le_rfl (mark_fpr_le_of hz hz hi.nfpr_le) le_rfl⟩

theorem regargMips_fits (soft be : Bool) (hi : Inv (.mips soft be) f st)
    (hp : pass (.mips soft be) f d = some p)
    (h : regarg (.mips soft be) f st d isva p.isfp (p.n (.mips soft be)) = .done r byte st') :
    Fits (.mips soft be) f st st' (argSpans (.mips soft be) d p r byte) := by
  simp only [regarg, regargMips] at h
  split at h
  case isTrue => exact regargMipsGpr_fits soft be hi hp h
  case isFalse hsoft =>
    split at h
    case isFalse =>
      obtain ⟨hi', hm⟩ := mips_noFpr hi
      exact (regargMipsGpr_fits soft be hi' hp h).of_le hm
    case isTrue hf =>
      obtain ⟨hfp, hlt, -⟩ := hf
      obtain ⟨rfl, rfl, rfl⟩ := RegArg.done.inj h
      have hlen : d.stored (.mips soft be) ≤ 4 * p.n (.mips soft be) :=
        stored_le hp (byref_of_ne hp (by simp) (by simp))
      have hn : p.n (.mips soft be) ≤ 2 := by
        have h8 := (pass_isfp hp (.inr ⟨soft, be, rfl⟩) hfp).2
        have : p.n (.mips soft be) = (p.sz + 4 - 1) / 4 := rfl
        lia
      have hs (b : ℕ) : argSpans (.mips soft be) d p .fpr b =
          contiguous (.mips soft be) .fpr b (d.stored (.mips soft be)) := rfl
      rw [hs, contiguous_single (by simp)]
      refine fpr_fits (by simp) hi (Nat.le_add_right _ _) (fun hm => absurd rfl (hm soft be)) hlt ?_
      show _ ≤ 8 * 1
      split <;> lia

/-! ### All targets -/

/-- An argument that is passed in registers, or from the last registers on. -/
theorem regarg_fits {t : Target} (hi : Inv t f st) (hp : pass t f d = some p)
    (hc : ¬ Clash t f st d) (h : regarg t f st d isva p.isfp (p.n t) = .done r byte st') :
    Fits t f st st' (argSpans t d p r byte) := by
  cases t with
  | x86 abi => exact regargX86_fits abi hi hp h
  | x64 => exact regargX64_fits hi hp h
  | arm soft => exact regargArm_fits soft hi hp hc h
  | arm64 ios => exact regargArm64_fits ios hi hp h
  | ppc => exact regargPpc_fits hi hp h
  | mips soft be => exact regargMips_fits soft be hi hp h

theorem left_self {t : Target} (hi : Inv t f st) (ht : t.stackLast = false) : Left t f st st :=
  ⟨fun _ => le_rfl, hi, rfl, fun h => by rw [ht] at h; cases h⟩

theorem left_gpr {t : Target} {g : ℕ} (hi : Inv t f st) (ht : t.stackLast = false)
    (hg : st.ngpr ≤ g) (hmax : g ≤ maxgpr t f) : Left t f st { st with ngpr := g } :=
  ⟨mark_le hg le_rfl le_rfl, hi.setGpr hg fun _ => hmax, rfl, fun h => by rw [ht] at h; cases h⟩

/-- An argument that is not passed in registers. -/
theorem regarg_left {t : Target} (hi : Inv t f st) (hp : pass t f d = some p)
    (h : regarg t f st d isva p.isfp (p.n t) = .onStack st') : Left t f st st' := by
  cases t with
  | x86 abi =>
    simp only [regarg, regargX86] at h
    split at h
    · split at h
      · obtain rfl := RegArg.onStack.inj h
        split
        · exact left_self hi rfl
        · exact left_gpr hi rfl (hi.ngpr_le (by simp)) le_rfl
      · split at h
        · cases h
        · obtain rfl := RegArg.onStack.inj h
          exact left_self hi rfl
    · obtain rfl := RegArg.onStack.inj h
      exact left_self hi rfl
  | x64 =>
    simp only [regarg, regargX64] at h
    split at h
    · split at h
      · cases h
      · obtain rfl := RegArg.onStack.inj h
        exact left_self hi rfl
    · split at h
      · cases h
      · obtain rfl := RegArg.onStack.inj h
        exact left_self hi rfl
  | arm soft =>
    simp only [regarg, regargArm] at h
    split at h
    case isFalse =>
      exact split_left hi (le_armGpr _ _ _ _) (fun _ => armGpr_le soft hi) h
    case isTrue hf =>
      obtain rfl : soft = false := by simpa using hf.1
      have hodd : Left (.arm false) f st { st with fprodd := 0 } := by
        refine ⟨mark_le le_rfl ?_ le_rfl, ?_, rfl, fun h0 => absurd h0 (by decide)⟩
        · show halfMark st.nfpr st.fprodd ≤ halfMark st.nfpr 0
          rw [halfMark_zero]
          exact halfMark_le _ _
        · exact ⟨hi.ngpr_le, hi.nfpr_le, hi.nsp_le, Nat.zero_le _, fun _ => rfl, hi.stackLast⟩
      simp only [regargArmFpr] at h
      split at h
      · split at h
        · cases h
        · obtain rfl := RegArg.onStack.inj h
          exact hodd
      · split at h
        · split at h
          · cases h
          · obtain rfl := RegArg.onStack.inj h
            exact hodd
        · split at h
          · cases h
          · obtain rfl := RegArg.onStack.inj h
            exact hodd
  | arm64 ios =>
    simp only [regarg, regargArm64] at h
    split at h
    · obtain rfl := RegArg.onStack.inj h
      exact left_self hi rfl
    · split at h
      · split at h
        · cases h
        · split at h
          · cases h
          · obtain rfl := RegArg.onStack.inj h
            have hz : st.fprodd = 0 := hi.fprodd_zero (by simp)
            exact ⟨mark_le le_rfl (mark_fpr_le_of hz hz hi.nfpr_le) le_rfl,
              hi.setFpr hi.nfpr_le le_rfl, rfl, by intro h; cases h⟩
      · split at h
        · cases h
        · split at h
          · cases h
          · obtain rfl := RegArg.onStack.inj h
            exact left_gpr hi rfl (hi.ngpr_le (by simp)) le_rfl
  | ppc =>
    simp only [regarg, regargPpc] at h
    split at h
    · split at h
      · cases h
      · obtain rfl := RegArg.onStack.inj h
        exact left_self hi rfl
    · split at h
      · cases h
      · obtain rfl := RegArg.onStack.inj h
        have h8 : st.ngpr ≤ 8 := hi.ngpr_le (by simp)
        exact left_gpr hi rfl (le_ppcGpr h8 _) (ppcGpr_le h8 _)
  | mips soft be =>
    have hgpr (st1 : State) (hi1 : Inv (.mips soft be) f st1)
        (h : regargMipsGpr (.mips soft be) f st1 d (p.n (.mips soft be)) = .onStack st') :
        Left (.mips soft be) f st1 st' := by
      refine split_left hi1 ?_ (fun hm => absurd rfl (hm soft be)) h
      split
      · exact le_regpair _
      · exact le_rfl
    simp only [regarg, regargMips] at h
    split at h
    · exact hgpr st hi h
    · split at h
      · cases h
      · obtain ⟨hi', hm⟩ := mips_noFpr hi
        exact (hgpr _ hi' h).of_le hm rfl

end Registers

/-! ### One argument -/

section Step

variable {t : Target} {f : FuncType} {st st' : State} {a : Arg} {p : Pass} {q : Placed}

theorem argSpans_stack (hp : pass t f a.d = some p) (byte : ℕ) :
    argSpans t a.d p .stack byte = [⟨.stack, byte, written t a.d p⟩] := by
  have hc (len : ℕ) : contiguous t .stack byte len = [⟨.stack, byte, len⟩] :=
    contiguous_single (by simp)
  have hw (h : p.byref = false) : written t a.d p = a.d.stored t := by
    rw [written, h, if_neg (by decide)]
  cases t with
  | x86 abi | arm soft | mips soft be =>
    rw [hw (byref_of_ne hp (by simp) (by simp))]
    exact hc _
  | x64 =>
    rw [hw (byref_of_ne hp (by simp) (by simp))]
    have h2 : ¬ (p.isfp = 2 ∧ p.n .x64 = 2 ∧ Region.stack = .fpr) := by simp
    have hs : argSpans .x64 a.d p .stack byte = contiguous .x64 .stack byte (a.d.stored .x64) :=
      if_neg h2
    rw [hs, hc]
  | arm64 ios =>
    have h2 : ¬ (p.isfp = 2 ∧ Region.stack ≠ .stack) := by simp
    by_cases hb : p.byref = true
    · rw [argSpans, if_pos hb, written, if_pos hb]
      exact hc _
    · rw [argSpans, if_neg hb, if_neg h2, written, if_neg hb]
      exact hc _
  | ppc =>
    have h2 : ¬ (a.d.isFp = true ∧ Region.stack = .fpr) := by simp
    by_cases hb : p.byref = true
    · rw [argSpans, if_pos hb, written, if_pos hb]
      exact hc _
    · rw [argSpans, if_neg hb, if_neg h2, written, if_neg hb]
      exact hc _

theorem structState_eq (ht : ∀ abi, t ≠ .x86 abi) (d : CType) : structState t f st d = st := by
  unfold structState
  split
  case h_1 abi size align ha cls => exact absurd rfl (ht abi)
  case h_2 => rfl

/-- x86 gives up the core registers before a struct. -/
theorem structState_le (hi : Inv t f st) (d : CType) :
    Inv t f (structState t f st d) ∧ (∀ r, mark t st r ≤ mark t (structState t f st d) r) ∧
      (structState t f st d).nsp = st.nsp := by
  unfold structState
  split
  case h_1 abi size align ha cls =>
    have hg := hi.ngpr_le (by simp)
    exact ⟨hi.setGpr hg fun _ => le_rfl, mark_le hg le_rfl le_rfl, rfl⟩
  case h_2 => exact ⟨hi, fun _ => le_rfl, rfl⟩

/-- An argument that is stored at `dp`. -/
theorem placeArg_fits {out : ArgOut} (hi : Inv t f st) (hp : pass t f a.d = some p)
    (hc : ¬ Clash t f st a.d) (h : placeArg t f st a p = some out) :
    Fits t f st out.st out.placed.spans ∧ out.placed.stray = [] := by
  obtain ⟨hi', hm, hn⟩ := structState_le hi a.d
  have hc' : ¬ Clash t f (structState t f st a.d) a.d := by
    intro hcl
    rw [structState_eq (by rw [hcl.1]; simp)] at hcl
    exact hc hcl
  unfold placeArg at h
  split at h
  case h_1 => cases h
  case h_2 r byte st1 hr =>
    obtain rfl := Option.some.inj h
    exact ⟨(regarg_fits hi' hp hc' hr).of_le hm, rfl⟩
  case h_3 st1 hr =>
    have hl := (regarg_left hi' hp hr).of_le hm hn
    split at h
    case h_1 => cases h
    case h_2 byte st2 hs =>
      obtain rfl := Option.some.inj h
      refine ⟨?_, rfl⟩
      rw [argSpans_stack hp]
      exact stackArg_fits hl hs (pass_written hp).1

theorem fits_nil (hi : Inv t f st) : Fits t f st st [] :=
  ⟨by simp, by simp, by simp, fun _ => le_rfl, hi⟩

/-- Two parts of an argument, one after the other. -/
theorem Fits.trans {st1 : State} {s1 s2 : List (Span Region)} (h1 : Fits t f st st1 s1)
    (h2 : Fits t f st1 st' s2) : Fits t f st st' (s1 ++ s2) :=
  Fits.append
    ⟨h1.above, fun s hs => (h1.below s hs).mono h2.mono, h1.room, fun r => (h1.mono r).trans (h2.mono r),
      h2.inv⟩
    (h2.of_le h1.mono)

theorem structEightbyte_fits {c : Rcl} {s : List (Span Region)} (hi : Inv .x64 f st)
    (h : structEightbyte .x64 st c = some (st', s)) : Fits .x64 f st st' s := by
  have hng := hi.ngpr_le
  cases c with
  | none =>
    obtain ⟨rfl, rfl⟩ := Prod.mk.inj (Option.some.inj h)
    exact fits_nil hi
  | int =>
    simp only [structEightbyte] at h
    split at h
    case isTrue => cases h
    case isFalse hlt =>
      obtain ⟨rfl, rfl⟩ := Prod.mk.inj (Option.some.inj h)
      change ¬ 6 ≤ st.ngpr at hlt
      have hroom : st.ngpr + 1 ≤ Target.x64.numGpr := by
        show _ ≤ 6
        omega
      have key := gpr_fits hi le_rfl hroom (fun _ => hroom) (by decide : 8 ≤ 8 * 1)
      rwa [contiguous_single fun _ => by show 8 * st.ngpr + 8 ≤ 8 * 6; omega] at key
  | sse =>
    simp only [structEightbyte] at h
    split at h
    case isTrue => cases h
    case isFalse hlt =>
      obtain ⟨rfl, rfl⟩ := Prod.mk.inj (Option.some.inj h)
      exact fpr_fits (by simp) hi le_rfl hng (Nat.lt_of_not_le hlt) (by decide : 0 + 8 ≤ 16 * 1)

/-- A struct that x64 splits up is kept in registers or on the stack; a register that was filled
before the registers ran out is left free. -/
theorem structArg_fits {rcl : Rcl × Rcl} (hi : Inv .x64 f st)
    (h : structArg .x64 st rcl = some (q, st')) :
    Fits .x64 f st st' q.spans ∧ ∀ s ∈ q.stray, s.Above (mark .x64 st) ∧ s.Below Target.x64.room := by
  have onStack (stray : List (Span Region)) (n : ℕ)
      (hstray : ∀ s ∈ stray, s.Above (mark .x64 st) ∧ s.Below Target.x64.room)
      (h : (if maxstack < st.nsp + n then none
        else some ((⟨[⟨.stack, Target.x64.ptr * st.nsp, n * Target.x64.ptr⟩], stray⟩ : Placed),
          { st with nsp := st.nsp + n })) = some (q, st')) :
      Fits .x64 f st st' q.spans ∧
        ∀ s ∈ q.stray, s.Above (mark .x64 st) ∧ s.Below Target.x64.room := by
    split at h
    case isTrue => cases h
    case isFalse hle =>
      obtain ⟨rfl, rfl⟩ := Prod.mk.inj (Option.some.inj h)
      have hle : st.nsp + n ≤ 32 := Nat.le_of_not_lt hle
      refine ⟨fits_single (fun _ => le_rfl) (fun _ => ?_) (fun _ => ?_) ?_ ?_, hstray⟩
      · show 8 * st.nsp + n * 8 ≤ 8 * (st.nsp + n)
        omega
      · show 8 * st.nsp + n * 8 ≤ 8 * 32
        omega
      · exact mark_le le_rfl le_rfl (by show st.nsp ≤ st.nsp + n; omega)
      · exact ⟨hi.ngpr_le, hi.nfpr_le, hle, hi.fprodd_le, hi.fprodd_zero, fun h0 => by cases h0⟩
  simp only [structArg] at h
  split at h
  case h_1 => exact onStack [] _ (by simp) h
  case h_2 st1 s1 h1 =>
    have hfit1 := structEightbyte_fits hi h1
    split at h
    case h_1 => exact onStack s1 _ (fun s hs => ⟨hfit1.above s hs, hfit1.room s hs⟩) h
    case h_2 st2 s2 h2 =>
      obtain ⟨rfl, rfl⟩ := Prod.mk.inj (Option.some.inj h)
      exact ⟨hfit1.trans (structEightbyte_fits hfit1.inv h2), by simp⟩

/-- One argument: what is written lies at or above the marks and in bounds, and what is kept lies
below the new marks. -/
theorem setArg_ok (hi : Inv t f st) (hc : ¬ Clash t f st a.d) (h : setArg t f st a = some (q, st')) :
    Fits t f st st' q.spans ∧ ∀ s ∈ q.stray, s.Above (mark t st) ∧ s.Below t.room := by
  unfold setArg at h
  split at h
  case h_1 rcl hs =>
    obtain rfl : t = .x64 := by
      unfold splitStruct at hs
      split at hs
      · rfl
      · cases hs
    exact structArg_fits hi h
  case h_2 =>
    split at h
    case h_1 => cases h
    case h_2 p hp =>
      obtain ⟨out, ho, heq⟩ := Option.map_eq_some_iff.1 h
      obtain ⟨rfl, rfl⟩ := Prod.mk.inj heq
      obtain ⟨hfit, hstray⟩ := placeArg_fits hi hp hc ho
      exact ⟨hfit, by rw [hstray]; intro s hs; cases hs⟩

end Step

/-! ### Alignment -/

section Aligned

variable {t : Target} {f : FuncType} {st st' : State} {d : CType} {a : Arg} {p : Pass} {q : Placed}
  {r : Region} {byte isfp n : ℕ} {isva : Bool}

theorem argSpans_start {s : Span Region} (h : s ∈ argSpans t d p r byte) (hb : 8 ∣ byte) :
    8 ∣ s.start := by
  have hc (len : ℕ) (h : s ∈ contiguous t r byte len) : 8 ∣ s.start := by
    simp only [contiguous] at h
    split at h
    · rcases List.mem_cons.1 h with rfl | h
      · exact hb
      · obtain rfl := List.mem_singleton.1 h
        exact dvd_zero _
    · obtain rfl := List.mem_singleton.1 h
      exact hb
  unfold argSpans at h
  split at h
  · split at h
    · rcases List.mem_cons.1 h with rfl | h
      · exact hb
      · obtain rfl := List.mem_singleton.1 h
        exact Dvd.dvd.add hb (by decide)
    · exact hc _ h
  · split at h
    · exact hc _ h
    · split at h
      · obtain rfl := List.mem_singleton.1 h
        exact hb
      · exact hc _ h
  · split at h
    · exact hc _ h
    · split at h
      · obtain rfl := List.mem_singleton.1 h
        exact hb
      · exact hc _ h
  · exact hc _ h

/-- A number of 64 bits is over-aligned where a word has 32. -/
theorem is64_cases (h : d.is64 t) :
    d.align t = 3 ∧ ((∃ u, d = .int u 3) ∨ d = .fp 1) ∧
      pass t f d = some { isfp := if d.isFp then 1 else 0, sz := 8 } := by
  obtain ⟨hn, hs⟩ := h
  have hk (k : ℕ) (h : 2 ^ k = 8) : k = 3 := Nat.pow_right_injective le_rfl (h.trans (by norm_num))
  cases d with
  | int u k =>
    obtain rfl := hk k hs
    exact ⟨rfl, .inl ⟨u, rfl⟩, rfl⟩
  | fp k =>
    obtain rfl : k = 1 := by
      have := hk (k + 2) hs
      omega
    exact ⟨rfl, .inr rfl, rfl⟩
  | bool => cases hs
  | void | «enum» | ptr | vector | complex | struct => cases hn

theorem dvd_four_regpair (n : ℕ) : 8 ∣ 4 * regpair n := by
  obtain ⟨k, hk⟩ := Align.dvd_up 2 n
  rw [regpair, hk]
  exact ⟨k, by omega⟩

theorem overAligned_of_is64 (h : d.is64 t) (ht : t.ptrAlign = 2) : d.overAligned t = true := by
  have h3 := (@is64_cases t { ret := .void, params := [] } d h).1
  rw [CType.overAligned, h3, ht]
  rfl

theorem split_byte {g : ℕ} (h : regargSplit t f st n g = .done r byte st') :
    r = .gpr ∧ byte = t.ptr * g ∧ g < maxgpr t f ∧ (st'.nsp = st.nsp ∨ maxgpr t f < g + n) := by
  simp only [regargSplit] at h
  split at h
  case isFalse => cases h
  case isTrue hlt =>
    split at h
    case isTrue hover =>
      split at h
      · cases h
      · obtain ⟨rfl, rfl, -⟩ := RegArg.done.inj h
        exact ⟨rfl, rfl, hlt, .inr hover⟩
    case isFalse =>
      obtain ⟨rfl, rfl, rfl⟩ := RegArg.done.inj h
      exact ⟨rfl, rfl, hlt, .inl rfl⟩

theorem Target.dvd_fprSize (t : Target) : 8 ∣ t.fprSize := by
  cases t with
  | x86 abi | x64 => exact ⟨2, rfl⟩
  | arm soft | arm64 ios | ppc | mips soft be => exact ⟨1, rfl⟩

theorem regarg_aligned (ht : ∀ abi, t ≠ .x86 abi) (hd : d.is64 t)
    (hn : n = 8 / t.ptr) (hf : isfp = if d.isFp then 1 else 0)
    (h : regarg t f st d isva isfp n = .done r byte st') : 8 ∣ byte := by
  cases t with
  | x86 abi => exact absurd rfl (ht abi)
  | x64 =>
    simp only [regarg, regargX64] at h
    split at h
    · split at h
      · obtain ⟨-, rfl, -⟩ := RegArg.done.inj h
        exact Dvd.dvd.mul_right (Target.dvd_fprSize _) _
      · cases h
    · split at h
      · obtain ⟨-, rfl, -⟩ := RegArg.done.inj h
        exact Dvd.dvd.mul_right (by decide) _
      · cases h
  | arm64 ios =>
    simp only [regarg, regargArm64] at h
    split at h
    · cases h
    · split at h
      · split at h
        · obtain ⟨-, rfl, -⟩ := RegArg.done.inj h
          exact Dvd.dvd.mul_right (Target.dvd_fprSize _) _
        · split at h
          · cases h
          · cases h
      · split at h
        · obtain ⟨-, rfl, -⟩ := RegArg.done.inj h
          exact Dvd.intro _ rfl
        · split at h
          · cases h
          · cases h
  | arm soft =>
    have ha := overAligned_of_is64 hd rfl
    simp only [regarg, regargArm] at h
    split at h
    · rw [regargArmFpr, if_pos ha] at h
      split at h
      · obtain ⟨-, rfl, -⟩ := RegArg.done.inj h
        exact Dvd.dvd.mul_right (Target.dvd_fprSize _) _
      · cases h
    · obtain ⟨-, rfl, hlt, -⟩ := split_byte h
      unfold armGpr at hlt ⊢
      split
      · exact dvd_four_regpair _
      case isFalse hno =>
        rw [if_neg hno] at hlt
        exact absurd ⟨ha, hlt⟩ hno
  | ppc =>
    simp only [regarg, regargPpc] at h
    split at h
    · split at h
      · obtain ⟨-, rfl, -⟩ := RegArg.done.inj h
        exact Dvd.dvd.mul_right (Target.dvd_fprSize _) _
      · cases h
    case isFalse h0 =>
      have hint : d.isInteger = true := by
        rcases (@is64_cases .ppc f d hd).2.1 with ⟨u, rfl⟩ | rfl
        · rfl
        · exact absurd hf (by rw [not_not.1 h0]; decide)
      have hg : ppcGpr .ppc f st d n = regpair st.ngpr := by
        rw [ppcGpr, if_pos (by rw [hn]; decide), if_pos hint]
      split at h
      · obtain ⟨-, rfl, -⟩ := RegArg.done.inj h
        rw [hg]
        exact dvd_four_regpair _
      · cases h
  | mips soft be =>
    have ha := overAligned_of_is64 hd rfl
    have hgpr (st1 : State) (h : regargMipsGpr (.mips soft be) f st1 d n = .done r byte st') :
        8 ∣ byte := by
      obtain ⟨-, rfl, -⟩ := split_byte h
      rw [if_pos ha]
      exact dvd_four_regpair _
    simp only [regarg, regargMips] at h
    split at h
    · exact hgpr _ h
    · split at h
      · obtain ⟨-, rfl, -⟩ := RegArg.done.inj h
        rw [if_neg (by rw [hn]; simp [Target.ptr])]
        exact Dvd.dvd.mul_right (Target.dvd_fprSize _) _
      · exact hgpr _ h

theorem stackArg_aligned (ht : ∀ abi, t ≠ .x86 abi) (hd : d.is64 t) (hb : p.byref = false)
    (h : stackArg t d p st = some (byte, st')) : 8 ∣ byte := by
  obtain ⟨k, -, rfl, -, -, -, hk⟩ := stackArg_spec h
  have h3 := (@is64_cases t { ret := .void, params := [] } d hd).1
  have words (hp : t.ptr = 4) (hpa : t.ptrAlign = 2) (hs : t.alignStackarg = true) :
      8 ∣ t.ptr * k := by
    have h2 := hk hs hb (overAligned_of_is64 hd hpa)
    rw [h3, hpa] at h2
    obtain ⟨j, rfl⟩ := h2
    rw [hp]
    exact ⟨j, by lia⟩
  cases t with
  | x86 abi => exact absurd rfl (ht abi)
  | x64 | arm64 ios => exact Dvd.intro _ rfl
  | arm soft | ppc | mips soft be => exact words rfl rfl rfl

/-- An integer or a number of 64 bits is aligned. -/
theorem setArg_aligned (h : setArg t f st a = some (q, st')) : AlignedArg t a.d q := by
  intro ht hd
  have hp := (@is64_cases t f a.d hd).2.2
  have hsplit : splitStruct t a.d = none := by
    rcases (@is64_cases t f a.d hd).2.1 with ⟨u, hu⟩ | hu
    · rw [hu]
      cases t <;> rfl
    · rw [hu]
      cases t <;> rfl
  have hst := @structState_eq t f st ht a.d
  simp only [setArg, hsplit, hp] at h
  obtain ⟨out, ho, heq⟩ := Option.map_eq_some_iff.1 h
  obtain ⟨rfl, rfl⟩ := Prod.mk.inj heq
  have hn : Pass.n t { isfp := if a.d.isFp then 1 else 0, sz := 8 } = 8 / t.ptr := by
    unfold Pass.n
    cases t <;> simp [Target.ptr]
  simp only [placeArg, hst] at ho
  split at ho
  case h_1 => cases ho
  case h_2 r byte st1 hr =>
    obtain rfl := Option.some.inj ho
    exact fun s hs => argSpans_start hs (regarg_aligned ht hd hn rfl hr)
  case h_3 st1 hr =>
    split at ho
    case h_1 => cases ho
    case h_2 byte st2 hs =>
      obtain rfl := Option.some.inj ho
      exact fun s hs' => argSpans_start hs' (stackArg_aligned ht hd rfl hs)

end Aligned

/-! ### All arguments -/

section Run

variable {t : Target} {f : FuncType} {st st' : State} {as : List Arg} {ps ret : List Placed}
  {va : List CType}

theorem setArgs_aligned (h : setArgs t f st as = some (ps, st')) :
    List.Forall₂ (fun a => AlignedArg t a.d) as ps := by
  induction as generalizing st ps with
  | nil =>
    obtain ⟨rfl, rfl⟩ := Prod.mk.inj (Option.some.inj h)
    exact .nil
  | cons a as ih =>
    simp only [setArgs] at h
    split at h
    case h_1 => cases h
    case h_2 q st1 hq =>
      split at h
      case h_1 => cases h
      case h_2 qs st2 hqs =>
        obtain ⟨rfl, rfl⟩ := Prod.mk.inj (Option.some.inj h)
        exact .cons (setArg_aligned hq) (ih hqs)

/-- All arguments from a state on lie at or above its marks, in bounds, and apart. -/
theorem setArgs_ok (hi : Inv t f st) (hc : NoClashFrom t f st as)
    (h : setArgs t f st as = some (ps, st')) :
    Inv t f st' ∧ (∀ p ∈ ps, ∀ s ∈ p.spans ++ p.stray, s.Above (mark t st) ∧ s.Below t.room) ∧
      ps.Pairwise Placed.Apart := by
  induction as generalizing st ps with
  | nil =>
    obtain ⟨rfl, rfl⟩ := Prod.mk.inj (Option.some.inj h)
    exact ⟨hi, by simp, .nil⟩
  | cons a as ih =>
    simp only [setArgs] at h
    split at h
    case h_1 => cases h
    case h_2 q st1 hq =>
      split at h
      case h_1 => cases h
      case h_2 qs st2 hqs =>
        obtain ⟨rfl, rfl⟩ := Prod.mk.inj (Option.some.inj h)
        obtain ⟨hfit, hstray⟩ := setArg_ok hi hc.1 hq
        obtain ⟨hi2, habove, hpair⟩ := ih hfit.inv (hc.2 q st1 hq) hqs
        refine ⟨hi2, fun p hp s hs => ?_, .cons (fun p hp s hs u hu => ?_) hpair⟩
        · rcases List.mem_cons.1 hp with rfl | hp
          · rcases List.mem_append.1 hs with hs | hs
            · exact ⟨hfit.above s hs, hfit.room s hs⟩
            · exact hstray s hs
          · obtain ⟨h1, h2⟩ := habove p hp s hs
            exact ⟨h1.mono hfit.mono, h2⟩
        · exact .of_below_above (hfit.below s hs) (habove p hp u hu).1

/-- The pointer to the result. -/
theorem setRet_ok (h : setRet t f = some (ret, st)) :
    Inv t f st ∧ (∀ p ∈ ret, ∀ s ∈ p.spans ++ p.stray, s.Below (mark t st) ∧ s.Below t.room) ∧
      ret.Pairwise Placed.Apart := by
  have hptr := t.four_le_ptr
  simp only [setRet] at h
  split at h
  case isTrue => cases h
  case isFalse =>
    split at h
    case isFalse =>
      obtain ⟨rfl, rfl⟩ := Prod.mk.inj (Option.some.inj h)
      exact ⟨⟨fun _ => Nat.zero_le _, Nat.zero_le _, Nat.zero_le _, le_rfl, fun _ => rfl,
        fun _ h0 => absurd h0 (lt_irrefl _)⟩, by simp, .nil⟩
    case isTrue =>
      split at h
      case isTrue hg =>
        obtain ⟨rfl, rfl⟩ := Prod.mk.inj (Option.some.inj h)
        have hnum : 1 ≤ t.numGpr := by
          cases t <;> simp [Target.numGpr, Target.nargGpr]
        refine ⟨⟨fun _ => hg.2, Nat.zero_le _, Nat.zero_le _, le_rfl, fun _ => rfl,
          fun _ h0 => absurd h0 (lt_irrefl _)⟩, fun p hp s hs => ?_, List.pairwise_singleton _ _⟩
        obtain rfl := List.mem_singleton.1 hp
        obtain rfl := List.mem_singleton.1 hs
        refine ⟨fun _ => ?_, fun _ => ?_⟩
        · show 0 + t.ptr ≤ t.ptr * 1
          omega
        · have := Nat.mul_le_mul_left t.ptr hnum
          show 0 + t.ptr ≤ t.ptr * t.numGpr
          omega
      case isFalse hg =>
        obtain ⟨rfl, rfl⟩ := Prod.mk.inj (Option.some.inj h)
        have hlast : t.stackLast = false := by
          cases t with
          | x86 abi | x64 | arm64 ios | ppc => rfl
          | arm soft => exact absurd ⟨by simp, (by decide : 0 < 4)⟩ hg
          | mips soft be => exact absurd ⟨by simp, (by decide : 0 < 4)⟩ hg
        refine ⟨⟨fun _ => Nat.zero_le _, Nat.zero_le _, (by decide : 1 ≤ 32), le_rfl, fun _ => rfl,
          fun h0 _ => by rw [hlast] at h0; cases h0⟩, fun p hp s hs => ?_, List.pairwise_singleton _ _⟩
        obtain rfl := List.mem_singleton.1 hp
        obtain rfl := List.mem_singleton.1 hs
        refine ⟨fun _ => ?_, fun _ => ?_⟩
        · show 0 + t.ptr ≤ t.ptr * 1
          omega
        · show 0 + t.ptr ≤ t.ptr * 32
          omega

/-! ### The clash -/

/-- What is kept of the argument covers the start of the stack. -/
def Placed.OnStack (q : Placed) : Prop := ∃ s ∈ q.spans, s.Covers .stack 0

theorem noClashFrom_of_ne (ht : t ≠ .arm false) : NoClashFrom t f st as := by
  induction as generalizing st with
  | nil => trivial
  | cons a as ih => exact ⟨fun hc => ht hc.1, fun q st' _ => ih⟩

/-- An argument that is split between registers and stack covers the start of the stack. -/
theorem contiguous_onStack {g n len : ℕ} (hn : t.numGpr < g + n)
    (hlen : t.ptr * n < len + t.ptr) :
    ∃ s ∈ contiguous t .gpr (t.ptr * g) len, s.Covers .stack 0 := by
  have h1 : t.ptr * (t.numGpr + 1) ≤ t.ptr * (g + n) := Nat.mul_le_mul_left _ hn
  rw [Nat.mul_add, Nat.mul_add, Nat.mul_one] at h1
  have hover : t.ptr * t.numGpr < t.ptr * g + len := by lia
  have hc : contiguous t .gpr (t.ptr * g) len = [⟨.gpr, t.ptr * g, t.ptr * t.numGpr - t.ptr * g⟩,
      ⟨.stack, 0, t.ptr * g + len - t.ptr * t.numGpr⟩] := if_pos ⟨rfl, hover⟩
  rw [hc]
  refine ⟨⟨.stack, 0, t.ptr * g + len - t.ptr * t.numGpr⟩, by simp, rfl, le_rfl, ?_⟩
  show 0 < 0 + (t.ptr * g + len - t.ptr * t.numGpr)
  lia

theorem arm_pass {a : Arg} {q : Placed} (h : setArg (.arm false) f st a = some (q, st')) :
    ∃ p out, pass (.arm false) f a.d = some p ∧ placeArg (.arm false) f st a p = some out ∧
      q = out.placed ∧ st' = out.st := by
  have hsplit : splitStruct (.arm false) a.d = none := rfl
  simp only [setArg, hsplit] at h
  split at h
  case h_1 => cases h
  case h_2 p hp =>
    obtain ⟨out, ho, heq⟩ := Option.map_eq_some_iff.1 h
    obtain ⟨rfl, rfl⟩ := Prod.mk.inj heq
    exact ⟨p, out, hp, ho, rfl, rfl⟩

theorem arm_structState (d : CType) : structState (.arm false) f st d = st :=
  structState_eq (by simp) d

/-- An argument that begins in the last core registers of ARM and goes on on the stack. -/
theorem armGpr_onStack {d : CType} {p : Pass} (hp : pass (.arm false) f d = some p)
    (hlt : armGpr (.arm false) f st d < maxgpr (.arm false) f)
    (hn : maxgpr (.arm false) f < armGpr (.arm false) f st d + p.n (.arm false)) :
    Placed.OnStack ⟨argSpans (.arm false) d p .gpr
      ((Target.arm false).ptr * armGpr (.arm false) f st d), []⟩ := by
  have hw := (pass_written hp).2 (by omega)
  rw [written, byref_of_ne hp (by simp) (by simp), if_neg (by decide)] at hw
  exact contiguous_onStack hn hw

/-- An argument of the hard-float ABI of ARM after which the stack is in use: it was in use before,
or the argument covers its start. -/
theorem setArg_onStack {a : Arg} {q : Placed} (hi : Inv (.arm false) f st)
    (h : setArg (.arm false) f st a = some (q, st')) (hn : 0 < st'.nsp) :
    0 < st.nsp ∨ q.OnStack := by
  obtain ⟨p, out, hp, ho, rfl, rfl⟩ := arm_pass h
  unfold placeArg at ho
  rw [arm_structState] at ho
  split at ho
  case h_1 => cases ho
  case h_2 r byte st1 hr =>
    obtain rfl := Option.some.inj ho
    simp only [regarg, regargArm] at hr
    split at hr
    · have hnsp : st1.nsp = st.nsp := by
        simp only [regargArmFpr] at hr
        split at hr
        · split at hr
          · exact (congrArg State.nsp (RegArg.done.inj hr).2.2).symm
          · cases hr
        · split at hr
          · split at hr
            · exact (congrArg State.nsp (RegArg.done.inj hr).2.2).symm
            · cases hr
          · split at hr
            · exact (congrArg State.nsp (RegArg.done.inj hr).2.2).symm
            · cases hr
      exact .inl (hnsp ▸ hn)
    · obtain ⟨rfl, rfl, hlt, hnsp | hover⟩ := split_byte hr
      · exact .inl (hnsp ▸ hn)
      · exact .inr (armGpr_onStack hp hlt hover)
  case h_3 st1 hr =>
    have hl := regarg_left hi hp hr
    split at ho
    case h_1 => cases ho
    case h_2 byte st2 hs =>
      obtain rfl := Option.some.inj ho
      obtain ⟨k, hk, rfl, -, rfl, hzero, -⟩ := stackArg_spec hs
      by_cases h0 : 0 < st.nsp
      · exact .inl h0
      · obtain rfl := hzero (by rw [hl.nsp_eq]; omega)
        change 0 < 0 + p.n (.arm false) at hn
        have hw := (pass_written hp).2 (by omega)
        have hmul : (Target.arm false).ptr * 1 ≤ (Target.arm false).ptr * p.n (.arm false) :=
          Nat.mul_le_mul_left _ (by omega)
        refine .inr ⟨⟨.stack, (Target.arm false).ptr * 0, written (.arm false) a.d p⟩, ?_, rfl, ?_, ?_⟩
        · rw [argSpans_stack hp]
          exact List.mem_singleton.2 rfl
        · exact Nat.le_of_eq (Nat.mul_zero _)
        · show 0 < (Target.arm false).ptr * 0 + written (.arm false) a.d p
          lia

/-- A clash is an argument that covers the start of the stack once more. -/
theorem clash_onStack {a : Arg} {q : Placed} (hc : Clash (.arm false) f st a.d)
    (h : setArg (.arm false) f st a = some (q, st')) : q.OnStack := by
  obtain ⟨p, out, hp, ho, rfl, rfl⟩ := arm_pass h
  obtain ⟨-, -, hlt, p', hp', hf, hn⟩ := hc
  obtain rfl := Option.some.inj (hp.symm.trans hp')
  have hreg : regarg (.arm false) f st a.d a.isva p.isfp (p.n (.arm false)) =
      regargSplit (.arm false) f st (p.n (.arm false)) (armGpr (.arm false) f st a.d) :=
    if_neg fun h => hf.elim (fun h0 => h.2.1 h0) (fun h0 => h.2.2 h0)
  unfold placeArg at ho
  rw [arm_structState, hreg] at ho
  split at ho
  case h_1 => cases ho
  case h_2 r byte st1 hr =>
    obtain rfl := Option.some.inj ho
    obtain ⟨rfl, rfl, -, -⟩ := split_byte hr
    exact armGpr_onStack hp hlt hn
  case h_3 st1 hr =>
    exact absurd hlt (Nat.not_lt.2 (split_onStack hr).1)

/-- If all arguments are apart, none clashes.  `pre` are the arguments before. -/
theorem setArgs_clash {pre : List Placed} (hi : Inv (.arm false) f st) (hpre : 0 < st.nsp → ∃ q ∈ pre, q.OnStack)
    (h : setArgs (.arm false) f st as = some (ps, st'))
    (hapart : (pre ++ ps).Pairwise Placed.Apart) : NoClashFrom (.arm false) f st as := by
  induction as generalizing st pre ps with
  | nil => trivial
  | cons a as ih =>
    simp only [setArgs] at h
    split at h
    case h_1 => cases h
    case h_2 q st1 hq =>
      split at h
      case h_1 => cases h
      case h_2 qs st2 hqs =>
        obtain ⟨rfl, rfl⟩ := Prod.mk.inj (Option.some.inj h)
        have hc : ¬ Clash (.arm false) f st a.d := by
          intro hc
          obtain ⟨p, hp, s, hs, hcov⟩ := hpre hc.2.1
          obtain ⟨u, hu, hcov'⟩ := clash_onStack hc hq
          have hapart' := (List.pairwise_append.1 hapart).2.2 p hp q (List.mem_cons_self ..)
          exact Span.not_apart_of_byte hcov hcov' (hapart' s hs u (List.mem_append_left _ hu))
        refine ⟨hc, fun q' st1' hq' => ?_⟩
        obtain ⟨rfl, rfl⟩ := Prod.mk.inj (Option.some.inj (hq.symm.trans hq'))
        have hpre' : 0 < st1.nsp → ∃ p ∈ pre ++ [q], p.OnStack := by
          intro hn
          rcases setArg_onStack hi hq hn with h0 | h0
          · obtain ⟨p, hp, hs⟩ := hpre h0
            exact ⟨p, List.mem_append_left _ hp, hs⟩
          · exact ⟨q, by simp, h0⟩
        exact ih (setArg_ok hi hc hq).1.inv hpre' hqs (by simpa using hapart)

theorem setRet_nsp (h : setRet (.arm false) f = some (ret, st)) : st.nsp = 0 := by
  simp only [setRet] at h
  split at h
  · cases h
  · split at h
    · split at h
      · exact congrArg State.nsp (Prod.mk.inj (Option.some.inj h)).2.symm
      case isFalse hg => exact absurd ⟨by simp, (by decide : 0 < 4)⟩ hg
    · exact congrArg State.nsp (Prod.mk.inj (Option.some.inj h)).2.symm

/-- **The slots of a call are in order exactly if no argument is split between core registers and a
stack that is in use.** -/
theorem slotsOk_iff (h : ccallSetArgs t f va = some (ret, ps, st')) :
    SlotsOk t (callArgs f va) ret ps st' ↔ NoClash t f va := by
  simp only [ccallSetArgs] at h
  split at h
  case isTrue => cases h
  case isFalse =>
    split at h
    case h_1 => cases h
    case h_2 ret1 st hret =>
      split at h
      case h_1 => cases h
      case h_2 ps1 st1 hps =>
        obtain ⟨rfl, heq⟩ := Prod.mk.inj (Option.some.inj h)
        obtain ⟨rfl, rfl⟩ := Prod.mk.inj heq
        obtain ⟨hi, hretb, hretp⟩ := setRet_ok hret
        constructor
        · intro hok ret2 st2 hret2
          obtain ⟨rfl, rfl⟩ := Prod.mk.inj (Option.some.inj (hret.symm.trans hret2))
          by_cases ht : t = .arm false
          · subst ht
            have h0 := setRet_nsp hret
            exact setArgs_clash hi (fun hn => by omega) hps hok.apart
          · exact noClashFrom_of_ne ht
        · intro hc
          obtain ⟨hi', habove, hpair⟩ := setArgs_ok hi (hc _ _ hret) hps
          refine ⟨fun p hp s hs => ?_, ?_, hi'.nsp_le, setArgs_aligned hps⟩
          · rcases List.mem_append.1 hp with hp | hp
            · exact (hretb p hp s hs).2
            · exact (habove p hp s hs).2
          · refine List.pairwise_append.2 ⟨hretp, hpair, fun p hp q hq s hs u hu => ?_⟩
            exact .of_below_above (hretb p hp s (List.mem_append_left _ hs)).1 (habove q hq u hu).1

/-- Nine numbers and a struct of five words, with the hard-float ABI of ARM: the ninth number is on
the stack, and the struct, which begins in the core registers, is written over it. -/
def clashFunc : FuncType where
  ret := .void
  params := List.replicate 9 (.fp 1) ++ [.struct 20 2 (by decide) ⟨none, 0⟩]

theorem clashFunc_run : ccallSetArgs (.arm false) clashFunc [] =
    some ([], (List.range 8).map (fun i => ⟨[⟨.fpr, 8 * i, 8⟩], []⟩) ++
      [⟨[⟨.stack, 0, 8⟩], []⟩, ⟨[⟨.gpr, 0, 16⟩, ⟨.stack, 0, 4⟩], []⟩],
      { ngpr := 4, nfpr := 8, nsp := 3 }) := by
  decide

/-- The struct of `clashFunc` overwrites the ninth number. -/
theorem clashFunc_not_ok :
    ¬ ∀ (t : Target) (f : FuncType) (va : List CType) (ret ps : List Placed) (st : State),
      ccallSetArgs t f va = some (ret, ps, st) → SlotsOk t (callArgs f va) ret ps st := by
  intro h
  have hok := h _ _ _ _ _ _ clashFunc_run
  have hlast := (List.pairwise_append.1 hok.apart).2.1
  have hpair := (List.pairwise_append.1 hlast).2.1
  have hapart := (List.pairwise_cons.1 hpair).1 _ (List.mem_singleton.2 rfl)
  refine Span.not_apart_of_byte (r := .stack) (b := 0) ?_ ?_
    (hapart ⟨.stack, 0, 8⟩ (by simp) ⟨.stack, 0, 4⟩ (by simp))
  · exact ⟨rfl, le_rfl, by decide⟩
  · exact ⟨rfl, le_rfl, by decide⟩

theorem clashFunc_slotsOk_iff :
    SlotsOk (.arm false) (callArgs clashFunc []) []
      ((List.range 8).map (fun i => ⟨[⟨.fpr, 8 * i, 8⟩], []⟩) ++
        [⟨[⟨.stack, 0, 8⟩], []⟩, ⟨[⟨.gpr, 0, 16⟩, ⟨.stack, 0, 4⟩], []⟩])
      { ngpr := 4, nfpr := 8, nsp := 3 } ↔ NoClash (.arm false) clashFunc [] :=
  slotsOk_iff clashFunc_run

end Run

end Ccall
