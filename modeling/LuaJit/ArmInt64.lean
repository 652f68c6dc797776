/-
**Split 64 bit comparisons, and every comparison guard.**

The words of a 64 bit operand are compared high words first.  An unsigned comparison looks at the low
words only if the high words are equal; a signed one has an exit branch behind each comparison and
branches around the low words if the high words differ.  That branch goes to where the guard began,
which is the branch to the exit stub if the guard was placed at the loop branch.

Main definitions:

* `ArmAsm.HiWrong` — the high words decide for a comparison at the inverted loop branch;
* `ArmAsm.ExitsExactly` — the code of a guard exits exactly if its comparison fails;
* `ArmAsm.Loaded` — what the registers hold before the code runs;
* `ArmAsm.Misjudges` — the inputs that a guard goes wrong on.

Main results:

* `ArmAsm.asmInt64comp_exec_unsigned`, `ArmAsm.asmInt64comp_exec_signed` — split comparisons;
* `ArmAsm.exitsExactly_iff` — **a guard exits exactly if its comparison fails, unless a sum is tested
  that wraps around, or the high words decide for a comparison at the inverted loop branch**;
* `ArmAsm.not_exitsExactly` — the guard for `bit.tobit(x + y) >= 0`.
-/

import LuaJit.ArmGuard

set_option relaxedAutoImplicit false
set_option autoImplicit false

namespace ArmAsm

open Arm Ir

variable {as : ASMState} {ρ : ℕ → BitVec 32}

/-! ### The conditions on the two words -/

/-- The condition on the high words of a signed comparison. -/
def hiCc (o : IROp) : BitVec 4 :=
  if asmCompmap o = ccGe ∨ asmCompmap o = ccLe then asmCompmap o ^^^ 6 else asmCompmap o

theorem isComp_unsignedOf {o : IROp} (ho : isComp o) : isComp (unsignedOf o) := by
  rcases isComp_cases ho with rfl | rfl | rfl | rfl | rfl | rfl | rfl | rfl | rfl | rfl <;> rfl

/-- A comparison has an outcome. -/
theorem evalGuard_isSome {o : IROp} (ho : isComp o) {w : ℕ} (a b : BitVec w) : ∃ g, evalGuard o a b = some g := by
  rcases isComp_cases ho with rfl | rfl | rfl | rfl | rfl | rfl | rfl | rfl | rfl | rfl <;> exact ⟨_, rfl⟩

/-- Different high words decide. -/
theorem evalGuard_append_of_ne {o : IROp} (ho : isComp o) {ah bh : BitVec 32} (h : ah ≠ bh)
    (al bl : BitVec 32) : evalGuard o (ah ++ al) (bh ++ bl) = evalGuard o ah bh := by
  have h32 : 0 < 32 := by decide
  have hne : ¬ (ah ++ al = bh ++ bl) := fun h' => h ((append_inj ah bh al bl).1 h').1
  have h' : ¬ bh = ah := fun h' => h h'.symm
  rcases isComp_cases ho with rfl | rfl | rfl | rfl | rfl | rfl | rfl | rfl | rfl | rfl
  all_goals
    simp only [evalGuard, BitVec.sle_eq_not_slt, BitVec.ule_eq_not_ult, slt_append _ _ _ _ h32,
      ult_append, if_neg h, if_neg h', beq_eq_false_iff_ne.2 hne, beq_eq_false_iff_ne.2 h, bne]

/-- Equal high words leave the decision to the low words. -/
theorem evalGuard_append_self {o : IROp} (ho : isComp o) (ah al bl : BitVec 32) :
    evalGuard o (ah ++ al) (ah ++ bl) = evalGuard (unsignedOf o) al bl := by
  have h32 : 0 < 32 := by decide
  have heq : (ah ++ al == ah ++ bl) = (al == bl) := by
    rw [Bool.eq_iff_iff, beq_iff_eq, beq_iff_eq, append_inj]
    exact and_iff_right rfl
  rcases isComp_cases ho with rfl | rfl | rfl | rfl | rfl | rfl | rfl | rfl | rfl | rfl
  all_goals
    simp only [evalGuard, unsignedOf, BitVec.sle_eq_not_slt, BitVec.ule_eq_not_ult,
      slt_append _ _ _ _ h32, ult_append, if_true, heq, bne]

/-- The exit behind the high words is taken if they decide against the comparison. -/
theorem condHolds_hiCc {o : IROp} (ho : signedComp o) {a b : BitVec 32} {g : Bool}
    (hg : evalGuard o a b = some g) : condHolds (hiCc o) (cmp a b) = (a != b && !g) := by
  have hgt : condHolds ccGt (cmp a b) = b.slt a := by
    rw [condHolds_gt, cmp_nv, cmp_z, BitVec.sle_eq_not_slt, slt_swap]
  have hlt : condHolds ccLt (cmp a b) = a.slt b := by
    rw [condHolds_lt, cmp_nv, BitVec.sle_eq_not_slt, Bool.not_not]
  have hne : (a != b) = decide (a.toInt ≠ b.toInt) := by
    rw [Bool.eq_iff_iff, bne_iff_ne, decide_eq_true_eq, ne_eq, ne_eq, BitVec.toInt_inj]
  rw [hne, Bool.eq_iff_iff]
  rcases signedComp_cases ho with rfl | rfl | rfl | rfl
  all_goals
    obtain rfl := Option.some.inj hg
    first
      | change condHolds ccGt (cmp a b) = true ↔ _
        rw [hgt]
      | change condHolds ccLt (cmp a b) = true ↔ _
        rw [hlt]
    simp only [BitVec.slt, BitVec.sle, decide_eq_true_eq, Bool.and_eq_true, Bool.not_eq_true',
      decide_eq_false_iff_not, Bool.not_not]
    lia

/-! ### The code of a split comparison -/

/-- The references that the operands of a split comparison need in registers. -/
def int64Refs (as : ASMState) (ref : ℕ) : List ℕ :=
  let lo := as.ir ref
  let hi := as.ir (ref + 1)
  let as₁ := raAlloc as [lo.op1]
  let as₂ := raAlloc as₁ (asmFuseopm as₁ armiCmp lo.op2).refs
  let as₃ := raAlloc as₂ [hi.op1]
  (asmFuseopm as₃ armiCmp hi.op2).refs ++ [hi.op1] ++ (asmFuseopm as₁ armiCmp lo.op2).refs ++ [lo.op1]

/-- The comparison of the low words. -/
def loWord (as : ASMState) (ref : ℕ) (cc : BitVec 4) : MCode :=
  let lo := as.ir ref
  let f := asmFuseopm (raAlloc as [lo.op1]) armiCmp lo.op2
  ⟨cc, .dp (armiCmp ^^^ f.inv) true 0 (as.reg lo.op1) f.m⟩

/-- The comparison of the high words. -/
def hiWord (as : ASMState) (ref : ℕ) : MCode :=
  let lo := as.ir ref
  let hi := as.ir (ref + 1)
  let as₁ := raAlloc as [lo.op1]
  let as₂ := raAlloc as₁ (asmFuseopm as₁ armiCmp lo.op2).refs
  let f := asmFuseopm (raAlloc as₂ [hi.op1]) armiCmp hi.op2
  ⟨ccAl, .dp (armiCmp ^^^ f.inv) true 0 (as.reg hi.op1) f.m⟩

theorem asmInt64comp_eq (as : ASMState) (ref : ℕ) :
    asmInt64comp as ref =
      let X := raAlloc as (int64Refs as ref)
      let o := (as.ir ref).o
      if signedComp o then
        emit (asmGuardcc (emitBranch (emit (asmGuardcc X (asmCompmap (unsignedOf o)))
          (loWord as ref ccAl)) ccNe .b X.mcp) (hiCc o)) (hiWord as ref)
      else emit (emit (asmGuardcc X (asmCompmap (unsignedOf o))) (loWord as ref ccEq))
        (hiWord as ref) := by
  simp only [int64Refs, ← raAlloc_raAlloc, asmInt64comp]
  split <;> rfl

theorem mcp_emit (X : ASMState) (w : MCode) : (emit X w).mcp = X.mcp - 1 := by
  simp only [ASMState.mcp, emit, List.length_cons]
  push_cast
  omega

theorem mcp_raAlloc (X : ASMState) (refs : List ℕ) : (raAlloc X refs).mcp = X.mcp := rfl

theorem mcp_asmGuardcc (hw : CodeWf as) (cc : BitVec 4) : (asmGuardcc as cc).mcp = as.mcp - 1 := by
  simp only [ASMState.mcp, asmGuardcc_mctop, asmGuardcc_mc hw, List.length_append,
    guardWords_length hw]
  push_cast
  omega

/-- A second exit branch in the same guard is not at the loop branch. -/
theorem asmGuardcc_inner (hw : CodeWf as) {Y : ASMState} (hinv : Y.invmcp = as.invmcp)
    (hlt : Y.mcp < as.mcp) (cc : BitVec 4) :
    asmGuardcc Y cc = emit Y ⟨cc, .bl (BitVec.ofInt 24 (Y.exitstub - Y.mcp - 1))⟩ := by
  have hne : ¬ Y.invmcp = some Y.mcp := by
    intro h
    have hp := hw.invmcp _ (hinv ▸ h)
    have hmcp : as.mcp = as.mctop - as.mc.length := rfl
    have hpos : 0 < as.mc.length := List.length_pos_iff.2 hw.tail
    omega
  simp only [asmGuardcc, if_neg hne]
  rfl

/-- The words in front of the exit branch on the low words of a signed comparison.  The branch around
them goes to where the guard began. -/
def signedFront (as : ASMState) (ref : ℕ) : List MCode :=
  [hiWord as ref, ⟨hiCc (as.ir ref).o, .bl (BitVec.ofInt 24 (as.exitstub - as.mcp + 2))⟩,
    ⟨ccNe, .b (BitVec.ofInt 24 1)⟩, loWord as ref ccAl]

/-- The exit branch on the high words, and the branch around the low words. -/
theorem asmGuardcc_hi (hw : CodeWf as) (refs : List ℕ) (cclo cc : BitVec 4) (w : MCode) :
    asmGuardcc (emitBranch (emit (raAlloc (asmGuardcc as cclo) refs) w) ccNe .b as.mcp) cc =
      emit (emit (emit (raAlloc (asmGuardcc as cclo) refs) w) ⟨ccNe, .b (BitVec.ofInt 24 1)⟩)
        ⟨cc, .bl (BitVec.ofInt 24 (as.exitstub - as.mcp + 2))⟩ := by
  have hfields : (asmGuardcc as cclo).exitstub = as.exitstub ∧
      (asmGuardcc as cclo).invmcp = as.invmcp := by
    rw [asmGuardcc]
    split <;> exact ⟨rfl, rfl⟩
  have hmcp := mcp_asmGuardcc hw cclo
  generalize asmGuardcc as cclo = G at *
  obtain ⟨hstub, hinv⟩ := hfields
  have hbne : emitBranch (emit (raAlloc G refs) w) ccNe .b as.mcp =
      emit (emit (raAlloc G refs) w) ⟨ccNe, .b (BitVec.ofInt 24 1)⟩ := by
    rw [emitBranch, mcp_emit, mcp_raAlloc, hmcp]
    congr 4
    omega
  have hlt : (emit (emit (raAlloc G refs) w) ⟨ccNe, .b (BitVec.ofInt 24 1)⟩).mcp = as.mcp - 3 := by
    rw [mcp_emit, mcp_emit, mcp_raAlloc, hmcp]
    omega
  have hinv' : (emit (emit (raAlloc G refs) w) ⟨ccNe, .b (BitVec.ofInt 24 1)⟩).invmcp =
      as.invmcp := hinv
  rw [hbne, asmGuardcc_inner hw hinv' (by rw [hlt]; omega), hlt]
  have hoff : (emit (emit (raAlloc G refs) w) ⟨ccNe, .b (BitVec.ofInt 24 1)⟩).exitstub -
      (as.mcp - 3) - 1 = as.exitstub - as.mcp + 2 := by
    change G.exitstub - (as.mcp - 3) - 1 = _
    lia
  rw [hoff]

theorem asmInt64comp_emits (hw : CodeWf as) (ref : ℕ) :
    Emits as (asmInt64comp as ref)
      (if signedComp (as.ir ref).o then signedFront as ref else [hiWord as ref, loWord as ref ccEq])
      (asmCompmap (unsignedOf (as.ir ref).o)) := by
  have hG := asmGuardcc_mc hw (asmCompmap (unsignedOf (as.ir ref).o))
  have hinv := asmGuardcc_loopinv as (asmCompmap (unsignedOf (as.ir ref).o))
  have htop := asmGuardcc_mctop as (asmCompmap (unsignedOf (as.ir ref).o))
  rw [asmInt64comp_eq]
  simp only [asmGuardcc_raAlloc, mcp_raAlloc, asmGuardcc_hi hw]
  generalize asmGuardcc as (asmCompmap (unsignedOf (as.ir ref).o)) = G at *
  split
  · constructor <;>
      simp only [emit, raAlloc, hG, hinv, htop, signedFront, List.cons_append, List.nil_append]
  · constructor <;> simp only [emit, raAlloc, hG, hinv, htop, List.cons_append, List.nil_append]

/-! ### Running a split comparison -/

section Run

variable {ref : ℕ} {s : Cpu}

theorem exec_loWord (he : Env as.ir ρ) (hs : ∀ x ∈ int64Refs as ref, s.regs (as.reg x) = ρ x)
    {cc : BitVec 4} (hcc : condHolds cc s.flags) (p : ℤ) (ws : List MCode) :
    exec p p (loWord as ref cc :: ws) s = exec (p + 1) (p + 1) ws
      { s with flags := cmp (ρ (as.ir ref).op1) (ρ (as.ir ref).op2) } := by
  have hX : Env (raAlloc as [(as.ir ref).op1]).ir ρ := he
  have hl : s.regs (as.reg (as.ir ref).op1) = ρ (as.ir ref).op1 := hs _ (by simp [int64Refs])
  refine exec_cmp hX hl (fun x hx => hs x ?_) hcc p ws
  simp only [int64Refs, List.mem_append]
  exact .inl (.inr hx)

theorem exec_hiWord (he : Env as.ir ρ) (hs : ∀ x ∈ int64Refs as ref, s.regs (as.reg x) = ρ x)
    (p : ℤ) (ws : List MCode) :
    exec p p (hiWord as ref :: ws) s = exec (p + 1) (p + 1) ws
      { s with flags := cmp (ρ (as.ir (ref + 1)).op1) (ρ (as.ir (ref + 1)).op2) } := by
  have hl : s.regs (as.reg (as.ir (ref + 1)).op1) = ρ (as.ir (ref + 1)).op1 :=
    hs _ (by simp [int64Refs])
  have hal : condHolds ccAl s.flags := rfl
  set as₁ := raAlloc as [(as.ir ref).op1] with h₁
  set as₂ := raAlloc as₁ (asmFuseopm as₁ armiCmp (as.ir ref).op2).refs with h₂
  have hX : Env (raAlloc as₂ [(as.ir (ref + 1)).op1]).ir ρ := he
  refine exec_cmp hX hl (fun x hx => hs x ?_) hal p ws
  simp only [int64Refs, List.mem_append]
  exact .inl (.inl (.inl hx))

theorem asmInt64comp_live (as : ASMState) (ref : ℕ) :
    (asmInt64comp as ref).live = int64Refs as ref ++ as.live := by
  have hlive := asmGuardcc_live as (asmCompmap (unsignedOf (as.ir ref).o))
  rw [asmInt64comp_eq]
  simp only [asmGuardcc_raAlloc]
  split
  · simp only [emit, emitBranch, raAlloc, asmGuardcc_live]
  · simp only [emit, raAlloc, hlive]

/-- The high words decide a signed comparison too late: at the inverted loop branch, where the branch
around the low words runs into the branch to the exit stub. -/
def HiWrong (as : ASMState) (ρ : ℕ → BitVec 32) (ref : ℕ) : Prop :=
  let lo := as.ir ref
  let hi := as.ir (ref + 1)
  signedComp lo.o ∧ inverted as ∧ ρ hi.op1 ≠ ρ hi.op2 ∧
    evalGuard lo.o (ρ hi.op1) (ρ hi.op2) = some true

/-- The words of a split comparison, as one value. -/
abbrev word64 (hi lo : BitVec 32) : BitVec 64 := hi ++ lo

/-- An unsigned split comparison exits exactly if it fails. -/
theorem asmInt64comp_exec_unsigned (hw : CodeWf as) (he : Env as.ir ρ) (ho : isComp (as.ir ref).o)
    (hsig : ¬ signedComp (as.ir ref).o) {g : Bool}
    (hg : evalGuard (as.ir ref).o (word64 (ρ (as.ir (ref + 1)).op1) (ρ (as.ir ref).op1))
      (word64 (ρ (as.ir (ref + 1)).op2) (ρ (as.ir ref).op2)) = some g)
    {pre : List MCode} (hp : Placed as (asmInt64comp as ref) pre)
    (hs : ∀ x ∈ int64Refs as ref, s.regs (as.reg x) = ρ x) :
    (exec (asmInt64comp as ref).mcp (asmInt64comp as ref).mcp
        (segment as (asmInt64comp as ref) pre) s).1 =
      if g then contAddr as (asmInt64comp as ref) pre else as.exitstub := by
  have hE := asmInt64comp_emits hw ref
  rw [if_neg hsig] at hE
  have hu : unsignedOf (as.ir ref).o = (as.ir ref).o := by
    cases h : (as.ir ref).o <;> rw [h] at hsig <;> first | rfl | exact absurd rfl hsig
  have hfront : ∃ f, (∀ (p : ℤ) (ws : List MCode),
      exec p p ([hiWord as ref, loWord as ref ccEq] ++ ws) s =
        exec (p + 2) (p + 2) ws { s with flags := f }) ∧
      condHolds (asmCompmap (as.ir ref).o) f = !g := by
    by_cases heq : ρ (as.ir (ref + 1)).op1 = ρ (as.ir (ref + 1)).op2
    · refine ⟨cmp (ρ (as.ir ref).op1) (ρ (as.ir ref).op2), fun p ws => ?_, ?_⟩
      · have h2 : p + 2 = p + 1 + 1 := by omega
        rw [List.cons_append, exec_hiWord he hs, h2]
        refine exec_loWord he (s := { s with flags := cmp _ _ }) hs ?_ _ _
        rw [condHolds_eq, cmp_z, heq]
        exact beq_self_eq_true _
      · rw [heq, evalGuard_append_self ho, hu] at hg
        exact condHolds_compmap ho hg
    · refine ⟨cmp (ρ (as.ir (ref + 1)).op1) (ρ (as.ir (ref + 1)).op2), fun p ws => ?_, ?_⟩
      · have h2 : p + 2 = p + 1 + 1 := by omega
        rw [List.cons_append, exec_hiWord he hs, h2]
        refine exec_cons_of_not ?_ _ _
        rw [condHolds_eq, cmp_z, beq_iff_eq]
        exact heq
      · rw [evalGuard_append_of_ne ho heq] at hg
        exact condHolds_compmap ho hg
  obtain ⟨f, hrun, hcond⟩ := hfront
  rw [hu] at hE
  rw [hE.exec hw hp (asmCompmap_lt _) hrun, hcond]
  cases g <;> rfl

/-- A signed split comparison exits exactly if it fails, unless it is at the inverted loop branch and
its high words differ in favour of the comparison. -/
theorem asmInt64comp_exec_signed (hw : CodeWf as) (he : Env as.ir ρ) (ho : isComp (as.ir ref).o)
    (hsig : signedComp (as.ir ref).o) {g : Bool}
    (hg : evalGuard (as.ir ref).o (word64 (ρ (as.ir (ref + 1)).op1) (ρ (as.ir ref).op1))
      (word64 (ρ (as.ir (ref + 1)).op2) (ρ (as.ir ref).op2)) = some g)
    {pre : List MCode} (hp : Placed as (asmInt64comp as ref) pre)
    (hs : ∀ x ∈ int64Refs as ref, s.regs (as.reg x) = ρ x) :
    ((exec (asmInt64comp as ref).mcp (asmInt64comp as ref).mcp
        (segment as (asmInt64comp as ref) pre) s).1 =
      if g then contAddr as (asmInt64comp as ref) pre else as.exitstub) ↔ ¬ HiWrong as ρ ref := by
  have hE := asmInt64comp_emits hw ref
  rw [if_pos hsig] at hE
  have hmcp : (asmInt64comp as ref).mcp = as.mcp - 5 := by
    rw [hE.mcp hw, signedFront]
    simp only [List.length_cons, List.length_nil]
    push_cast
    omega
  have hne := hp.ne hw (by omega)
  have hseg := segment_eq hw hE.mc hE.loopinv hE.mctop pre
  have hlast := exec_guardWords hw hp (by omega) (asmCompmap_lt (unsignedOf (as.ir ref).o))
  rw [hseg, hmcp, signedFront]
  set gw := guardWords as (asmCompmap (unsignedOf (as.ir ref).o))
    (BitVec.ofInt 24 (loopStart (asmInt64comp as ref) pre - as.mctop)) with hgw
  set ah := ρ (as.ir (ref + 1)).op1 with hah
  set bh := ρ (as.ir (ref + 1)).op2 with hbh
  obtain ⟨gh, hgh⟩ : ∃ gh, evalGuard (as.ir ref).o ah bh = some gh := by
    exact evalGuard_isSome ho ah bh
  have hhi := condHolds_hiCc hsig hgh
  simp only [List.cons_append, List.nil_append]
  rw [exec_hiWord he hs]
  by_cases heq : ah = bh
  · -- the low words decide
    rw [heq, evalGuard_append_self ho] at hg
    have hbl : ¬ condHolds (hiCc (as.ir ref).o) (cmp ah bh) := by
      rw [hhi, heq]
      simp
    have hbne : ¬ condHolds ccNe (cmp ah bh) := by
      rw [condHolds_ne, cmp_z, heq]
      simp
    rw [exec_cons_of_not (s := { s with flags := cmp ah bh }) hbl,
      exec_cons_of_not (s := { s with flags := cmp ah bh }) hbne,
      exec_loWord he (s := { s with flags := cmp ah bh }) hs rfl]
    have hat : as.mcp - 5 + 1 + 1 + 1 + 1 = as.mcp - 1 := by omega
    rw [hat, hlast, condHolds_compmap (isComp_unsignedOf ho) hg]
    refine iff_of_true (by cases g <;> rfl) ?_
    rintro ⟨_, _, h, _⟩
    exact h heq
  · rw [evalGuard_append_of_ne ho heq, hgh] at hg
    obtain rfl := Option.some.inj hg
    have hpos : 0 < as.mc.length := List.length_pos_iff.2 hw.tail
    have hm : as.mcp = as.mctop - as.mc.length := rfl
    cases gh with
    | false =>
      -- the high words decide against the comparison
      have hbl : condHolds (hiCc (as.ir ref).o) (cmp ah bh) = true := by
        rw [hhi]
        simpa using heq
      obtain ⟨h₁, h₂⟩ := hp.exitRange (as.mcp - 4) (by omega) (by omega)
      have hstep : ((⟨hiCc (as.ir ref).o, .bl (BitVec.ofInt 24 (as.exitstub - as.mcp + 2))⟩ :
          MCode).step (as.mcp - 5 + 1) { s with flags := cmp ah bh }).1 = as.exitstub := by
        rw [MCode.step_bl, if_pos hbl, toInt_offset (by lia) (by lia)]
        lia
      have hout : as.exitstub < as.mcp - 5 + 1 + 1 ∨ as.mcp - 5 + 1 + 1 +
          ((⟨ccNe, .b (BitVec.ofInt 24 1)⟩ :: loWord as ref ccAl :: gw).length : ℤ) ≤
            as.exitstub := by
        have hlen := guardWords_length hw (asmCompmap (unsignedOf (as.ir ref).o))
          (BitVec.ofInt 24 (loopStart (asmInt64comp as ref) pre - as.mctop))
        have hstart : loopStart (asmInt64comp as ref) pre ≤ (asmInt64comp as ref).mcp := by
          rw [loopStart]
          omega
        rw [← hgw] at hlen
        simp only [List.length_cons]
        push_cast
        rcases hp.outside with h | h
        · left
          lia
        · right
          lia
      rw [exec_cons, hstep, exec_leave _ hout]
      refine iff_of_true rfl ?_
      rintro ⟨_, _, _, h⟩
      rw [hgh] at h
      cases h
    | true =>
      -- the high words decide for the comparison
      have hbl : ¬ condHolds (hiCc (as.ir ref).o) (cmp ah bh) := by
        rw [hhi]
        simp
      have hbne : condHolds ccNe (cmp ah bh) = true := by
        rw [condHolds_ne, cmp_z]
        simpa using heq
      have hat : as.mcp - 5 + 1 + 1 + 2 + (BitVec.ofInt 24 1).toInt = as.mcp := by
        rw [toInt_offset (by omega) (by omega)]
        omega
      rw [exec_cons_of_not (s := { s with flags := cmp ah bh }) hbl, exec_cons, MCode.step_b,
        if_pos hbne, hat, exec_skip (by omega)]
      by_cases hinv : inverted as
      · obtain ⟨h₁, h₂⟩ := hp.exitRange as.mcp (by omega) (by
          have hlen := hw.length_of_inverted hinv
          omega)
        rw [hgw, guardWords, if_pos hinv, exec_skip (by omega)]
        have hat' : as.mcp - 5 + 1 + 1 + 1 + 1 + 1 = as.mcp := by lia
        rw [hat', exec_cons, exec_nil, MCode.step_bl, if_pos (by rfl),
          toInt_offset (by omega) (by omega)]
        refine iff_of_false (fun h => hne ?_) (fun h => h ⟨hsig, hinv, heq, hgh⟩)
        rw [if_pos rfl] at h
        lia
      · rw [hgw, guardWords, if_neg hinv, exec_skip (by omega), exec_nil, contAddr, if_neg hinv]
        refine iff_of_true rfl ?_
        rintro ⟨_, h, _⟩
        exact hinv h

end Run

/-! ### Every guard -/

/-- Whether the comparison of a guard holds, on its two 64 bit operands if it is split. -/
def compHolds (as : ASMState) (ρ : ℕ → BitVec 32) (ref : ℕ) : Option Bool :=
  let lo := as.ir ref
  let hi := as.ir (ref + 1)
  if hi.o = .hiop then
    evalGuard lo.o (word64 (ρ hi.op1) (ρ lo.op1)) (word64 (ρ hi.op2) (ρ lo.op2))
  else evalGuard lo.o (ρ lo.op1) (ρ lo.op2)

/-- The code of the guard branches to the exit exactly if the comparison fails, and else it goes on
behind the guard. -/
def ExitsExactly (as : ASMState) (ρ : ℕ → BitVec 32) (ref : ℕ) (pre : List MCode) (s : Cpu) : Prop :=
  let as' := asmGuard as ref
  let pc := (exec as'.mcp as'.mcp (segment as as' pre) s).1
  ∃ g, compHolds as ρ ref = some g ∧ (pc = as.exitstub ↔ g = false) ∧
    (pc ≠ as.exitstub → pc = contAddr as as' pre)

/-- The instruction before the guard is part of its code. -/
def hasPrev (as : ASMState) (ref : ℕ) : Bool := (as.ir (ref + 1)).o ≠ .hiop && withPrev as ref

/-- Before the code runs, the registers hold the values that it needs, but for the result of its own
first instruction, whose register is not needed for another value. -/
structure Loaded (as : ASMState) (ρ : ℕ → BitVec 32) (ref : ℕ) (s : Cpu) : Prop where
  regs : ∀ x ∈ (asmGuard as ref).live, (hasPrev as ref → x ≠ ref - 1) → s.regs (as.reg x) = ρ x
  apart : hasPrev as ref → ∀ x ∈ (asmIntcomp as ref).live, x ≠ ref - 1 →
    as.reg x ≠ as.reg (ref - 1)

/-- The inputs that a guard goes wrong on. -/
def Misjudges (as : ASMState) (ρ : ℕ → BitVec 32) (ref : ℕ) : Prop :=
  if (as.ir (ref + 1)).o = .hiop then HiWrong as ρ ref else SumWraps as ρ ref

theorem exitsExactly_of_exec {ref : ℕ} {pre : List MCode} {s : Cpu} {g : Bool}
    (hg : compHolds as ρ ref = some g)
    (hne : as.exitstub ≠ contAddr as (asmGuard as ref) pre) :
    ExitsExactly as ρ ref pre s ↔
      (exec (asmGuard as ref).mcp (asmGuard as ref).mcp (segment as (asmGuard as ref) pre) s).1 =
        if g then contAddr as (asmGuard as ref) pre else as.exitstub := by
  rw [ExitsExactly]
  generalize (exec (asmGuard as ref).mcp (asmGuard as ref).mcp
    (segment as (asmGuard as ref) pre) s).1 = pc
  constructor
  · rintro ⟨g', hg', hiff, hcont⟩
    obtain rfl := Option.some.inj (hg.symm.trans hg')
    cases g with
    | false => exact hiff.2 rfl
    | true => exact hcont (fun h => by cases hiff.1 h)
  · intro h
    refine ⟨g, hg, ?_, ?_⟩ <;> cases g <;> simp_all [hne.symm]

theorem compHolds_isSome (ρ : ℕ → BitVec 32) {ref : ℕ} (ho : isComp (as.ir ref).o) :
    ∃ g, compHolds as ρ ref = some g := by
  rw [compHolds]
  split
  · exact evalGuard_isSome ho _ _
  · exact evalGuard_isSome ho _ _

/-- The code of a guard lies in front of what was there. -/
theorem asmGuard_mcp_lt (hw : CodeWf as) (he : Env as.ir ρ) {ref : ℕ} (ho : isComp (as.ir ref).o) :
    (asmGuard as ref).mcp < as.mcp := by
  have hint : (asmIntcomp as ref).mcp < as.mcp := by
    rw [asmIntcomp_eq ho]
    split
    · next as' h =>
      split at h
      · obtain ⟨w, cc, hE⟩ := asmTst_emits hw h
        rw [hE.mcp hw, List.length_singleton]
        omega
      · cases h
    · rw [(asmCmp_emits hw _ _ _ _).mcp hw, List.length_singleton]
      omega
  rw [asmGuard]
  split
  · rw [(asmInt64comp_emits hw ref).mcp hw]
    omega
  · split
    · next hprev =>
      obtain ⟨X, _, _, _, h⟩ := asmFlagOp_emits hw he ho hprev
      rcases h with ⟨hE, _⟩ | ⟨_, _, hE⟩ | ⟨_, _, cc, _, hE⟩ <;> rw [hE.mcp hw] <;> omega
    · exact hint

/-- **A guard exits exactly if its comparison fails, unless a sum is tested that wraps around, or the
high words of a signed comparison differ in its favour at the inverted loop branch.** -/
theorem exitsExactly_iff (hw : CodeWf as) (he : Env as.ir ρ) {ref : ℕ} (ho : isComp (as.ir ref).o)
    {pre : List MCode} (hp : Placed as (asmGuard as ref) pre) {s : Cpu} (hs : Loaded as ρ ref s) :
    ExitsExactly as ρ ref pre s ↔ ¬ Misjudges as ρ ref := by
  obtain ⟨g, hg⟩ := compHolds_isSome ρ ho
  rw [exitsExactly_of_exec hg (hp.ne hw (asmGuard_mcp_lt hw he ho))]
  have hregs := hs.regs
  have hapart := hs.apart
  rw [compHolds] at hg
  rw [Misjudges]
  by_cases hhi : (as.ir (ref + 1)).o = .hiop
  · have hG : asmGuard as ref = asmInt64comp as ref := by rw [asmGuard, if_pos hhi]
    have hprev : ¬ hasPrev as ref := by simp [hasPrev, hhi]
    simp only [if_pos hhi] at hg ⊢
    rw [hG] at hp hregs ⊢
    have hload : ∀ x ∈ int64Refs as ref, s.regs (as.reg x) = ρ x := by
      intro x hx
      refine hregs x ?_ (fun h => absurd h hprev)
      rw [asmInt64comp_live]
      exact List.mem_append_left _ hx
    by_cases hsig : signedComp (as.ir ref).o
    · exact asmInt64comp_exec_signed hw he ho hsig hg hp hload
    · exact iff_of_true (asmInt64comp_exec_unsigned hw he ho hsig hg hp hload) (fun h => hsig h.1)
  · simp only [if_neg hhi] at hg ⊢
    by_cases hprev : withPrev as ref
    · have hG : asmGuard as ref = asmFlagOp (asmIntcomp as ref) (ref - 1) := by
        rw [asmGuard, if_neg hhi, if_pos hprev]
      have hp' : hasPrev as ref := by simp [hasPrev, hhi, hprev]
      rw [hG] at hp hregs ⊢
      exact asmFlagOp_exec hw he ho hg hprev hp (fun x hx hne => hregs x hx fun _ => hne)
        (hapart hp')
    · have hG : asmGuard as ref = asmIntcomp as ref := by
        rw [asmGuard, if_neg hhi, if_neg hprev]
      have hp' : ¬ hasPrev as ref := by simp [hasPrev, hprev]
      rw [hG] at hp hregs ⊢
      exact iff_of_true
        (asmIntcomp_exec hw he ho hg hp (fun x hx => hregs x hx fun h => absurd h hp'))
        (fun h => hprev h.1.1)

/-! ### `bit.tobit(x + y) >= 0` -/

/-- `ADD x y` and the guard `GE (x + y) 0`. -/
def sumIr (r : ℕ) : IRIns :=
  if r = refBias + 3 then ⟨.add, { type := .int }, refBias + 1, refBias + 2, 0, 0, 0⟩
  else if r = refBias + 4 then ⟨.ge, { type := .int, isguard := true }, refBias + 3, 1, 0, 0, 0⟩
  else ⟨.nop, { type := .nil }, 0, 0, 0, 0, 0⟩

/-- `x = 0x7fffffff`, `y = 1`, and their sum. -/
def sumVal (r : ℕ) : BitVec 32 :=
  if r = refBias + 1 then 0x7fffffff
  else if r = refBias + 2 then 1
  else if r = refBias + 3 then 0x80000000
  else 0

/-- The state of the assembler at the guard: `x` and the sum share a register. -/
def sumState : ASMState where
  ir := sumIr
  hasreg _ := false
  reg r := if r = refBias + 2 then 1 else 0
  mayfuse _ := false
  used _ := false
  mctop := 1000
  mc := [⟨0, .dp 0 false 0 0 (.ofReg 0)⟩]
  invmcp := none
  flagmcp := none
  loopinv := false
  exitstub := 100

/-- The registers before the addition. -/
def sumCpu : Cpu where
  regs r := if r = 1 then 1 else 0x7fffffff
  flags := ⟨false, false, false, false⟩

theorem sumState_codeWf : CodeWf sumState where
  tail := by decide
  invmcp p h := by cases h
  loopinv h := by cases h
  flagmcp p h := by cases h

theorem sumIr_other {r : ℕ} (h : r ≠ refBias + 3) :
    (sumIr r).o = .ge ∨ (sumIr r).o = .nop := by
  rw [sumIr, if_neg h]
  split
  · exact .inl rfl
  · exact .inr rfl

theorem sumIr_i (r : ℕ) : (sumIr r).i = 0 := by
  rw [sumIr]
  split_ifs <;> rfl

theorem sumIr_flagOp {r : ℕ} (h : isFlagOp (sumIr r).o) : r = refBias + 3 := by
  by_contra hne
  rcases sumIr_other hne with ho | ho <;> rw [ho] at h <;> cases h

theorem sumIr_not_shift (r : ℕ) : ¬ isShift (sumIr r).o := by
  by_cases hr : r = refBias + 3
  · rw [hr]
    decide
  · rcases sumIr_other hr with ho | ho <;> rw [ho] <;> decide

theorem sumState_env : Env sumState.ir sumVal where
  kint r h := by
    have hr : r < refBias := of_decide_eq_true h
    rw [sumVal, if_neg (by omega), if_neg (by omega), if_neg (by omega)]
    exact (sumIr_i r).symm
  op r v _ h := by
    by_cases hr : r = refBias + 3
    · subst hr
      obtain rfl := Option.some.inj h
      rfl
    · change evalOp (sumIr r).o _ _ = _ at h
      rcases sumIr_other hr with ho | ho <;> rw [ho] at h <;> cases h
  shiftk r h := absurd h (sumIr_not_shift r)
  shiftr r h := absurd h (sumIr_not_shift r)
  brol r h := by
    have ho : (sumIr r).o = .brol := h
    exact sumIr_not_shift r (by rw [ho]; rfl)
  bnot r h := by
    have ho : (sumIr r).o = .bnot := h
    have hr : r = refBias + 3 := sumIr_flagOp (by rw [ho]; rfl)
    rw [hr] at ho
    cases ho
  binary r h _ := by
    rw [sumIr_flagOp h]
    decide
  guard r h := by
    rw [sumIr_flagOp h]
    rfl
  ins r h := by
    rw [sumIr_flagOp h]
    decide
  ssa r h := by
    rw [sumIr_flagOp (h.resolve_right (sumIr_not_shift r))]
    decide

theorem sumState_placed : Placed sumState (asmGuard sumState (refBias + 4)) [] where
  exitRange p h₁ h₂ := by
    have hm : (asmGuard sumState (refBias + 4)).mcp = 997 := by decide
    have ht : sumState.mctop = 1000 := rfl
    have he : sumState.exitstub = 100 := rfl
    lia
  loopRange := by decide
  outside := by decide

theorem sumState_loaded : Loaded sumState sumVal (refBias + 4) sumCpu where
  regs x hx h := by
    have hlive : (asmGuard sumState (refBias + 4)).live =
        [refBias + 2, refBias + 1, refBias + 3] := by decide
    have hne := h (by decide)
    rw [hlive] at hx
    simp only [List.mem_cons, List.not_mem_nil, or_false] at hx
    rcases hx with rfl | rfl | rfl
    · rfl
    · rfl
    · exact absurd rfl hne
  apart _ x hx h := by
    have hlive : (asmIntcomp sumState (refBias + 4)).live = [refBias + 3] := by decide
    rw [hlive, List.mem_singleton] at hx
    exact absurd hx h

/-- The sum wraps around to a negative number, and the guard for `>= 0` passes. -/
theorem not_exitsExactly :
    CodeWf sumState ∧ Env sumState.ir sumVal ∧ isComp (sumState.ir (refBias + 4)).o ∧
      Placed sumState (asmGuard sumState (refBias + 4)) [] ∧
      Loaded sumState sumVal (refBias + 4) sumCpu ∧
      ¬ ExitsExactly sumState sumVal (refBias + 4) [] sumCpu := by
  refine ⟨sumState_codeWf, sumState_env, rfl, sumState_placed, sumState_loaded, ?_⟩
  rintro ⟨g, hg, hexit, _⟩
  have hfalse : compHolds sumState sumVal (refBias + 4) = some false := by decide
  obtain rfl := Option.some.inj (hfalse.symm.trans hg)
  have hpc : (exec (asmGuard sumState (refBias + 4)).mcp (asmGuard sumState (refBias + 4)).mcp
      (segment sumState (asmGuard sumState (refBias + 4)) []) sumCpu).1 = 999 := by decide
  rw [hpc] at hexit
  exact absurd (hexit.2 rfl) (by decide)

/-- For this sum the guard is known to go wrong. -/
theorem exitsExactly_iff_sum :
    ExitsExactly sumState sumVal (refBias + 4) [] sumCpu ↔
      ¬ Misjudges sumState sumVal (refBias + 4) :=
  exitsExactly_iff sumState_codeWf sumState_env rfl sumState_placed sumState_loaded

end ArmAsm
