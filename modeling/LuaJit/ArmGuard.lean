/-
**A 32 bit comparison guard exits exactly if its comparison fails.**

On its own a comparison always does, in every form that the assembler gives it.  Behind the
instruction whose result it compares with zero it may be dropped, since that instruction can set the
flags itself.  Bit operations then take a condition that does not read `V`; additions and subtractions
keep the condition, and `V` is that of the exact sum, so the guard goes wrong if the sum wraps around.

Main definitions:

* `ArmAsm.Emits` — what assembling a guard leaves behind;
* `ArmAsm.SetsFlags`, `ArmAsm.Results` — what an instruction before the guard leaves;
* `ArmAsm.SumWraps` — a sum is tested that wraps around.

Main results:

* `ArmAsm.asmIntcomp_exec` — **a comparison on its own exits exactly if it fails**;
* `ArmAsm.asmFlagOp_emits` — the code of a comparison behind an instruction;
* `ArmAsm.asmFlagOp_exec` — **behind an instruction it does so unless a sum is tested that wraps
  around**.
-/

import LuaJit.ArmGuardCode

set_option relaxedAutoImplicit false
set_option autoImplicit false

namespace ArmAsm

open Arm Ir

variable {as : ASMState} {ρ : ℕ → BitVec 32}

/-! ### Single instructions -/

/-- Running a data processing instruction with a fused operand. -/
theorem exec_dp (he : Env as.ir ρ) {opc : BitVec 4} (ho : opc ∈ fuseOpcs) {r : ℕ} {s : Cpu}
    (hr : ∀ x ∈ (asmFuseopm as opc r).refs, s.regs (as.reg x) = ρ x) {cc : BitVec 4}
    (hcc : condHolds cc s.flags) (setFlags : Bool) (rd rn : Reg) :
    ∃ sc, ∀ (p : ℤ) (ws : List MCode),
      exec p p (⟨cc, .dp (opc ^^^ (asmFuseopm as opc r).inv) setFlags rd rn
        (asmFuseopm as opc r).m⟩ :: ws) s =
      exec (p + 1) (p + 1) ws
        { regs := if isTest opc then s.regs
            else Function.update s.regs rd (dataProc opc (s.regs rn) (ρ r) sc s.flags).1
          flags := if setFlags || isTest opc then (dataProc opc (s.regs rn) (ρ r) sc s.flags).2
            else s.flags } := by
  obtain ⟨sc, h⟩ := dataProc_asmFuseopm he rfl ho hr s.flags.c (s.regs rn)
    ((asmFuseopm as opc r).m.eval s.regs s.flags.c).2 s.flags
  refine ⟨sc, fun p ws => ?_⟩
  rw [exec_cons, MCode.step, if_pos hcc]
  simp only [isTest_asmFuseopm he rfl ho hr, h]

/-- Running a comparison. -/
theorem exec_cmp (he : Env as.ir ρ) {l r : ℕ} {s : Cpu} (hl : s.regs (as.reg l) = ρ l)
    (hr : ∀ x ∈ (asmFuseopm as armiCmp r).refs, s.regs (as.reg x) = ρ x) {cc : BitVec 4}
    (hcc : condHolds cc s.flags) (p : ℤ) (ws : List MCode) :
    exec p p (⟨cc, .dp (armiCmp ^^^ (asmFuseopm as armiCmp r).inv) true 0 (as.reg l)
      (asmFuseopm as armiCmp r).m⟩ :: ws) s =
      exec (p + 1) (p + 1) ws { s with flags := cmp (ρ l) (ρ r) } := by
  obtain ⟨sc, h⟩ := exec_dp he (by decide) hr hcc true 0 (as.reg l)
  rw [h, hl]
  rfl

/-! ### The comparison that is assembled -/

/-- The comparison after the operands were swapped. -/
def guardOp (as : ASMState) (ir : IRIns) : IROp :=
  if asmSwapops as ir.op1 ir.op2 then flipComp ir.o else ir.o

theorem isComp_guardOp {ir : IRIns} (ho : isComp ir.o) : isComp (guardOp as ir) := by
  rw [guardOp]
  split
  · exact isComp_flipComp ho
  · exact ho

theorem guardOp_cc {ir : IRIns} (ho : isComp ir.o) :
    (if asmSwapops as ir.op1 ir.op2 then swapCc (asmCompmap ir.o) else asmCompmap ir.o) =
      asmCompmap (guardOp as ir) := by
  rw [guardOp]
  split
  · exact swapCc_compmap ho
  · rfl

theorem evalGuard_guardOp (as : ASMState) (ρ : ℕ → BitVec 32) {ir : IRIns} (ho : isComp ir.o) :
    evalGuard (guardOp as ir) (ρ (leftRef as ir)) (ρ (rightRef as ir)) =
      evalGuard ir.o (ρ ir.op1) (ρ ir.op2) := by
  rw [guardOp, leftRef, rightRef]
  split
  · exact evalGuard_flipComp ho _ _
  · rfl

/-- What assembling a guard leaves behind: `front`, then the exit branch on `cc`. -/
structure Emits (as as' : ASMState) (front : List MCode) (cc : BitVec 4) : Prop where
  mc : as'.mc = front ++ (guardWords as cc 0 ++ codeBehind as)
  loopinv : as'.loopinv = (as.loopinv || inverted as)
  mctop : as'.mctop = as.mctop

theorem guardWords_length (hw : CodeWf as) (cc : BitVec 4) (off : BitVec 24) :
    (guardWords as cc off).length + (codeBehind as).length = as.mc.length + 1 := by
  rw [guardWords, codeBehind]
  split
  · next h =>
    rw [hw.length_of_inverted h]
    rfl
  · simp [Nat.add_comm]

/-- Where `front` begins. -/
theorem Emits.mcp {as' : ASMState} {front : List MCode} {cc : BitVec 4} (hw : CodeWf as)
    (h : Emits as as' front cc) : as'.mcp = as.mcp - 1 - front.length := by
  have hlen := guardWords_length hw cc 0
  rw [ASMState.mcp, ASMState.mcp, h.mctop, h.mc, List.length_append, List.length_append, hlen]
  push_cast
  lia

/-- A guard whose `front` runs through decides on the flags that it leaves. -/
theorem Emits.exec {as' : ASMState} {front : List MCode} {cc : BitVec 4} (hw : CodeWf as)
    (h : Emits as as' front cc) {pre : List MCode} (hp : Placed as as' pre) (hcc : cc.toNat < 14)
    {s s' : Cpu}
    (hfront : ∀ (p : ℤ) (ws : List MCode),
      Arm.exec p p (front ++ ws) s = Arm.exec (p + front.length) (p + front.length) ws s') :
    (Arm.exec as'.mcp as'.mcp (segment as as' pre) s).1 =
      if condHolds cc s'.flags then as.exitstub else contAddr as as' pre := by
  have hmcp := h.mcp hw
  have hat : as'.mcp + front.length = as.mcp - 1 := by lia
  rw [segment_eq hw h.mc h.loopinv h.mctop, hfront, hat]
  exact exec_guardWords hw hp (by omega) hcc s'

theorem raAlloc_raAlloc (as : ASMState) (a b : List ℕ) :
    raAlloc (raAlloc as a) b = raAlloc as (b ++ a) := by
  simp only [raAlloc, List.append_assoc]

theorem asmGuardcc_raAlloc (as : ASMState) (refs : List ℕ) (cc : BitVec 4) :
    asmGuardcc (raAlloc as refs) cc = raAlloc (asmGuardcc as cc) refs := by
  by_cases h : as.invmcp = some as.mcp
  · have h' : (raAlloc as refs).invmcp = some (raAlloc as refs).mcp := h
    simp only [asmGuardcc, if_pos h, if_pos h']
    rfl
  · have h' : ¬ (raAlloc as refs).invmcp = some (raAlloc as refs).mcp := h
    simp only [asmGuardcc, if_neg h, if_neg h']
    rfl

theorem asmGuardcc_mctop (as : ASMState) (cc : BitVec 4) : (asmGuardcc as cc).mctop = as.mctop := by
  rw [asmGuardcc]
  split <;> rfl

theorem asmGuardcc_live (as : ASMState) (cc : BitVec 4) : (asmGuardcc as cc).live = as.live := by
  rw [asmGuardcc]
  split <;> rfl

/-- One word in front of an exit branch. -/
theorem emits_guard (hw : CodeWf as) (refs : List ℕ) (cc : BitVec 4) (w : MCode) :
    Emits as (emit (asmGuardcc (raAlloc as refs) cc) w) [w] cc := by
  rw [asmGuardcc_raAlloc]
  exact ⟨congrArg (w :: ·) (asmGuardcc_mc hw cc), asmGuardcc_loopinv as cc, asmGuardcc_mctop as cc⟩

/-! ### A comparison on its own -/

/-- The word of a comparison. -/
def cmpWord (as : ASMState) (lref rref : ℕ) : MCode :=
  let f := asmFuseopm (raAlloc as [lref]) armiCmp rref
  ⟨ccAl, .dp (armiCmp ^^^ f.inv) true 0 (as.reg lref) f.m⟩

theorem asmCmp_emits (hw : CodeWf as) (lref rref : ℕ) (cc : BitVec 4) (cmpprev0 : Bool) :
    Emits as (asmCmp as lref rref cc cmpprev0) [cmpWord as lref rref] cc := by
  have h := emits_guard hw ((asmFuseopm (raAlloc as [lref]) armiCmp rref).refs ++ [lref]) cc
    (cmpWord as lref rref)
  rw [← raAlloc_raAlloc] at h
  rw [asmCmp]
  split
  · exact ⟨h.mc, h.loopinv, h.mctop⟩
  · exact h

theorem asmCmp_live (lref rref : ℕ) (cc : BitVec 4) (cmpprev0 : Bool) :
    (asmCmp as lref rref cc cmpprev0).live =
      (asmFuseopm (raAlloc as [lref]) armiCmp rref).refs ++ lref :: as.live := by
  rw [asmCmp]
  split <;> exact asmGuardcc_live _ _

/-- Running the word of a comparison whose operands are loaded. -/
theorem exec_cmpWord (he : Env as.ir ρ) {lref rref : ℕ} {cc : BitVec 4} {cmpprev0 : Bool} {s : Cpu}
    (hs : ∀ x ∈ (asmCmp as lref rref cc cmpprev0).live, s.regs (as.reg x) = ρ x) (p : ℤ)
    (ws : List MCode) :
    exec p p (cmpWord as lref rref :: ws) s =
      exec (p + 1) (p + 1) ws { s with flags := cmp (ρ lref) (ρ rref) } := by
  rw [asmCmp_live] at hs
  have hl : s.regs (as.reg lref) = ρ lref := hs lref (by simp)
  have hX : Env (raAlloc as [lref]).ir ρ := he
  refine exec_cmp hX hl (fun x hx => hs x ?_) rfl p ws
  exact List.mem_append_left _ hx

/-- The left operand is compared with zero and comes from the instruction before the guard. -/
def cmpPrev0 (as : ASMState) (ref : ℕ) : Bool :=
  irrefIsk (rightRef as (as.ir ref)) && (as.ir (rightRef as (as.ir ref))).i == 0 &&
    leftRef as (as.ir ref) + 1 == ref

theorem asmIntcomp_eq {ref : ℕ} (ho : isComp (as.ir ref).o) :
    asmIntcomp as ref =
      match if cmpPrev0 as ref then
        asmTst as (leftRef as (as.ir ref)) (asmCompmap (guardOp as (as.ir ref))) else none with
      | some as' => as'
      | none => asmCmp as (leftRef as (as.ir ref)) (rightRef as (as.ir ref))
          (asmCompmap (guardOp as (as.ir ref))) (cmpPrev0 as ref) := by
  rw [asmIntcomp, ← guardOp_cc ho]
  rfl

theorem cmpPrev0_spec (he : Env as.ir ρ) {ref : ℕ} (h : cmpPrev0 as ref) :
    ρ (rightRef as (as.ir ref)) = 0 ∧ leftRef as (as.ir ref) + 1 = ref := by
  simp only [cmpPrev0, Bool.and_eq_true, beq_iff_eq] at h
  obtain ⟨⟨hk, hi⟩, hl⟩ := h
  rw [he.kint _ hk]
  exact ⟨hi, hl⟩

/-- The value of a merged `BAND` is that of its two operands. -/
theorem band_eq (he : Env as.ir ρ) {ref : ℕ} (ho : (as.ir ref).o = .band) :
    ρ ref = ρ (leftRef as (as.ir ref)) &&& ρ (rightRef as (as.ir ref)) := by
  have hk : ¬ irrefIsk ref := he.ins ref (by rw [ho]; rfl)
  have hv := he.op ref (ρ (as.ir ref).op1 &&& ρ (as.ir ref).op2) hk (by rw [ho]; rfl)
  rw [hv, leftRef, rightRef]
  split
  · exact BitVec.and_comm _ _
  · rfl

/-- The operand of a `tst` is never inverted, and has the value of its reference. -/
theorem tstOperand_spec (he : Env as.ir ρ) {r : ℕ}
    (hinv : ¬ (tstConst as r).any (·.inv ≠ 0)) {regs : Reg → BitVec 32}
    (hr : ∀ x ∈ (tstOperand as r).refs, regs (as.reg x) = ρ x) (c : Bool) :
    (tstOperand as r).inv = 0 ∧ ((tstOperand as r).m.eval regs c).1 = ρ r := by
  rw [tstOperand] at hr ⊢
  cases h : tstConst as r with
  | some f =>
    rw [h] at hinv
    have hi : f.inv = 0 := by simpa using hinv
    rw [tstConst] at h
    split at h
    · next hk =>
      refine ⟨hi, ?_⟩
      rcases emitIsk12_spec h regs c with ⟨_, hv⟩ | ⟨hi', hne, _⟩
      · rw [he.kint r hk]
        exact hv
      · exact absurd (hi'.symm.trans hi) hne
    · cases h
  | none =>
    rw [h] at hr
    rcases asmFuseopm_spec he rfl hr c with hf | ⟨hk, hf⟩
    · exact hf
    · rw [tstConst, if_pos hk, ← he.kint r hk, hf] at h
      cases h

/-- A merged `BAND` is one word in front of the exit branch. -/
theorem asmTst_emits (hw : CodeWf as) {lref : ℕ} {cc : BitVec 4} {as' : ASMState}
    (h : asmTst as lref cc = some as') : ∃ w cc', Emits as as' [w] cc' := by
  rw [asmTst] at h
  dsimp only at h
  split at h
  · obtain ⟨cc', _, rfl⟩ := Option.map_eq_some_iff.1 h
    rw [raAlloc_raAlloc]
    exact ⟨_, cc', emits_guard hw _ cc' _⟩
  · cases h

/-- Merging a `BAND` into the comparison gives the same decision. -/
theorem asmTst_exec (hw : CodeWf as) (he : Env as.ir ρ) {lref : ℕ} {o : IROp} (ho : isComp o)
    {g : Bool} (hg : evalGuard o (ρ lref) 0 = some g) {as' : ASMState}
    (h : asmTst as lref (asmCompmap o) = some as') {pre : List MCode} (hp : Placed as as' pre)
    {s : Cpu} (hs : ∀ x ∈ as'.live, s.regs (as.reg x) = ρ x) :
    (exec as'.mcp as'.mcp (segment as as' pre) s).1 =
      if g then contAddr as as' pre else as.exitstub := by
  rw [asmTst] at h
  dsimp only at h
  split at h
  · next hb =>
    obtain ⟨hband, _, hinv⟩ := hb
    obtain ⟨cc, hcc, rfl⟩ := Option.map_eq_some_iff.1 h
    set l := leftRef as (as.ir lref) with hl
    set r := rightRef as (as.ir lref) with hr
    have hX : Env (raAlloc as [l]).ir ρ := he
    have hlive : ∀ x ∈ (tstOperand (raAlloc as [l]) r).refs ++ l :: as.live,
        s.regs (as.reg x) = ρ x := by
      intro x hx
      refine hs x ?_
      change x ∈ (asmGuardcc (raAlloc (raAlloc as [l]) (tstOperand (raAlloc as [l]) r).refs) cc).live
      rw [asmGuardcc_live]
      exact hx
    obtain ⟨hi, hv⟩ := tstOperand_spec hX hinv
      (fun x hx => hlive x (List.mem_append_left _ hx)) s.flags.c
    have hE := emits_guard hw ((tstOperand (raAlloc as [l]) r).refs ++ [l]) cc
      ⟨ccAl, .dp (armiTst ^^^ (tstOperand (raAlloc as [l]) r).inv) true 0 (as.reg l)
        (tstOperand (raAlloc as [l]) r).m⟩
    rw [← raAlloc_raAlloc] at hE
    have htst : armiTst ^^^ (tstOperand (raAlloc as [l]) r).inv = armiTst := by
      rw [hi]
      rfl
    rw [htst] at hE
    rw [htst] at hp ⊢
    have hfront : ∀ (p : ℤ) (ws : List MCode),
        exec p p ([⟨ccAl, .dp armiTst true 0 (as.reg l) (tstOperand (raAlloc as [l]) r).m⟩] ++ ws) s =
          exec (p + 1) (p + 1) ws
            { s with flags := (logic (ρ l &&& ρ r)
                ((tstOperand (raAlloc as [l]) r).m.eval s.regs s.flags.c).2 s.flags).2 } := by
      intro p ws
      have hal : condHolds ccAl s.flags = true := rfl
      rw [List.singleton_append, exec_cons, MCode.step, if_pos hal, ← hv, ← hlive l (by simp)]
      rfl
    rw [hE.exec hw hp (tstCc_lt hcc) hfront, condHolds_tstCc ho hcc (v := ρ lref) hg]
    · cases g <;> rfl
    · rw [band_eq he hband]
      rfl
    · rw [band_eq he hband]
      rfl
  · cases h

/-- **A comparison on its own exits exactly if it fails**: also with its operands swapped, with `cmn`
for `cmp`, with a merged `BAND`, and at the inverted loop branch. -/
theorem asmIntcomp_exec (hw : CodeWf as) (he : Env as.ir ρ) {ref : ℕ} (ho : isComp (as.ir ref).o)
    {g : Bool} (hg : evalGuard (as.ir ref).o (ρ (as.ir ref).op1) (ρ (as.ir ref).op2) = some g)
    {pre : List MCode} (hp : Placed as (asmIntcomp as ref) pre) {s : Cpu}
    (hs : ∀ x ∈ (asmIntcomp as ref).live, s.regs (as.reg x) = ρ x) :
    (exec (asmIntcomp as ref).mcp (asmIntcomp as ref).mcp (segment as (asmIntcomp as ref) pre) s).1 =
      if g then contAddr as (asmIntcomp as ref) pre else as.exitstub := by
  have hgo : isComp (guardOp as (as.ir ref)) := isComp_guardOp ho
  have hgg := evalGuard_guardOp as ρ ho
  rw [hg] at hgg
  rw [asmIntcomp_eq ho] at hp hs ⊢
  split at hp
  · next as' h =>
    simp only [h] at hs ⊢
    split at h
    · next hz =>
      rw [(cmpPrev0_spec he hz).1] at hgg
      exact asmTst_exec hw he hgo hgg h hp hs
    · cases h
  · next h =>
    simp only [h] at hs ⊢
    have hE := asmCmp_emits hw (leftRef as (as.ir ref)) (rightRef as (as.ir ref))
      (asmCompmap (guardOp as (as.ir ref))) (cmpPrev0 as ref)
    rw [hE.exec hw hp (asmCompmap_lt _) (exec_cmpWord he hs), condHolds_compmap hgo hgg]
    cases g <;> rfl

/-! ### The instruction before the guard -/

/-- The opcode of an arithmetic instruction after its operands were swapped. -/
def intOpc (as : ASMState) (ir : IRIns) (opc : BitVec 4) : BitVec 4 :=
  if asmSwapops as ir.op1 ir.op2 ∧ (opc = armiSub ∨ opc = armiSbc) then opc ^^^ (armiSub ^^^ armiRsb)
  else opc

/-- The right operand of an arithmetic instruction. -/
def intOperand (as : ASMState) (ref : ℕ) (opc : BitVec 4) : Fused :=
  asmFuseopm (raAlloc as [leftRef as (as.ir ref)]) (intOpc as (as.ir ref) opc)
    (rightRef as (as.ir ref))

/-- The word of an arithmetic instruction. -/
def intWord (as : ASMState) (ref : ℕ) (opc : BitVec 4) (s : Bool) : MCode :=
  ⟨ccAl, .dp (intOpc as (as.ir ref) opc ^^^ (intOperand as ref opc).inv) s (as.reg ref)
    (as.reg (leftRef as (as.ir ref))) (intOperand as ref opc).m⟩

theorem asmIntop_eq {ref : ℕ} (hg : (as.ir ref).t.isguard = false) (opc : BitVec 4) (s : Bool) :
    asmIntop as ref opc s =
      emit (raAlloc as ((intOperand as ref opc).refs ++ [leftRef as (as.ir ref)]))
        (intWord as ref opc s) := by
  rw [asmIntop, ← raAlloc_raAlloc]
  simp only [hg, Bool.false_eq_true, if_false, Bool.or_false]
  rfl

/-- The flags that an instruction leaves when it sets them: those of the adder, or the sign and the
zero flag of a logical result. -/
def SetsFlags (o : IROp) (a b v : BitVec 32) (f : Flags) : Prop :=
  match o with
  | .add => f = (addWithCarry a b false).2
  | .sub => f = (addWithCarry a (~~~b) true).2
  | _ => f.n = v.msb ∧ f.z = (v == 0)

/-- The opcode of an arithmetic instruction with two operands. -/
def intopOpc : IROp → BitVec 4
  | .add => armiAdd
  | .sub => armiSub
  | .band => armiAnd
  | .bor => armiOrr
  | _ => armiEor

/-- The arithmetic instructions with two operands. -/
def isIntop : IROp → Bool
  | .add | .sub | .band | .bor | .bxor => true
  | _ => false

theorem isIntop_cases {o : IROp} (h : isIntop o) :
    o = .add ∨ o = .sub ∨ o = .band ∨ o = .bor ∨ o = .bxor := by
  cases o <;> first | cases h; done | simp

theorem isFlagOp_of_isIntop {o : IROp} (h : isIntop o) : isFlagOp o := by
  rcases isIntop_cases h with rfl | rfl | rfl | rfl | rfl <;> rfl

theorem isFlagOp_cases {o : IROp} (h : isFlagOp o) :
    o = .add ∨ o = .sub ∨ o = .band ∨ o = .bor ∨ o = .bxor ∨ o = .bnot := by
  cases o <;> first | cases h; done | simp

/-- Swapping the operands, and with it a subtraction for a reversed one, changes nothing. -/
theorem dataProc_intOpc {ir : IRIns} (ho : isIntop ir.o) (sc : Bool) (fl : Flags) :
    dataProc (intOpc as ir (intopOpc ir.o)) (ρ (leftRef as ir)) (ρ (rightRef as ir)) sc fl =
      dataProc (intopOpc ir.o) (ρ ir.op1) (ρ ir.op2) sc fl := by
  rw [intOpc, leftRef, rightRef]
  by_cases hsw : asmSwapops as ir.op1 ir.op2
  · rw [if_pos hsw, if_pos hsw]
    rcases isIntop_cases ho with h | h | h | h | h <;> rw [h]
    · rw [if_neg (fun h => absurd h.2 (by decide))]
      exact addWithCarry_comm _ _ _
    · rw [if_pos ⟨hsw, .inl rfl⟩]
      rfl
    · rw [if_neg (fun h => absurd h.2 (by decide))]
      exact congrArg (logic · sc fl) (BitVec.and_comm _ _)
    · rw [if_neg (fun h => absurd h.2 (by decide))]
      exact congrArg (logic · sc fl) (BitVec.or_comm _ _)
    · rw [if_neg (fun h => absurd h.2 (by decide))]
      exact congrArg (logic · sc fl) (BitVec.xor_comm _ _)
  · rw [if_neg hsw, if_neg hsw, if_neg (fun h => hsw h.1)]

theorem intOpc_mem (as : ASMState) {ir : IRIns} (ho : isIntop ir.o) :
    intOpc as ir (intopOpc ir.o) ∈ fuseOpcs ∧ isTest (intOpc as ir (intopOpc ir.o)) = false := by
  rw [intOpc]
  rcases isIntop_cases ho with h | h | h | h | h <;> rw [h] <;> split
  all_goals first | decide | next h' => exact absurd h'.2 (by decide)

/-- The value and the flags of an arithmetic instruction. -/
theorem dataProc_intopOpc (he : Env as.ir ρ) {ref : ℕ} (ho : isIntop (as.ir ref).o) (sc : Bool)
    (fl : Flags) :
    (dataProc (intopOpc (as.ir ref).o) (ρ (as.ir ref).op1) (ρ (as.ir ref).op2) sc fl).1 = ρ ref ∧
      SetsFlags (as.ir ref).o (ρ (as.ir ref).op1) (ρ (as.ir ref).op2) (ρ ref)
        (dataProc (intopOpc (as.ir ref).o) (ρ (as.ir ref).op1) (ρ (as.ir ref).op2) sc fl).2 := by
  have hv := fun v => he.op ref v (he.ins ref (isFlagOp_of_isIntop ho))
  rcases isIntop_cases ho with h | h | h | h | h <;> rw [h] at hv ⊢ <;> rw [hv _ rfl]
  · exact ⟨by simp [intopOpc, dataProc, armiAdd, addWithCarry], rfl⟩
  · exact ⟨addWithCarry_not _ _, rfl⟩
  · exact ⟨rfl, rfl, rfl⟩
  · exact ⟨rfl, rfl, rfl⟩
  · exact ⟨rfl, rfl, rfl⟩

/-- What is fused into an operand is the reference or comes before it. -/
theorem asmFuseopm_refs (he : Env as.ir ρ) {X : ASMState} (hX : X.ir = as.ir) {opc : BitVec 4}
    {r x : ℕ} (hx : x ∈ (asmFuseopm X opc r).refs) : x ≤ r := by
  rw [asmFuseopm, hX] at hx
  split_ifs at hx with h₁ h₂ h₃ h₄ h₅ h₆
  · simp only [Fused.ofRef, List.mem_singleton] at hx
    omega
  · cases hk : emitIsk12 opc (as.ir r).i with
    | none =>
      simp only [hk, Option.getD_none, Fused.ofRef, List.mem_singleton] at hx
      omega
    | some f =>
      simp only [hk, Option.getD_some, emitIsk12_refs hk, List.not_mem_nil] at hx
  · have hs := he.ssa r (.inr h₄)
    simp only [List.mem_singleton] at hx
    omega
  · have hs := he.ssa r (.inr h₄)
    simp only [List.mem_cons, List.not_mem_nil, or_false] at hx
    lia
  · have hs := he.ssa r (.inl (by rw [h₆.1]; rfl))
    simp only [List.mem_singleton] at hx
    omega
  · simp only [Fused.ofRef, List.mem_singleton] at hx
    omega
  · simp only [Fused.ofRef, List.mem_singleton] at hx
    omega

theorem tstOperand_refs (he : Env as.ir ρ) {X : ASMState} (hX : X.ir = as.ir) {r x : ℕ}
    (hx : x ∈ (tstOperand X r).refs) : x ≤ r := by
  rw [tstOperand] at hx
  cases h : tstConst X r with
  | none =>
    rw [h] at hx
    exact asmFuseopm_refs he hX hx
  | some f =>
    rw [h] at hx
    rw [tstConst] at h
    split at h
    · rw [Option.getD_some, emitIsk12_refs h] at hx
      cases hx
    · cases h

theorem leftRef_lt (he : Env as.ir ρ) {ref : ℕ} (ho : isFlagOp (as.ir ref).o) :
    leftRef as (as.ir ref) < ref := by
  have hssa := he.ssa ref (.inl ho)
  rw [leftRef]
  split <;> omega

theorem rightRef_lt (he : Env as.ir ρ) {ref : ℕ} (ho : isFlagOp (as.ir ref).o) :
    rightRef as (as.ir ref) < ref := by
  have hssa := he.ssa ref (.inl ho)
  rw [rightRef]
  split <;> omega

/-- What an instruction with operands before it leaves: its result, and its flags if it sets them. -/
def Results (as : ASMState) (ρ : ℕ → BitVec 32) (ref : ℕ) (setFlags : Bool) (s s' : Cpu) : Prop :=
  s'.regs = Function.update s.regs (as.reg ref) (ρ ref) ∧
    if setFlags then
      SetsFlags (as.ir ref).o (ρ (as.ir ref).op1) (ρ (as.ir ref).op2) (ρ ref) s'.flags
    else s'.flags = s.flags

/-- The word of an instruction that may set the flags. -/
def flagWord (as : ASMState) (ref : ℕ) (s : Bool) : MCode :=
  if (as.ir ref).o = .bnot then
    let f := asmFuseopm as armiMvn (as.ir ref).op1
    ⟨ccAl, .dp (armiMvn ^^^ f.inv) s (as.reg ref) 0 f.m⟩
  else intWord as ref (intopOpc (as.ir ref).o) s

/-- The references that it needs in registers. -/
def flagRefs (as : ASMState) (ref : ℕ) : List ℕ :=
  if (as.ir ref).o = .bnot then (asmFuseopm as armiMvn (as.ir ref).op1).refs
  else (intOperand as ref (intopOpc (as.ir ref).o)).refs ++ [leftRef as (as.ir ref)]

/-- They come before it. -/
theorem flagRefs_lt (he : Env as.ir ρ) {ref : ℕ} (ho : isFlagOp (as.ir ref).o) {x : ℕ}
    (hx : x ∈ flagRefs as ref) : x < ref := by
  have hssa := he.ssa ref (.inl ho)
  rw [flagRefs] at hx
  split at hx
  · have hle := asmFuseopm_refs he rfl hx
    omega
  · have hleft := leftRef_lt he ho
    have hright := rightRef_lt he ho
    rcases List.mem_append.1 hx with hx | hx
    · have hle := asmFuseopm_refs he (X := raAlloc as [leftRef as (as.ir ref)]) rfl hx
      omega
    · rw [List.mem_singleton] at hx
      omega

/-- Running an instruction whose operands are loaded. -/
theorem exec_flagWord (he : Env as.ir ρ) {ref : ℕ} (ho : isFlagOp (as.ir ref).o)
    (setFlags : Bool) {s : Cpu} (hs : ∀ x ∈ flagRefs as ref, s.regs (as.reg x) = ρ x) :
    ∃ s', Results as ρ ref setFlags s s' ∧ ∀ (p : ℤ) (ws : List MCode),
      exec p p (flagWord as ref setFlags :: ws) s = exec (p + 1) (p + 1) ws s' := by
  have hal : condHolds ccAl s.flags := rfl
  rw [flagRefs] at hs
  by_cases hb : (as.ir ref).o = .bnot
  · rw [if_pos hb] at hs
    obtain ⟨sc, h⟩ := exec_dp he (by decide) hs hal setFlags (as.reg ref) 0
    have hv := he.op ref (~~~ρ (as.ir ref).op1) (he.ins ref ho) (by rw [hb]; rfl)
    rw [flagWord, if_pos hb]
    refine ⟨_, ?_, h⟩
    rw [Results, hb, hv]
    cases setFlags with
    | false => exact ⟨rfl, rfl⟩
    | true => exact ⟨rfl, rfl, rfl⟩
  · have hi : isIntop (as.ir ref).o := by
      rcases isFlagOp_cases ho with h | h | h | h | h | h
      case inr.inr.inr.inr.inr => exact absurd h hb
      all_goals
        rw [h]
        rfl
    rw [if_neg hb] at hs
    have hl : s.regs (as.reg (leftRef as (as.ir ref))) = ρ (leftRef as (as.ir ref)) :=
      hs _ (List.mem_append_right _ (List.mem_singleton_self _))
    have hr : ∀ x ∈ (intOperand as ref (intopOpc (as.ir ref).o)).refs, s.regs (as.reg x) = ρ x :=
      fun x hx => hs x (List.mem_append_left _ hx)
    have hX : Env (raAlloc as [leftRef as (as.ir ref)]).ir ρ := he
    obtain ⟨hmem, htest⟩ := intOpc_mem as hi
    obtain ⟨sc, h⟩ :=
      exec_dp hX hmem hr hal setFlags (as.reg ref) (as.reg (leftRef as (as.ir ref)))
    rw [htest, hl, dataProc_intOpc hi] at h
    obtain ⟨hval, hf⟩ := dataProc_intopOpc he hi sc s.flags
    rw [flagWord, if_neg hb]
    refine ⟨_, ?_, h⟩
    cases setFlags with
    | false => exact ⟨congrArg (Function.update s.regs (as.reg ref)) hval, rfl⟩
    | true => exact ⟨congrArg (Function.update s.regs (as.reg ref)) hval, hf⟩

/-- The part of `asm_intop_s` that drops a comparison with zero: the state, and whether to set the
flags. -/
def dropCmpS (as : ASMState) : ASMState × Bool :=
  if as.flagmcp = some as.mcp then ({ as with flagmcp := none, mc := as.mc.tail }, true)
  else (as, false)

/-- What becomes of the comparison behind an instruction: additions and subtractions drop it, bit
operations may. -/
def dropFor (o : IROp) (as : ASMState) : ASMState × Bool :=
  if o = .add ∨ o = .sub then dropCmpS as else dropCmp as

theorem dropFor_fields (o : IROp) (as : ASMState) :
    (dropFor o as).1.ir = as.ir ∧ (dropFor o as).1.reg = as.reg ∧ (dropFor o as).1.live = as.live ∧
      (dropFor o as).1.mctop = as.mctop ∧ (dropFor o as).1.loopinv = as.loopinv := by
  rw [dropFor, dropCmpS, dropCmp]
  dsimp only
  split_ifs <;> exact ⟨rfl, rfl, rfl, rfl, rfl⟩

theorem asmFlagOp_eq (he : Env as.ir ρ) {ref : ℕ} (ho : isFlagOp (as.ir ref).o) :
    asmFlagOp as ref =
      emit (raAlloc (dropFor (as.ir ref).o as).1 (flagRefs (dropFor (as.ir ref).o as).1 ref))
        (flagWord (dropFor (as.ir ref).o as).1 ref (dropFor (as.ir ref).o as).2) := by
  have hg := he.guard ref ho
  obtain ⟨hir, hreg, _⟩ := dropFor_fields (as.ir ref).o as
  have hint : isIntop (as.ir ref).o → ∀ X : ASMState, X.ir = as.ir → ∀ s,
      asmIntop X ref (intopOpc (as.ir ref).o) s =
        emit (raAlloc X (flagRefs X ref)) (flagWord X ref s) := by
    intro hi X hX s
    have hb : (X.ir ref).o ≠ .bnot := by
      rw [hX]
      rcases isIntop_cases hi with h | h | h | h | h <;> rw [h] <;> decide
    rw [asmIntop_eq (by rw [hX]; exact hg), flagRefs, flagWord, if_neg hb, if_neg hb, hX]
  rcases isFlagOp_cases ho with h | h | h | h | h | h
  · have hi : isIntop (as.ir ref).o := by rw [h]; rfl
    rw [← hint hi _ hir, h, asmFlagOp, h]
    simp only [dropFor, dropCmpS, asmIntopS]
    split <;> rfl
  · have hi : isIntop (as.ir ref).o := by rw [h]; rfl
    rw [← hint hi _ hir, h, asmFlagOp, h]
    simp only [dropFor, dropCmpS, asmIntopS]
    split <;> rfl
  · have hi : isIntop (as.ir ref).o := by rw [h]; rfl
    have h2 := he.binary ref ho (by rw [h]; decide)
    rw [← hint hi _ hir, h, asmFlagOp, h]
    simp only [asmBitop, if_neg h2]
    rfl
  · have hi : isIntop (as.ir ref).o := by rw [h]; rfl
    have h2 := he.binary ref ho (by rw [h]; decide)
    rw [← hint hi _ hir, h, asmFlagOp, h]
    simp only [asmBitop, if_neg h2]
    rfl
  · have hi : isIntop (as.ir ref).o := by rw [h]; rfl
    have h2 := he.binary ref ho (by rw [h]; decide)
    rw [← hint hi _ hir, h, asmFlagOp, h]
    simp only [asmBitop, if_neg h2]
    rfl
  · have h2 := he.bnot ref h
    have hb : ((dropFor (as.ir ref).o as).1.ir ref).o = .bnot := by rw [hir]; exact h
    rw [flagRefs, flagWord, if_pos hb, if_pos hb, hir, hreg, h, asmFlagOp, h]
    simp only [asmBitop, if_pos h2]
    rfl

/-! ### Dropping the comparison -/

/-- Only the condition of the first word depends on that of the exit branch. -/
theorem guardWords_head (as : ASMState) : ∃ op rest, ∀ cc,
    guardWords as cc 0 ++ codeBehind as = ⟨if inverted as then cc ^^^ 1 else cc, op⟩ :: rest := by
  cases h : inverted as with
  | true => exact ⟨_, _, fun cc => by rw [guardWords, h]; rfl⟩
  | false => exact ⟨_, _, fun cc => by rw [guardWords, h]; rfl⟩

/-- The comparison may be dropped. -/
def mayDrop (cmpprev0 : Bool) (cc : BitVec 4) : Prop := cmpprev0 ∧ (cc ≤ ccNe ∨ ccGe ≤ cc)

theorem asmCmp_flagmcp (hw : CodeWf as) (lref rref : ℕ) (cc : BitVec 4) (cmpprev0 : Bool) :
    (asmCmp as lref rref cc cmpprev0).flagmcp = some (asmCmp as lref rref cc cmpprev0).mcp ↔
      mayDrop cmpprev0 cc := by
  have hmcp := (asmCmp_emits hw lref rref cc cmpprev0).mcp hw
  by_cases h : mayDrop cmpprev0 cc
  · have h' : cmpprev0 = true ∧ (cc ≤ ccNe ∨ ccGe ≤ cc) := h
    rw [iff_true_right h, asmCmp, if_pos h']
    rfl
  · have h' : ¬ (cmpprev0 = true ∧ (cc ≤ ccNe ∨ ccGe ≤ cc)) := h
    refine iff_of_false (fun hf => ?_) h
    have hfl : (asmCmp as lref rref cc cmpprev0).flagmcp = as.flagmcp := by
      rw [asmCmp, if_neg h', asmGuardcc_raAlloc, asmGuardcc_raAlloc]
      simp only [asmGuardcc]
      split <;> rfl
    rw [hfl] at hf
    have hle := hw.flagmcp _ hf
    rw [List.length_singleton] at hmcp
    omega

/-- Patching the condition of the branch behind a comparison.  The two patches flip the same bits. -/
theorem xorNextCc_mc (as : ASMState) {w : MCode} {cc : BitVec 4} {op : Op} {rest : List MCode}
    (h : as.mc = w :: ⟨cc, op⟩ :: rest) :
    (xorNextCc as (ccGe ^^^ ccPl)).mc = ⟨cc ^^^ 15, op⟩ :: rest := by
  rw [xorNextCc, h, List.tail_cons, List.modify_zero_cons]
  rfl

/-- **What becomes of the comparison.**  It stays; or an addition or subtraction drops it; or a bit
operation drops it, and the condition is adjusted to one that works with `tst`. -/
theorem dropFor_asmCmp (hw : CodeWf as) (lref rref : ℕ) {o' : IROp} (ho' : isComp o')
    (cmpprev0 : Bool) (o : IROp) {as₁ : ASMState}
    (h₁ : as₁ = asmCmp as lref rref (asmCompmap o') cmpprev0) :
    ((dropFor o as₁).2 = false ∧ (dropFor o as₁).1.mc = as₁.mc ∧
        ((o = .add ∨ o = .sub) → ¬ mayDrop cmpprev0 (asmCompmap o'))) ∨
      ((dropFor o as₁).2 = true ∧ mayDrop cmpprev0 (asmCompmap o') ∧ (o = .add ∨ o = .sub) ∧
        (dropFor o as₁).1.mc = guardWords as (asmCompmap o') 0 ++ codeBehind as) ∨
      ((dropFor o as₁).2 = true ∧ mayDrop cmpprev0 (asmCompmap o') ∧ ¬ (o = .add ∨ o = .sub) ∧
        ∃ cc, tstCc (asmCompmap o') = some cc ∧
          (dropFor o as₁).1.mc = guardWords as cc 0 ++ codeBehind as) := by
  have hflag := asmCmp_flagmcp hw lref rref (asmCompmap o') cmpprev0
  have hmc := (asmCmp_emits hw lref rref (asmCompmap o') cmpprev0).mc
  rw [← h₁] at hflag hmc
  rw [List.singleton_append] at hmc
  obtain ⟨op, rest, hhead⟩ := guardWords_head as
  by_cases hd : mayDrop cmpprev0 (asmCompmap o')
  · have hf := hflag.2 hd
    by_cases ha : o = .add ∨ o = .sub
    · right; left
      rw [dropFor, if_pos ha, dropCmpS, if_pos hf]
      refine ⟨rfl, hd, ha, ?_⟩
      rw [hmc]
      rfl
    · rw [dropFor, if_neg ha, dropCmp, if_pos hf]
      have hcc : nextCc as₁ = if inverted as then asmCompmap o' ^^^ 1 else asmCompmap o' := by
        rw [nextCc, hmc, hhead]
        rfl
      have hone : (o' = .eq ∨ o' = .ne) ∨ (o' = .lt ∨ o' = .ge) ∨ (o' = .le ∨ o' = .gt) ∨
          o' = .ult ∨ o' = .uge ∨ o' = .ule ∨ o' = .ugt := by
        rcases isComp_cases ho' with rfl | rfl | rfl | rfl | rfl | rfl | rfl | rfl | rfl | rfl <;> decide
      simp only [hcc]
      cases h : inverted as <;> simp only [h, Bool.false_eq_true, if_false, if_true] at hhead ⊢
      all_goals
        rcases hone with hone | hone | hone | hone
        · rcases hone with rfl | rfl
          all_goals
            refine .inr (.inr ⟨rfl, hd, ha, _, rfl, ?_⟩)
            rw [hhead]
            change as₁.mc.tail = _
            rw [hmc, hhead]
            rfl
        · rcases hone with rfl | rfl
          all_goals
            refine .inr (.inr ⟨rfl, hd, ha, _, rfl, ?_⟩)
            rw [hhead] at hmc ⊢
            exact xorNextCc_mc { as₁ with flagmcp := none } hmc
        · rcases hone with rfl | rfl <;> exact .inl ⟨rfl, rfl, fun h => absurd h ha⟩
        · rcases hone with rfl | rfl | rfl | rfl <;> exact absurd hd.2 (by decide)
  · have hf : ¬ as₁.flagmcp = some as₁.mcp := fun h => hd (hflag.1 h)
    left
    rw [dropFor]
    split
    · rw [dropCmpS, if_neg hf]
      exact ⟨rfl, rfl, fun _ => hd⟩
    · rw [dropCmp, if_neg hf]
      exact ⟨rfl, rfl, fun _ => hd⟩

/-! ### A comparison behind an instruction -/

/-- The comparison was dropped behind an addition or subtraction. -/
def SumTested (as : ASMState) (ref : ℕ) : Prop :=
  withPrev as ref ∧ ((as.ir (ref - 1)).o = .add ∨ (as.ir (ref - 1)).o = .sub) ∧ cmpPrev0 as ref

/-- The exact result of an addition or subtraction. -/
def exactSum (o : IROp) (a b : BitVec 32) : ℤ :=
  if o = .add then a.toInt + b.toInt else a.toInt - b.toInt

/-- The sum that is tested wraps around: an ordering is tested, and either zero takes side with the
positive results or the word is not zero. -/
def SumWraps (as : ASMState) (ρ : ℕ → BitVec 32) (ref : ℕ) : Prop :=
  let ir := as.ir (ref - 1)
  SumTested as ref ∧ signedComp (as.ir ref).o ∧
    ¬ Dbl.FitsInt32 (exactSum ir.o (ρ ir.op1) (ρ ir.op2)) ∧
    (guardOp as (as.ir ref) = .le ∨ guardOp as (as.ir ref) = .gt → ρ (ref - 1) ≠ 0)

theorem signedComp_guardOp (as : ASMState) (ir : IRIns) :
    signedComp (guardOp as ir) = signedComp ir.o := by
  rw [guardOp]
  split
  · cases ir.o <;> rfl
  · rfl

theorem mayDrop_compmap {o : IROp} (ho : isComp o) {b : Bool} :
    mayDrop b (asmCompmap o) ↔ b ∧ (signedComp o ∨ o = .eq ∨ o = .ne) := by
  refine and_congr_right fun _ => ?_
  rcases isComp_cases ho with rfl | rfl | rfl | rfl | rfl | rfl | rfl | rfl | rfl | rfl <;> decide

theorem asmGuardcc_fields (as : ASMState) (cc : BitVec 4) :
    (asmGuardcc as cc).ir = as.ir ∧ (asmGuardcc as cc).reg = as.reg ∧
      (asmGuardcc as cc).used = as.used := by
  rw [asmGuardcc]
  split <;> exact ⟨rfl, rfl, rfl⟩

theorem asmCmp_fields (as : ASMState) (lref rref : ℕ) (cc : BitVec 4) (cmpprev0 : Bool) :
    (asmCmp as lref rref cc cmpprev0).ir = as.ir ∧
      (asmCmp as lref rref cc cmpprev0).reg = as.reg := by
  obtain ⟨h₁, h₂, _⟩ := asmGuardcc_fields as cc
  rw [asmCmp, asmGuardcc_raAlloc, asmGuardcc_raAlloc]
  split <;> exact ⟨h₁, h₂⟩

/-- If the comparison needs the result of the instruction before it, it did not absorb it. -/
theorem asmIntcomp_withPrev (he : Env as.ir ρ) {ref : ℕ} (ho : isComp (as.ir ref).o)
    (h : withPrev as ref) :
    asmIntcomp as ref = asmCmp as (leftRef as (as.ir ref)) (rightRef as (as.ir ref))
      (asmCompmap (guardOp as (as.ir ref))) (cmpPrev0 as ref) := by
  simp only [withPrev, Bool.and_eq_true, beq_iff_eq] at h
  obtain ⟨⟨hflag, hl⟩, hused⟩ := h
  rw [asmIntcomp_eq ho] at hused ⊢
  split at hused
  · next as' h =>
    split at h
    · rw [hl, asmTst] at h
      dsimp only at h
      split at h
      · next hb =>
        obtain ⟨cc, _, rfl⟩ := Option.map_eq_some_iff.1 h
        obtain ⟨_, hnot, _⟩ := hb
        exfalso
        set l := leftRef as (as.ir (ref - 1)) with hleft
        set X := raAlloc as [l] with hX
        have hlt := leftRef_lt he hflag
        have hrlt := rightRef_lt he hflag
        obtain ⟨_, _, hu⟩ :=
          asmGuardcc_fields (raAlloc X (tstOperand X (rightRef as (as.ir (ref - 1)))).refs) cc
        simp only [raUsed, emit, hu, asmGuardcc_live, Bool.or_eq_true, List.contains_eq_mem,
          decide_eq_true_eq, not_or] at hused hnot
        rcases hused with hused | hused
        · exact hnot.1 hused
        · rcases List.mem_append.1 hused with hx | hx
          · have hle := tstOperand_refs he (X := X) rfl hx
            omega
          · rcases List.mem_cons.1 hx with hx | hx
            · omega
            · exact hnot.2 hx
      · cases h
    · cases h
  · rfl

/-- The exit is not where the trace goes on. -/
theorem Placed.ne (hw : CodeWf as) {as' : ASMState} {pre : List MCode} (hp : Placed as as' pre)
    (hlt : as'.mcp < as.mcp) : as.exitstub ≠ contAddr as as' pre := by
  have hstart : loopStart as' pre ≤ as'.mcp := by
    rw [loopStart]
    omega
  have hpos : 0 < as.mc.length := List.length_pos_iff.2 hw.tail
  have hmcp : as.mcp = as.mctop - as.mc.length := rfl
  have ho := hp.outside
  rw [contAddr]
  split <;> lia

/-- The sum and the flags of an addition or subtraction that sets them. -/
theorem setsFlags_sum {o : IROp} (ho : o = .add ∨ o = .sub) {a b v : BitVec 32}
    (hv : evalOp o a b = some v) {f : Flags} (hf : SetsFlags o a b v f) :
    ∃ x y c, f = (addWithCarry x y c).2 ∧ v = (addWithCarry x y c).1 ∧
      x.toInt + y.toInt + (c.toNat : ℤ) = exactSum o a b := by
  rcases ho with rfl | rfl
  · refine ⟨a, b, false, hf, ?_, by simp [exactSum]⟩
    obtain rfl := Option.some.inj hv
    simp [addWithCarry]
  · refine ⟨a, ~~~b, true, hf, ?_, ?_⟩
    · obtain rfl := Option.some.inj hv
      exact (addWithCarry_not a b).symm
    · rw [toInt_not, exactSum, if_neg (by decide)]
      simp only [Bool.toNat_true]
      omega

theorem isFlagOp_of_withPrev {ref : ℕ} (h : withPrev as ref) : isFlagOp (as.ir (ref - 1)).o := by
  simp only [withPrev, Bool.and_eq_true] at h
  exact h.1.1

/-- **The code of a comparison behind the instruction that it tests.**  The instruction is followed by
the comparison; or an addition or subtraction sets the flags instead; or a bit operation does, and the
condition is one that works with `tst`. -/
theorem asmFlagOp_emits (hw : CodeWf as) (he : Env as.ir ρ) {ref : ℕ} (ho : isComp (as.ir ref).o)
    (hprev : withPrev as ref) :
    ∃ X : ASMState, X.ir = as.ir ∧ X.reg = as.reg ∧
      (asmFlagOp (asmIntcomp as ref) (ref - 1)).live =
        flagRefs X (ref - 1) ++ (asmIntcomp as ref).live ∧
      (Emits as (asmFlagOp (asmIntcomp as ref) (ref - 1))
          [flagWord X (ref - 1) false,
            cmpWord as (leftRef as (as.ir ref)) (rightRef as (as.ir ref))]
          (asmCompmap (guardOp as (as.ir ref))) ∧
          ((as.ir (ref - 1)).o = .add ∨ (as.ir (ref - 1)).o = .sub →
            ¬ mayDrop (cmpPrev0 as ref) (asmCompmap (guardOp as (as.ir ref)))) ∨
        mayDrop (cmpPrev0 as ref) (asmCompmap (guardOp as (as.ir ref))) ∧
          ((as.ir (ref - 1)).o = .add ∨ (as.ir (ref - 1)).o = .sub) ∧
          Emits as (asmFlagOp (asmIntcomp as ref) (ref - 1)) [flagWord X (ref - 1) true]
            (asmCompmap (guardOp as (as.ir ref))) ∨
        mayDrop (cmpPrev0 as ref) (asmCompmap (guardOp as (as.ir ref))) ∧
          ¬ ((as.ir (ref - 1)).o = .add ∨ (as.ir (ref - 1)).o = .sub) ∧
          ∃ cc, tstCc (asmCompmap (guardOp as (as.ir ref))) = some cc ∧
            Emits as (asmFlagOp (asmIntcomp as ref) (ref - 1)) [flagWord X (ref - 1) true] cc) := by
  have hflag := isFlagOp_of_withPrev hprev
  rw [asmIntcomp_withPrev he ho hprev]
  set l := leftRef as (as.ir ref) with hl
  set r := rightRef as (as.ir ref) with hr
  set o' := guardOp as (as.ir ref) with ho'
  set as₁ := asmCmp as l r (asmCompmap o') (cmpPrev0 as ref) with has₁
  obtain ⟨hir₁, hreg₁⟩ := asmCmp_fields as l r (asmCompmap o') (cmpPrev0 as ref)
  rw [← has₁] at hir₁ hreg₁
  have he₁ : Env as₁.ir ρ := by rw [hir₁]; exact he
  have heq := asmFlagOp_eq he₁ (by rw [hir₁]; exact hflag)
  rw [hir₁] at heq
  have hdrop := dropFor_asmCmp hw l r (isComp_guardOp ho) (cmpPrev0 as ref) (as.ir (ref - 1)).o has₁
  obtain ⟨hirX, hregX, hliveX, htopX, hinvX⟩ := dropFor_fields (as.ir (ref - 1)).o as₁
  set X := (dropFor (as.ir (ref - 1)).o as₁).1 with hX
  have hE₁ := asmCmp_emits hw l r (asmCompmap o') (cmpPrev0 as ref)
  rw [← has₁] at hE₁
  have hinv₂ : (asmFlagOp as₁ (ref - 1)).loopinv = (as.loopinv || inverted as) := by
    rw [← hE₁.loopinv, ← hinvX, heq]
    rfl
  have htop₂ : (asmFlagOp as₁ (ref - 1)).mctop = as.mctop := by
    rw [← hE₁.mctop, ← htopX, heq]
    rfl
  have hmc₂ : (asmFlagOp as₁ (ref - 1)).mc =
      flagWord X (ref - 1) (dropFor (as.ir (ref - 1)).o as₁).2 :: X.mc := by
    rw [heq]
    rfl
  refine ⟨X, hirX.trans hir₁, hregX.trans hreg₁, ?_, ?_⟩
  · rw [heq]
    exact congrArg (flagRefs X (ref - 1) ++ ·) hliveX
  rcases hdrop with ⟨hsf, hmc, hno⟩ | ⟨hsf, hmay, hadd, hmc⟩ | ⟨hsf, hmay, hadd, cc, hcc, hmc⟩
  · exact .inl ⟨⟨by rw [hmc₂, hsf, hmc, hE₁.mc]; rfl, hinv₂, htop₂⟩, hno⟩
  · exact .inr (.inl ⟨hmay, hadd, by rw [hmc₂, hsf, hmc]; rfl, hinv₂, htop₂⟩)
  · exact .inr (.inr ⟨hmay, hadd, cc, hcc, by rw [hmc₂, hsf, hmc]; rfl, hinv₂, htop₂⟩)

/-- **A comparison behind the instruction that it tests exits exactly if it fails, unless a sum is
tested that wraps around.** -/
theorem asmFlagOp_exec (hw : CodeWf as) (he : Env as.ir ρ) {ref : ℕ} (ho : isComp (as.ir ref).o)
    {g : Bool} (hg : evalGuard (as.ir ref).o (ρ (as.ir ref).op1) (ρ (as.ir ref).op2) = some g)
    (hprev : withPrev as ref) {pre : List MCode}
    (hp : Placed as (asmFlagOp (asmIntcomp as ref) (ref - 1)) pre) {s : Cpu}
    (hs : ∀ x ∈ (asmFlagOp (asmIntcomp as ref) (ref - 1)).live, x ≠ ref - 1 →
      s.regs (as.reg x) = ρ x)
    (hd : ∀ x ∈ (asmIntcomp as ref).live, x ≠ ref - 1 → as.reg x ≠ as.reg (ref - 1)) :
    ((exec (asmFlagOp (asmIntcomp as ref) (ref - 1)).mcp
        (asmFlagOp (asmIntcomp as ref) (ref - 1)).mcp
        (segment as (asmFlagOp (asmIntcomp as ref) (ref - 1)) pre) s).1 =
      if g then contAddr as (asmFlagOp (asmIntcomp as ref) (ref - 1)) pre else as.exitstub) ↔
      ¬ SumWraps as ρ ref := by
  have hgo : isComp (guardOp as (as.ir ref)) := isComp_guardOp ho
  have hgg := evalGuard_guardOp as ρ ho
  rw [hg] at hgg
  have hflag := isFlagOp_of_withPrev hprev
  obtain ⟨X, hir, hreg, hlive, hcases⟩ := asmFlagOp_emits hw he ho hprev
  have heX : Env X.ir ρ := by rw [hir]; exact he
  have hflagX : isFlagOp (X.ir (ref - 1)).o := by rw [hir]; exact hflag
  have hload : ∀ x ∈ flagRefs X (ref - 1), s.regs (X.reg x) = ρ x := by
    intro x hx
    rw [hreg]
    refine hs x ?_ (flagRefs_lt heX hflagX hx).ne
    rw [hlive]
    exact List.mem_append_left _ hx
  rcases hcases with ⟨hE, hno⟩ | ⟨hmay, hadd, hE⟩ | ⟨hmay, hadd, cc, hcc, hE⟩
  · -- the comparison stays
    obtain ⟨s', ⟨hregs, _⟩, hexec⟩ := exec_flagWord heX hflagX false hload
    have hcmp : ∀ x ∈ (asmIntcomp as ref).live, s'.regs (as.reg x) = ρ x := by
      intro x hx
      rw [hregs, hreg]
      by_cases hxr : x = ref - 1
      · rw [hxr, Function.update_self]
      · rw [Function.update_of_ne (hd x hx hxr)]
        refine hs x ?_ hxr
        rw [hlive]
        exact List.mem_append_right _ hx
    rw [asmIntcomp_withPrev he ho hprev] at hcmp
    have hfront : ∀ (p : ℤ) (ws : List MCode),
        exec p p ([flagWord X (ref - 1) false,
            cmpWord as (leftRef as (as.ir ref)) (rightRef as (as.ir ref))] ++ ws) s =
          exec (p + 2) (p + 2) ws { s' with
            flags := cmp (ρ (leftRef as (as.ir ref))) (ρ (rightRef as (as.ir ref))) } := by
      intro p ws
      have h₂ : p + 2 = p + 1 + 1 := by omega
      rw [h₂, ← exec_cmpWord he hcmp, ← hexec]
      rfl
    rw [hE.exec hw hp (asmCompmap_lt _) hfront, condHolds_compmap hgo hgg]
    refine iff_of_true (by cases g <;> rfl) ?_
    rintro ⟨⟨_, ho, hz⟩, hsig, _⟩
    rw [← signedComp_guardOp as] at hsig
    exact hno ho ((mayDrop_compmap hgo).2 ⟨hz, .inl hsig⟩)
  · -- an addition or subtraction drops it
    obtain ⟨s', ⟨_, hflags⟩, hexec⟩ := exec_flagWord heX hflagX true hload
    rw [if_pos rfl, hir] at hflags
    obtain ⟨hz, hsig⟩ := (mayDrop_compmap hgo).1 hmay
    obtain ⟨hr0, hl1⟩ := cmpPrev0_spec he hz
    have hlr : leftRef as (as.ir ref) = ref - 1 := by lia
    have hv : evalOp (as.ir (ref - 1)).o (ρ (as.ir (ref - 1)).op1) (ρ (as.ir (ref - 1)).op2) =
        some (ρ (ref - 1)) := by
      have hop := fun v => he.op (ref - 1) v (he.ins _ hflag)
      rcases hadd with h | h <;> rw [h] at hop ⊢ <;> rw [hop _ rfl] <;> rfl
    obtain ⟨x, y, c, hf, hval, hexact⟩ := setsFlags_sum hadd hv hflags
    rw [hr0, hlr, hval] at hgg
    have hsum := condHolds_sum hsig hgg
    have hne := hp.ne hw (by rw [hE.mcp hw, List.length_singleton]; omega)
    rw [hE.exec hw hp (asmCompmap_lt _) (fun p ws => hexec p ws), hf]
    have hwraps : SumWraps as ρ ref ↔
        (signedComp (guardOp as (as.ir ref)) ∧
          ¬ Dbl.FitsInt32 (x.toInt + y.toInt + (c.toNat : ℤ)) ∧
          (guardOp as (as.ir ref) = .le ∨ guardOp as (as.ir ref) = .gt →
            (addWithCarry x y c).1 ≠ 0)) := by
      rw [SumWraps, hexact, signedComp_guardOp, ← hval]
      exact and_iff_right ⟨hprev, hadd, hz⟩
    rw [hwraps, ← hsum]
    cases condHolds (asmCompmap (guardOp as (as.ir ref))) (addWithCarry x y c).2 <;>
      cases g <;> simp [hne, hne.symm]
  · -- a bit operation drops it
    obtain ⟨s', ⟨_, hflags⟩, hexec⟩ := exec_flagWord heX hflagX true hload
    rw [if_pos rfl, hir] at hflags
    obtain ⟨hr0, hl1⟩ := cmpPrev0_spec he ((mayDrop_compmap hgo).1 hmay).1
    have hlr : leftRef as (as.ir ref) = ref - 1 := by lia
    rw [hr0, hlr] at hgg
    have hnz : s'.flags.n = (ρ (ref - 1)).msb ∧ s'.flags.z = (ρ (ref - 1) == 0) := by
      rcases isFlagOp_cases hflag with h | h | h | h | h | h <;> rw [h] at hflags hadd
      · exact absurd (.inl rfl) hadd
      · exact absurd (.inr rfl) hadd
      all_goals exact hflags
    rw [hE.exec hw hp (tstCc_lt hcc) (fun p ws => hexec p ws),
      condHolds_tstCc hgo hcc hgg hnz.1 hnz.2]
    exact iff_of_true (by cases g <;> rfl) (fun h => hadd h.1.2.1)

end ArmAsm
