/-
**Fused operands compute the reference.**

An operand may be a register, an eight bit constant with a rotation, the inverse or the negation of
one under the inverse instruction, or a shift instruction that is folded into the operand.  In each
form an instruction on the operand does what it does on the value of the reference.

Main definitions:

* `ArmAsm.Env` — values of the references in an execution of the IR.

Main results:

* `ArmAsm.isK12_spec` — the search for a rotated constant keeps its value;
* `ArmAsm.dataProc_isk12` — the inverse instruction on the inverted constant does the same;
* `ArmAsm.asmFuseopm_spec` — the value of a fused operand;
* `ArmAsm.dataProc_asmFuseopm` — **an instruction on a fused operand is one on the reference**.
-/

import LuaJit.ArmAsm

set_option relaxedAutoImplicit false
set_option autoImplicit false

namespace ArmAsm

open Arm Ir

/-! ### Constants -/

theorem rotateLeft_two (x : BitVec 32) {i : ℕ} (hi : i < 15) :
    (x.rotateLeft (2 * i)).rotateLeft 2 = x.rotateLeft (2 * (i + 1)) := by
  refine BitVec.eq_of_getLsbD_eq fun j hj => ?_
  have h₁ : 2 * i % 32 = 2 * i := by lia
  have h₂ : 2 * (i + 1) % 32 = 2 * (i + 1) := by lia
  simp only [BitVec.getLsbD_rotateLeft, h₁, h₂, Nat.reduceMod, Bool.cond_decide, hj, decide_true,
    Bool.true_and]
  split_ifs with h h' h'' <;> first | omega | skip
  · rw [decide_eq_true (by omega), Bool.true_and]
    congr 1
    lia
  · congr 1
    lia
  · rw [decide_eq_true (by lia), Bool.true_and]
    congr 1
    lia

theorem rotateRight_rotateLeft (x : BitVec 32) {i : ℕ} (hi : i < 32) :
    (x.rotateLeft i).rotateRight i = x := by
  refine BitVec.eq_of_getLsbD_eq fun j hj => ?_
  simp only [BitVec.getLsbD_rotateLeft, BitVec.getLsbD_rotateRight, Nat.mod_eq_of_lt hi,
    Bool.cond_decide, hj, decide_true, Bool.true_and]
  split_ifs with h h' h'' <;> first | omega | skip
  · rw [decide_eq_true (by omega), Bool.true_and]
    congr 1
    lia
  · congr 1
    lia

/-- The search keeps the value: what it finds evaluates to the word it began with. -/
theorem isK12_eval {n : BitVec 32} {i fuel : ℕ} {k : Operand} (hi : i + fuel ≤ 16)
    (h : isK12 (n.rotateLeft (2 * i)) i fuel = some k) (regs : Reg → BitVec 32) (c : Bool) :
    (k.eval regs c).1 = n := by
  induction fuel generalizing i with
  | zero => cases h
  | succ fuel ih =>
    rw [isK12] at h
    split at h
    · next hm =>
      obtain rfl := Option.some.inj h
      have hw : ((n.rotateLeft (2 * i)).setWidth 8).setWidth 32 = n.rotateLeft (2 * i) := by
        refine BitVec.eq_of_toNat_eq ?_
        rw [BitVec.toNat_setWidth, BitVec.toNat_setWidth]
        lia
      have hrot : 2 * (BitVec.ofNat 4 i).toNat = 2 * i := by
        rw [BitVec.toNat_ofNat]
        lia
      rw [Operand.eval, Shift.eval, hw, hrot]
      exact rotateRight_rotateLeft n (by lia)
    · cases fuel with
      | zero => cases h
      | succ fuel =>
        rw [rotateLeft_two n (by omega)] at h
        exact ih (by omega) h

theorem rotateLeft_zero (n : BitVec 32) : n.rotateLeft 0 = n := by
  refine BitVec.eq_of_getLsbD_eq fun j hj => ?_
  simp [hj]

theorem isK12_spec {n : BitVec 32} {k : Operand} (h : isK12 n 0 16 = some k)
    (regs : Reg → BitVec 32) (c : Bool) : (k.eval regs c).1 = n := by
  have h₀ : isK12 (n.rotateLeft (2 * 0)) 0 16 = some k := by rwa [Nat.mul_zero, rotateLeft_zero]
  exact isK12_eval (by omega) h₀ regs c

/-- What a constant operand evaluates to: the constant, or with the inverse instruction its
complement or its negation.  The two words that are off under negation are never negated. -/
theorem emitIsk12_spec {opc : BitVec 4} {n : BitVec 32} {f : Fused}
    (h : emitIsk12 opc n = some f) (regs : Reg → BitVec 32) (c : Bool) :
    f.inv = 0 ∧ (f.m.eval regs c).1 = n ∨
      f.inv = emitInvai opc ∧ emitInvai opc ≠ 0 ∧ n ≠ 0 ∧ n ≠ BitVec.intMin 32 ∧
        (f.m.eval regs c).1 =
          if emitInvai opc = armiSub ^^^ armiAdd ∨ emitInvai opc = armiCmp ^^^ armiCmn then -n
          else ~~~n := by
  rw [emitIsk12] at h
  split at h
  · next k hk =>
    obtain rfl := Option.some.inj h
    exact .inl ⟨rfl, isK12_spec hk regs c⟩
  · next hk =>
    right
    have h₀ : n ≠ 0 := by
      rintro rfl
      revert hk
      decide
    have hm : n ≠ BitVec.intMin 32 := by
      rintro rfl
      revert hk
      decide
    dsimp only at h
    split at h
    · cases h
    · next hi =>
      obtain ⟨k, hk', rfl⟩ := Option.map_eq_some_iff.1 h
      refine ⟨rfl, hi, h₀, hm, ?_⟩
      rw [isK12_spec hk' regs c]
      split
      · exact (BitVec.neg_eq_not_add n).symm
      · rfl

theorem emitIsk12_refs {opc : BitVec 4} {n : BitVec 32} {f : Fused}
    (h : emitIsk12 opc n = some f) : f.refs = [] := by
  rw [emitIsk12] at h
  split at h
  · obtain rfl := Option.some.inj h
    rfl
  · dsimp only at h
    split at h
    · cases h
    · obtain ⟨k, _, rfl⟩ := Option.map_eq_some_iff.1 h
      rfl

/-- The opcodes that operands are fused into. -/
def fuseOpcs : List (BitVec 4) :=
  [armiAnd, armiEor, armiSub, armiRsb, armiAdd, armiCmp, armiOrr, armiMvn]

/-- The inverse instruction on the inverted constant does the same, but for the carry of a logical
operation. -/
theorem dataProc_isk12 {opc : BitVec 4} (ho : opc ∈ fuseOpcs) {n : BitVec 32} {f : Fused}
    (h : emitIsk12 opc n = some f) (regs : Reg → BitVec 32) (c : Bool) (x : BitVec 32)
    (sc : Bool) (fl : Flags) :
    ∃ sc', dataProc (opc ^^^ f.inv) x (f.m.eval regs c).1 sc fl = dataProc opc x n sc' fl := by
  rcases emitIsk12_spec h regs c with ⟨hi, hv⟩ | ⟨hi, hne, h₀, hm, hv⟩
  · have hx : opc ^^^ 0 = opc := BitVec.xor_zero
    rw [hi, hv, hx]
    exact ⟨sc, rfl⟩
  · have hadd : addWithCarry x (~~~(-n)) true = addWithCarry x n false := by
      have h₀' : -n ≠ 0 := fun h => h₀ (by simpa using h)
      have hm' : -n ≠ BitVec.intMin 32 := fun h => hm (by
        rw [← BitVec.neg_neg (x := n), h]
        decide)
      rw [← addWithCarry_neg x h₀' hm', BitVec.neg_neg]
    rw [hi, hv]
    refine ⟨sc, ?_⟩
    simp only [fuseOpcs, List.mem_cons, List.not_mem_nil, or_false] at ho
    rcases ho with rfl | rfl | rfl | rfl | rfl | rfl | rfl | rfl
    · rw [if_neg (by decide)]
      exact congrArg (logic · sc fl) (by rw [BitVec.not_not])
    · exact absurd rfl hne
    · rw [if_pos (by decide)]
      exact addWithCarry_neg x h₀ hm
    · exact absurd rfl hne
    · rw [if_pos (by decide)]
      exact hadd
    · rw [if_pos (by decide)]
      exact addWithCarry_neg x h₀ hm
    · exact absurd rfl hne
    · rw [if_neg (by decide)]
      rfl

/-! ### Fused operands -/

/-- The values `ρ` of the references are those of an execution of the IR, and the IR is as the rest
of the compiler leaves it: no shift by a constant zero (FOLD), variable shift counts masked and left
rotations turned into right ones (the recorder, for this target). -/
structure Env (ir : ℕ → IRIns) (ρ : ℕ → BitVec 32) : Prop where
  kint : ∀ r, irrefIsk r → ρ r = (ir r).i
  op : ∀ r v, ¬ irrefIsk r → evalOp (ir r).o (ρ (ir r).op1) (ρ (ir r).op2) = some v → ρ r = v
  shiftk : ∀ r, isShift (ir r).o → irrefIsk (ir r).op2 → (ir r).o ≠ .bshl →
    (ir (ir r).op2).i.toNat % 32 ≠ 0
  shiftr : ∀ r, isShift (ir r).o → ¬ irrefIsk (ir r).op2 → (ir r).o ≠ .bror →
    (ρ (ir r).op2).toNat < 32
  brol : ∀ r, (ir r).o ≠ .brol
  bnot : ∀ r, (ir r).o = .bnot → (ir r).op2 = 0
  binary : ∀ r, isFlagOp (ir r).o → (ir r).o ≠ .bnot → (ir r).op2 ≠ 0
  guard : ∀ r, isFlagOp (ir r).o → (ir r).t.isguard = false
  ins : ∀ r, isFlagOp (ir r).o → ¬ irrefIsk r
  ssa : ∀ r, isFlagOp (ir r).o ∨ isShift (ir r).o → (ir r).op1 < r ∧ (ir r).op2 < r

variable {ir : ℕ → IRIns} {ρ : ℕ → BitVec 32}

theorem isShift_cases {o : IROp} (ho : isShift o) :
    o = .bshl ∨ o = .bshr ∨ o = .bsar ∨ o = .brol ∨ o = .bror := by
  cases o <;> first | cases ho; done | simp

/-- The shift that is fused computes the shift instruction. -/
theorem shift_eval (he : Env ir ρ) {ref : ℕ} (hs : isShift (ir ref).o) (hk : ¬ irrefIsk ref)
    {n : ℕ} (hn : n = (ρ (ir ref).op2).toNat % 32) (c : Bool) :
    (Shift.eval (ρ (ir ref).op1) n c (armShift (ir ref).o)).1 = ρ ref := by
  have ho := he.op ref
  have hr := he.brol ref
  rcases isShift_cases hs with h | h | h | h | h <;> rw [h] at ho hr ⊢
  · exact (ho _ hk (by rw [evalOp, hn]; rfl)).symm
  · exact (ho _ hk (by rw [evalOp, hn]; rfl)).symm
  · exact (ho _ hk (by rw [evalOp, hn]; rfl)).symm
  · exact absurd rfl hr
  · exact (ho _ hk (by rw [evalOp, hn]; rfl)).symm

/-- A fused operand has the value of the reference, unless it is a constant in the form that
`emit_isk12` gave it. -/
theorem asmFuseopm_spec (he : Env ir ρ) {as : ASMState} (hir : as.ir = ir) {opc : BitVec 4}
    {ref : ℕ} {regs : Reg → BitVec 32}
    (hl : ∀ x ∈ (asmFuseopm as opc ref).refs, regs (as.reg x) = ρ x) (c : Bool) :
    (asmFuseopm as opc ref).inv = 0 ∧ ((asmFuseopm as opc ref).m.eval regs c).1 = ρ ref ∨
      irrefIsk ref ∧ emitIsk12 opc (ρ ref) = some (asmFuseopm as opc ref) := by
  have hof : asmFuseopm as opc ref = Fused.ofRef as ref → (asmFuseopm as opc ref).inv = 0 ∧
      ((asmFuseopm as opc ref).m.eval regs c).1 = ρ ref := by
    intro h
    rw [h] at hl ⊢
    refine ⟨rfl, ?_⟩
    rw [Fused.ofRef, Operand.eval_ofReg]
    exact hl ref (by simp [Fused.ofRef])
  subst hir
  by_cases hreg : raHasreg as ref
  · exact .inl (hof (by rw [asmFuseopm, if_pos hreg]))
  by_cases hk : irrefIsk ref
  · cases h : emitIsk12 opc (as.ir ref).i with
    | none => exact .inl (hof (by rw [asmFuseopm, if_neg hreg, if_pos hk, h]; rfl))
    | some f =>
      right
      rw [asmFuseopm, if_neg hreg, if_pos hk, he.kint ref hk, h]
      exact ⟨hk, rfl⟩
  left
  by_cases hm : as.mayfuse ref
  · by_cases hs : isShift (as.ir ref).o
    · by_cases hk2 : irrefIsk (as.ir ref).op2
      · have hf : asmFuseopm as opc ref =
            ⟨0, .shImm (as.reg (as.ir ref).op1) (armShift (as.ir ref).o)
              ((as.ir (as.ir ref).op2).i.setWidth 5), [(as.ir ref).op1]⟩ := by
          simp only [asmFuseopm, if_neg hreg, if_neg hk, if_pos hm, if_pos hs, if_pos hk2]
        rw [hf] at hl ⊢
        have h₁ := hl (as.ir ref).op1 (by simp)
        have hn : ((as.ir (as.ir ref).op2).i.setWidth 5).toNat =
            (ρ (as.ir ref).op2).toNat % 32 := by
          rw [he.kint _ hk2, BitVec.toNat_setWidth]
        refine ⟨rfl, ?_⟩
        rw [Operand.eval_shImm, h₁]
        · exact shift_eval he hs hk hn c
        · by_cases hb : (as.ir ref).o = .bshl
          · left
            rw [hb]
            rfl
          · right
            intro h0
            rw [h0, he.kint _ hk2] at hn
            exact he.shiftk ref hs hk2 hb hn.symm
      · have hf : asmFuseopm as opc ref =
            ⟨0, .shReg (as.reg (as.ir ref).op1) (armShift (as.ir ref).o) (as.reg (as.ir ref).op2),
              [(as.ir ref).op1, (as.ir ref).op2]⟩ := by
          simp only [asmFuseopm, if_neg hreg, if_neg hk, if_pos hm, if_pos hs, if_neg hk2]
        rw [hf] at hl ⊢
        have h₁ := hl (as.ir ref).op1 (by simp)
        have h₂ := hl (as.ir ref).op2 (by simp)
        refine ⟨rfl, ?_⟩
        rw [Operand.eval, h₁, h₂]
        by_cases hb : (as.ir ref).o = .bror
        · rw [← shift_eval he hs hk rfl c, hb, armShift, Shift.eval, Shift.eval]
          · dsimp only
            rw [← BitVec.rotateRight_mod_eq_rotateRight,
              ← @BitVec.rotateRight_mod_eq_rotateRight _ _ (_ % 32)]
            congr 1
            lia
          all_goals simp
        · have hlt := he.shiftr ref hs hk2 hb
          exact shift_eval he hs hk (by lia) c
    · by_cases hadd : (as.ir ref).o = .add ∧ (as.ir ref).op1 = (as.ir ref).op2
      · have hf : asmFuseopm as opc ref =
            ⟨0, .shImm (as.reg (as.ir ref).op1) .lsl 1, [(as.ir ref).op1]⟩ := by
          simp only [asmFuseopm, if_neg hreg, if_neg hk, if_pos hm, if_neg hs, if_pos hadd]
        rw [hf] at hl ⊢
        have h₁ := hl (as.ir ref).op1 (by simp)
        refine ⟨rfl, ?_⟩
        rw [Operand.eval_shImm regs c _ (.inl rfl), h₁]
        have hv := he.op ref (ρ (as.ir ref).op1 + ρ (as.ir ref).op2) hk (by rw [hadd.1]; rfl)
        rw [hv, ← hadd.2]
        change ρ (as.ir ref).op1 <<< 1 = _
        refine BitVec.eq_of_toNat_eq ?_
        rw [BitVec.toNat_shiftLeft, BitVec.toNat_add, Nat.shiftLeft_eq]
        lia
      · exact hof (by
          simp only [asmFuseopm, if_neg hreg, if_neg hk, if_pos hm, if_neg hs, if_neg hadd])
  · exact hof (by rw [asmFuseopm, if_neg hreg, if_neg hk, if_neg hm])

/-- An instruction on a fused operand does what it does on the reference, but for the carry of a
logical operation. -/
theorem dataProc_asmFuseopm (he : Env ir ρ) {as : ASMState} (hir : as.ir = ir) {opc : BitVec 4}
    (ho : opc ∈ fuseOpcs) {ref : ℕ} {regs : Reg → BitVec 32}
    (hl : ∀ x ∈ (asmFuseopm as opc ref).refs, regs (as.reg x) = ρ x) (c : Bool) (x : BitVec 32)
    (sc : Bool) (fl : Flags) :
    ∃ sc', dataProc (opc ^^^ (asmFuseopm as opc ref).inv) x
      ((asmFuseopm as opc ref).m.eval regs c).1 sc fl = dataProc opc x (ρ ref) sc' fl := by
  rcases asmFuseopm_spec he hir hl c with ⟨hi, hv⟩ | ⟨_, hk⟩
  · have hx : opc ^^^ 0 = opc := BitVec.xor_zero
    rw [hi, hv, hx]
    exact ⟨sc, rfl⟩
  · exact dataProc_isk12 ho hk regs c x sc fl

/-- Fusing an operand does not turn a test into another instruction, or the other way round. -/
theorem isTest_asmFuseopm (he : Env ir ρ) {as : ASMState} (hir : as.ir = ir) {opc : BitVec 4}
    (ho : opc ∈ fuseOpcs) {ref : ℕ} {regs : Reg → BitVec 32}
    (hl : ∀ x ∈ (asmFuseopm as opc ref).refs, regs (as.reg x) = ρ x) :
    isTest (opc ^^^ (asmFuseopm as opc ref).inv) = isTest opc := by
  have hi : (asmFuseopm as opc ref).inv = 0 ∨ (asmFuseopm as opc ref).inv = emitInvai opc := by
    rcases asmFuseopm_spec he hir hl false with ⟨h, _⟩ | ⟨_, h⟩
    · exact .inl h
    · rcases emitIsk12_spec h regs false with ⟨h, _⟩ | ⟨h, _⟩
      · exact .inl h
      · exact .inr h
  rcases hi with hi | hi
  · have hx : opc ^^^ 0 = opc := BitVec.xor_zero
    rw [hi, hx]
  · rw [hi]
    simp only [fuseOpcs, List.mem_cons, List.not_mem_nil, or_false] at ho
    rcases ho with rfl | rfl | rfl | rfl | rfl | rfl | rfl | rfl <;> rfl

end ArmAsm
