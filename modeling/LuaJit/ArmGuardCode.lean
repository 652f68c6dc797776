/-
**The code of a comparison guard: its words, its place and its conditions.**

A guard is emitted as a branch to an exit stub, or, where it is the last instruction of a loop, as the
inverted loop branch with the branch to the exit stub behind it.  The offset of an inverted loop
branch is filled in once the loop is complete.

Main definitions:

* `ArmAsm.CodeWf` — what holds of the machine code when a guard is assembled;
* `ArmAsm.segment` — the words of a guard in the finished loop;
* `ArmAsm.guardWords` — the words of its exit branch;
* `ArmAsm.Placed`, `ArmAsm.contAddr` — the addresses around a guard;
* `ArmAsm.flipComp` — the comparison with its operands swapped.

Main results:

* `ArmAsm.segment_eq` — the segment is what was emitted, with the loop branch filled in;
* `ArmAsm.exec_guardWords` — **an exit branch leaves the trace exactly if its condition holds**;
* `ArmAsm.condHolds_compmap` — after a comparison the mapped condition is the failure of the guard;
* `ArmAsm.condHolds_sum` — after an addition that sets the flags it is so unless the sum wraps around.
-/

import LuaJit.ArmFuse

set_option relaxedAutoImplicit false
set_option autoImplicit false

namespace ArmAsm

open Arm Ir

/-! ### The code of a guard -/

/-- The guard is placed at the loop branch and inverts it. -/
def inverted (as : ASMState) : Bool := decide (as.invmcp = some as.mcp)

/-- The machine code so far: the words at the end are reserved, and an invertible loop branch is the
last of them. -/
structure CodeWf (as : ASMState) : Prop where
  tail : as.mc ≠ []
  invmcp : ∀ p, as.invmcp = some p → p = as.mctop - 1
  loopinv : as.loopinv → 2 ≤ as.mc.length
  flagmcp : ∀ p, as.flagmcp = some p → as.mcp ≤ p

/-- The words of an exit branch, with the offset of an inverted loop branch. -/
def guardWords (as : ASMState) (cc : BitVec 4) (off : BitVec 24) : List MCode :=
  if inverted as then
    [⟨cc ^^^ 1, .b off⟩, ⟨ccAl, .bl (BitVec.ofInt 24 (as.exitstub - as.mcp - 2))⟩]
  else [⟨cc, .bl (BitVec.ofInt 24 (as.exitstub - as.mcp - 1))⟩]

/-- The code behind a guard. -/
def codeBehind (as : ASMState) : List MCode := if inverted as then [] else as.mc

theorem CodeWf.length_of_inverted {as : ASMState} (hw : CodeWf as) (h : inverted as) :
    as.mc.length = 1 := by
  have hp := hw.invmcp _ (of_decide_eq_true h)
  rw [ASMState.mcp] at hp
  omega

theorem asmGuardcc_mc {as : ASMState} (hw : CodeWf as) (cc : BitVec 4) :
    (asmGuardcc as cc).mc = guardWords as cc 0 ++ codeBehind as := by
  by_cases h : inverted as
  · have hlen := hw.length_of_inverted h
    have hinv : as.invmcp = some as.mcp := of_decide_eq_true h
    obtain ⟨w, hmc⟩ := List.length_eq_one_iff.1 hlen
    rw [asmGuardcc, guardWords, codeBehind, if_pos h, if_pos h]
    simp only [hinv, if_true, emitBranch, emit, ASMState.mcp, hmc, List.tail_cons,
      List.length_singleton, List.append_nil]
    congr 3
    simp
  · have hinv : ¬ as.invmcp = some as.mcp := fun h' => h (decide_eq_true h')
    rw [asmGuardcc, guardWords, codeBehind, if_neg h, if_neg h]
    simp only [if_neg hinv, emitBranch, emit]
    rfl

theorem asmGuardcc_loopinv (as : ASMState) (cc : BitVec 4) :
    (asmGuardcc as cc).loopinv = (as.loopinv || inverted as) := by
  rw [asmGuardcc, inverted]
  split <;> simp_all [emitBranch, emit]

/-- Where the loop starts once `pre` is in front of the code. -/
def loopStart (as : ASMState) (pre : List MCode) : ℤ := as.mcp - pre.length

/-- The code of the loop once `pre` is in front of it. -/
def loopCode (as : ASMState) (pre : List MCode) : List MCode :=
  (asmLoopFixup { as with mc := pre ++ as.mc }).mc

/-- The words that a guard consists of: those emitted from `as` to `as'`, and the loop branch if it
is inverted. -/
def segment (as as' : ASMState) (pre : List MCode) : List MCode :=
  ((loopCode as' pre).drop pre.length).take (as'.mc.length - as.mc.length + (inverted as).toNat)

theorem modify_append_right {α : Type*} (f : α → α) (l t : List α) (i : ℕ) :
    (l ++ t).modify (l.length + i) f = l ++ t.modify i f := by
  induction l with
  | nil => simp
  | cons a l ih =>
    have h : (a :: l).length + i = l.length + i + 1 := by
      rw [List.length_cons]
      omega
    rw [h, List.cons_append, List.modify_succ_cons, ih, List.cons_append]

/-- Everything that is emitted for the guard ends up in the segment, with the offset of an inverted
loop branch filled in. -/
theorem segment_eq {as as' : ASMState} (hw : CodeWf as) {front : List MCode} {cc : BitVec 4}
    (hmc : as'.mc = front ++ (guardWords as cc 0 ++ codeBehind as))
    (hinv : as'.loopinv = (as.loopinv || inverted as)) (htop : as'.mctop = as.mctop)
    (pre : List MCode) :
    segment as as' pre =
      front ++ guardWords as cc (BitVec.ofInt 24 (loopStart as' pre - as.mctop)) := by
  have hstart : ({ as' with mc := pre ++ as'.mc } : ASMState).mcp = loopStart as' pre := by
    simp only [ASMState.mcp, loopStart, List.length_append]
    push_cast
    lia
  by_cases h : inverted as
  · have hlen := hw.length_of_inverted h
    rw [segment, loopCode, asmLoopFixup, hstart, htop]
    simp only [hinv, h, Bool.or_true, if_true]
    rw [hmc, guardWords, codeBehind, guardWords, if_pos h, if_pos h, if_pos h, List.append_nil,
      ← List.append_assoc]
    have hidx : ((pre ++ front) ++ [(⟨cc ^^^ 1, .b 0⟩ : MCode),
        ⟨ccAl, .bl (BitVec.ofInt 24 (as.exitstub - as.mcp - 2))⟩]).length - 2 =
        (pre ++ front).length + 0 := by
      simp only [List.length_append, List.length_cons, List.length_nil]
      lia
    rw [hidx, modify_append_right, List.append_assoc, List.drop_left, List.take_of_length_le]
    · simp [orOffset]
    · simp [hlen]
  · have hlen : 1 ≤ as.mc.length := List.length_pos_iff.2 hw.tail
    have hgw : (guardWords as cc 0).length = 1 := by rw [guardWords, if_neg h, List.length_singleton]
    have hgw' : guardWords as cc 0 =
        guardWords as cc (BitVec.ofInt 24 (loopStart as' pre - as.mctop)) := by
      rw [guardWords, guardWords, if_neg h, if_neg h]
    have htake : ∀ t : List MCode, t.length = as.mc.length →
        ((pre ++ (front ++ (guardWords as cc 0 ++ t))).drop pre.length).take
          (as'.mc.length - as.mc.length + (inverted as).toNat) = front ++ guardWords as cc 0 := by
      intro t ht
      rw [List.drop_left, ← List.append_assoc, List.take_left']
      rw [hmc, codeBehind, if_neg h, Bool.eq_false_iff.2 h]
      simp only [List.length_append, Bool.toNat_false]
      lia
    have hall : pre ++ as'.mc = (pre ++ (front ++ guardWords as cc 0)) ++ as.mc := by
      rw [hmc, codeBehind, if_neg h, List.append_assoc, List.append_assoc]
    have hsum : (pre ++ as'.mc).length = (pre ++ (front ++ guardWords as cc 0)).length +
        as.mc.length := by
      rw [hall, List.length_append]
    rw [segment, loopCode, asmLoopFixup, ← hgw']
    split
    · next hl =>
      have hl' : 2 ≤ as.mc.length := by
        have hl'' : (as.loopinv || inverted as) = true := by rw [← hinv]; exact hl
        exact hw.loopinv (by simpa [Bool.eq_false_iff.2 h] using hl'')
      have hidx : (pre ++ as'.mc).length - 2 =
          (pre ++ (front ++ guardWords as cc 0)).length + (as.mc.length - 2) := by
        lia
      simp only
      rw [hidx, hall, modify_append_right, List.append_assoc, List.append_assoc]
      exact htake _ (List.length_modify ..)
    · have hidx : (pre ++ as'.mc).length - 1 =
          (pre ++ (front ++ guardWords as cc 0)).length + (as.mc.length - 1) := by
        lia
      simp only
      rw [hidx, hall, List.set_append_right _ _ (by omega), Nat.add_sub_cancel_left,
        List.append_assoc, List.append_assoc]
      exact htake _ (List.length_set ..)

/-- The addresses are as the machine code area and the assertion in `emit_branch` make them: branches
reach the exit stub and the start of the loop, and the exit stub is not part of the loop. -/
structure Placed (as as' : ASMState) (pre : List MCode) : Prop where
  exitRange : ∀ p, as'.mcp ≤ p → p < as.mctop →
    -2 ^ 23 ≤ as.exitstub - p - 2 ∧ as.exitstub - p - 2 < 2 ^ 23
  loopRange : as.mctop - loopStart as' pre ≤ 2 ^ 23
  outside : as.exitstub < loopStart as' pre ∨ as.mctop ≤ as.exitstub

/-- Where the trace goes on behind a guard: at the next word, or at the start of the loop. -/
def contAddr (as as' : ASMState) (pre : List MCode) : ℤ :=
  if inverted as then loopStart as' pre else as.mcp

/-- **The words of a guard branch to the exit if the condition holds, and go on else.** -/
theorem exec_guardWords {as as' : ASMState} (hw : CodeWf as) {pre : List MCode}
    (hp : Placed as as' pre) (hlt : as'.mcp < as.mcp) {cc : BitVec 4} (hcc : cc.toNat < 14)
    (s : Cpu) :
    (exec (as.mcp - 1) (as.mcp - 1)
      (guardWords as cc (BitVec.ofInt 24 (loopStart as' pre - as.mctop))) s).1 =
      if condHolds cc s.flags then as.exitstub else contAddr as as' pre := by
  have hstart : loopStart as' pre ≤ as'.mcp := by
    rw [loopStart]
    omega
  have hpos : 0 < as.mc.length := List.length_pos_iff.2 hw.tail
  have hmcp : as.mcp = as.mctop - as.mc.length := rfl
  by_cases h : inverted as
  · have hlen := hw.length_of_inverted h
    obtain ⟨h₁, h₂⟩ := hp.exitRange as.mcp (by lia) (by omega)
    have hr := hp.loopRange
    rw [guardWords, if_pos h, contAddr, if_pos h, exec_cons, MCode.step_b, condHolds_xor_one hcc]
    cases hc : condHolds cc s.flags with
    | false =>
      simp only [Bool.not_false, if_true, Bool.false_eq_true, if_false]
      rw [toInt_offset (by omega) (by lia), exec_leave _ (.inl (by lia))]
      change as.mcp - 1 + 2 + (loopStart as' pre - as.mctop) = loopStart as' pre
      lia
    | true =>
      simp only [Bool.not_true, if_true, Bool.false_eq_true, if_false]
      rw [exec_cons, exec_nil, MCode.step_bl, toInt_offset (by omega) (by omega)]
      have hal : condHolds ccAl s.flags = true := rfl
      rw [if_pos hal]
      lia
  · obtain ⟨h₁, h₂⟩ := hp.exitRange (as.mcp - 1) (by lia) (by omega)
    rw [guardWords, if_neg h, contAddr, if_neg h, exec_cons, exec_nil, MCode.step_bl,
      toInt_offset (by lia) (by lia)]
    split <;> lia

/-! ### Conditions -/

/-- The ten comparison guards. -/
def isComp : IROp → Bool
  | .lt | .ge | .le | .gt | .ult | .uge | .ule | .ugt | .eq | .ne => true
  | _ => false

theorem isComp_cases {o : IROp} (ho : isComp o) : o = .lt ∨ o = .ge ∨ o = .le ∨ o = .gt ∨ o = .ult ∨ o = .uge ∨
    o = .ule ∨ o = .ugt ∨ o = .eq ∨ o = .ne := by
  cases o <;> first | cases ho; done | simp

theorem signedComp_cases {o : IROp} (ho : signedComp o) : o = .lt ∨ o = .ge ∨ o = .le ∨ o = .gt := by
  cases o <;> first | cases ho; done | simp

theorem condHolds_ge (f : Flags) : condHolds ccGe f = (f.n == f.v) := rfl
theorem condHolds_lt (f : Flags) : condHolds ccLt f = !(f.n == f.v) := rfl
theorem condHolds_gt (f : Flags) : condHolds ccGt f = (f.n == f.v && !f.z) := rfl
theorem condHolds_le (f : Flags) : condHolds ccLe f = !(f.n == f.v && !f.z) := rfl
theorem condHolds_hs (f : Flags) : condHolds ccHs f = f.c := rfl
theorem condHolds_lo (f : Flags) : condHolds ccLo f = !f.c := rfl
theorem condHolds_hi (f : Flags) : condHolds ccHi f = (f.c && !f.z) := rfl
theorem condHolds_ls (f : Flags) : condHolds ccLs f = !(f.c && !f.z) := rfl
theorem condHolds_eq (f : Flags) : condHolds ccEq f = f.z := rfl
theorem condHolds_ne (f : Flags) : condHolds ccNe f = !f.z := rfl
theorem condHolds_mi (f : Flags) : condHolds ccMi f = f.n := rfl
theorem condHolds_pl (f : Flags) : condHolds ccPl f = !f.n := rfl

theorem slt_swap (a b : BitVec 32) : (!a.slt b && !(a == b)) = b.slt a := by
  rw [Bool.eq_iff_iff]
  simp only [BitVec.slt, Bool.and_eq_true, decide_eq_true_eq, Bool.not_eq_true', beq_eq_false_iff_ne,
    decide_eq_false_iff_not, ne_eq, ← BitVec.toInt_inj]
  lia

theorem ult_swap (a b : BitVec 32) : (!a.ult b && !(a == b)) = b.ult a := by
  rw [Bool.eq_iff_iff]
  simp only [BitVec.ult, Bool.and_eq_true, decide_eq_true_eq, Bool.not_eq_true', beq_eq_false_iff_ne,
    decide_eq_false_iff_not, ne_eq, ← BitVec.toNat_inj]
  lia

/-- After a comparison the mapped condition holds exactly if the guard fails. -/
theorem condHolds_compmap {o : IROp} (ho : isComp o) {a b : BitVec 32} {g : Bool}
    (hg : evalGuard o a b = some g) : condHolds (asmCompmap o) (cmp a b) = !g := by
  rcases isComp_cases ho with rfl | rfl | rfl | rfl | rfl | rfl | rfl | rfl | rfl | rfl
  all_goals
    obtain rfl := Option.some.inj hg
    simp only [asmCompmap, condHolds_ge, condHolds_lt, condHolds_gt, condHolds_le, condHolds_hs,
      condHolds_lo, condHolds_hi, condHolds_ls, condHolds_eq, condHolds_ne, cmp_nv, cmp_c, cmp_z,
      BitVec.sle_eq_not_slt, BitVec.ule_eq_not_ult, slt_swap, ult_swap, Bool.not_not, bne]

/-- The comparison with its operands swapped. -/
def flipComp : IROp → IROp
  | .lt => .gt
  | .ge => .le
  | .le => .ge
  | .gt => .lt
  | .ult => .ugt
  | .uge => .ule
  | .ule => .uge
  | .ugt => .ult
  | o => o

theorem isComp_flipComp {o : IROp} (ho : isComp o) : isComp (flipComp o) := by
  rcases isComp_cases ho with rfl | rfl | rfl | rfl | rfl | rfl | rfl | rfl | rfl | rfl <;> rfl

theorem swapCc_compmap {o : IROp} (ho : isComp o) :
    swapCc (asmCompmap o) = asmCompmap (flipComp o) := by
  rcases isComp_cases ho with rfl | rfl | rfl | rfl | rfl | rfl | rfl | rfl | rfl | rfl <;> rfl

theorem evalGuard_flipComp {o : IROp} (ho : isComp o) (a b : BitVec 32) :
    evalGuard (flipComp o) b a = evalGuard o a b := by
  rcases isComp_cases ho with rfl | rfl | rfl | rfl | rfl | rfl | rfl | rfl | rfl | rfl
  all_goals
    simp only [flipComp, evalGuard, BitVec.sle_eq_not_slt, BitVec.ule_eq_not_ult, Bool.not_not,
      Bool.beq_comm (a := b), bne]

/-- The exact result of an addition, in terms of the word. -/
theorem toInt_addWithCarry (x y : BitVec 32) (c : Bool) :
    let e := x.toInt + y.toInt + (c.toNat : ℤ)
    Dbl.FitsInt32 e ∧ (addWithCarry x y c).1.toInt = e ∨
      ¬ Dbl.FitsInt32 e ∧ 0 ≤ e ∧ (addWithCarry x y c).1.toInt < 0 ∨
      ¬ Dbl.FitsInt32 e ∧ e < 0 ∧ 0 ≤ (addWithCarry x y c).1.toInt := by
  intro e
  have hr := addWithCarry_toInt x y c
  have he : -2 ^ 32 ≤ e ∧ e < 2 ^ 32 := by
    have hx := BitVec.le_toInt x
    have hx' := @BitVec.toInt_lt 32 x
    have hy := BitVec.le_toInt y
    have hy' := @BitVec.toInt_lt 32 y
    have hc : (c.toNat : ℤ) ≤ 1 := by cases c <;> simp
    simp only [e]
    lia
  change (addWithCarry x y c).1.toInt = e.bmod (2 ^ 32) at hr
  rw [hr, Int.bmod_def]
  unfold Dbl.FitsInt32
  split <;> lia

/-- **After an addition that sets the flags, the mapped condition is the failure of the comparison of
the sum with zero, unless an ordering is tested and the sum wraps around.**  Where zero itself fails
or passes along with one side, a sum that wraps around to zero does no harm. -/
theorem condHolds_sum {o : IROp} (ho : signedComp o ∨ o = .eq ∨ o = .ne) {x y : BitVec 32} {c g : Bool}
    (hg : evalGuard o (addWithCarry x y c).1 0 = some g) :
    condHolds (asmCompmap o) (addWithCarry x y c).2 = !g ↔
      ¬ (signedComp o ∧ ¬ Dbl.FitsInt32 (x.toInt + y.toInt + (c.toNat : ℤ)) ∧
        (o = .le ∨ o = .gt → (addWithCarry x y c).1 ≠ 0)) := by
  have hcases := toInt_addWithCarry x y c
  have hs := addWithCarry_sign x y c
  have hz : ((addWithCarry x y c).1 = 0) ↔ (addWithCarry x y c).1.toInt = 0 := by
    rw [← BitVec.toInt_inj]
    rfl
  have hfz : (addWithCarry x y c).2.z = decide ((addWithCarry x y c).1.toInt = 0) := by
    rw [addWithCarry_z, Bool.eq_iff_iff, beq_iff_eq, decide_eq_true_eq, hz]
  have h0 : (0 : BitVec 32).toInt = 0 := rfl
  simp only [ne_eq, hz]
  rcases ho with ho | rfl | rfl
  on_goal 1 => rcases signedComp_cases ho with rfl | rfl | rfl | rfl
  all_goals
    obtain rfl := Option.some.inj hg
    rw [Bool.eq_iff_iff]
    simp only [asmCompmap, condHolds_ge, condHolds_lt, condHolds_gt, condHolds_le, condHolds_eq,
      condHolds_ne, hs, hfz, hz, BitVec.slt, BitVec.sle, h0, signedComp, bne,
      Bool.not_eq_true', Bool.and_eq_true, Bool.beq_eq_decide_eq]
    generalize x.toInt + y.toInt + (c.toNat : ℤ) = e at *
    rcases hcases with ⟨hf, ht⟩ | ⟨hf, h₁, h₂⟩ | ⟨hf, h₁, h₂⟩ <;> simp [hf] <;> lia

/-- After a logical instruction the condition that works with `tst` is the failure of the comparison
of its result with zero. -/
theorem condHolds_tstCc {o : IROp} (ho : isComp o) {cc : BitVec 4}
    (hcc : tstCc (asmCompmap o) = some cc) {v : BitVec 32} {g : Bool}
    (hg : evalGuard o v 0 = some g) {f : Flags} (hn : f.n = v.msb) (hz : f.z = (v == 0)) :
    condHolds cc f = !g := by
  have h0 : (0 : BitVec 32).toInt = 0 := rfl
  rcases isComp_cases ho with rfl | rfl | rfl | rfl | rfl | rfl | rfl | rfl | rfl | rfl
  all_goals try cases hcc
  all_goals
    obtain rfl := Option.some.inj hg
    simp only [asmCompmap, condHolds_pl, condHolds_mi, condHolds_eq, condHolds_ne, hn, hz, bne,
      Bool.not_not, BitVec.msb_eq_toInt, BitVec.slt, h0]

theorem asmCompmap_lt (o : IROp) : (asmCompmap o).toNat < 14 := by
  cases o <;> decide

theorem tstCc_lt {o : IROp} {cc : BitVec 4} (h : tstCc (asmCompmap o) = some cc) :
    cc.toNat < 14 := by
  cases o <;> simp only [asmCompmap] at h <;> revert h cc <;> decide

end ArmAsm
