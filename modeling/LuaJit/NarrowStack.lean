/-
**The instruction stack of narrowing.**

Backpropagation writes a program for a stack machine into an array of `NARROW_MAX_STACK` entries, and the
stack machine keeps its operands in the same array.  The entry of the recursion checks for room, with a red
zone of four entries; the instruction for an addition or subtraction is pushed behind both operands without
a check.  An operand on the left is followed by the check of the one on the right, so only operators of a
chain through right operands can pile up behind the last check.

Main definitions:

* `Ir.narrowPush`, `Ir.stripovBackpropC`, `Ir.convBackpropC` — backpropagation with checked writes;
* `Ir.emitSlots` — the stack machine on the array: the instruction it reads next and its stack pointer;
* `Ir.narrowSize` — the conversions that an expression needs, and the entries of its program;
* `Ir.NarrowFits` — the operators of the expression have an entry each.

Main results:

* `Ir.stripovBackpropC_eq` — stripping of overflow checks stays inside;
* `Ir.convBackprop_shape` — a program pushes one operand and does not write to entries not yet read;
* `Ir.narrow_stack_iff` — **backpropagation stays inside exactly when the operators fit**.
-/

import LuaJit.FoldConv

set_option relaxedAutoImplicit false
set_option autoImplicit false

namespace Ir

open JitState

/-! ### Backpropagation with checked writes -/

/-- `NARROW_MAX_STACK`. -/
def narrowMaxStack : ℕ := 256

/-- `*nc->sp++ = ins`, inside the array. -/
def narrowPush (stack : List NarrowIns) (ins : NarrowIns) : Option (List NarrowIns) :=
  if narrowSp stack + ins.slots ≤ narrowMaxStack then some (stack ++ [ins]) else none

/-- The overflow-checking instructions that are stripped. -/
def IsStripped (J : JitState) (mode ref : ℕ) : Prop :=
  (J.ir ref).o = .addov ∨ (J.ir ref).o = .subov ∨ ((J.ir ref).o = .mulov ∧ convCheck mode = irconvAny)

instance (J : JitState) (mode ref : ℕ) : Decidable (IsStripped J mode ref) :=
  inferInstanceAs (Decidable (_ ∨ _))

/-- `narrow_stripov_backprop`. -/
def stripovBackpropC (J : JitState) (mode : ℕ) : ℕ → List NarrowIns → ℕ → Option (List NarrowIns)
  | room, stack, ref =>
      if IsStripped J mode ref then
        match narrowBpcGet J ref 0 with
        | some bp => narrowPush stack (.ref bp.val)
        | none =>
            match room with
            | 0 => narrowPush stack (.ref ref)
            | room + 1 =>
                if narrowSp stack < narrowMaxsp then
                  match stripovBackpropC J mode room stack (J.ir ref).op1 with
                  | none => none
                  | some stack1 =>
                      if narrowSp stack1 < narrowMaxsp then
                        match stripovBackpropC J mode room stack1 (J.ir ref).op2 with
                        | none => none
                        | some stack2 =>
                            if narrowSp stack2 < narrowMaxsp then
                              narrowPush stack2 (.op (J.ir ref).o.stripov .int ref)
                            else narrowPush stack (.ref ref)
                      else narrowPush stack (.ref ref)
                else narrowPush stack (.ref ref)
      else narrowPush stack (.ref ref)

/-- The mode of a cache lookup: inner conversions need a stronger check. -/
def innerMode (mode room : ℕ) : ℕ :=
  if convCheck mode = irconvIndex ∧ room + 1 < narrowMaxBackprop then mode + (irconvCheck - irconvIndex) else mode

/-- The lookup of an existing conversion to int, for a conversion to 64 bits. -/
def sextGet (J : JitState) (t : IRType) (ref : ℕ) : Option BPropEntry :=
  if t = .i64 then narrowBpcGet J ref (irconv .int .num + irconvIndex) else none

/-- `narrow_conv_backprop`. -/
@[grind =]
def convBackpropC (fp : FpOps) (J : JitState) (t : IRType) (mode : ℕ) :
    ℕ → List NarrowIns → ℕ → Option (ℕ × List NarrowIns)
  | room, stack, ref =>
      if narrowMaxsp ≤ narrowSp stack then some (10, stack)
      else if (J.ir ref).o = .conv ∧ convSrc (J.ir ref).op2 = IRType.int.code then
        match (if convCheck mode ≤ irconvAny then stripovBackpropC J mode (room - 1) stack (J.ir ref).op1
          else narrowPush stack (.ref (J.ir ref).op1)) with
        | none => none
        | some stack => (if t = .i64 then narrowPush stack .sext else some stack).map fun stack => (0, stack)
      else if (J.ir ref).o = .knum then
        match narrowKnum fp mode (J.ir ref).u64 with
        | some k => (narrowPush stack (.int k)).map fun stack => (0, stack)
        | none => some (10, stack)
      else
        match narrowCse J mode ref with
        | some cref => (narrowPush stack (.ref cref)).map fun stack => (0, stack)
        | none =>
            if (J.ir ref).o = .add ∨ (J.ir ref).o = .sub then
              match narrowBpcGet J ref (innerMode mode room) with
              | some bp => (narrowPush stack (.ref bp.val)).map fun stack => (0, stack)
              | none =>
                  match sextGet J t ref with
                  | some bp => do
                      let stack ← narrowPush stack (.ref bp.val)
                      let stack ← narrowPush stack .sext
                      some (0, stack)
                  | none =>
                      match room with
                      | 0 => (narrowPush stack (.conv ref)).map fun stack => (1, stack)
                      | room + 1 =>
                          match convBackpropC fp J t mode room stack (J.ir ref).op1 with
                          | none => none
                          | some (count1, stack1) =>
                              match convBackpropC fp J t mode room stack1 (J.ir ref).op2 with
                              | none => none
                              | some (count2, stack2) =>
                                  if count1 + count2 ≤ 1 then
                                    (narrowPush stack2 (.op (J.ir ref).o t ref)).map fun stack =>
                                      (count1 + count2, stack)
                                  else (narrowPush stack (.conv ref)).map fun stack => (1, stack)
            else (narrowPush stack (.conv ref)).map fun stack => (1, stack)

/-! ### The stack machine on the array -/

/-- `narrow_conv_emit` on the array: the index of the next instruction and the stack pointer.  An operand may
only be written to an entry that has been read. -/
@[grind =]
def emitSlots : List NarrowIns → ℕ → ℕ → Option ℕ
  | [], _, sp => some sp
  | ins :: code, next, sp =>
      let next := next + ins.slots
      match ins with
      | .ref _ | .conv _ | .int _ => if sp < next then emitSlots code next (sp + 1) else none
      | .sext => if 1 ≤ sp then emitSlots code next sp else none
      | .op _ _ _ => if 2 ≤ sp then emitSlots code next (sp - 1) else none

@[simp] theorem narrowSp_nil : narrowSp [] = 0 := rfl

@[simp] theorem narrowSp_append (a b : List NarrowIns) : narrowSp (a ++ b) = narrowSp a + narrowSp b := by
  simp [narrowSp]

@[simp] theorem narrowSp_singleton (ins : NarrowIns) : narrowSp [ins] = ins.slots := by simp [narrowSp]

/-- The program pushes one operand. -/
structure Pushes (code : List NarrowIns) : Prop where
  slots : 1 ≤ narrowSp code
  run : ∀ rest next sp, sp ≤ next →
    emitSlots (code ++ rest) next sp = emitSlots rest (next + narrowSp code) (sp + 1)

theorem pushes_ref (r : ℕ) : Pushes [.ref r] := by
  refine ⟨le_rfl, fun rest next sp hle => ?_⟩
  rw [List.singleton_append, emitSlots]
  exact if_pos (Nat.lt_succ_of_le hle)

theorem pushes_conv (r : ℕ) : Pushes [.conv r] := by
  refine ⟨le_rfl, fun rest next sp hle => ?_⟩
  rw [List.singleton_append, emitSlots]
  exact if_pos (Nat.lt_succ_of_le hle)

theorem pushes_int (k : BitVec 32) : Pushes [.int k] := by
  refine ⟨Nat.le_succ 1, fun rest next sp hle => ?_⟩
  rw [List.singleton_append, emitSlots]
  exact if_pos (Nat.lt_add_right 1 (Nat.lt_succ_of_le hle))

theorem Pushes.sext {code : List NarrowIns} (h : Pushes code) : Pushes (code ++ [NarrowIns.sext]) := by
  refine ⟨by rw [narrowSp_append]; exact Nat.le_add_right_of_le h.slots, fun rest next sp hle => ?_⟩
  rw [List.append_assoc, h.run _ _ _ hle, List.singleton_append, emitSlots, narrowSp_append, narrowSp_singleton,
    Nat.add_assoc]
  exact if_pos (Nat.le_add_left 1 sp)

theorem Pushes.op {a b : List NarrowIns} (ha : Pushes a) (hb : Pushes b) (o : IROp) (t : IRType) (r : ℕ) :
    Pushes (a ++ b ++ [NarrowIns.op o t r]) := by
  have hslots := ha.slots
  refine ⟨by rw [narrowSp_append, narrowSp_append]; omega, fun rest next sp hle => ?_⟩
  rw [List.append_assoc, List.append_assoc, ha.run _ _ _ hle, hb.run _ _ _ (by omega), List.singleton_append, emitSlots,
    narrowSp_append, narrowSp_append, narrowSp_singleton]
  have hsp : sp + 1 + 1 - 1 = sp + 1 := by lia
  have hnext : next + narrowSp a + narrowSp b + (NarrowIns.op o t r).slots =
      next + (narrowSp a + narrowSp b + (NarrowIns.op o t r).slots) := by lia
  rw [← hnext, ← hsp]
  exact if_pos (by omega)

/-! ### The size of a program -/

/-- The entries of the program for a reference whose overflow checks are stripped, from a height of the
stack on. -/
def stripovSize (J : JitState) (mode : ℕ) : ℕ → ℕ → ℕ → ℕ
  | 0, _, _ => 1
  | room + 1, h, ref =>
      if IsStripped J mode ref ∧ narrowBpcGet J ref 0 = none ∧ h < narrowMaxsp then
        let n1 := stripovSize J mode room h (J.ir ref).op1
        let n2 := stripovSize J mode room (h + n1) (J.ir ref).op2
        if h + n1 < narrowMaxsp ∧ h + n1 + n2 < narrowMaxsp then n1 + n2 + 1 else 1
      else 1

/-- The conversion is propagated to the operands of the reference: it is an addition or subtraction that is
neither converted nor cached. -/
def Expands (J : JitState) (t : IRType) (mode room h ref : ℕ) : Prop :=
  h < narrowMaxsp ∧ narrowCse J mode ref = none ∧ ((J.ir ref).o = .add ∨ (J.ir ref).o = .sub) ∧
    narrowBpcGet J ref (innerMode mode room) = none ∧ sextGet J t ref = none

instance (J : JitState) (t : IRType) (mode room h ref : ℕ) : Decidable (Expands J t mode room h ref) :=
  inferInstanceAs (Decidable (_ ∧ _))

/-- The conversions and the entries of a reference that is not expanded. -/
def leafSize (fp : FpOps) (J : JitState) (t : IRType) (mode room h ref : ℕ) : ℕ × ℕ :=
  if narrowMaxsp ≤ h then (10, 0)
  else if (J.ir ref).o = .conv ∧ convSrc (J.ir ref).op2 = IRType.int.code then
    (0, (if convCheck mode ≤ irconvAny then stripovSize J mode (room - 1) h (J.ir ref).op1 else 1) +
      if t = .i64 then 1 else 0)
  else if (J.ir ref).o = .knum then if (narrowKnum fp mode (J.ir ref).u64).isSome then (0, 2) else (10, 0)
  else if (narrowCse J mode ref).isSome then (0, 1)
  else if (J.ir ref).o = .add ∨ (J.ir ref).o = .sub then
    if (narrowBpcGet J ref (innerMode mode room)).isSome then (0, 1)
    else if (sextGet J t ref).isSome then (0, 2)
    else (1, 1)
  else (1, 1)

/-- The conversions that an expression needs and the entries of its program, from a height of the stack on. -/
def narrowSize (fp : FpOps) (J : JitState) (t : IRType) (mode : ℕ) : ℕ → ℕ → ℕ → ℕ × ℕ
  | 0, h, ref => leafSize fp J t mode 0 h ref
  | room + 1, h, ref =>
      if Expands J t mode (room + 1) h ref then
        let a := narrowSize fp J t mode room h (J.ir ref).op1
        let b := narrowSize fp J t mode room (h + a.2) (J.ir ref).op2
        if a.1 + b.1 ≤ 1 then (a.1 + b.1, a.2 + b.2 + 1) else (1, 1)
      else leafSize fp J t mode (room + 1) h ref

/-- The operators of an expression fit: behind the programs of both operands there is an entry left for
the instruction of every addition and subtraction that is narrowed. -/
def NarrowFits (fp : FpOps) (J : JitState) (t : IRType) (mode : ℕ) : ℕ → ℕ → ℕ → Prop
  | 0, _, _ => True
  | room + 1, h, ref =>
      Expands J t mode (room + 1) h ref →
        let a := narrowSize fp J t mode room h (J.ir ref).op1
        let b := narrowSize fp J t mode room (h + a.2) (J.ir ref).op2
        NarrowFits fp J t mode room h (J.ir ref).op1 ∧ NarrowFits fp J t mode room (h + a.2) (J.ir ref).op2 ∧
          (a.1 + b.1 ≤ 1 → h + a.2 + b.2 < narrowMaxStack)

/-! ### Stripping -/

theorem narrowPush_eq {stack : List NarrowIns} {ins : NarrowIns} (h : narrowSp stack + ins.slots ≤ narrowMaxStack) :
    narrowPush stack ins = some (stack ++ [ins]) := if_pos h

/-- **Stripping of overflow checks stays inside** the stack without its red zone, and pushes one operand. -/
theorem stripovBackpropC_eq (J : JitState) (mode : ℕ) {room : ℕ} {stack : List NarrowIns} {ref : ℕ}
    (h : narrowSp stack < narrowMaxsp) :
    ∃ code, Pushes code ∧ narrowStripovBackprop J mode room stack ref = stack ++ code ∧
      stripovBackpropC J mode room stack ref = some (stack ++ code) ∧
      narrowSp code = stripovSize J mode room (narrowSp stack) ref ∧ narrowSp stack + narrowSp code ≤ narrowMaxsp := by
  have hmax : narrowMaxsp + 4 = narrowMaxStack := rfl
  have hpush : ∀ r, narrowPush stack (.ref r) = some (stack ++ [NarrowIns.ref r]) := fun r =>
    narrowPush_eq (by simp only [NarrowIns.slots]; omega)
  induction room generalizing stack ref with
  | zero =>
    rw [narrowStripovBackprop, stripovBackpropC]
    by_cases hs : IsStripped J mode ref
    · rw [if_pos (show _ ∨ _ from hs), if_pos hs]
      cases hbp : narrowBpcGet J ref 0 with
      | some bp => exact ⟨[.ref bp.val], pushes_ref _, rfl, hpush _, rfl, h⟩
      | none => exact ⟨[.ref ref], pushes_ref _, rfl, hpush _, rfl, h⟩
    · rw [if_neg (show ¬(_ ∨ _) from hs), if_neg hs]
      exact ⟨[.ref ref], pushes_ref _, rfl, hpush _, rfl, h⟩
  | succ room ih =>
    rw [narrowStripovBackprop, stripovBackpropC, stripovSize]
    by_cases hs : IsStripped J mode ref
    swap
    · rw [if_neg (show ¬(_ ∨ _) from hs), if_neg hs, if_neg (fun hc : IsStripped J mode ref ∧ _ => hs hc.1)]
      exact ⟨[.ref ref], pushes_ref _, rfl, hpush _, rfl, h⟩
    rw [if_pos (show _ ∨ _ from hs), if_pos hs]
    cases hbp : narrowBpcGet J ref 0 with
    | some bp =>
      rw [if_neg (fun hc : _ ∧ some bp = none ∧ _ => by cases hc.2.1)]
      exact ⟨[.ref bp.val], pushes_ref _, rfl, hpush _, rfl, h⟩
    | none =>
      dsimp only
      rw [if_pos h, if_pos h, if_pos (show IsStripped J mode ref ∧ none = none ∧ _ from ⟨hs, rfl, h⟩)]
      obtain ⟨code1, hp1, heq1, hc1, hn1, hle1⟩ := @ih _ (J.ir ref).op1 h hpush
      rw [heq1, hc1, ← hn1]
      dsimp only
      rw [narrowSp_append]
      by_cases h1 : narrowSp stack + narrowSp code1 < narrowMaxsp
      swap
      · rw [if_neg h1, if_neg h1, if_neg (fun hc : _ ∧ _ => h1 hc.1)]
        exact ⟨[.ref ref], pushes_ref _, rfl, hpush _, rfl, h⟩
      have h1' : narrowSp (stack ++ code1) < narrowMaxsp := by rwa [narrowSp_append]
      have hpush1 : ∀ r, narrowPush (stack ++ code1) (.ref r) = some (stack ++ code1 ++ [NarrowIns.ref r]) := fun r =>
        narrowPush_eq (by simp only [NarrowIns.slots]; omega)
      obtain ⟨code2, hp2, heq2, hc2, hn2, hle2⟩ := @ih _ (J.ir ref).op2 h1' hpush1
      rw [narrowSp_append] at hn2 hle2
      rw [if_pos h1, if_pos h1, heq2, hc2, ← hn2]
      dsimp only
      rw [narrowSp_append, narrowSp_append]
      by_cases h2 : narrowSp stack + narrowSp code1 + narrowSp code2 < narrowMaxsp
      · rw [if_pos h2, if_pos h2, if_pos (And.intro h1 h2)]
        refine ⟨code1 ++ code2 ++ [NarrowIns.op (J.ir ref).o.stripov .int ref], hp1.op hp2 _ _ _, ?_, ?_, ?_, ?_⟩
        · simp only [List.append_assoc]
        · rw [narrowPush_eq]
          · simp only [List.append_assoc]
          · rw [narrowSp_append, narrowSp_append]
            simp only [NarrowIns.slots]
            lia
        · rw [narrowSp_append, narrowSp_append]
          rfl
        · rw [narrowSp_append, narrowSp_append, narrowSp_singleton]
          simp only [NarrowIns.slots]
          lia
      · rw [if_neg h2, if_neg h2, if_neg (fun hc : _ ∧ _ => h2 hc.2)]
        exact ⟨[.ref ref], pushes_ref _, rfl, hpush _, rfl, h⟩

/-! ### Conversions -/

/-- The result of backpropagation is the stack with a program of the given size, the program pushes one
operand if it is emitted, and the writes are inside the array exactly under a condition. -/
def Agrees (stack : List NarrowIns) (r : ℕ × List NarrowIns) (c : Option (ℕ × List NarrowIns)) (size : ℕ × ℕ)
    (fits : Prop) : Prop :=
  ∃ code, r = (size.1, stack ++ code) ∧ narrowSp code = size.2 ∧ (size.1 ≤ 1 → Pushes code) ∧
    (fits → c = some r) ∧ (¬fits → c = none)

theorem Agrees.of_push {stack : List NarrowIns} {r : ℕ × List NarrowIns} {c : Option (ℕ × List NarrowIns)}
    {code : List NarrowIns} {n k : ℕ} (hp : Pushes code) (hr : r = (n, stack ++ code))
    (hc : c = some (n, stack ++ code)) (hk : narrowSp code = k) : Agrees stack r c (n, k) True :=
  ⟨code, hr, hk, fun _ => hp, fun _ => hc.trans (congrArg some hr.symm), fun h => absurd trivial h⟩

theorem agrees_skip (stack : List NarrowIns) : Agrees stack (10, stack) (some (10, stack)) (10, 0) True :=
  ⟨[], by rw [List.append_nil], rfl, fun h => absurd h (by decide), fun _ => rfl, fun h => absurd trivial h⟩

variable {fp : FpOps} {J : JitState} {t : IRType} {mode : ℕ}

/-- A reference that is not expanded. -/
theorem convBackprop_leaf {room : ℕ} {stack : List NarrowIns} {ref : ℕ}
    (h : room = 0 ∨ ¬Expands J t mode room (narrowSp stack) ref ∨ (J.ir ref).o = .knum) :
    Agrees stack (narrowConvBackprop fp J t mode room stack ref) (convBackpropC fp J t mode room stack ref)
      (leafSize fp J t mode room (narrowSp stack) ref) True := by
  have hmax : narrowMaxsp + 4 = narrowMaxStack := rfl
  rw [narrowConvBackprop.eq_def, convBackpropC.eq_def, leafSize]
  dsimp only
  by_cases hfull : narrowMaxsp ≤ narrowSp stack
  · rw [if_pos hfull, if_pos hfull, if_pos hfull]
    exact agrees_skip stack
  rw [if_neg hfull, if_neg hfull, if_neg hfull]
  have hpush : ∀ ins : NarrowIns, narrowPush stack ins = some (stack ++ [ins]) := fun ins =>
    narrowPush_eq (by cases ins <;> simp only [NarrowIns.slots] <;> lia)
  by_cases hconv : (J.ir ref).o = .conv ∧ convSrc (J.ir ref).op2 = IRType.int.code
  · -- the conversion is undone, with the overflow checks of its operand or without
    rw [if_pos hconv, if_pos hconv, if_pos hconv]
    obtain ⟨code, hp, hcode, hcheck, hsize, hle⟩ : ∃ code, Pushes code ∧
        (if convCheck mode ≤ irconvAny then narrowStripovBackprop J mode (room - 1) stack (J.ir ref).op1
          else stack ++ [NarrowIns.ref (J.ir ref).op1]) = stack ++ code ∧
        (if convCheck mode ≤ irconvAny then stripovBackpropC J mode (room - 1) stack (J.ir ref).op1
          else narrowPush stack (.ref (J.ir ref).op1)) = some (stack ++ code) ∧
        narrowSp code = (if convCheck mode ≤ irconvAny then
          stripovSize J mode (room - 1) (narrowSp stack) (J.ir ref).op1 else 1) ∧
        narrowSp stack + narrowSp code ≤ narrowMaxsp := by
      by_cases hany : convCheck mode ≤ irconvAny
      · rw [if_pos hany, if_pos hany, if_pos hany]
        exact stripovBackpropC_eq J mode (by omega)
      · rw [if_neg hany, if_neg hany, if_neg hany]
        exact ⟨_, pushes_ref _, rfl, hpush _, rfl, by simp only [narrowSp_singleton, NarrowIns.slots]; omega⟩
    rw [hcode, hcheck, ← hsize]
    dsimp only
    by_cases ht : t = .i64
    · rw [if_pos ht, if_pos ht, if_pos ht]
      have hsext : narrowPush (stack ++ code) .sext = some (stack ++ code ++ [NarrowIns.sext]) :=
        narrowPush_eq (by rw [narrowSp_append]; simp only [NarrowIns.slots]; lia)
      rw [hsext]
      exact .of_push hp.sext (by rw [List.append_assoc]) (by rw [List.append_assoc]; rfl) (by rw [narrowSp_append]; rfl)
    · rw [if_neg ht, if_neg ht, if_neg ht]
      exact .of_push hp rfl rfl rfl
  rw [if_neg hconv, if_neg hconv, if_neg hconv]
  by_cases hnum : (J.ir ref).o = .knum
  · rw [if_pos hnum, if_pos hnum, if_pos hnum]
    cases narrowKnum fp mode (J.ir ref).u64 with
    | some k => exact .of_push (pushes_int k) rfl (by dsimp only; rw [hpush _]; rfl) rfl
    | none => exact agrees_skip stack
  rw [if_neg hnum, if_neg hnum, if_neg hnum]
  cases hcse : narrowCse J mode ref with
  | some cref => exact .of_push (pushes_ref cref) rfl (by dsimp only; rw [hpush _]; rfl) rfl
  | none =>
    dsimp only
    by_cases hadd : (J.ir ref).o = .add ∨ (J.ir ref).o = .sub
    swap
    · rw [if_neg hadd, if_neg hadd, if_neg (show ¬(none : Option ℕ).isSome = true from nofun), if_neg hadd]
      exact .of_push (pushes_conv ref) rfl (by rw [hpush _]; rfl) rfl
    have hinner : (if convCheck mode = irconvIndex ∧ room + 1 < narrowMaxBackprop then
        mode + (irconvCheck - irconvIndex) else mode) = innerMode mode room := rfl
    have hget : (if t = .i64 then narrowBpcGet J ref (irconv .int .num + irconvIndex) else none) =
        sextGet J t ref := rfl
    rw [if_pos hadd, if_pos hadd, if_neg (show ¬(none : Option ℕ).isSome = true from nofun), if_pos hadd, hinner, hget]
    cases hbpc : narrowBpcGet J ref (innerMode mode room) with
    | some bp => exact .of_push (pushes_ref bp.val) rfl (by dsimp only; rw [hpush _]; rfl) rfl
    | none =>
      dsimp only
      cases hsext : sextGet J t ref with
      | some bp =>
        have hsecond : narrowPush (stack ++ [NarrowIns.ref bp.val]) .sext =
            some (stack ++ [NarrowIns.ref bp.val] ++ [NarrowIns.sext]) :=
          narrowPush_eq (by rw [narrowSp_append]; simp only [narrowSp_singleton, NarrowIns.slots]; omega)
        refine .of_push (show Pushes ([NarrowIns.ref bp.val] ++ [NarrowIns.sext]) from (pushes_ref bp.val).sext) rfl ?_ rfl
        dsimp only
        rw [hpush _]
        dsimp only [Option.bind_eq_bind, Option.bind_some]
        rw [hsecond, List.append_assoc]
        rfl
      | none =>
        cases room with
        | zero => exact .of_push (pushes_conv ref) rfl (by dsimp only; rw [hpush _]; rfl) rfl
        | succ room =>
          rcases h with h | h | h
          · cases h
          · exact absurd ⟨by omega, hcse, hadd, hbpc, hsext⟩ h
          · exact absurd h hnum

/-- An expanded reference is an addition or a subtraction. -/
theorem Expands.not_leaf {room h ref : ℕ} (he : Expands J t mode room h ref) :
    ¬((J.ir ref).o = .conv ∧ convSrc (J.ir ref).op2 = IRType.int.code) ∧ (J.ir ref).o ≠ .knum := by
  rcases he.2.2.1 with ho | ho
  · rw [ho]
    exact ⟨nofun, nofun⟩
  · rw [ho]
    exact ⟨nofun, nofun⟩

/-- Backpropagation to the operands. -/
theorem narrowConvBackprop_expands {room : ℕ} {stack : List NarrowIns} {ref : ℕ}
    (he : Expands J t mode (room + 1) (narrowSp stack) ref) :
    narrowConvBackprop fp J t mode (room + 1) stack ref =
      (let a := narrowConvBackprop fp J t mode room stack (J.ir ref).op1
       let b := narrowConvBackprop fp J t mode room a.2 (J.ir ref).op2
       if a.1 + b.1 ≤ 1 then (a.1 + b.1, b.2 ++ [NarrowIns.op (J.ir ref).o t ref])
       else (1, stack ++ [NarrowIns.conv ref])) := by
  obtain ⟨hconv, hnum⟩ := he.not_leaf
  obtain ⟨hfull, hcse, hadd, hbpc, hsext⟩ := he
  have hinner : (if convCheck mode = irconvIndex ∧ room + 1 + 1 < narrowMaxBackprop then
      mode + (irconvCheck - irconvIndex) else mode) = innerMode mode (room + 1) := rfl
  have hget : (if t = .i64 then narrowBpcGet J ref (irconv .int .num + irconvIndex) else none) =
      sextGet J t ref := rfl
  rw [narrowConvBackprop.eq_def]
  dsimp only
  rw [if_neg (by omega), if_neg hconv, if_neg hnum, hcse]
  dsimp only
  rw [if_pos hadd, hinner, hbpc, hget, hsext]

theorem convBackpropC_expands {room : ℕ} {stack : List NarrowIns} {ref : ℕ}
    (he : Expands J t mode (room + 1) (narrowSp stack) ref) :
    convBackpropC fp J t mode (room + 1) stack ref =
      match convBackpropC fp J t mode room stack (J.ir ref).op1 with
      | none => none
      | some (count1, stack1) =>
          match convBackpropC fp J t mode room stack1 (J.ir ref).op2 with
          | none => none
          | some (count2, stack2) =>
              if count1 + count2 ≤ 1 then
                (narrowPush stack2 (.op (J.ir ref).o t ref)).map fun stack => (count1 + count2, stack)
              else (narrowPush stack (.conv ref)).map fun stack => (1, stack) := by
  obtain ⟨hconv, hnum⟩ := he.not_leaf
  obtain ⟨hfull, hcse, hadd, hbpc, hsext⟩ := he
  rw [convBackpropC.eq_def]
  dsimp only
  rw [if_neg (by omega), if_neg hconv, if_neg hnum, hcse]
  dsimp only
  rw [if_pos hadd, hbpc]
  dsimp only
  rw [hsext]

/-- **Backpropagation**: its program has the size of the expression and pushes one operand; the writes are
inside the array exactly if the operators fit. -/
theorem convBackprop_shape (room : ℕ) (stack : List NarrowIns) (ref : ℕ) :
    Agrees stack (narrowConvBackprop fp J t mode room stack ref) (convBackpropC fp J t mode room stack ref)
      (narrowSize fp J t mode room (narrowSp stack) ref) (NarrowFits fp J t mode room (narrowSp stack) ref) := by
  induction room generalizing stack ref with
  | zero => exact convBackprop_leaf (.inl rfl)
  | succ room ih =>
    by_cases he : Expands J t mode (room + 1) (narrowSp stack) ref
    swap
    · rw [narrowSize, if_neg he]
      obtain ⟨code, h₁, h₂, h₃, h₄, -⟩ := @convBackprop_leaf fp _ _ _ _ _ _ (.inr (.inl he))
      exact ⟨code, h₁, h₂, h₃, fun _ => h₄ trivial, fun hf => absurd (fun hc => absurd hc he) hf⟩
    have hfull := he.1
    have hmax : narrowMaxsp + 4 = narrowMaxStack := rfl
    rw [narrowConvBackprop_expands he, convBackpropC_expands he, narrowSize, if_pos he, NarrowFits]
    obtain ⟨code1, hr1, hn1, hp1, hf1, hnf1⟩ := ih stack (J.ir ref).op1
    obtain ⟨code2, hr2, hn2, hp2, hf2, hnf2⟩ := ih (stack ++ code1) (J.ir ref).op2
    rw [narrowSp_append, hn1] at hr2 hn2 hp2 hf2 hnf2
    dsimp only
    rw [hr1]
    dsimp only
    rw [hr2]
    dsimp only
    set a := narrowSize fp J t mode room (narrowSp stack) (J.ir ref).op1
    set b := narrowSize fp J t mode room (narrowSp stack + a.2) (J.ir ref).op2
    have hsp : narrowSp stack + a.2 + b.2 < narrowMaxStack ↔
        narrowSp (stack ++ code1 ++ code2) + (NarrowIns.op (J.ir ref).o t ref).slots ≤ narrowMaxStack := by
      rw [narrowSp_append, narrowSp_append, hn1, hn2]
      exact Nat.lt_iff_add_one_le
    by_cases hcount : a.1 + b.1 ≤ 1
    · rw [if_pos hcount, if_pos hcount]
      refine ⟨code1 ++ code2 ++ [NarrowIns.op (J.ir ref).o t ref], ?_, ?_, fun _ => ?_, fun hf => ?_, fun hnf => ?_⟩
      · rw [List.append_assoc, List.append_assoc, List.append_assoc]
      · rw [narrowSp_append, narrowSp_append, narrowSp_singleton, hn1, hn2]
        rfl
      · exact (hp1 (by omega)).op (hp2 (by lia)) _ _ _
      · obtain ⟨hfit1, hfit2, hroom⟩ := hf he
        rw [hf1 hfit1, hr1]
        dsimp only
        rw [hf2 hfit2, hr2]
        dsimp only
        rw [if_pos hcount, narrowPush_eq (hsp.1 (hroom hcount))]
        rfl
      · by_cases hfit1 : NarrowFits fp J t mode room (narrowSp stack) (J.ir ref).op1
        swap
        · rw [hnf1 hfit1]
        rw [hf1 hfit1, hr1]
        dsimp only
        by_cases hfit2 : NarrowFits fp J t mode room (narrowSp stack + a.2) (J.ir ref).op2
        swap
        · rw [hnf2 hfit2]
        rw [hf2 hfit2, hr2]
        dsimp only
        have hroom : ¬narrowSp stack + a.2 + b.2 < narrowMaxStack := fun hroom =>
          hnf fun _ => ⟨hfit1, hfit2, fun _ => hroom⟩
        rw [if_pos hcount, narrowPush, if_neg (fun hc => hroom (hsp.2 hc))]
        rfl
    · rw [if_neg hcount, if_neg hcount]
      refine ⟨[.conv ref], rfl, rfl, fun _ => pushes_conv ref, fun hf => ?_, fun hnf => ?_⟩
      · obtain ⟨hfit1, hfit2, -⟩ := hf he
        rw [hf1 hfit1, hr1]
        dsimp only
        rw [hf2 hfit2, hr2]
        dsimp only
        rw [if_neg hcount, narrowPush_eq (by simp only [NarrowIns.slots]; omega)]
        rfl
      · by_cases hfit1 : NarrowFits fp J t mode room (narrowSp stack) (J.ir ref).op1
        swap
        · rw [hnf1 hfit1]
        rw [hf1 hfit1, hr1]
        dsimp only
        by_cases hfit2 : NarrowFits fp J t mode room (narrowSp stack + a.2) (J.ir ref).op2
        swap
        · rw [hnf2 hfit2]
        exact absurd (fun _ => ⟨hfit1, hfit2, fun hc => absurd hc hcount⟩) hnf

/-- The checked program is the program. -/
theorem convBackpropC_eq {room : ℕ} {stack : List NarrowIns} {ref : ℕ} {r : ℕ × List NarrowIns}
    (h : convBackpropC fp J t mode room stack ref = some r) : r = narrowConvBackprop fp J t mode room stack ref := by
  obtain ⟨code, -, -, -, hfit, hnfit⟩ := @convBackprop_shape fp J t mode room stack ref
  by_cases hf : NarrowFits fp J t mode room (narrowSp stack) ref
  · exact (Option.some.inj ((hfit hf).symm.trans h)).symm
  · rw [hnfit hf] at h
    cases h

/-! ### Chains through right operands -/

/-- The additions and subtractions on a path, counting those that are left through the right operand. -/
@[grind =]
def rightDepth (J : JitState) : ℕ → ℕ → ℕ
  | 0, _ => 0
  | room + 1, ref =>
      if (J.ir ref).o = .add ∨ (J.ir ref).o = .sub then
        max (rightDepth J room (J.ir ref).op1) (rightDepth J room (J.ir ref).op2 + 1)
      else 0

theorem stripovSize_le {room h ref : ℕ} (hh : h < narrowMaxsp) : h + stripovSize J mode room h ref ≤ narrowMaxsp := by
  induction room generalizing h ref with
  | zero => exact hh
  | succ room ih =>
    rw [stripovSize]
    by_cases hs : IsStripped J mode ref ∧ narrowBpcGet J ref 0 = none ∧ h < narrowMaxsp
    swap
    · rw [if_neg hs]
      exact hh
    rw [if_pos hs]
    dsimp only
    split_ifs with hn
    · omega
    · exact hh

theorem leafSize_le {room h ref : ℕ} (hh : h < narrowMaxsp) :
    h + (leafSize fp J t mode room h ref).2 ≤ narrowMaxsp + 1 := by
  have hstrip := @stripovSize_le J mode (room - 1) _ (J.ir ref).op1 hh
  rw [leafSize, if_neg (by omega)]
  split_ifs <;> dsimp only <;> lia

theorem narrowSize_full {room h ref : ℕ} (hh : narrowMaxsp ≤ h) : narrowSize fp J t mode room h ref = (10, 0) := by
  cases room with
  | zero => exact if_pos hh
  | succ room =>
    rw [narrowSize, if_neg (fun he : Expands J t mode (room + 1) h ref => by have := he.1; omega)]
    exact if_pos hh

/-- The operators behind the last check are those of a chain through right operands. -/
theorem narrowSize_le (room h ref : ℕ) (hh : h < narrowMaxsp) :
    h + (narrowSize fp J t mode room h ref).2 ≤ narrowMaxsp + 1 + rightDepth J room ref := by
  induction room generalizing h ref with
  | zero => exact leafSize_le hh
  | succ room ih =>
    rw [narrowSize]
    by_cases he : Expands J t mode (room + 1) h ref
    swap
    · rw [if_neg he]
      exact (leafSize_le hh).trans (Nat.le_add_right _ _)
    rw [if_pos he, rightDepth, if_pos he.2.2.1]
    dsimp only
    have h1 := ih h (J.ir ref).op1 hh
    set a := narrowSize fp J t mode room h (J.ir ref).op1
    split_ifs with hcount
    · by_cases h2 : h + a.2 < narrowMaxsp
      · have h3 := ih (h + a.2) (J.ir ref).op2 h2
        dsimp only
        lia
      · rw [narrowSize_full (by omega)] at hcount
        omega
    · dsimp only
      lia

/-- **Three right operands deep** the operators fit. -/
theorem narrowFits_of_rightDepth {room h ref : ℕ} (hd : rightDepth J room ref ≤ 3) :
    NarrowFits fp J t mode room h ref := by
  induction room generalizing h ref with
  | zero => trivial
  | succ room ih =>
    intro he
    rw [rightDepth, if_pos he.2.2.1] at hd
    refine ⟨ih (by lia), ih (by lia), fun hcount => ?_⟩
    set a := narrowSize fp J t mode room h (J.ir ref).op1
    have hmax : narrowMaxsp + 4 = narrowMaxStack := rfl
    by_cases h2 : h + a.2 < narrowMaxsp
    · have h3 := @narrowSize_le fp J t mode room _ (J.ir ref).op2 h2
      lia
    · rw [narrowSize_full (by lia)] at hcount
      omega

/-! ### The claim -/

/-- Backpropagation from the empty stack writes inside the array, and the stack machine runs its program to
one operand. -/
def NarrowSafe (fp : FpOps) (J : JitState) (t : IRType) (mode ref : ℕ) : Prop :=
  ∃ count code, convBackpropC fp J t mode (narrowMaxBackprop - 1) [] ref = some (count, code) ∧
    (count ≤ 1 → emitSlots code 0 0 = some 1)

/-- **Backpropagation stays inside the instruction stack exactly when the operators fit**, and its program
then leaves one operand. -/
theorem narrow_stack_iff (fp : FpOps) (J : JitState) (t : IRType) (mode ref : ℕ) :
    NarrowSafe fp J t mode ref ↔ NarrowFits fp J t mode (narrowMaxBackprop - 1) 0 ref := by
  obtain ⟨code, hr, -, hpush, hfit, hnfit⟩ :=
    @convBackprop_shape fp J t mode (narrowMaxBackprop - 1) [] ref
  refine ⟨fun ⟨count, code', hc, _⟩ => by_contra fun hnf => ?_, fun hf => ⟨_, _, (hfit hf).trans (congrArg some hr), ?_⟩⟩
  · rw [hnfit hnf] at hc
    cases hc
  · intro hcount
    have hrun := (hpush hcount).run [] 0 0 le_rfl
    rw [List.append_nil] at hrun
    exact hrun

/-- The bit pattern of the number one. -/
def numOne : BitVec 64 := 0x3ff0000000000000

/-- The conversions of the number one. -/
def oneOps : FpOps where
  foldarith a _ _ := a
  numcmp _ _ _ := false
  eq a b := a == b
  neg a := a
  num2int a := if a = numOne then 1 else 0
  num2bit a := if a = numOne then 1 else 0
  num2u32 a := if a = numOne then 1 else 0
  num2i64 a := if a = numOne then 1 else 0
  num2u64 a := if a = numOne then 1 else 0
  ofI64 k := if k = 1 then numOne else 0
  ofU64 k := if k = 1 then numOne else 0

/-- The recording of `t[1-(1-(…-x))]` with `n` subtractions, at the conversion of the index. -/
def subChain (n : ℕ) : JitState :=
  ofCode
    [{ o := .knum, t := { type := .num }, u64 := numOne }]
    ({ o := .base, t := { type := .nil } } :: { o := .sload, t := { type := .num, isguard := true }, op1 := 1 } ::
      (List.range n).map fun k => { o := .sub, t := { type := .num }, op1 := 0x7fff, op2 := 0x8001 + k })
    { o := .conv, t := { type := .int, isguard := true }, op1 := 0x8001 + n, op2 := irconv .int .num + irconvIndex }

namespace JitState

variable {J : JitState} {code : List IRIns}

theorem foldl_addins_bpropcache : (code.foldl (fun J ins => (J.addins ins).2) J).bpropcache = J.bpropcache := by
  induction code generalizing J with
  | nil => rfl
  | cons ins code ih => exact ih

theorem foldl_addins_chain {o : IROp} (ho : ∀ ins ∈ code, ins.o ≠ o) :
    (code.foldl (fun J ins => (J.addins ins).2) J).chain o = J.chain o := by
  induction code generalizing J with
  | nil => rfl
  | cons ins code ih =>
    refine (ih fun ins' h => ho ins' (List.mem_cons_of_mem _ h)).trans ?_
    exact Function.update_of_ne (ho ins List.mem_cons_self).symm _ _

theorem foldl_addins_ir_of_lt {ref : ℕ} (hr : ref < J.nins) :
    (code.foldl (fun J ins => (J.addins ins).2) J).ir ref = J.ir ref := by
  induction code generalizing J with
  | nil => rfl
  | cons ins code ih =>
    refine (ih (Nat.lt_succ_of_lt hr)).trans ?_
    exact Function.update_of_ne (Nat.ne_of_lt hr) _ _

/-- Instructions that are added in turn get consecutive references. -/
theorem foldl_addins_ir {k : ℕ} {ins : IRIns} (hk : code[k]? = some ins) :
    ∃ p, (code.foldl (fun J ins => (J.addins ins).2) J).ir (J.nins + k) = { ins with prev := p } := by
  induction code generalizing J k with
  | nil => cases hk
  | cons head code ih =>
    cases k with
    | zero =>
      obtain rfl : head = ins := Option.some.inj hk
      refine ⟨J.chain head.o, (foldl_addins_ir_of_lt (J := (J.addins head).2) (Nat.lt_succ_self _)).trans ?_⟩
      exact Function.update_self _ _ _
    | succ k =>
      have hnins : (J.addins head).2.nins + k = J.nins + (k + 1) := by
        rw [Nat.add_comm k, ← Nat.add_assoc]
        rfl
      rw [← hnins]
      exact ih hk

theorem findins_zero (p : IRIns → Bool) (lim fuel : ℕ) : J.findins p lim fuel 0 = none := by
  cases fuel with
  | zero => rfl
  | succ fuel => exact if_pos (Nat.zero_le _)

end JitState

section Chain

variable {n k : ℕ}

theorem subChain_knum : ((subChain n).ir 0x7fff).o = .knum ∧ ((subChain n).ir 0x7fff).u64 = numOne := by
  have hir : (subChain n).ir 0x7fff = _ := foldl_addins_ir_of_lt (show 0x7fff < 0x8000 by decide)
  rw [hir]
  exact ⟨rfl, rfl⟩

theorem subChain_sload : ((subChain n).ir 0x8001).o = .sload := by
  obtain ⟨p, hir⟩ : ∃ p, (subChain n).ir (0x8000 + 1) = _ := foldl_addins_ir rfl
  rw [hir]

theorem subChain_sub (hk : k < n) :
    ((subChain n).ir (0x8002 + k)).o = .sub ∧ ((subChain n).ir (0x8002 + k)).op1 = 0x7fff ∧
      ((subChain n).ir (0x8002 + k)).op2 = 0x8001 + k := by
  have hget : (({ o := .base, t := { type := .nil } } : IRIns) ::
      { o := .sload, t := { type := .num, isguard := true }, op1 := 1 } ::
      (List.range n).map fun k => { o := .sub, t := { type := .num }, op1 := 0x7fff, op2 := 0x8001 + k })[k + 2]? =
      some { o := .sub, t := { type := .num }, op1 := 0x7fff, op2 := 0x8001 + k } := by
    simp only [List.getElem?_cons_succ, List.getElem?_map, List.getElem?_range hk, Option.map_some]
  obtain ⟨p, hir⟩ : ∃ p, (subChain n).ir (0x8000 + (k + 2)) = _ := foldl_addins_ir hget
  rw [show 0x8002 + k = 0x8000 + (k + 2) by omega, hir]
  exact ⟨rfl, rfl, rfl⟩

/-- No conversion is recorded yet. -/
theorem subChain_cse (mode ref : ℕ) : narrowCse (subChain n) mode ref = none := by
  have hconv : (subChain n).chain .conv = 0 := by
    refine foldl_addins_chain fun ins hins => ?_
    simp only [List.mem_cons, List.mem_map] at hins
    obtain rfl | rfl | ⟨k, -, rfl⟩ := hins
    · exact (by decide : IROp.base ≠ .conv)
    · exact (by decide : IROp.sload ≠ .conv)
    · exact (by decide : IROp.sub ≠ .conv)
  rw [narrowCse]
  exact (congrArg _ hconv).trans (findins_zero _ _ _)

theorem subChain_bpc {ref : ℕ} (mode : ℕ) (hr : ref ≠ 0) : narrowBpcGet (subChain n) ref mode = none := by
  have hcache : (subChain n).bpropcache = List.replicate 16 {} := foldl_addins_bpropcache
  rw [narrowBpcGet, hcache, List.find?_eq_none]
  intro bp hbp
  obtain rfl := List.eq_of_mem_replicate hbp
  simp only [decide_eq_true_eq]
  exact fun h => hr h.1.symm

theorem subChain_expands {mode room h : ℕ} (hk : k < n) (hh : h < narrowMaxsp) :
    Expands (subChain n) .int mode room h (0x8002 + k) :=
  ⟨hh, subChain_cse _ _, .inr (subChain_sub hk).1, subChain_bpc _ (by omega), if_neg (by decide)⟩

theorem subChain_size_knum (room : ℕ) {h : ℕ} (hh : h < narrowMaxsp) :
    narrowSize oneOps (subChain n) .int (irconv .int .num + irconvIndex) room h 0x7fff = (0, 2) := by
  obtain ⟨ho, hnum⟩ := @subChain_knum n
  have hleaf : leafSize oneOps (subChain n) .int (irconv .int .num + irconvIndex) room h 0x7fff = (0, 2) := by
    rw [leafSize, ho, hnum, if_neg (by omega), if_neg (fun hc => absurd hc.1 (by decide)), if_pos rfl,
      if_pos (by decide)]
  cases room with
  | zero => exact hleaf
  | succ room =>
    refine (if_neg fun he => ?_).trans hleaf
    cases ho.symm.trans (he.2.2.1.resolve_left (by rw [ho]; decide))

theorem subChain_size_sload (room : ℕ) {h : ℕ} (hh : h < narrowMaxsp) :
    narrowSize oneOps (subChain n) .int (irconv .int .num + irconvIndex) room h 0x8001 = (1, 1) := by
  have ho := @subChain_sload n
  have hleaf : leafSize oneOps (subChain n) .int (irconv .int .num + irconvIndex) room h 0x8001 = (1, 1) := by
    rw [leafSize, ho, subChain_cse, if_neg (by omega), if_neg (fun hc => absurd hc.1 (by decide)),
      if_neg (by decide), if_neg (by decide), if_neg (by decide)]
  cases room with
  | zero => exact hleaf
  | succ room =>
    refine (if_neg fun he => ?_).trans hleaf
    cases ho.symm.trans (he.2.2.1.resolve_left (by rw [ho]; decide))

/-- A chain of `k` subtractions has `k` constants, one conversion and `k` operators. -/
theorem subChain_size {room h : ℕ} (hk : k ≤ n) (hroom : k ≤ room) (hh : h + 2 * k < narrowMaxsp) :
    narrowSize oneOps (subChain n) .int (irconv .int .num + irconvIndex) room h (0x8001 + k) = (1, 3 * k + 1) := by
  induction k generalizing room h with
  | zero => exact subChain_size_sload room hh
  | succ k ih =>
    obtain ⟨room, rfl⟩ : ∃ r, room = r + 1 := ⟨room - 1, by lia⟩
    obtain ⟨-, hop1, hop2⟩ := subChain_sub (show k < n from hk)
    have hexp : Expands (subChain n) .int (irconv .int .num + irconvIndex) (room + 1) h (0x8002 + k) :=
      subChain_expands hk (by lia)
    have hright := @ih room (h + 2) (by lia) (by lia) (by lia)
    rw [show 0x8001 + (k + 1) = 0x8002 + k by omega, narrowSize, if_pos hexp, hop1, hop2,
      subChain_size_knum room (by lia)]
    dsimp only
    rw [hright]
    refine (if_pos (le_refl 1)).trans (Prod.ext rfl ?_)
    change 2 + (3 * k + 1) + 1 = 3 * (k + 1) + 1
    lia

theorem subChain_not_fits {room : ℕ} (hroom : 85 ≤ room) :
    ¬NarrowFits oneOps (subChain 86) .int (irconv .int .num + irconvIndex) (room + 1) 0 (0x8002 + 85) := by
  intro hfits
  obtain ⟨-, hop1, hop2⟩ := subChain_sub (show 85 < 86 by decide)
  obtain ⟨-, -, hlast⟩ := hfits (subChain_expands (by decide) (by decide))
  rw [hop1, hop2, subChain_size_knum room (by decide), subChain_size (by decide) hroom (by decide)] at hlast
  -- the last subtraction stands behind 2 entries of its constant and 256 of its right operand
  have hfull : 2 + 256 < narrowMaxStack := hlast le_rfl
  exact absurd hfull (by decide)

end Chain

/-- A chain of 86 subtractions in the right operand. -/
theorem narrow_stack_chain :
    ¬NarrowSafe oneOps (subChain 86) .int (irconv .int .num + irconvIndex) (subChain 86).fins.op1 := by
  rw [narrow_stack_iff]
  exact subChain_not_fits (show 85 ≤ 98 by decide)

end Ir
