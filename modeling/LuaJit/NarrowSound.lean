/-
**Narrowing of number expressions to integers.**

Backpropagation leaves a program whose segments each push one integer reference for one expression.  The
operands of an addition are converted with a full check, or modulo `2 ^ 32` for a bit operation, so that the
sum of the integers is the sum of the numbers unless it overflows; the instruction itself is checked for
overflow, except the last one of an array index with a small constant.  Every instruction that is emitted
enters the backpropagation cache with the mode it was checked for.

Main definitions:

* `Ir.FpOk`, `Ir.FoldOk` — what narrowing relies on of FP constants and of FOLD;
* `Ir.Converts` — the conversions that are narrowed;
* `Ir.Emits` — a segment of a program pushes a reference with a property;
* `Ir.NarrowRun` — runs of the recorder.

Main results:

* `Ir.valueOk_op` — an addition of narrowed operands;
* `Ir.stripov_emits`, `Ir.conv_emits` — the segments of backpropagation;
* `Ir.narrow_sound` — **narrowing keeps the value in every run**, for bit operands as long as the numbers
  that are converted are in the range of `TOBIT`.
-/

import LuaJit.NarrowSem
import LuaJit.NarrowStack

set_option relaxedAutoImplicit false
set_option autoImplicit false

namespace Ir

open JitState

/-! ### What narrowing relies on -/

/-- The test for a constant that converts without loss recognises integers. -/
structure FpOk (fp : FpOps) : Prop where
  eq_int : ∀ n, fp.eq n (fp.ofI64 ((fp.num2int n).signExtend 64)) = true →
    knumVal n = some ((fp.num2int n).toInt : ℚ)
  eq_i64 : ∀ n, fp.eq n (fp.ofI64 (fp.num2i64 n)) = true → knumVal n = some ((fp.num2i64 n).toInt : ℚ)

/-- The integer instructions that narrowing emits. -/
def IROp.isNarrow (o : IROp) : Prop := o = .add ∨ o = .sub ∨ o = .mul ∨ o.isOv

/-- The instruction has been emitted, or is the same as one that is there. -/
structure EmittedIns (J : JitState) (ref : ℕ) (J' : JitState) : Prop where
  ext : J.Ext J'
  good : Good J'
  cache : J'.bpropcache = J.bpropcache
  operand : J'.IntOperand 32 ref
  value : ∀ x, Runs J' x → InsRuns x J.fins ref

/-- FOLD of integer arithmetic: the result has the value of the instruction. -/
structure FoldOk (fold : JitState → FoldOut ℕ) : Prop where
  nk_le : ∀ {J ref J'}, fold J = some (.ok (ref, J')) → J'.nk ≤ J.nk
  arith : ∀ {J ref J'}, Good J → 0 < J'.nk → J.TypedIns J.fins → J.fins.o.isNarrow → J.fins.t.type = .int →
    fold J = some (.ok (ref, J')) → EmittedIns J ref J'

/-- A conversion of a number to int, with a guard if it is to be checked, or to a bit operand. -/
structure CtxOk (nc : NarrowCtx) : Prop where
  type : nc.t = .int
  convType : nc.conv.t.type = .int
  op2 : nc.conv.op2 < refBias
  kind : (nc.conv.o = .tobit ∧ nc.mode = 0) ∨
    (nc.conv.o = .conv ∧ nc.mode = nc.conv.op2 ∧ convMode nc.mode = irconv .int .num ∧ irconvAny ≤ convCheck nc.mode ∧
      (irconvIndex ≤ convCheck nc.mode → nc.conv.t.isguard = true))

theorem CtxOk.modes {nc : NarrowCtx} (h : CtxOk nc) : convMode nc.mode = 0 ∨ convMode nc.mode = irconv .int .num := by
  rcases h.kind with ⟨-, hm⟩ | ⟨-, -, hm, -⟩
  · exact .inl (by rw [hm]; rfl)
  · exact .inr hm

theorem CtxOk.tobit {nc : NarrowCtx} (h : CtxOk nc) (hm : convMode nc.mode = 0) : nc.conv.o = .tobit ∧ nc.mode = 0 := by
  rcases h.kind with hk | ⟨-, -, hc, -⟩
  · exact hk
  · rw [hm] at hc
    cases hc

/-! ### Integer arithmetic -/

/-- An overflow-checking instruction that passes has the value of the wrapping one. -/
theorem evalOp_of_exact {o : IROp} (ho : o.isOv) {a b r : BitVec 32} (h : exactOp o a b = some r.toInt) :
    evalOp o a b = some r := by
  have hr : BitVec.ofInt 32 r.toInt = r := BitVec.ofInt_toInt
  rcases ho with rfl | rfl | rfl
  · rw [evalOp, ← hr, ← Option.some.inj h, BitVec.ofInt_add, BitVec.ofInt_toInt, BitVec.ofInt_toInt]
  · rw [evalOp, ← hr, ← Option.some.inj h, Int.sub_eq_add_neg, BitVec.ofInt_add, BitVec.ofInt_neg, BitVec.ofInt_toInt,
      BitVec.ofInt_toInt, BitVec.sub_eq_add_neg]
  · rw [evalOp, ← hr, ← Option.some.inj h, BitVec.ofInt_mul, BitVec.ofInt_toInt, BitVec.ofInt_toInt]

/-- The value of an overflow-checking instruction. -/
theorem InsRuns.ov {x : Exec} {ins : IRIns} {ref : ℕ} (h : InsRuns x ins ref) (ho : ins.o.isOv) :
    exactOp ins.o (x.int ins.op1) (x.int ins.op2) = some (x.int ref).toInt := by
  rcases ho with ho | ho | ho <;> rw [InsRuns, ho] at h <;> rw [ho, exactOp, h]

/-- The value of an integer instruction that narrowing emits. -/
theorem InsRuns.narrow {x : Exec} {ins : IRIns} {ref : ℕ} (h : InsRuns x ins ref) (ho : ins.o.isNarrow)
    (ht : ins.t.type = .int) : evalOp ins.o (x.int ins.op1) (x.int ins.op2) = some (x.int ref) := by
  rcases ho with ho | ho | ho | ho
  · rw [InsRuns, ho] at h
    rw [ho, evalOp, h.2 ht]
  · rw [InsRuns, ho] at h
    rw [ho, evalOp, h.2 ht]
  · rw [InsRuns, ho] at h
    rw [ho, evalOp, h ht]
  · exact evalOp_of_exact ho (h.ov ho)

theorem evalOp_stripov {o : IROp} (ho : o.isOv) (a b : BitVec 32) : evalOp o.stripov a b = evalOp o a b := by
  rcases ho with rfl | rfl | rfl <;> rfl

/-- The mode of operands: an index is checked in full. -/
@[grind =]
def strongMode (mode : ℕ) : ℕ := if convCheck mode = irconvIndex then mode + (irconvCheck - irconvIndex) else mode

theorem convMode_strongMode (mode : ℕ) : convMode (strongMode mode) = convMode mode := by
  rw [strongMode]
  split_ifs
  · simp only [convMode, irconvCheck, irconvIndex]
    lia
  · rfl

theorem le_strongMode (mode : ℕ) : mode ≤ strongMode mode := by
  rw [strongMode]
  split_ifs <;> omega

/-- A strong mode is checked in full if it is checked at all. -/
theorem irconvCheck_le_strongMode {mode : ℕ} (h : irconvIndex ≤ convCheck (strongMode mode)) :
    irconvCheck ≤ convCheck (strongMode mode) := by
  rw [strongMode] at h ⊢
  split_ifs at h ⊢ with hi
  · simp only [convCheck, irconvCheck, irconvIndex] at *
    lia
  · simp only [convCheck, irconvCheck, irconvIndex] at *
    lia

theorem irconvIndex_le_strongMode {mode : ℕ} : irconvIndex ≤ convCheck (strongMode mode) ↔ irconvIndex ≤ convCheck mode := by
  rw [strongMode]
  split_ifs with hi
  · simp only [convCheck, irconvCheck, irconvIndex] at *
    lia
  · rfl

theorem innerMode_le (mode room : ℕ) : mode ≤ innerMode mode room ∧ innerMode mode room ≤ strongMode mode ∧
    convMode (innerMode mode room) = convMode mode := by
  rw [innerMode]
  split_ifs with h
  · rw [← convMode_strongMode mode, strongMode, if_pos h.1]
    exact ⟨by omega, le_rfl, rfl⟩
  · exact ⟨le_rfl, le_strongMode mode, rfl⟩

/-- A small constant added to an index wraps it out of the range of array indexes. -/
theorem indexOk_small {a k r : BitVec 32} {z : ℤ} (hz : z = a.toInt + k.toInt ∨ z = a.toInt - k.toInt)
    (hk : (k + 0x40000000#32).ult 0x80000000#32 = true) (hr : r = BitVec.ofInt 32 z) : IndexOk z r := by
  have hk' : -2 ^ 30 ≤ k.toInt ∧ k.toInt ≤ 2 ^ 30 := by
    rw [BitVec.ult, decide_eq_true_eq, BitVec.toNat_add, BitVec.toNat_ofNat, BitVec.toNat_ofNat] at hk
    rw [BitVec.toInt_eq_toNat_cond]
    have := k.isLt
    split_ifs <;> lia
  have hlo := BitVec.le_toInt a
  have hhi : a.toInt < 2 ^ (32 - 1) := BitVec.toInt_lt
  refine ⟨z, rfl, hr, ?_⟩
  rw [hr, BitVec.toInt_ofInt, BitVec.toNat_ofInt, maxAsize]
  simp only [Int.bmod]
  lia

/-- **An addition of narrowed operands.**  The operands are exact, or exact modulo `2 ^ 32`; the instruction is
checked, or it is the last one of an index and adds a small constant. -/
theorem valueOk_op {J : JitState} (hJ : Good J) {mode key a b r : ℕ} {ins : IRIns} (hkey : J.NumOperand key)
    (ho : (J.ir key).o = .add ∨ (J.ir key).o = .sub)
    (ha : ValueOk J (strongMode mode) (J.ir key).op1 a) (hb : ValueOk J (strongMode mode) (J.ir key).op2 b)
    (hins : ins.op1 = a ∧ ins.op2 = b ∧ ins.t.type = .int) {unchecked : Bool}
    (hop : ins.o = (J.ir key).o ∨ ins.o = (J.ir key).o.withov)
    (hchecked : irconvIndex ≤ convCheck mode → unchecked = false → ins.o = (J.ir key).o.withov)
    (hunchecked : unchecked = true → convCheck mode = irconvIndex ∧
      ∀ x, Runs J x → (x.int b + 0x40000000#32).ult 0x80000000#32 = true)
    (hval : ∀ x, Runs J x → InsRuns x ins r) :
    ValueOk J (if unchecked then mode else strongMode mode) key r := by
  have hb' : refBias ≤ key := hJ.ins hkey.1 (by rcases ho with ho | ho <;> rw [ho] <;> rfl)
  obtain ⟨hn1, hn2⟩ := (hJ.num key hkey.1 hb').arith hkey.2 ho
  obtain ⟨rfl, rfl, ht⟩ := hins
  have hmode : convMode (if unchecked then mode else strongMode mode) = convMode mode := by
    split_ifs
    · rfl
    · exact convMode_strongMode mode
  -- the integer operation on the words
  have hbits : ∀ x, Runs J x → evalOp (J.ir key).o (x.int ins.op1) (x.int ins.op2) = some (x.int r) := by
    intro x hx
    rcases hop with hop | hop
    · rw [← hop]
      exact (hval x hx).narrow (by rw [hop]; rcases ho with ho | ho <;> rw [ho] <;> simp [IROp.isNarrow]) ht
    · have hnarrow : ins.o.isNarrow := by
        rw [hop]
        rcases ho with ho | ho <;> rw [ho] <;> simp [IROp.isNarrow, IROp.isOv, IROp.withov]
      rw [← (hval x hx).narrow hnarrow ht, hop]
      rcases ho with ho | ho <;> rw [ho] <;> rfl
  -- the operation on the numbers
  have hnum : ∀ x, Runs J x → x.num key = if (J.ir key).o = .add then x.num (J.ir key).op1 + x.num (J.ir key).op2
      else x.num (J.ir key).op1 - x.num (J.ir key).op2 := by
    intro x hx
    have hrun := hx key hkey.1
    rcases ho with ho | ho <;> rw [InsRuns, ho] at hrun <;> rw [ho, hrun.1 hkey.2] <;> rfl
  -- a checked instruction is exact
  have hexact : irconvIndex ≤ convCheck mode → convMode mode = irconv .int .num → unchecked = false →
      ∀ x, Runs J x → x.num key = (x.int r).toInt := by
    intro hc hm' hu x hx
    have hstrong := irconvCheck_le_strongMode (irconvIndex_le_strongMode.2 hc)
    have h1 := ha.check ((convMode_strongMode mode).trans hm') hstrong x hx
    have h2 := hb.check ((convMode_strongMode mode).trans hm') hstrong x hx
    have hov := hchecked hc hu
    have hrun := (hval x hx).ov (by rw [hov]; rcases ho with ho | ho <;> rw [ho] <;> simp [IROp.isOv, IROp.withov])
    rw [hnum x hx, h1, h2]
    rcases ho with ho | ho
    · rw [hov, ho, IROp.withov, exactOp] at hrun
      rw [ho, if_pos rfl, ← Option.some.inj hrun, Int.cast_add]
    · rw [hov, ho, IROp.withov, exactOp] at hrun
      rw [ho, if_neg (by decide), ← Option.some.inj hrun, Int.cast_sub]
  refine ⟨fun hz x hx ht hi z hxz => ?_, fun hz hc x hx => ?_, fun hz hc x hx => ?_⟩
  · rw [hmode] at hz
    have hstrong := (convMode_strongMode mode).trans hz
    cases hi with
    | leaf hl => rcases ho with ho | ho
                 · exact absurd ho hl.1
                 · exact absurd ho hl.2
    | node _ h1 h2 =>
      obtain ⟨z1, hz1⟩ := h1.integral hJ hx hn1
      obtain ⟨z2, hz2⟩ := h2.integral hJ hx hn2
      have hv1 := ha.tobit hstrong x hx ht h1 z1 hz1
      have hv2 := hb.tobit hstrong x hx ht h2 z2 hz2
      have hr := hbits x hx
      have hn := hnum x hx
      rw [hv1, hv2] at hr
      rw [hxz, hz1, hz2] at hn
      rcases ho with ho | ho
      · rw [ho, evalOp] at hr
        rw [ho, if_pos rfl] at hn
        have hz12 : z = z1 + z2 := by exact_mod_cast hn
        rw [← Option.some.inj hr, hz12, BitVec.ofInt_add]
      · rw [ho, evalOp] at hr
        rw [ho, if_neg (by decide)] at hn
        have hz12 : z = z1 - z2 := by exact_mod_cast hn
        rw [← Option.some.inj hr, hz12, Int.sub_eq_add_neg, BitVec.ofInt_add, BitVec.ofInt_neg, BitVec.sub_eq_add_neg]
  · rw [hmode] at hz
    cases hu : unchecked with
    | false =>
      rw [hu, if_neg (by decide), irconvIndex_le_strongMode] at hc
      exact .of_eq (hexact hc hz hu x hx)
    | true =>
      obtain ⟨hindex, hsmall⟩ := hunchecked hu
      have hstrong := irconvCheck_le_strongMode (irconvIndex_le_strongMode.2 hindex.ge)
      have h1 := ha.check ((convMode_strongMode mode).trans hz) hstrong x hx
      have h2 := hb.check ((convMode_strongMode mode).trans hz) hstrong x hx
      have hr := hbits x hx
      rcases ho with ho | ho
      · rw [ho, evalOp] at hr
        have hn : x.num key = ((x.int ins.op1).toInt + (x.int ins.op2).toInt : ℤ) := by
          rw [hnum x hx, h1, h2, ho, if_pos rfl, Int.cast_add]
        rw [hn]
        refine indexOk_small (.inl rfl) (hsmall x hx) ?_
        rw [← Option.some.inj hr, BitVec.ofInt_add, BitVec.ofInt_toInt, BitVec.ofInt_toInt]
      · rw [ho, evalOp] at hr
        have hn : x.num key = ((x.int ins.op1).toInt - (x.int ins.op2).toInt : ℤ) := by
          rw [hnum x hx, h1, h2, ho, if_neg (by decide), Int.cast_sub]
        rw [hn]
        refine indexOk_small (.inr rfl) (hsmall x hx) ?_
        rw [← Option.some.inj hr, Int.sub_eq_add_neg, BitVec.ofInt_add, BitVec.ofInt_neg, BitVec.ofInt_toInt,
          BitVec.ofInt_toInt, BitVec.sub_eq_add_neg]
  · rw [hmode] at hz
    cases hu : unchecked with
    | false =>
      have hcheck : irconvIndex ≤ irconvCheck := by decide
      rw [hu, if_neg (by decide)] at hc
      exact hexact (irconvIndex_le_strongMode.1 (hcheck.trans hc)) hz hu x hx
    | true =>
      rw [hu, if_pos rfl, (hunchecked hu).1] at hc
      exact absurd hc (by decide)

/-! ### Emission -/

section Emission

variable {fold : JitState → FoldOut ℕ} {nc : NarrowCtx}

theorem kint_nk_le (J : JitState) (k : BitVec 32) : (J.kint k).2.nk ≤ J.nk := by
  rw [JitState.kint]
  split
  · exact le_rfl
  · exact Nat.sub_le _ _

theorem kint64_nk_le (J : JitState) (k : BitVec 64) : (J.kint64 k).2.nk ≤ J.nk := by
  rw [JitState.kint64]
  split
  · exact le_rfl
  · exact Nat.sub_le _ _

/-- Emission of a conversion. -/
theorem narrowConvEmit_conv (r : ℕ) (code : List NarrowIns) (st : List ℕ) (J : JitState) :
    narrowConvEmit fold nc (.conv r :: code) st J =
      narrowConvEmit fold nc code ((J.setIns nc.conv.o nc.conv.t r nc.conv.op2).emit.1 :: st)
        (J.setIns nc.conv.o nc.conv.t r nc.conv.op2).emit.2 := rfl

/-- The instruction is emitted without its overflow check. -/
def opUnchecked (nc : NarrowCtx) (J : JitState) (code : List NarrowIns) (b : ℕ) : Bool :=
  decide (convCheck nc.mode = irconvIndex) && narrowNoCheck J code.isEmpty b

/-- Emission of an instruction. -/
theorem narrowConvEmit_op {o : IROp} {t : IRType} {key a b : ℕ} {code : List NarrowIns} {st : List ℕ} {J : JitState}
    {out : ℕ × JitState} (h : narrowConvEmit fold nc (.op o t key :: code) (b :: a :: st) J = some (.ok out)) :
    ∃ r J',
      fold (J.setIns (if (nc.conv.t.isguard && !opUnchecked nc J code b) = true then o.withov else o)
        { type := t, isguard := nc.conv.t.isguard && !opUnchecked nc J code b } a b) = some (.ok (r, J')) ∧
      narrowConvEmit fold nc code (r :: st) (if key = 0 then J' else
        narrowBpcSet J' key r (if opUnchecked nc J code b then nc.mode else strongMode nc.mode)) = some (.ok out) := by
  rw [narrowConvEmit] at h
  have hmode : (if decide (convCheck nc.mode = irconvIndex) = true ∧
      ¬(decide (convCheck nc.mode = irconvIndex) && narrowNoCheck J code.isEmpty b) = true
      then nc.mode + (irconvCheck - irconvIndex) else nc.mode) =
      if opUnchecked nc J code b then nc.mode else strongMode nc.mode := by
    rw [opUnchecked, strongMode]
    by_cases hi : convCheck nc.mode = irconvIndex <;> cases hn : narrowNoCheck J code.isEmpty b <;> simp [hi]
  rw [hmode] at h
  split at h
  · cases h
  · cases h
  · rename_i r J' hf
    exact ⟨r, J', hf, h⟩

/-- Constants are only added. -/
theorem narrowConvEmit_nk (hfold : FoldOk fold) {code : List NarrowIns} {st : List ℕ} {J : JitState} {out : ℕ × JitState}
    (h : narrowConvEmit fold nc code st J = some (.ok out)) : out.2.nk ≤ J.nk := by
  induction code generalizing st J with
  | nil =>
    rw [narrowConvEmit] at h
    cases h
    exact le_rfl
  | cons ins code ih =>
    cases ins with
    | ref r => exact ih h
    | conv r =>
      rw [narrowConvEmit_conv] at h
      have hle := ih h
      exact hle
    | int k =>
      rw [narrowConvEmit] at h
      split_ifs at h
      · exact (ih h).trans (kint64_nk_le J _)
      · exact (ih h).trans (kint_nk_le J k)
    | sext =>
      cases st with
      | nil => exact ih h
      | cons a st =>
        rw [narrowConvEmit] at h
        split at h
        · cases h
        · cases h
        · rename_i ref J' hf
          rw [emitir] at hf
          have hle := hfold.nk_le hf
          exact (ih h).trans hle
    | op o t r =>
      cases st with
      | nil => exact ih h
      | cons b st =>
        cases st with
        | nil => exact ih h
        | cons a st =>
          obtain ⟨ref, J', hf, hrest⟩ := narrowConvEmit_op h
          have hle := hfold.nk_le hf
          have hrest' := ih hrest
          split_ifs at hrest' <;> exact hrest'.trans hle

/-- The states of emission: the store at the start has grown. -/
structure At (J₀ J : JitState) : Prop where
  ext : J₀.Ext J
  good : Good J
  cache : CacheOk J

theorem At.trans {J₀ J J' : JitState} (h : At J₀ J) (h' : At J J') : At J₀ J' := ⟨h.ext.trans h'.ext, h'.good, h'.cache⟩

/-- **A segment** pushes a reference with a property.  An inner segment is not at the end of the program. -/
def Emits (fold : JitState → FoldOut ℕ) (nc : NarrowCtx) (J₀ : JitState) (inner : Prop) (code : List NarrowIns)
    (P : JitState → ℕ → Prop) : Prop :=
  ∀ ⦃rest : List NarrowIns⦄ ⦃st : List ℕ⦄ ⦃J : JitState⦄ ⦃out : ℕ × JitState⦄, (inner → rest ≠ []) → At J₀ J →
    narrowConvEmit fold nc (code ++ rest) st J = some (.ok out) → 0 < out.2.nk →
    ∃ r J', At J J' ∧ J'.IntOperand 32 r ∧ P J' r ∧ narrowConvEmit fold nc rest (r :: st) J' = some (.ok out)

/-- A property that stays true when the store grows. -/
def Stable (P : JitState → ℕ → Prop) : Prop := ∀ ⦃J J' : JitState⦄ ⦃r : ℕ⦄, Good J → J.Ext J' → P J r → P J' r

variable {J₀ : JitState} {inner : Prop} {P : JitState → ℕ → Prop}

/-- A reference that is there. -/
theorem emits_ref {r : ℕ} (hr : J₀.IntOperand 32 r) (hP : ∀ J, J₀.Ext J → P J r) : Emits fold nc J₀ inner [.ref r] P :=
  fun _ _ J _ _ hat h _ =>
    ⟨r, J, ⟨.refl J, hat.good, hat.cache⟩, hat.ext.intOperand hr, hP J hat.ext, h⟩

/-- A constant. -/
theorem emits_int (hfold : FoldOk fold) (hctx : CtxOk nc) {k : BitVec 32}
    (hP : ∀ J r, J₀.Ext J → (∀ x, Runs J x → x.int r = k) → P J r) : Emits fold nc J₀ inner [.int k] P := by
  intro rest st J out _ hat h h0
  rw [List.singleton_append, narrowConvEmit, if_neg (by rw [hctx.type]; nofun)] at h
  have hspec := kint_spec hat.good.wf (h0.trans_le ((narrowConvEmit_nk hfold h).trans (kint_nk_le J k))) k
  have hcache : (J.kint k).2.bpropcache = J.bpropcache := by
    rw [JitState.kint]
    split <;> rfl
  have hgood : Good (J.kint k).2 := by
    refine ⟨hspec.wf, hspec.typed hat.good.typed, fun ref hv hb => ?_⟩
    have hv' : J.Valid ref := ⟨hat.good.wf.nk_le.trans hb, by rw [← hspec.nins_eq]; exact hv.2⟩
    rw [hspec.ext.ir_eq hv']
    exact (hat.good.num ref hv' hb).ext hspec.ext
  refine ⟨(J.kint k).1, (J.kint k).2, ⟨hspec.ext, hgood, hat.cache.ext hat.good hspec.ext hcache⟩, ?_, ?_, h⟩
  · have htype := hspec.wf.kint_type hspec.inChain
    exact ⟨hspec.inChain.1, by rw [htype]; rfl, by rw [htype]; rfl⟩
  · refine hP _ _ (hat.ext.trans hspec.ext) fun x hx => ?_
    have hrun := hx _ hspec.inChain.1
    rw [InsRuns, hspec.inChain.2] at hrun
    exact hrun.trans hspec.holds

/-- **A conversion instruction** holds the value of its operand. -/
theorem valueOk_conv (hctx : CtxOk nc) {J : JitState} {cref ref : ℕ} (hv : J.Valid cref)
    (hop : (J.ir cref).op1 = ref) (ho : (J.ir cref).o = nc.conv.o)
    (htype : (J.ir cref).t.type = .int)
    (hconv : nc.conv.o = .conv → convMode (J.ir cref).op2 = convMode nc.mode ∧
      (nc.conv.t.isguard = true → (J.ir cref).t.isguard = true)) :
    ValueOk J (strongMode nc.mode) ref cref := by
  have hcheck : convMode (strongMode nc.mode) = irconv .int .num → irconvIndex ≤ convCheck (strongMode nc.mode) →
      ∀ x, Runs J x → x.num ref = (x.int cref).toInt := by
    intro hm hc x hx
    rw [convMode_strongMode] at hm
    rw [irconvIndex_le_strongMode] at hc
    rcases hctx.kind with ⟨-, hzero⟩ | ⟨hco, -, -, -, hguard⟩
    · rw [hzero] at hm
      cases hm
    · obtain ⟨hmode, hg⟩ := hconv hco
      have hrun := hx cref hv
      rw [InsRuns, ho, hco] at hrun
      rw [← hop]
      refine hrun.2 htype ?_ (hg (hguard hc))
      rw [hm] at hmode
      have hsrc : convSrc (J.ir cref).op2 = convMode (J.ir cref).op2 % 32 := by
        simp only [convSrc, convMode]
        lia
      rw [hsrc, hmode]
      rfl
  refine ⟨fun hm x hx ht hi z hz => ?_, fun hm hc x hx => .of_eq (hcheck hm hc x hx), fun hm hc => ?_⟩
  · rw [convMode_strongMode] at hm
    obtain ⟨htobit, -⟩ := hctx.tobit hm
    have hrun := hx cref hv
    rw [InsRuns, ho, htobit] at hrun
    rw [hrun z (by rw [hop]; exact hz)]
    exact ht cref hv (ho.trans htobit) z (by rw [hop]; exact hz)
  · exact hcheck hm (le_trans (by decide) hc)

/-- A conversion. -/
theorem emits_conv (hctx : CtxOk nc) {ref : ℕ} (hn : J₀.NumOperand ref)
    (hP : ∀ J r, J₀.Ext J → ValueOk J (strongMode nc.mode) ref r → P J r) : Emits fold nc J₀ inner [.conv ref] P := by
  intro rest st J out _ hat h _
  rw [List.singleton_append, narrowConvEmit_conv] at h
  set J₁ := J.setIns nc.conv.o nc.conv.t ref nc.conv.op2 with hJ₁
  have hgood₁ : Good J₁ := hat.good.congr rfl rfl rfl rfl
  have hn₁ : J.NumOperand ref := hat.ext.numOperand hn
  have hconst : nc.conv.o.isConst = false := by
    rcases hctx.kind with ⟨ho, -⟩ | ⟨ho, -⟩ <;> rw [ho] <;> rfl
  have hother : nc.conv.o.arity = .other := by
    rcases hctx.kind with ⟨ho, -⟩ | ⟨ho, -⟩ <;> rw [ho] <;> rfl
  have hdst : nc.conv.o = .conv → convDst nc.conv.op2 = IRType.code .int := by
    intro hco
    rcases hctx.kind with ⟨ho, -⟩ | ⟨-, hmode, hm, -⟩
    · rw [ho] at hco
      cases hco
    · have hd : convDst nc.conv.op2 = convMode nc.mode / 32 % 32 := by
        rw [hmode]
        simp only [convDst, convMode]
        lia
      rw [hd, hm]
      rfl
  have hext : J₁.Ext J₁.emit.2 := addins_ext
  have hir : J₁.emit.2.ir J.nins = { J₁.fins with prev := J₁.chain J₁.fins.o } := addins_ir
  have hwf : J₁.emit.2.WF := hgood₁.wf.addins hconst hn₁.1.2 (hctx.op2.trans_le hat.good.wf.bias_le)
  have htyped : J₁.emit.2.Typed := by
    refine hgood₁.typed.addins ⟨fun _ => ?_, fun ha => absurd hother ha, fun ho => ?_, fun ho => ?_⟩
    · rw [show J₁.fins.o.arity = .other from hother]
      trivial
    · have hother' : J₁.fins.o.arity = .other := hother
      rcases ho with ho | ho | ho <;> rw [ho] at hother' <;> cases hother'
    · have hne : nc.conv.o = .abc := ho
      rcases hctx.kind with ⟨ho, -⟩ | ⟨ho, -⟩ <;> rw [ho] at hne <;> cases hne
  have hgood : Good J₁.emit.2 := by
    refine ⟨hwf, htyped, fun r hv hb => ?_⟩
    rcases addins_valid_cases hv with rfl | hv'
    · rw [show J₁.nins = J.nins from rfl, hir]
      have hint : nc.conv.t.type = .int := hctx.convType
      refine ⟨fun ht => ?_, fun ht => ?_, fun ho => ?_, fun _ => hint⟩
      · rw [show nc.conv.t.type = .num from ht] at hint
        cases hint
      · rw [show nc.conv.t.type = .num from ht] at hint
        cases hint
      · rw [show J₁.fins.t.type = .int from hint]
        exact hdst ho
    · rw [hext.ir_eq hv']
      exact (hgood₁.num r hv' hb).ext hext
  have hJext : J.Ext J₁.emit.2 := ⟨hext.nk_le, hext.nins_le, fun hv => hext.ir_eq hv⟩
  have hin : J₁.emit.2.Valid J.nins := (addins_inChain hgood₁.wf).1
  refine ⟨J.nins, J₁.emit.2, ⟨hJext, hgood, hat.cache.ext hat.good hJext rfl⟩, ⟨hin, ?_, ?_⟩, ?_, h⟩
  · rw [hir]
    show nc.conv.t.type.isInt = true
    rw [hctx.convType]
    rfl
  · rw [hir]
    show nc.conv.t.type.width = 32
    rw [hctx.convType]
    rfl
  · refine hP _ _ (hat.ext.trans hJext) (valueOk_conv hctx hin ?_ ?_ ?_ ?_)
    · rw [hir]
      rfl
    · rw [hir]
      rfl
    · rw [hir]
      exact hctx.convType
    · intro hco
      rw [hir]
      rcases hctx.kind with ⟨ho, -⟩ | ⟨-, hmode, -⟩
      · rw [ho] at hco
        cases hco
      · exact ⟨by rw [hmode]; rfl, id⟩

/-- What is known of an instruction on two operands when it has been emitted. -/
structure OpEmitted (nc : NarrowCtx) (J : JitState) (o : IROp) (a b r : ℕ) (unchecked : Bool) (ins : IRIns) : Prop where
  ops : ins.op1 = a ∧ ins.op2 = b ∧ ins.t.type = .int
  op : ins.o = o ∨ ins.o = o.withov
  checked : nc.conv.t.isguard = true → unchecked = false → ins.o = o.withov
  unchecked : unchecked = true → convCheck nc.mode = irconvIndex ∧
    ∀ x, Runs J x → (x.int b + 0x40000000#32).ult 0x80000000#32 = true
  operand : J.IntOperand 32 r
  value : ∀ x, Runs J x → InsRuns x ins r

/-- **An instruction** pops the results of two inner segments. -/
theorem Emits.op (hfold : FoldOk fold) {code₁ code₂ : List NarrowIns} {P₁ P₂ : JitState → ℕ → Prop}
    (hstable₁ : Stable P₁) (hstable₂ : Stable P₂) (h₁ : Emits fold nc J₀ True code₁ P₁) (h₂ : Emits fold nc J₀ True code₂ P₂) {o : IROp}
    (ho : o = .add ∨ o = .sub ∨ o = .mul) {key : ℕ} (hkey : key ≠ 0)
    (hstep : ∀ {J a b r unchecked ins}, At J₀ J → P₁ J a → P₂ J b → OpEmitted nc J o a b r unchecked ins →
      (unchecked = true → ¬inner) → P J r ∧
      (convMode nc.mode = 0 ∨ convMode nc.mode = irconv .int .num →
        EntryOk J { key := key, val := r, mode := if unchecked then nc.mode else strongMode nc.mode }))
    (hP : Stable P) : Emits fold nc J₀ inner (code₁ ++ code₂ ++ [NarrowIns.op o .int key]) P := by
  intro rest st J out hinner hat h h0
  rw [List.append_assoc, List.append_assoc] at h
  obtain ⟨a, J₁, hat₁, ha, hPa, h⟩ := h₁ (fun _ => by simp) hat h h0
  obtain ⟨b, J₂, hat₂, hb, hPb, h⟩ := h₂ (fun _ => by simp) (hat.trans hat₁) h h0
  rw [List.singleton_append] at h
  obtain ⟨r, J₃, hf, h⟩ := narrowConvEmit_op h
  rw [if_neg hkey] at h
  have ha₂ := hat₂.ext.intOperand ha
  set unchecked := opUnchecked nc J₂ rest b with hunchecked
  set checked := nc.conv.t.isguard && !unchecked with hchecked
  set J₂' := J₂.setIns (if checked = true then o.withov else o) { type := .int, isguard := checked } a b with hJ₂'
  have hnk : 0 < J₃.nk := by
    have hle := narrowConvEmit_nk hfold h
    exact h0.trans_le hle
  have hgood₂ : Good J₂' := hat₂.good.congr rfl rfl rfl rfl
  have hbinary : J₂'.fins.o.arity = .binary := by
    show (if checked = true then o.withov else o).arity = .binary
    rcases ho with rfl | rfl | rfl <;> split_ifs <;> rfl
  have hnarrow : J₂'.fins.o.isNarrow := by
    show (if checked = true then o.withov else o).isNarrow
    rcases ho with rfl | rfl | rfl <;> split_ifs <;> simp [IROp.isNarrow, IROp.isOv, IROp.withov]
  have htyped : J₂'.TypedIns J₂'.fins := by
    refine ⟨fun _ => ?_, fun _ _ => rfl, fun _ => rfl, fun hne => ?_⟩
    · rw [hbinary]
      exact ⟨ha₂, hb⟩
    · rw [hne] at hbinary
      cases hbinary
  have he := hfold.arith hgood₂ hnk htyped hnarrow rfl hf
  have hext : J₂.Ext J₃ := ⟨he.ext.nk_le, he.ext.nins_le, fun hv => he.ext.ir_eq hv⟩
  have hcache₃ : CacheOk J₃ := hat₂.cache.ext hat₂.good hext he.cache
  have hop : OpEmitted nc J₃ o a b r unchecked J₂'.fins := by
    refine ⟨⟨rfl, rfl, rfl⟩, ?_, fun hg hu => ?_, fun hu => ?_, he.operand, he.value⟩
    · show (if checked = true then o.withov else o) = o ∨ (if checked = true then o.withov else o) = o.withov
      split_ifs
      · exact .inr rfl
      · exact .inl rfl
    · show (if checked = true then o.withov else o) = o.withov
      rw [if_pos (by rw [hchecked, hg, hu]; rfl)]
    · rw [hunchecked, opUnchecked, Bool.and_eq_true, decide_eq_true_eq, narrowNoCheck, Bool.and_eq_true, Bool.and_eq_true] at hu
      obtain ⟨hindex, ⟨-, hk⟩, hsmall⟩ := hu
      refine ⟨hindex, fun x hx => ?_⟩
      have hkint := hb.kint hat₂.good.wf hk
      have hrun := (hext.runs hx) b hkint.1
      rw [InsRuns, hkint.2] at hrun
      rw [hrun]
      exact hsmall
  have hlast : unchecked = true → ¬inner := by
    intro hu hi
    rw [hunchecked, opUnchecked, Bool.and_eq_true, narrowNoCheck, Bool.and_eq_true, Bool.and_eq_true] at hu
    exact hinner hi (List.isEmpty_iff.1 hu.2.1.1)
  have hmode : convMode (if unchecked = true then nc.mode else strongMode nc.mode) = convMode nc.mode := by
    split_ifs
    · rfl
    · exact convMode_strongMode nc.mode
  obtain ⟨hPr, hentry⟩ := hstep (hat.trans (hat₁.trans (hat₂.trans ⟨hext, he.good, hcache₃⟩)))
    (hstable₁ hat₁.good (hat₂.ext.trans hext) hPa) (hstable₂ hat₂.good hext hPb) hop hlast
  have hlastExt : J₃.Ext (narrowBpcSet J₃ key r (if unchecked = true then nc.mode else strongMode nc.mode)) :=
    ⟨le_rfl, le_rfl, fun _ => rfl⟩
  exact ⟨r, _, ⟨(hat₁.ext.trans (hat₂.ext.trans hext)).trans hlastExt, he.good.congr rfl rfl rfl rfl,
    hcache₃.set he.good fun hm => hentry (by rwa [hmode] at hm)⟩, he.operand, hP he.good hlastExt hPr, h⟩

/-! ### Backpropagation -/

theorem evalOp_withov {o : IROp} (ho : o = .add ∨ o = .sub ∨ o = .mul) (a b : BitVec 32) :
    evalOp o.withov a b = evalOp o a b := by
  rcases ho with rfl | rfl | rfl <;> rfl

theorem stripov_cases {o : IROp} (ho : o.isOv) : o.stripov = .add ∨ o.stripov = .sub ∨ o.stripov = .mul := by
  rcases ho with rfl | rfl | rfl
  · exact .inl rfl
  · exact .inr (.inl rfl)
  · exact .inr (.inr rfl)

/-- The operands of an overflow-checking instruction. -/
theorem Good.ov {J : JitState} (hJ : Good J) {ref : ℕ} (hv : J.Valid ref) (ho : (J.ir ref).o.isOv) :
    (J.ir ref).t.type = .int ∧ J.IntOperand 32 (J.ir ref).op1 ∧ J.IntOperand 32 (J.ir ref).op2 := by
  have hb : refBias ≤ ref := hJ.ins hv (by rcases ho with ho | ho | ho <;> rw [ho] <;> rfl)
  have htyped := hJ.typed ref hv hb
  have htype := htyped.overflow ho
  have hops := htyped.operands (by rw [htype]; rfl)
  have harity : (J.ir ref).o.arity = .binary := by rcases ho with ho | ho | ho <;> rw [ho] <;> rfl
  rw [harity, htype] at hops
  exact ⟨htype, hops⟩

/-- **Stripping of overflow checks** keeps the value, as the instructions that are kept pass their own checks. -/
theorem stripov_emits (hfold : FoldOk fold) (hJ : Good J₀) (hcache : CacheOk J₀) (h0 : 0 < J₀.nk) (mode : ℕ) {room : ℕ}
    {stack : List NarrowIns} {ref : ℕ} (href : J₀.IntOperand 32 ref) :
    ∃ code, narrowStripovBackprop J₀ mode room stack ref = stack ++ code ∧
      Emits fold nc J₀ inner code (fun J r => ∀ x, Runs J x → x.int r = x.int ref) := by
  have hleaf : ∀ {inner : Prop} {ref : ℕ}, J₀.IntOperand 32 ref →
      Emits fold nc J₀ inner [.ref ref] (fun J r => ∀ x, Runs J x → x.int r = x.int ref) :=
    fun href => emits_ref href fun _ _ _ _ => rfl
  have hstable : ∀ ref : ℕ, Stable (fun J r => ∀ x, Runs J x → x.int r = x.int ref) :=
    fun _ _ _ _ _ he h x hx => h x (he.runs hx)
  induction room generalizing stack ref inner with
  | zero =>
    rw [narrowStripovBackprop]
    by_cases hs : IsStripped J₀ mode ref
    swap
    · rw [if_neg (show ¬(_ ∨ _) from hs)]
      exact ⟨_, rfl, hleaf href⟩
    rw [if_pos (show _ ∨ _ from hs)]
    have hov : (J₀.ir ref).o.isOv := hs.imp_right (Or.imp_right And.left)
    cases hbp : narrowBpcGet J₀ ref 0 with
    | none => exact ⟨_, rfl, hleaf href⟩
    | some bp =>
      obtain ⟨hkey, -, hm, hok⟩ := hcache.get h0 href.1 (.inl rfl) hbp
      refine ⟨_, rfl, emits_ref hok.val fun J he x hx => ?_⟩
      rw [hok.ov (by rwa [hkey]) hm x (he.runs hx), hkey]
  | succ room ih =>
    rw [narrowStripovBackprop]
    by_cases hs : IsStripped J₀ mode ref
    swap
    · rw [if_neg (show ¬(_ ∨ _) from hs)]
      exact ⟨_, rfl, hleaf href⟩
    rw [if_pos (show _ ∨ _ from hs)]
    have hov : (J₀.ir ref).o.isOv := hs.imp_right (Or.imp_right And.left)
    cases hbp : narrowBpcGet J₀ ref 0 with
    | some bp =>
      obtain ⟨hkey, -, hm, hok⟩ := hcache.get h0 href.1 (.inl rfl) hbp
      refine ⟨_, rfl, emits_ref hok.val fun J he x hx => ?_⟩
      rw [hok.ov (by rwa [hkey]) hm x (he.runs hx), hkey]
    | none =>
      dsimp only
      obtain ⟨htype, h1, h2⟩ := hJ.ov href.1 hov
      by_cases hsp : narrowSp stack < narrowMaxsp
      swap
      · rw [if_neg hsp]
        exact ⟨_, rfl, hleaf href⟩
      rw [if_pos hsp]
      obtain ⟨code₁, heq₁, he₁⟩ := @ih True stack _ h1
      rw [heq₁]
      by_cases hsp₁ : narrowSp (stack ++ code₁) < narrowMaxsp
      swap
      · rw [if_neg hsp₁]
        exact ⟨_, rfl, hleaf href⟩
      rw [if_pos hsp₁]
      obtain ⟨code₂, heq₂, he₂⟩ := @ih True (stack ++ code₁) _ h2
      rw [heq₂]
      by_cases hsp₂ : narrowSp (stack ++ code₁ ++ code₂) < narrowMaxsp
      swap
      · rw [if_neg hsp₂]
        exact ⟨_, rfl, hleaf href⟩
      rw [if_pos hsp₂]
      have hkey : ref ≠ 0 := by
        have := href.1.1
        omega
      have hops := stripov_cases hov
      refine ⟨code₁ ++ code₂ ++ [NarrowIns.op (J₀.ir ref).o.stripov .int ref], by simp only [List.append_assoc],
        Emits.op hfold (hstable _) (hstable _) he₁ he₂ hops hkey ?_ (hstable ref)⟩
      intro J a b r unchecked ins hat ha hb hop _
      have hvalue : ∀ x, Runs J x → x.int r = x.int ref := by
        intro x hx
        have hnarrow : ins.o.isNarrow := by
          rcases hop.op with ho | ho <;> rw [ho] <;> rcases hops with ho | ho | ho <;> rw [ho] <;>
            simp [IROp.isNarrow, IROp.isOv, IROp.withov]
        have hnew := (hop.value x hx).narrow hnarrow hop.ops.2.2
        have hold := evalOp_of_exact hov (((hat.ext.runs hx) ref href.1).ov hov)
        have heval : evalOp ins.o (x.int ins.op1) (x.int ins.op2) =
            evalOp (J₀.ir ref).o (x.int (J₀.ir ref).op1) (x.int (J₀.ir ref).op2) := by
          rw [hop.ops.1, hop.ops.2.1, ha x hx, hb x hx, ← evalOp_stripov hov]
          rcases hop.op with ho | ho <;> rw [ho]
          exact evalOp_withov hops _ _
        rw [hnew, hold] at heval
        exact Option.some.inj heval
      refine ⟨hvalue, fun _ => ⟨hat.ext.valid href.1, hop.operand, fun hn => ?_, fun _ _ => hvalue⟩⟩
      have hnum := hn.2
      rw [hat.ext.ir_eq href.1, htype] at hnum
      cases hnum

/-- The property of a segment for an expression. -/
def Narrows (nc : NarrowCtx) (room ref : ℕ) (J : JitState) (r : ℕ) : Prop :=
  J.NumOperand ref ∧ ValueOk J (innerMode nc.mode room) ref r

theorem Narrows.of_strong {room ref r : ℕ} {J : JitState} (hn : J.NumOperand ref)
    (h : ValueOk J (strongMode nc.mode) ref r) : Narrows nc room ref J r := by
  obtain ⟨-, hle, hm⟩ := innerMode_le nc.mode room
  exact ⟨hn, h.mono hle (by rw [hm, convMode_strongMode])⟩

theorem Narrows.stable (room ref : ℕ) : Stable (Narrows nc room ref) :=
  fun _ _ _ hJ he h => ⟨he.numOperand h.1, h.2.ext hJ he h.1⟩

/-- A constant that is narrowed. -/
theorem valueOk_knum {fp : FpOps} (hfp : FpOk fp) (hctx : CtxOk nc) {J : JitState} {ref r : ℕ} {k : BitVec 32} (hv : J.Valid ref)
    (ho : (J.ir ref).o = .knum) (hk : narrowKnum fp nc.mode (J.ir ref).u64 = some k) (hr : ∀ x, Runs J x → x.int r = k) :
    ValueOk J (strongMode nc.mode) ref r := by
  have hnum : ∀ {q : ℚ} {x : Exec}, knumVal (J.ir ref).u64 = some q → Runs J x → x.num ref = q := by
    intro q x hq hx
    have hrun := hx ref hv
    rw [InsRuns, ho] at hrun
    exact hrun q hq
  rw [narrowKnum] at hk
  rcases hctx.kind with ⟨-, hmode⟩ | ⟨-, -, hm, hany, -⟩
  · rw [if_pos (by rw [hmode]; rfl)] at hk
    dsimp only at hk
    split_ifs at hk with heq
    cases hk
    have hm0 : convMode (strongMode nc.mode) ≠ irconv .int .num := by
      rw [convMode_strongMode, hmode]
      decide
    refine ⟨fun _ x hx _ _ z hz => ?_, fun hm => absurd hm hm0, fun hm => absurd hm hm0⟩
    rw [hnum (hfp.eq_i64 _ heq) hx] at hz
    have hz' : (fp.num2i64 (J.ir ref).u64).toInt = z := by exact_mod_cast hz
    rw [hr x hx, ← hz', ← BitVec.signExtend_eq_setWidth_of_le _ (by decide), BitVec.signExtend]
  · have hne : convCheck nc.mode ≠ 0 := by
      intro h
      rw [h] at hany
      exact absurd hany (by decide)
    rw [if_neg hne] at hk
    dsimp only at hk
    split_ifs at hk with heq
    cases hk
    have hexact : ∀ x, Runs J x → x.num ref = (x.int r).toInt := by
      intro x hx
      rw [hr x hx, hnum (hfp.eq_int _ heq.2) hx]
    have hm0 : convMode (strongMode nc.mode) ≠ 0 := by
      rw [convMode_strongMode, hm]
      decide
    exact ⟨fun h => absurd h hm0, fun _ _ x hx => .of_eq (hexact x hx), fun _ _ => hexact⟩

/-- The conversion from an integer is undone. -/
theorem valueOk_undo {J : JitState} {ref r : ℕ} (hn : J.NumOperand ref) (ho : (J.ir ref).o = .conv)
    (hsrc : convSrc (J.ir ref).op2 = IRType.int.code) (hr : ∀ x, Runs J x → x.int r = x.int (J.ir ref).op1) :
    ValueOk J (strongMode nc.mode) ref r := by
  have hexact : ∀ x, Runs J x → x.num ref = (x.int r).toInt := by
    intro x hx
    have hrun := hx ref hn.1
    rw [InsRuns, ho] at hrun
    rw [hr x hx, hrun.1 hn.2 hsrc]
  refine ⟨fun _ x hx _ _ z hz => ?_, fun _ _ x hx => .of_eq (hexact x hx), fun _ _ => hexact⟩
  rw [hexact x hx] at hz
  have hz' : (x.int r).toInt = z := by exact_mod_cast hz
  rw [← hz', BitVec.ofInt_toInt]

/-- An expression that is not propagated to its operands. -/
theorem conv_leaf_emits {fp : FpOps} (hfp : FpOk fp) (hfold : FoldOk fold) (hctx : CtxOk nc) (hJ : Good J₀)
    (hcache : CacheOk J₀) (h0 : 0 < J₀.nk) (hfins : J₀.fins = nc.conv) {room : ℕ} {stack : List NarrowIns} {ref : ℕ}
    (hn : J₀.NumOperand ref) (hleaf : room = 0 ∨ ¬Expands J₀ .int nc.mode room (narrowSp stack) ref)
    (hcount : (narrowConvBackprop fp J₀ .int nc.mode room stack ref).1 ≤ 1) :
    ∃ code, (narrowConvBackprop fp J₀ .int nc.mode room stack ref).2 = stack ++ code ∧
      Emits fold nc J₀ inner code (Narrows nc room ref) := by
  have hconvert : Emits fold nc J₀ inner [.conv ref] (Narrows nc room ref) :=
    emits_conv hctx hn fun _ _ he h => .of_strong (he.numOperand hn) h
  have hvalid : ∀ {J}, J₀.Ext J → J.NumOperand ref := fun he => he.numOperand hn
  rw [narrowConvBackprop.eq_def] at hcount ⊢
  dsimp only at hcount ⊢
  by_cases hfull : narrowMaxsp ≤ narrowSp stack
  · rw [if_pos hfull] at hcount
    exact absurd hcount (show ¬10 ≤ 1 by decide)
  rw [if_neg hfull] at hcount ⊢
  by_cases hconv : (J₀.ir ref).o = .conv ∧ convSrc (J₀.ir ref).op2 = IRType.int.code
  · rw [if_pos hconv]
    have hb : refBias ≤ ref := hJ.ins hn.1 (by rw [hconv.1]; rfl)
    have hop := (hJ.num ref hn.1 hb).conv hn.2 hconv.1 hconv.2
    have hundo : ∀ J r, J₀.Ext J → (∀ x, Runs J x → x.int r = x.int (J₀.ir ref).op1) → Narrows nc room ref J r := by
      intro J r he hr
      have hir := he.ir_eq hn.1
      exact .of_strong (hvalid he) (valueOk_undo (hvalid he) (by rw [hir]; exact hconv.1) (by rw [hir]; exact hconv.2)
        (by rw [hir]; exact hr))
    rw [if_neg (by decide)]
    by_cases hany : convCheck nc.mode ≤ irconvAny
    · rw [if_pos hany]
      obtain ⟨code, heq, he⟩ := @stripov_emits fold nc J₀ inner hfold hJ hcache h0 nc.mode (room - 1) stack _ hop
      refine ⟨code, heq, fun rest st J out hi hat h hout => ?_⟩
      obtain ⟨r, J', hat', hr, hP, h'⟩ := he hi hat h hout
      exact ⟨r, J', hat', hr, hundo _ _ (hat.ext.trans hat'.ext) hP, h'⟩
    · rw [if_neg hany]
      exact ⟨_, rfl, emits_ref hop fun J he => hundo J _ he fun _ _ => rfl⟩
  rw [if_neg hconv] at hcount ⊢
  by_cases hknum : (J₀.ir ref).o = .knum
  · rw [if_pos hknum] at hcount ⊢
    cases hk : narrowKnum fp nc.mode (J₀.ir ref).u64 with
    | none =>
      rw [hk] at hcount
      exact absurd hcount (show ¬10 ≤ 1 by decide)
    | some k =>
      refine ⟨_, rfl, emits_int hfold hctx fun J r he hr => .of_strong (hvalid he) ?_⟩
      have hir := he.ir_eq hn.1
      exact valueOk_knum hfp hctx (he.valid hn.1) (by rw [hir]; exact hknum) (by rw [hir]; exact hk) hr
  rw [if_neg hknum] at hcount ⊢
  cases hcse : narrowCse J₀ nc.mode ref with
  | some cref =>
    obtain ⟨hin, hsame, -⟩ := findins_spec hJ.wf (hJ.wf.chain_ok _) hcse
    rw [decide_eq_true_eq, hfins] at hsame
    rw [hfins] at hin
    obtain ⟨hop, hsame⟩ := hsame
    have hb : refBias ≤ cref := hJ.ins hin.1 (by rw [hin.2]; rcases hctx.kind with ⟨ho, -⟩ | ⟨ho, -⟩ <;> rw [ho] <;> rfl)
    have hnum := hJ.num cref hin.1 hb
    have hcode : ∀ ty : IRType, ty.code = IRType.code .int → ty = .int := by
      intro ty h
      cases ty <;> first | rfl | cases h
    have htype : (J₀.ir cref).t.type = .int := by
      rcases hctx.kind with ⟨ho, -⟩ | ⟨ho, -, hm, -⟩
      · exact hnum.tobit (hin.2.trans ho)
      · have hmode := (hsame.resolve_left (by rw [ho]; decide)).1
        have hd : convDst (J₀.ir cref).op2 = convMode (J₀.ir cref).op2 / 32 % 32 := by
          simp only [convDst, convMode]
          lia
        refine hcode _ ?_
        rw [← hnum.dst (hin.2.trans ho), hd, hmode, hm]
        rfl
    have hoperand : J₀.IntOperand 32 cref := ⟨hin.1, by rw [htype]; rfl, by rw [htype]; rfl⟩
    refine ⟨_, rfl, emits_ref hoperand fun J he => .of_strong (hvalid he) ?_⟩
    have hir := he.ir_eq hin.1
    refine valueOk_conv hctx (he.valid hin.1) (by rw [hir]; exact hop) (by rw [hir]; exact hin.2) (by rw [hir]; exact htype)
      fun hco => ?_
    rw [hir]
    exact hsame.resolve_left (by rw [hco]; decide)
  | none =>
    rw [hcse] at hcount
    dsimp only at hcount ⊢
    by_cases hadd : (J₀.ir ref).o = .add ∨ (J₀.ir ref).o = .sub
    swap
    · rw [if_neg hadd]
      exact ⟨_, rfl, hconvert⟩
    have hinner : (if convCheck nc.mode = irconvIndex ∧ room + 1 < narrowMaxBackprop then
        nc.mode + (irconvCheck - irconvIndex) else nc.mode) = innerMode nc.mode room := rfl
    rw [if_pos hadd, hinner, if_neg (by decide)] at hcount ⊢
    cases hbpc : narrowBpcGet J₀ ref (innerMode nc.mode room) with
    | some bp =>
      obtain ⟨-, -, hm⟩ := innerMode_le nc.mode room
      obtain ⟨hkey, hle, hmode, hok⟩ := hcache.get h0 hn.1 (by rw [hm]; exact hctx.modes) hbpc
      refine ⟨_, rfl, emits_ref hok.val fun J he => ?_⟩
      subst hkey
      exact ⟨hvalid he, ((hok.num hn).ext hJ he hn).mono hle hmode⟩
    | none =>
      dsimp only
      cases room with
      | zero => exact ⟨_, rfl, hconvert⟩
      | succ room =>
        exact absurd ⟨by omega, hcse, hadd, hbpc, rfl⟩ (hleaf.resolve_left (Nat.succ_ne_zero room))

/-- **Backpropagation**: the program computes the expression. -/
theorem conv_emits {fp : FpOps} (hfp : FpOk fp) (hfold : FoldOk fold) (hctx : CtxOk nc) (hJ : Good J₀)
    (hcache : CacheOk J₀) (h0 : 0 < J₀.nk) (hfins : J₀.fins = nc.conv) {room : ℕ} {stack : List NarrowIns} {ref : ℕ}
    (hn : J₀.NumOperand ref) (hroom : room + 1 ≤ narrowMaxBackprop) (hinner : room + 1 < narrowMaxBackprop → inner)
    (hcount : (narrowConvBackprop fp J₀ .int nc.mode room stack ref).1 ≤ 1) :
    ∃ code, (narrowConvBackprop fp J₀ .int nc.mode room stack ref).2 = stack ++ code ∧
      Emits fold nc J₀ inner code (Narrows nc room ref) := by
  induction room generalizing stack ref inner with
  | zero => exact conv_leaf_emits hfp hfold hctx hJ hcache h0 hfins hn (.inl rfl) hcount
  | succ room ih =>
    by_cases he : Expands J₀ .int nc.mode (room + 1) (narrowSp stack) ref
    swap
    · exact conv_leaf_emits hfp hfold hctx hJ hcache h0 hfins hn (.inr he) hcount
    rw [narrowConvBackprop_expands he] at hcount ⊢
    dsimp only at hcount ⊢
    have hadd := he.2.2.1
    have hb : refBias ≤ ref := hJ.ins hn.1 (by rcases hadd with ho | ho <;> rw [ho] <;> rfl)
    obtain ⟨hn₁, hn₂⟩ := (hJ.num ref hn.1 hb).arith hn.2 hadd
    by_cases hsum : (narrowConvBackprop fp J₀ .int nc.mode room stack (J₀.ir ref).op1).1 +
        (narrowConvBackprop fp J₀ .int nc.mode room
          (narrowConvBackprop fp J₀ .int nc.mode room stack (J₀.ir ref).op1).2 (J₀.ir ref).op2).1 ≤ 1
    swap
    · rw [if_neg hsum]
      exact ⟨_, rfl, emits_conv hctx hn fun _ _ he h => .of_strong (he.numOperand hn) h⟩
    rw [if_pos hsum]
    obtain ⟨code₁, heq₁, he₁⟩ := @ih True stack _ hn₁ (by omega) (fun _ => trivial) (by omega)
    rw [heq₁] at hsum ⊢
    obtain ⟨code₂, heq₂, he₂⟩ := @ih True (stack ++ code₁) _ hn₂ (by omega) (fun _ => trivial) (by omega)
    rw [heq₂]
    have hkey : ref ≠ 0 := by
      have := hn.1.1
      omega
    -- the operands are narrowed with the strong mode
    have hmode : innerMode nc.mode room = strongMode nc.mode := by
      rw [innerMode, strongMode]
      by_cases hi : convCheck nc.mode = irconvIndex
      · rw [if_pos ⟨hi, by omega⟩, if_pos hi]
      · rw [if_neg (fun h => hi h.1), if_neg hi]
    have hops : (J₀.ir ref).o = .add ∨ (J₀.ir ref).o = .sub ∨ (J₀.ir ref).o = .mul := hadd.imp_right .inl
    refine ⟨code₁ ++ code₂ ++ [NarrowIns.op (J₀.ir ref).o .int ref], by simp only [List.append_assoc],
      Emits.op hfold (Narrows.stable _ _) (Narrows.stable _ _) he₁ he₂ hops hkey ?_ (Narrows.stable _ _)⟩
    intro J a b r unchecked ins hat ha hb hop hlast
    have hir := hat.ext.ir_eq hn.1
    have hnJ := hat.ext.numOperand hn
    have hval : ValueOk J (if unchecked then nc.mode else strongMode nc.mode) ref r := by
      refine valueOk_op hat.good hnJ (by rw [hir]; exact hadd) (by rw [hir, ← hmode]; exact ha.2)
        (by rw [hir, ← hmode]; exact hb.2) hop.ops (by rw [hir]; exact hop.op) (fun hc hu => ?_) hop.unchecked hop.value
      rw [hir]
      refine hop.checked ?_ hu
      rcases hctx.kind with ⟨-, hzero⟩ | ⟨-, -, -, -, hguard⟩
      · rw [hzero] at hc
        exact absurd hc (by decide)
      · exact hguard hc
    have hov : ¬(J.ir ref).o.isOv := by
      rw [hir]
      rintro (ho | ho | ho) <;> rcases hadd with h | h <;> rw [h] at ho <;> cases ho
    refine ⟨⟨hnJ, ?_⟩, fun _ => ⟨hnJ.1, hop.operand, fun _ => hval, fun ho => absurd ho hov⟩⟩
    obtain ⟨hlo, hhi, hm⟩ := innerMode_le nc.mode (room + 1)
    cases hu : unchecked with
    | false =>
      rw [hu, if_neg nofun] at hval
      exact hval.mono hhi (by rw [hm, convMode_strongMode])
    | true =>
      rw [hu, if_pos rfl] at hval
      have houter : innerMode nc.mode (room + 1) = nc.mode :=
        if_neg fun h => hlast hu (hinner h.2)
      rw [houter]
      exact hval

end Emission

/-! ### Runs -/

/-- The conversion of a number to int, to an index or to a bit operand is being folded.  All callers emit a
guard if the conversion is to be checked. -/
structure Converts (J : JitState) : Prop where
  op1 : J.NumOperand J.fins.op1
  op2 : J.fins.op2 < refBias
  type : J.fins.t.type = .int
  kind : J.fins.o = .tobit ∨
    (J.fins.o = .conv ∧ convMode J.fins.op2 = irconv .int .num ∧ irconvAny ≤ convCheck J.fins.op2 ∧
      (irconvIndex ≤ convCheck J.fins.op2 → J.fins.t.isguard = true))

/-- `nc.mode`. -/
def narrowMode (J : JitState) : ℕ := if J.fins.o = .tobit then 0 else J.fins.op2

theorem Converts.ctxOk {J : JitState} (h : Converts J) :
    CtxOk { conv := J.fins, t := J.fins.t.type, mode := narrowMode J } := by
  refine ⟨h.type, h.type, h.op2, h.kind.imp (fun ho => ⟨ho, if_pos ho⟩) fun hk => ?_⟩
  have hmode : narrowMode J = J.fins.op2 := if_neg (by rw [hk.1]; nofun)
  dsimp only
  rw [hmode]
  exact ⟨hk.1, rfl, hk.2⟩

variable {fp : FpOps} {fold : JitState → FoldOut ℕ}

/-- Narrowing a conversion: the store grows, the cache stays sound, and the result holds the value. -/
theorem optNarrowConvert_spec (hfp : FpOk fp) (hfold : FoldOk fold) {J : JitState} (hJ : Good J) (hcache : CacheOk J)
    (hc : Converts J) {r : ℕ} {J' : JitState} (h : optNarrowConvert fp fold J = some (.ok (.ref r, J')))
    (h0 : 0 < J'.nk) : At J J' ∧ ValueOk J' (narrowMode J) J.fins.op1 r := by
  have hctx := hc.ctxOk
  rw [optNarrowConvert] at h
  by_cases hopt : J.optNarrow = true
  swap
  · rw [if_neg hopt] at h
    cases h
  rw [if_pos hopt] at h
  dsimp only at h
  rw [show (if J.fins.o = .tobit then 0 else J.fins.op2) = narrowMode J from rfl, hc.type] at h
  rw [hc.type] at hctx
  by_cases hcount : (narrowConvBackprop fp J .int (narrowMode J) (narrowMaxBackprop - 1) [] J.fins.op1).1 ≤ 1
  swap
  · rw [if_neg hcount] at h
    cases h
  rw [if_pos hcount] at h
  split at h
  · cases h
  · cases h
  rename_i r' J'' hemit
  obtain ⟨rfl, rfl⟩ : r' = r ∧ J'' = J' := by
    cases h
    exact ⟨rfl, rfl⟩
  have hnk : 0 < J.nk := h0.trans_le (narrowConvEmit_nk hfold hemit)
  obtain ⟨code, hcode, he⟩ := @conv_emits fold _ J False fp hfp hfold hctx hJ hcache hnk rfl _ [] _ hc.op1
    (by decide) (by decide) hcount
  rw [hcode, List.nil_append, ← List.append_nil code] at hemit
  obtain ⟨r₁, J₁, hat, -, hval, hend⟩ := he (fun hf => hf.elim) ⟨.refl J, hJ, hcache⟩ hemit h0
  rw [narrowConvEmit] at hend
  cases hend
  have hroot : innerMode (narrowMode J) (narrowMaxBackprop - 1) = narrowMode J :=
    if_neg fun h => absurd h.2 (by decide)
  have hvalue := hval.2
  rw [hroot] at hvalue
  exact ⟨hat, hvalue⟩

/-- The states of the recorder with respect to narrowing.  It starts with an empty cache, also after the
cache has been cleared; other parts of the recorder add to the IR; `narrow_stripov` and the narrowing to 64 bits
add cache entries of other modes. -/
inductive NarrowRun (fp : FpOps) (fold : JitState → FoldOut ℕ) : JitState → Prop
  | start {J : JitState} (hJ : Good J) (hcache : ∀ bp ∈ J.bpropcache, bp.key = 0) : NarrowRun fp fold J
  | record {J J' : JitState} (h : NarrowRun fp fold J) (he : J.Ext J') (hJ' : Good J')
      (hcache : J'.bpropcache = J.bpropcache) : NarrowRun fp fold J'
  | other {J : JitState} (h : NarrowRun fp fold J) (key val mode : ℕ)
      (hmode : convMode mode ≠ 0 ∧ convMode mode ≠ irconv .int .num) : NarrowRun fp fold (narrowBpcSet J key val mode)
  | narrow {J J' : JitState} {r : ℕ} (h : NarrowRun fp fold J) (hc : Converts J)
      (hr : optNarrowConvert fp fold J = some (.ok (.ref r, J'))) (h0 : 0 < J'.nk) : NarrowRun fp fold J'

/-- **Every run keeps the cache sound.** -/
theorem NarrowRun.sound (hfp : FpOk fp) (hfold : FoldOk fold) {J : JitState} (h : NarrowRun fp fold J) :
    Good J ∧ CacheOk J := by
  induction h with
  | start hJ hcache => exact ⟨hJ, fun bp hbp => .inl (hcache bp hbp)⟩
  | record _ he hJ' hcache ih => exact ⟨hJ', ih.2.ext ih.1 he hcache⟩
  | other _ key val mode hmode ih =>
    exact ⟨ih.1.congr rfl rfl rfl rfl, ih.2.set ih.1 fun hm => (hm.elim hmode.1 hmode.2).elim⟩
  | narrow _ hc hr h0 ih =>
    have hat := (optNarrowConvert_spec hfp hfold ih.1 ih.2 hc hr h0).1
    exact ⟨hat.good, hat.cache⟩

/-- In an execution the reference `r` holds the value of the expression `ref`, as strictly as the mode asks
for: modulo `2 ^ 32` for integral operands of a bit operation, exactly or outside of all arrays for an index,
and exactly for a checked conversion. -/
structure Holds (J : JitState) (x : Exec) (mode ref r : ℕ) : Prop where
  tobit : convMode mode = 0 → IntegralTree J x ref → ∀ z : ℤ, x.num ref = z → x.int r = BitVec.ofInt 32 z
  index : convMode mode = irconv .int .num → irconvIndex ≤ convCheck mode → IndexOk (x.num ref) (x.int r)
  check : convMode mode = irconv .int .num → irconvCheck ≤ convCheck mode → x.num ref = (x.int r).toInt

theorem ValueOk.holds {J : JitState} {x : Exec} {mode ref r : ℕ} (h : ValueOk J mode ref r) (hx : Runs J x)
    (ht : convMode mode = 0 → TobitInRange J x) : Holds J x mode ref r :=
  ⟨fun hm hi z hz => h.tobit hm x hx (ht hm) hi z hz, fun hm hc => h.index hm hc x hx, fun hm hc => h.check hm hc x hx⟩

/-- **Narrowing keeps the value in every run**, and so does every lookup in the cache: a conversion to int or
to an index in all executions that pass the guards, a bit operand in those where the integers that a
`TOBIT` converts are in its range. -/
theorem narrow_sound (hfp : FpOk fp) (hfold : FoldOk fold) {J : JitState} (hrun : NarrowRun fp fold J) (hc : Converts J)
    {r : ℕ} {J' : JitState} (h : optNarrowConvert fp fold J = some (.ok (.ref r, J'))) (h0 : 0 < J'.nk) {x : Exec}
    (hx : Runs J' x) :
    ((J.fins.o = .tobit → TobitInRange J' x) → Holds J' x (narrowMode J) J.fins.op1 r) ∧
    ∀ key mode bp, J'.NumOperand key → convMode mode = 0 ∨ convMode mode = irconv .int .num →
      narrowBpcGet J' key mode = some bp → (convMode mode = 0 → TobitInRange J' x) → Holds J' x mode key bp.val := by
  obtain ⟨hJ, hcache⟩ := hrun.sound hfp hfold
  obtain ⟨hat, hval⟩ := optNarrowConvert_spec hfp hfold hJ hcache hc h h0
  refine ⟨fun ht => hval.holds hx fun hm => ht (hc.ctxOk.tobit hm).1, fun key mode bp hkey hm hget ht => ?_⟩
  obtain ⟨rfl, hle, hmode, hok⟩ := hat.cache.get h0 hkey.1 hm hget
  exact ((hok.num hkey).mono hle hmode).holds hx ht

/-! ### FOLD without rules -/

/-- `emitir` if no rule applies. -/
def rawFold (J : JitState) : FoldOut ℕ := some (.ok J.emit)

theorem emit_emitted {J : JitState} (hJ : Good J) (ht : J.TypedIns J.fins) (ho : J.fins.o.isNarrow)
    (htype : J.fins.t.type = .int) : EmittedIns J J.nins J.emit.2 := by
  have hbinary : J.fins.o.arity = .binary := by rcases ho with ho | ho | ho | ho | ho | ho <;> rw [ho] <;> rfl
  have hconst : J.fins.o.isConst = false := by rcases ho with ho | ho | ho | ho | ho | ho <;> rw [ho] <;> rfl
  have hops := ht.operands (by rw [htype]; rfl)
  rw [hbinary] at hops
  have hext : J.Ext J.emit.2 := addins_ext
  have hir : J.emit.2.ir J.nins = { J.fins with prev := J.chain J.fins.o } := addins_ir
  have hin : J.emit.2.Valid J.nins := (addins_inChain hJ.wf).1
  refine ⟨hext, ⟨hJ.wf.addins hconst hops.1.1.2 hops.2.1.2, hJ.typed.addins ht, fun r hv hb => ?_⟩, rfl, ⟨hin, ?_, ?_⟩,
    fun x hx => ?_⟩
  · rcases addins_valid_cases hv with rfl | hv'
    · rw [hir]
      refine ⟨fun hn => ?_, fun hn => ?_, fun hc => ?_, fun hc => ?_⟩
      · rw [show J.fins.t.type = .num from hn] at htype
        cases htype
      · rw [show J.fins.t.type = .num from hn] at htype
        cases htype
      · rw [show J.fins.o = .conv from hc] at hbinary
        cases hbinary
      · exact htype
    · rw [hext.ir_eq hv']
      exact (hJ.num r hv' hb).ext hext
  · rw [hir]
    show J.fins.t.type.isInt = true
    rw [htype]
    rfl
  · rw [hir]
    show J.fins.t.type.width = 32
    rw [htype]
    rfl
  · have hrun := hx J.nins hin
    rw [hir] at hrun
    exact hrun

theorem rawFold_ok : FoldOk rawFold := by
  refine ⟨fun {J ref J'} h => ?_, fun {J ref J'} hJ _ ht ho htype h => ?_⟩
  · have hout : J.emit = (ref, J') := Except.ok.inj (Option.some.inj h)
    rw [← show J.emit.2 = J' from congrArg Prod.snd hout]
    exact le_rfl
  · have hout : J.emit = (ref, J') := Except.ok.inj (Option.some.inj h)
    rw [← show J.emit.2 = J' from congrArg Prod.snd hout, ← show J.nins = ref from congrArg Prod.fst hout]
    exact emit_emitted hJ ht ho htype

/-! ### Concrete traces -/

/-- Checking `InsRuns`. -/
def insRunsB (x : Exec) (ins : IRIns) (ref : ℕ) : Bool :=
  match ins.o with
  | .kint => x.int ref == ins.i
  | .knum => knumVal ins.u64 == some (x.num ref)
  | .conv =>
      (decide (ins.t.type = .num → convSrc ins.op2 = IRType.int.code → x.num ref = (x.int ins.op1).toInt)) &&
      (decide (ins.t.type = .int → convSrc ins.op2 = IRType.num.code → ins.t.isguard = true →
        x.num ins.op1 = (x.int ref).toInt))
  | .tobit => decide ((x.num ins.op1).den = 1) && x.int ref == num2bit (x.num ins.op1).num
  | .add =>
      (decide (ins.t.type = .num → x.num ref = x.num ins.op1 + x.num ins.op2)) &&
      (decide (ins.t.type = .int → x.int ref = x.int ins.op1 + x.int ins.op2))
  | .base | .sload => true
  | _ => false

theorem insRuns_of_insRunsB {x : Exec} {ins : IRIns} {ref : ℕ} (h : insRunsB x ins ref = true) : InsRuns x ins ref := by
  rw [insRunsB] at h
  split at h <;> rename_i ho
  · rw [InsRuns, ho]
    exact beq_iff_eq.1 h
  · rw [InsRuns, ho]
    intro q hq
    rw [beq_iff_eq, hq] at h
    exact (Option.some.inj h).symm
  · rw [Bool.and_eq_true, decide_eq_true_eq, decide_eq_true_eq] at h
    rw [InsRuns, ho]
    exact h
  · rw [Bool.and_eq_true, decide_eq_true_eq, beq_iff_eq] at h
    rw [InsRuns, ho]
    intro z hz
    rw [h.2, hz, Rat.num_intCast]
  · rw [Bool.and_eq_true, decide_eq_true_eq, decide_eq_true_eq] at h
    rw [InsRuns, ho]
    exact h
  · rw [InsRuns, ho]
    trivial
  · rw [InsRuns, ho]
    trivial
  · cases h

theorem runs_of_insRunsB {J : JitState} {x : Exec}
    (h : ∀ d < J.nins - J.nk, insRunsB x (J.ir (J.nk + d)) (J.nk + d) = true) : Runs J x :=
  fun _ hv => insRuns_of_insRunsB (forall_valid (P := fun ref => insRunsB x (J.ir ref) ref = true) h hv)

/-- The reference of a result. -/
def resultRef : FoldOut FoldRes → Option ℕ
  | some (.ok (.ref r, _)) => some r
  | _ => none

/-- The store of a result. -/
def resultState (J : JitState) : FoldOut FoldRes → JitState
  | some (.ok (_, J')) => J'
  | _ => J

theorem eq_of_resultRef {res : FoldOut FoldRes} {r : ℕ} (J : JitState) (h : resultRef res = some r) :
    res = some (.ok (.ref r, resultState J res)) := by
  unfold resultRef at h
  split at h
  · cases h
    rfl
  · cases h

/-- A check for `NumIns`. -/
def numInsB (J : JitState) (ins : IRIns) : Bool :=
  let numOperand := fun ref => decide (J.nk ≤ ref) && decide (ref < J.nins) && decide ((J.ir ref).t.type = .num)
  (decide (ins.t.type = .num → ins.o = .add ∨ ins.o = .sub →
    numOperand ins.op1 = true ∧ numOperand ins.op2 = true)) &&
  (decide (ins.t.type = .num → ins.o = .conv → convSrc ins.op2 = IRType.int.code → J.intOperandB 32 ins.op1 = true)) &&
  (decide (ins.o = .conv → convDst ins.op2 = ins.t.type.code)) &&
  (decide (ins.o = .tobit → ins.t.type = .int))

theorem numIns_of_numInsB {J : JitState} {ins : IRIns} (h : numInsB J ins = true) : NumIns J ins := by
  rw [numInsB, Bool.and_eq_true, Bool.and_eq_true, Bool.and_eq_true, decide_eq_true_eq, decide_eq_true_eq,
    decide_eq_true_eq, decide_eq_true_eq] at h
  obtain ⟨⟨⟨harith, hconv⟩, hdst⟩, htobit⟩ := h
  have hnum : ∀ {ref : ℕ}, (decide (J.nk ≤ ref) && decide (ref < J.nins) && decide ((J.ir ref).t.type = .num)) = true →
      J.NumOperand ref := by
    intro ref hb
    rw [Bool.and_eq_true, Bool.and_eq_true, decide_eq_true_eq, decide_eq_true_eq, decide_eq_true_eq] at hb
    exact hb
  exact ⟨fun ht ho => (harith ht ho).imp hnum hnum, fun ht ho hs => intOperand_of_intOperandB (hconv ht ho hs), hdst, htobit⟩

/-- A store that is built from code. -/
theorem good_ofCode {ks code : List IRIns} {fins : IRIns} (hlen : ks.length ≤ refBias) (hks : ks.all isKInsB = true)
    (hcode : (ks.foldl (fun J ins => (J.addk ins).2) empty).codeOk code = true)
    (hnum : ∀ d < (ofCode ks code fins).nins - (ofCode ks code fins).nk,
      numInsB (ofCode ks code fins) ((ofCode ks code fins).ir ((ofCode ks code fins).nk + d)) = true) :
    Good (ofCode ks code fins) := by
  obtain ⟨hwf, htyped⟩ := ofCode_wf_typed fins hlen hks hcode
  exact ⟨hwf, htyped, fun ref hv _ => numIns_of_numInsB (forall_valid
    (P := fun ref => numInsB (ofCode ks code fins) ((ofCode ks code fins).ir ref) = true) hnum hv)⟩

/-- The recording of `t[i+1]` for an integer `i`, as numbers, at the conversion of the index. -/
def indexTrace : JitState :=
  ofCode
    [{ o := .knum, t := { type := .num }, u64 := numOne }]
    [{ o := .base, t := { type := .nil } }, { o := .sload, t := { type := .int, isguard := true }, op1 := 1 },
      { o := .conv, t := { type := .num }, op1 := 0x8001, op2 := irconv .num .int },
      { o := .add, t := { type := .num }, op1 := 0x8002, op2 := 0x7fff }]
    { o := .conv, t := { type := .int, isguard := true }, op1 := 0x8003, op2 := irconv .int .num + irconvIndex }

/-- The trace after narrowing, and its execution with `i = 7`. -/
def indexOut : JitState := resultState indexTrace (optNarrowConvert oneOps rawFold indexTrace)

def indexExec : Exec where
  num ref := if ref = 0x7fff then 1 else if ref = 0x8002 then 7 else 8
  int ref := if ref = 0x7ffe then 1 else if ref = 0x8001 then 7 else 8

theorem knumVal_zero : knumVal 0 = some 0 := by
  rw [knumVal, if_neg (by decide), if_pos (by decide), show (0 : BitVec 64).toNat % 2 ^ 52 = 0 by decide, Nat.cast_zero, mul_zero,
    zero_div]

/-- The value of a normal number. -/
theorem knumVal_normal {n : BitVec 64} {neg : Bool} {e m : ℕ} (hneg : n.msb = neg) (he : n.toNat / 2 ^ 52 % 2 ^ 11 = e)
    (hm : n.toNat % 2 ^ 52 = m) (hinf : e ≠ 2047) (hsub : e ≠ 0) :
    knumVal n = some ((if neg then -1 else 1 : ℚ) * (2 ^ 52 + m) * 2 ^ e / 2 ^ 1075) := by
  rw [knumVal, hneg, he, hm, if_neg hinf, if_neg hsub]

theorem knumVal_one : knumVal numOne = some 1 := by
  have hexp : (2 : ℚ) ^ 52 * 2 ^ 1023 = 2 ^ 1075 := by rw [← pow_add]
  rw [@knumVal_normal numOne false 1023 0 (by decide) (by decide) (by decide) (by decide) (by decide), Nat.cast_zero,
    add_zero, if_neg Bool.false_ne_true, one_mul, hexp, div_self (by positivity)]

theorem oneOps_ok : FpOk oneOps := by
  refine ⟨fun n h => ?_, fun n h => ?_⟩
  · by_cases hn : n = numOne
    · subst hn
      rw [knumVal_one]
      rfl
    · have hint : oneOps.num2int n = 0 := if_neg hn
      rw [hint] at h ⊢
      rw [show n = 0 from beq_iff_eq.1 h, knumVal_zero]
      rfl
  · by_cases hn : n = numOne
    · subst hn
      rw [knumVal_one]
      rfl
    · have hint : oneOps.num2i64 n = 0 := if_neg hn
      rw [hint] at h ⊢
      rw [show n = 0 from beq_iff_eq.1 h, knumVal_zero]
      rfl

theorem indexTrace_good : Good indexTrace :=
  good_ofCode (by decide) (by decide) (by decide) (by decide)

theorem indexExec_runs : Runs indexOut indexExec := by
  intro ref hv
  refine forall_valid (P := fun ref => InsRuns indexExec (indexOut.ir ref) ref) ?_ hv
  have hlen : indexOut.nins - indexOut.nk = 7 := by decide
  rw [hlen]
  intro d hd
  interval_cases d
  · exact rfl
  · intro q hq
    exact Option.some.inj (knumVal_one.symm.trans hq)
  · trivial
  · trivial
  · refine ⟨fun _ _ => ?_, fun h => absurd h (by decide)⟩
    exact show (7 : ℚ) = ((7 : ℤ) : ℚ) by norm_num
  · refine ⟨fun _ => ?_, fun h => absurd h (by decide)⟩
    exact show (8 : ℚ) = 7 + 1 by norm_num
  · exact ⟨fun h => absurd h (by decide), fun _ => rfl⟩

/-- The index `7 + 1` is the element 8. -/
theorem narrow_sound_index : Holds indexOut indexExec (narrowMode indexTrace) 0x8003 0x8004 :=
  (narrow_sound oneOps_ok rawFold_ok (.start indexTrace_good (by decide))
    ⟨⟨⟨by decide, by decide⟩, by decide⟩, by decide, by decide, by decide⟩
    (eq_of_resultRef indexTrace (by decide)) (by decide) indexExec_runs).1 nofun

/-- The bit pattern of the number `-9007199254740987`. -/
def numBig : BitVec 64 := 0xc33ffffffffffffb

/-- The conversions of the number `-9007199254740987`. -/
def bigOps : FpOps where
  foldarith a _ _ := a
  numcmp _ _ _ := false
  eq a b := a == b
  neg a := a
  num2int _ := 0
  num2bit a := if a = numBig then 5 else 0
  num2u32 a := if a = numBig then 5 else 0
  num2i64 a := if a = numBig then -9007199254740987 else 0
  num2u64 a := if a = numBig then -9007199254740987 else 0
  ofI64 k := if k = -9007199254740987 then numBig else 0
  ofU64 k := if k = -9007199254740987 then numBig else 0

theorem bigOps_ok : FpOk bigOps := by
  have hbig : knumVal numBig = some (-9007199254740987) := by
    rw [@knumVal_normal numBig true 1075 4503599627370491 (by decide) (by decide) (by decide) (by decide) (by decide)]
    rw [mul_div_assoc, div_self (by positivity)]
    norm_num
  refine ⟨fun n h => ?_, fun n h => ?_⟩
  · rw [show n = 0 from beq_iff_eq.1 h, knumVal_zero]
    rfl
  · by_cases hn : n = numBig
    · subst hn
      rw [hbig]
      rfl
    · have hint : bigOps.num2i64 n = 0 := if_neg hn
      rw [hint] at h ⊢
      rw [show n = 0 from beq_iff_eq.1 h, knumVal_zero]
      rfl

/-- The recording of `bit.tobit(x - 9007199254740987)` for a number `x`, at the conversion of the operand. -/
def tobitTrace : JitState :=
  ofCode
    [{ o := .knum, t := { type := .num }, u64 := numBig },
      { o := .knum, t := { type := .num }, u64 := 0x4338000000000000 }]
    [{ o := .base, t := { type := .nil } }, { o := .sload, t := { type := .num, isguard := true }, op1 := 1 },
      { o := .add, t := { type := .num }, op1 := 0x8001, op2 := 0x7fff }]
    { o := .tobit, t := { type := .int }, op1 := 0x8002, op2 := 0x7ffe }

/-- The trace after narrowing, and its execution with `x = 2^53 + 2`. -/
def tobitOut : JitState := resultState tobitTrace (optNarrowConvert bigOps rawFold tobitTrace)

def tobitExec : Exec where
  num ref := if ref = 0x7fff then -9007199254740987 else if ref = 0x7ffe then 6755399441055744
    else if ref = 0x8001 then 9007199254740994 else 7
  int ref := if ref = 0x7ffd then 5 else if ref = 0x8003 then num2bit 9007199254740994 else 6

/-- `bit.tobit(2^53 + 2 - 9007199254740987)` is 6 after narrowing, not 7: the number is converted before the
addition brings it into the range of `TOBIT`. -/
theorem narrow_tobit_range :
    NarrowRun bigOps rawFold tobitTrace ∧ Converts tobitTrace ∧
      optNarrowConvert bigOps rawFold tobitTrace = some (.ok (.ref 0x8004, tobitOut)) ∧ Runs tobitOut tobitExec ∧
      IntegralTree tobitOut tobitExec 0x8002 ∧ tobitExec.num 0x8002 = 7 ∧ tobitExec.int 0x8004 = 6 ∧
      ¬Holds tobitOut tobitExec (narrowMode tobitTrace) tobitTrace.fins.op1 0x8004 := by
  have hgood : Good tobitTrace := good_ofCode (by decide) (by decide) (by decide) (by decide)
  have hout : optNarrowConvert bigOps rawFold tobitTrace = some (.ok (.ref 0x8004, tobitOut)) :=
    eq_of_resultRef tobitTrace (by decide)
  have htree : IntegralTree tobitOut tobitExec 0x8002 := by
    refine .node (by decide) (.leaf (by decide) 9007199254740994 (by decide))
      (.leaf (by decide) (-9007199254740987) (by decide))
  refine ⟨.start hgood (by decide),
    ⟨⟨⟨by decide, by decide⟩, by decide⟩, by decide, by decide, by decide⟩,
    hout, runs_of_insRunsB (by decide +kernel), htree, rfl, rfl, fun h => ?_⟩
  have hword := h.tobit (by decide) htree 7 (by decide)
  exact absurd hword (by decide)

end Ir
