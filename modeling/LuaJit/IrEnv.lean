/-
**Well-formed and well-typed IR, and the values of its references.**

A store is well formed if constants and instructions are separated at `refBias`, the operands of an
instruction are lower references, and every chain links exactly instructions of its opcode.  An
environment gives a word to every reference; it is a model of the store if constants have their
value and every integer instruction has the value of its opcode on the values of its operands.
Loads and all other instructions are unconstrained, so a model is one possible execution.

Main definitions:

* `Ir.JitState.WF`, `Ir.JitState.Typed` — well-formed and well-typed stores;
* `Ir.JitState.Ext` — the second store has everything of the first;
* `Ir.JitState.Models` — an environment of the store.

Main results:

* `Ir.JitState.findk_spec`, `Ir.JitState.findins_spec` — what the chain walks find;
* `Ir.JitState.kint_spec`, `Ir.JitState.kint64_spec` — interning returns a constant of the wanted
  value and keeps everything that was there;
* `Ir.JitState.Models.extend_addk` — an environment extends to the store with the new constant.
-/

import LuaJit.FoldConst

set_option relaxedAutoImplicit false
set_option autoImplicit false

namespace Ir

/-- The opcodes of constants. -/
def IROp.isConst : IROp → Bool
  | .kpri | .kint | .kgc | .kptr | .kkptr | .knull | .knum | .kint64 | .kslot => true
  | _ => false

theorem evalOp_of_isConst {o : IROp} (h : o.isConst = true) {w : ℕ} (a b : BitVec w) :
    evalOp o a b = none := by
  cases o <;> first | rfl | cases h

/-- The types of integers, including the small ones of loads. -/
def IRType.isInt : IRType → Bool
  | .i8 | .u8 | .i16 | .u16 | .int | .u32 | .i64 | .u64 => Bool.true
  | _ => Bool.false

namespace JitState

/-! ### Well-formed stores -/

/-- A reference of the store. -/
def Valid (J : JitState) (ref : ℕ) : Prop := J.nk ≤ ref ∧ ref < J.nins

/-- `ref` can stand in the chain of `o`. -/
def InChain (J : JitState) (o : IROp) (ref : ℕ) : Prop := J.Valid ref ∧ (J.ir ref).o = o

/-- Well-formed stores. -/
structure WF (J : JitState) : Prop where
  nk_le : J.nk ≤ refBias
  bias_le : refBias ≤ J.nins
  const_iff : ∀ {ref : ℕ}, J.Valid ref → ((J.ir ref).o.isConst = true ↔ ref < refBias)
  op1_lt : ∀ {ref : ℕ}, J.Valid ref → refBias ≤ ref → (J.ir ref).op1 < ref
  op2_lt : ∀ {ref : ℕ}, J.Valid ref → refBias ≤ ref → (J.ir ref).op2 < ref
  chain_ok : ∀ o : IROp, J.chain o = 0 ∨ J.InChain o (J.chain o)
  prev_ok : ∀ {ref : ℕ}, J.Valid ref →
    (J.ir ref).prev = 0 ∨ J.InChain (J.ir ref).o (J.ir ref).prev
  prev_lt : ∀ {ref : ℕ}, J.Valid ref → refBias ≤ ref → (J.ir ref).prev < ref
  prev_gt : ∀ {ref : ℕ}, J.Valid ref → ref < refBias →
    (J.ir ref).prev = 0 ∨ ref < (J.ir ref).prev
  kint_type : ∀ {ref : ℕ}, J.InChain .kint ref → (J.ir ref).t.type = .int
  kint64_type : ∀ {ref : ℕ}, J.InChain .kint64 ref → (J.ir ref).t.type = .i64
  const_type : ∀ {ref : ℕ}, J.Valid ref → ref < refBias → (J.ir ref).t.type.isInt = true →
    (J.ir ref).o = .kint ∨ (J.ir ref).o = .kint64

variable {J : JitState}

/-- A walk for a constant returns a member of the chain that satisfies the test. -/
theorem findk_spec (hJ : J.WF) {o : IROp} {p : IRIns → Bool} {r : ℕ} :
    ∀ {fuel : ℕ} {ref : ℕ}, ref = 0 ∨ J.InChain o ref → J.findk p fuel ref = some r →
      J.InChain o r ∧ p (J.ir r) = true := by
  intro fuel
  induction fuel with
  | zero => intro ref _ h; simp [findk] at h
  | succ fuel ih =>
      intro ref hc h
      rw [findk] at h
      split at h
      · simp at h
      · rename_i h0
        have hin := hc.resolve_left h0
        split at h
        · rename_i hp
          cases h
          exact ⟨hin, hp⟩
        · refine ih ?_ h
          rw [← hin.2]
          exact hJ.prev_ok hin.1

/-- A walk for an instruction returns a member of the chain above the limit that satisfies the
test. -/
theorem findins_spec (hJ : J.WF) {o : IROp} {p : IRIns → Bool} {lim r : ℕ} :
    ∀ {fuel : ℕ} {ref : ℕ}, ref = 0 ∨ J.InChain o ref → J.findins p lim fuel ref = some r →
      J.InChain o r ∧ p (J.ir r) = true ∧ lim < r := by
  intro fuel
  induction fuel with
  | zero => intro ref _ h; simp [findins] at h
  | succ fuel ih =>
      intro ref hc h
      rw [findins] at h
      split at h
      · simp at h
      · rename_i hlim
        have hin := hc.resolve_left (by omega)
        split at h
        · rename_i hp
          cases h
          exact ⟨hin, hp, by omega⟩
        · refine ih ?_ h
          rw [← hin.2]
          exact hJ.prev_ok hin.1

/-! ### Extension of a store -/

/-- Everything of `J` is in `J'`. -/
structure Ext (J J' : JitState) : Prop where
  nk_le : J'.nk ≤ J.nk
  nins_le : J.nins ≤ J'.nins
  ir_eq : ∀ {ref : ℕ}, J.Valid ref → J'.ir ref = J.ir ref

theorem Ext.refl (J : JitState) : J.Ext J := ⟨le_refl _, le_refl _, fun _ => rfl⟩

theorem Ext.valid {J J' : JitState} (h : J.Ext J') {ref : ℕ} (hv : J.Valid ref) :
    J'.Valid ref := ⟨h.nk_le.trans hv.1, lt_of_lt_of_le hv.2 h.nins_le⟩

theorem Ext.trans {J J' J'' : JitState} (h : J.Ext J') (h' : J'.Ext J'') : J.Ext J'' :=
  ⟨h'.nk_le.trans h.nk_le, h.nins_le.trans h'.nins_le,
    fun hv => (h'.ir_eq (h.valid hv)).trans (h.ir_eq hv)⟩

theorem Ext.inChain {J J' : JitState} (h : J.Ext J') {o : IROp} {ref : ℕ}
    (hc : J.InChain o ref) : J'.InChain o ref :=
  ⟨h.valid hc.1, by rw [h.ir_eq hc.1]; exact hc.2⟩

/-! ### Well-typed stores -/

/-- `ref` can be an operand of an integer instruction of width `w`. -/
def IntOperand (J : JitState) (w : ℕ) (ref : ℕ) : Prop :=
  J.Valid ref ∧ (J.ir ref).t.type.isInt = true ∧ (J.ir ref).t.type.width = w

theorem Ext.intOperand {J J' : JitState} (h : J.Ext J') {w : ℕ} {ref : ℕ}
    (ho : J.IntOperand w ref) : J'.IntOperand w ref :=
  ⟨h.valid ho.1, by rw [h.ir_eq ho.1]; exact ho.2⟩

end JitState

/-- The operands an integer instruction takes. -/
inductive Arity
  | unary
  | binary
  | shift
  | other
  deriving DecidableEq

/-- The arity of the integer opcodes. -/
def IROp.arity : IROp → Arity
  | .neg | .bnot | .bswap => .unary
  | .add | .sub | .mul | .mod | .band | .bor | .bxor | .min | .max | .addov | .subov | .mulov
  | .lt | .ge | .le | .gt | .ult | .uge | .ule | .ugt | .eq | .ne => .binary
  | .bshl | .bshr | .bsar | .brol | .bror => .shift
  | _ => .other

namespace JitState

variable {J : JitState}

/-- The operands of an integer instruction have its width; shift and rotate counts have 32 bits.
Arithmetic is never done in the small integer types, the overflow-checking instructions only exist
for 32 bits, and the operands of a bounds check are 32 bit integers whatever its own type is. -/
structure TypedIns (J : JitState) (ins : IRIns) : Prop where
  operands : ins.t.type.isArith = true →
    match ins.o.arity with
    | .unary => J.IntOperand ins.t.type.width ins.op1
    | .binary => J.IntOperand ins.t.type.width ins.op1 ∧ J.IntOperand ins.t.type.width ins.op2
    | .shift => J.IntOperand ins.t.type.width ins.op1 ∧ J.IntOperand 32 ins.op2
    | .other => True
  arith : ins.o.arity ≠ .other → ins.t.type.isInt = true → ins.t.type.isArith = true
  overflow : ins.o = .addov ∨ ins.o = .subov ∨ ins.o = .mulov → ins.t.type = .int
  bounds : ins.o = .abc → J.IntOperand 32 ins.op1 ∧ J.IntOperand 32 ins.op2

/-- Every instruction of the store is well typed. -/
def Typed (J : JitState) : Prop :=
  ∀ ref : ℕ, J.Valid ref → refBias ≤ ref → J.TypedIns (J.ir ref)

theorem Ext.typedIns {J J' : JitState} (h : J.Ext J') {ins : IRIns} (ht : J.TypedIns ins) :
    J'.TypedIns ins := by
  refine ⟨fun ha => ?_, ht.arith, ht.overflow,
    fun ho => (ht.bounds ho).imp h.intOperand h.intOperand⟩
  have hi := ht.operands ha
  cases har : ins.o.arity with
  | unary => rw [har] at hi; exact h.intOperand hi
  | binary => rw [har] at hi; exact hi.imp h.intOperand h.intOperand
  | shift => rw [har] at hi; exact hi.imp h.intOperand h.intOperand
  | other => trivial

/-! ### Environments -/

/-- A word for every reference. -/
abbrev Env := ℕ → BitVec 64

/-- The value of a reference as a word of width `w`. -/
def val (ρ : Env) (w : ℕ) (ref : ℕ) : BitVec w := (ρ ref).setWidth w

/-- `v` is the value of the instruction.  `MOD` of 64 bit integers is a call and not constrained. -/
def InsHolds (ρ : Env) (ins : IRIns) (v : BitVec 64) : Prop :=
  (ins.o = .kint → v = ins.i.signExtend 64) ∧
  (ins.o = .kint64 → v = ins.u64) ∧
  (ins.t.type.isArith = true → ¬ (ins.o = .mod ∧ ins.t.type.width = 64) →
    ∀ x : BitVec ins.t.type.width,
      evalOp ins.o (val ρ ins.t.type.width ins.op1) (val ρ ins.t.type.width ins.op2) = some x →
      v.setWidth ins.t.type.width = x)

/-- `ρ` is an environment of the store. -/
def Models (J : JitState) (ρ : Env) : Prop :=
  ∀ ref : ℕ, J.Valid ref → InsHolds ρ (J.ir ref) (ρ ref)

/-- The value of a well-typed instruction only depends on the values of its operands. -/
theorem InsHolds.congr {J : JitState} {ins : IRIns} (ht : J.TypedIns ins) {ρ ρ' : Env}
    (hρ : ∀ ref : ℕ, J.Valid ref → ρ' ref = ρ ref) {v : BitVec 64} (h : InsHolds ρ ins v) :
    InsHolds ρ' ins v := by
  refine ⟨h.1, h.2.1, fun ha hmod x hx => h.2.2 ha hmod x ?_⟩
  rw [← hx]
  have hi := ht.operands ha
  have hval : ∀ ref : ℕ, J.Valid ref → val ρ ins.t.type.width ref = val ρ' ins.t.type.width ref := by
    intro ref hv
    rw [val, val, hρ ref hv]
  cases har : ins.o.arity with
  | unary =>
      rw [har] at hi
      rw [hval _ hi.1]
      cases ho : ins.o <;> rw [ho] at har <;> first | rfl | cases har
  | binary | shift =>
      rw [har] at hi
      rw [hval _ hi.1.1, hval _ hi.2.1]
  | other => cases ho : ins.o <;> rw [ho] at har <;> first | rfl | cases har

theorem Models.kint {ρ : Env} (hm : J.Models ρ) {ref : ℕ} (hc : J.InChain .kint ref) :
    ρ ref = (J.ir ref).i.signExtend 64 := (hm ref hc.1).1 hc.2

/-- A constant operand of a 32 bit instruction is a `KINT`. -/
theorem IntOperand.kint (hJ : J.WF) {ref : ℕ} (ho : J.IntOperand 32 ref)
    (hk : irrefIsk ref = true) : J.InChain .kint ref := by
  have hlt : ref < refBias := by simpa [irrefIsk] using hk
  rcases hJ.const_type ho.1 hlt ho.2.1 with h | h
  · exact ⟨ho.1, h⟩
  · have hw := ho.2.2
    rw [hJ.kint64_type ⟨ho.1, h⟩] at hw
    exact absurd hw (by decide)

/-! ### Adding a constant -/

/-- The instruction of an integer constant. -/
structure IsKIns (ins : IRIns) : Prop where
  isConst : ins.o.isConst = true
  kint_type : ins.o = .kint → ins.t.type = .int
  kint64_type : ins.o = .kint64 → ins.t.type = .i64
  const_type : ins.t.type.isInt = true → ins.o = .kint ∨ ins.o = .kint64

section AddK

variable {ins : IRIns}

theorem addk_ext (h0 : 0 < J.nk) : J.Ext (J.addk ins).2 where
  nk_le := Nat.sub_le _ _
  nins_le := le_refl _
  ir_eq := by
    intro ref hv
    have hne : ref ≠ J.nk - 1 := by
      have := hv.1
      omega
    exact Function.update_of_ne hne _ _

theorem addk_ir : (J.addk ins).2.ir (J.nk - 1) = { ins with prev := J.chain ins.o } :=
  Function.update_self _ _ _

theorem addk_valid (hJ : J.WF) (h0 : 0 < J.nk) : (J.addk ins).2.Valid (J.nk - 1) := by
  have h1 := hJ.nk_le
  have h2 := hJ.bias_le
  exact ⟨le_refl _, show J.nk - 1 < J.nins by lia⟩

theorem addk_inChain (hJ : J.WF) (h0 : 0 < J.nk) :
    (J.addk ins).2.InChain ins.o (J.addk ins).1 :=
  ⟨addk_valid hJ h0, by rw [show (J.addk ins).1 = J.nk - 1 from rfl, addk_ir]⟩

/-- The references of the store after adding a constant. -/
theorem addk_valid_cases (h0 : 0 < J.nk) {ref : ℕ} (hv : (J.addk ins).2.Valid ref) :
    ref = J.nk - 1 ∨ J.Valid ref := by
  have h1 : J.nk - 1 ≤ ref := hv.1
  have h2 : ref < J.nins := hv.2
  rcases Nat.lt_or_ge ref J.nk with h | h
  · left; lia
  · exact Or.inr ⟨h, h2⟩

/-- Adding a constant keeps the store well formed. -/
theorem WF.addk (hJ : J.WF) (h0 : 0 < J.nk) (hk : IsKIns ins) : (J.addk ins).2.WF := by
  have hle := hJ.nk_le
  have hext : J.Ext (J.addk ins).2 := addk_ext h0
  have hir : (J.addk ins).2.ir (J.nk - 1) = { ins with prev := J.chain ins.o } := addk_ir
  have hlt : J.nk - 1 < refBias := by omega
  refine
    { nk_le := hlt.le, bias_le := hJ.bias_le, const_iff := ?_, op1_lt := ?_, op2_lt := ?_,
      chain_ok := ?_, prev_ok := ?_, prev_lt := ?_, prev_gt := ?_, kint_type := ?_,
      kint64_type := ?_, const_type := ?_ }
  · intro ref hv
    rcases addk_valid_cases h0 hv with rfl | hv
    · rw [hir]; exact iff_of_true hk.isConst hlt
    · rw [hext.ir_eq hv]; exact hJ.const_iff hv
  · intro ref hv hb
    rcases addk_valid_cases h0 hv with rfl | hv
    · omega
    · rw [hext.ir_eq hv]; exact hJ.op1_lt hv hb
  · intro ref hv hb
    rcases addk_valid_cases h0 hv with rfl | hv
    · omega
    · rw [hext.ir_eq hv]; exact hJ.op2_lt hv hb
  · intro o
    by_cases ho : o = ins.o
    · subst ho
      right
      have : (J.addk ins).2.chain ins.o = J.nk - 1 := Function.update_self _ _ _
      rw [this]
      exact addk_inChain hJ h0
    · have : (J.addk ins).2.chain o = J.chain o := Function.update_of_ne ho _ _
      rw [this]
      exact (hJ.chain_ok o).imp id hext.inChain
  · intro ref hv
    rcases addk_valid_cases h0 hv with rfl | hv
    · rw [hir]; exact (hJ.chain_ok ins.o).imp id hext.inChain
    · rw [hext.ir_eq hv]; exact (hJ.prev_ok hv).imp id hext.inChain
  · intro ref hv hb
    rcases addk_valid_cases h0 hv with rfl | hv
    · omega
    · rw [hext.ir_eq hv]; exact hJ.prev_lt hv hb
  · intro ref hv hb
    rcases addk_valid_cases h0 hv with rfl | hv
    · rw [hir]
      refine (hJ.chain_ok ins.o).imp id fun hc => ?_
      have := hc.1.1
      show J.nk - 1 < J.chain ins.o
      omega
    · rw [hext.ir_eq hv]; exact hJ.prev_gt hv hb
  · rintro ref ⟨hv, ho⟩
    rcases addk_valid_cases h0 hv with rfl | hv
    · rw [hir] at ho ⊢; exact hk.kint_type ho
    · rw [hext.ir_eq hv] at ho ⊢; exact hJ.kint_type ⟨hv, ho⟩
  · rintro ref ⟨hv, ho⟩
    rcases addk_valid_cases h0 hv with rfl | hv
    · rw [hir] at ho ⊢; exact hk.kint64_type ho
    · rw [hext.ir_eq hv] at ho ⊢; exact hJ.kint64_type ⟨hv, ho⟩
  · intro ref hv hb ht
    rcases addk_valid_cases h0 hv with rfl | hv
    · rw [hir] at ht ⊢; exact hk.const_type ht
    · rw [hext.ir_eq hv] at ht ⊢; exact hJ.const_type hv hb ht

theorem Typed.addk (hT : J.Typed) (hJ : J.WF) (h0 : 0 < J.nk) : (J.addk ins).2.Typed := by
  intro ref hv hb
  have hext : J.Ext (J.addk ins).2 := addk_ext h0
  rcases addk_valid_cases h0 hv with rfl | hv
  · have := hJ.nk_le
    omega
  · rw [hext.ir_eq hv]
    exact hext.typedIns (hT ref hv hb)

/-- An environment extends to the new constant. -/
theorem Models.extend_addk (hT : J.Typed) (hJ : J.WF) (h0 : 0 < J.nk) {ρ : Env}
    (hm : J.Models ρ) {v : BitVec 64} (hv : ∀ ρ' : Env, InsHolds ρ' ins v) :
    (J.addk ins).2.Models (Function.update ρ (J.nk - 1) v) := by
  have hext : J.Ext (J.addk ins).2 := addk_ext h0
  intro ref hvalid
  rcases addk_valid_cases h0 hvalid with rfl | hvalid
  · rw [addk_ir, Function.update_self]
    exact hv _
  · have hold : ∀ ref : ℕ, J.Valid ref → Function.update ρ (J.nk - 1) v ref = ρ ref := by
      intro ref hr
      have := hr.1
      exact Function.update_of_ne (by omega) _ _
    rw [hext.ir_eq hvalid, hold ref hvalid]
    rcases Nat.lt_or_ge ref refBias with hb | hb
    · -- a constant has no operands
      have hc := (hJ.const_iff hvalid).2 hb
      have hi := hm ref hvalid
      refine ⟨hi.1, hi.2.1, fun _ _ x hx => ?_⟩
      rw [evalOp_of_isConst hc] at hx
      cases hx
    · exact InsHolds.congr (hT ref hvalid hb) hold (hm ref hvalid)

end AddK

/-! ### Adding an instruction -/

section AddIns

variable {ins : IRIns}

theorem addins_ext : J.Ext (J.addins ins).2 where
  nk_le := le_refl _
  nins_le := Nat.le_succ _
  ir_eq := by
    intro ref hv
    have := hv.2
    exact Function.update_of_ne (by omega) _ _

theorem addins_ir : (J.addins ins).2.ir J.nins = { ins with prev := J.chain ins.o } :=
  Function.update_self _ _ _

theorem addins_inChain (hJ : J.WF) : (J.addins ins).2.InChain ins.o (J.addins ins).1 :=
  ⟨⟨hJ.nk_le.trans hJ.bias_le, Nat.lt_succ_self _⟩,
    by rw [show (J.addins ins).1 = J.nins from rfl, addins_ir]⟩

/-- The references of the store after adding an instruction. -/
theorem addins_valid_cases {ref : ℕ} (hv : (J.addins ins).2.Valid ref) :
    ref = J.nins ∨ J.Valid ref := by
  have h1 : J.nk ≤ ref := hv.1
  have h2 : ref < J.nins + 1 := hv.2
  rcases Nat.lt_or_ge ref J.nins with h | h
  · exact Or.inr ⟨h1, h⟩
  · left; lia

/-- Adding an instruction keeps the store well formed. -/
theorem WF.addins (hJ : J.WF) (hk : ins.o.isConst = false) (h1 : ins.op1 < J.nins)
    (h2 : ins.op2 < J.nins) : (J.addins ins).2.WF := by
  have hext : J.Ext (J.addins ins).2 := addins_ext
  have hir : (J.addins ins).2.ir J.nins = { ins with prev := J.chain ins.o } := addins_ir
  have hb := hJ.bias_le
  refine
    { nk_le := hJ.nk_le, bias_le := hb.trans (Nat.le_succ _), const_iff := ?_, op1_lt := ?_,
      op2_lt := ?_, chain_ok := ?_, prev_ok := ?_, prev_lt := ?_, prev_gt := ?_, kint_type := ?_,
      kint64_type := ?_, const_type := ?_ }
  · intro ref hv
    rcases addins_valid_cases hv with rfl | hv
    · rw [hir]
      exact iff_of_false (by rw [hk]; simp) (by omega)
    · rw [hext.ir_eq hv]; exact hJ.const_iff hv
  · intro ref hv hr
    rcases addins_valid_cases hv with rfl | hv
    · rw [hir]; exact h1
    · rw [hext.ir_eq hv]; exact hJ.op1_lt hv hr
  · intro ref hv hr
    rcases addins_valid_cases hv with rfl | hv
    · rw [hir]; exact h2
    · rw [hext.ir_eq hv]; exact hJ.op2_lt hv hr
  · intro o
    by_cases ho : o = ins.o
    · subst ho
      right
      rw [show (J.addins ins).2.chain ins.o = J.nins from Function.update_self _ _ _]
      exact addins_inChain hJ
    · rw [show (J.addins ins).2.chain o = J.chain o from Function.update_of_ne ho _ _]
      exact (hJ.chain_ok o).imp id hext.inChain
  · intro ref hv
    rcases addins_valid_cases hv with rfl | hv
    · rw [hir]; exact (hJ.chain_ok ins.o).imp id hext.inChain
    · rw [hext.ir_eq hv]; exact (hJ.prev_ok hv).imp id hext.inChain
  · intro ref hv hr
    rcases addins_valid_cases hv with rfl | hv
    · rw [hir]
      rcases hJ.chain_ok ins.o with h0 | hc
      · show J.chain ins.o < J.nins
        have : 0 < refBias := by decide
        omega
      · exact hc.1.2
    · rw [hext.ir_eq hv]; exact hJ.prev_lt hv hr
  · intro ref hv hr
    rcases addins_valid_cases hv with rfl | hv
    · omega
    · rw [hext.ir_eq hv]; exact hJ.prev_gt hv hr
  · rintro ref ⟨hv, ho⟩
    rcases addins_valid_cases hv with rfl | hv
    · rw [hir] at ho
      rw [show ins.o = .kint from ho] at hk
      cases hk
    · rw [hext.ir_eq hv] at ho ⊢; exact hJ.kint_type ⟨hv, ho⟩
  · rintro ref ⟨hv, ho⟩
    rcases addins_valid_cases hv with rfl | hv
    · rw [hir] at ho
      rw [show ins.o = .kint64 from ho] at hk
      cases hk
    · rw [hext.ir_eq hv] at ho ⊢; exact hJ.kint64_type ⟨hv, ho⟩
  · intro ref hv hr ht
    rcases addins_valid_cases hv with rfl | hv
    · omega
    · rw [hext.ir_eq hv] at ht ⊢; exact hJ.const_type hv hr ht

theorem Typed.addins (hT : J.Typed) (hi : J.TypedIns ins) : (J.addins ins).2.Typed := by
  intro ref hv hb
  have hext : J.Ext (J.addins ins).2 := addins_ext
  rcases addins_valid_cases hv with rfl | hv
  · rw [addins_ir]
    exact hext.typedIns ⟨hi.operands, hi.arith, hi.overflow, hi.bounds⟩
  · rw [hext.ir_eq hv]
    exact hext.typedIns (hT ref hv hb)

end AddIns

/-- The operands of the instruction have been loaded into `fleft` and `fright`. -/
structure Loaded (J : JitState) : Prop where
  left : J.Valid J.fins.op1 → J.fleft = J.ir J.fins.op1
  right : J.Valid J.fins.op2 → J.fright = J.ir J.fins.op2

theorem WF.empty : empty.WF where
  nk_le := le_refl _
  bias_le := le_refl _
  const_iff := fun hv => absurd hv.2 (Nat.not_lt.2 hv.1)
  op1_lt := fun hv => absurd hv.2 (Nat.not_lt.2 hv.1)
  op2_lt := fun hv => absurd hv.2 (Nat.not_lt.2 hv.1)
  chain_ok := fun _ => Or.inl rfl
  prev_ok := fun hv => absurd hv.2 (Nat.not_lt.2 hv.1)
  prev_lt := fun hv => absurd hv.2 (Nat.not_lt.2 hv.1)
  prev_gt := fun hv => absurd hv.2 (Nat.not_lt.2 hv.1)
  kint_type := fun hv => absurd hv.1.2 (Nat.not_lt.2 hv.1.1)
  kint64_type := fun hv => absurd hv.1.2 (Nat.not_lt.2 hv.1.1)
  const_type := fun hv => absurd hv.2 (Nat.not_lt.2 hv.1)

/-- The instruction being folded and the copies of its operands are no part of the store. -/
theorem WF.congr {J J' : JitState} (hJ : J.WF) (h1 : J'.ir = J.ir) (h2 : J'.nk = J.nk)
    (h3 : J'.nins = J.nins) (h4 : J'.chain = J.chain) : J'.WF := by
  cases J
  cases J'
  subst h1 h2 h3 h4
  exact ⟨hJ.1, hJ.2, hJ.3, hJ.4, hJ.5, hJ.6, hJ.7, hJ.8, hJ.9, hJ.10, hJ.11, hJ.12⟩

theorem Typed.congr {J J' : JitState} (hT : J.Typed) (h1 : J'.ir = J.ir) (h2 : J'.nk = J.nk)
    (h3 : J'.nins = J.nins) : J'.Typed := by
  have hext : J.Ext J' := ⟨h2.le, h3.ge, fun _ => by rw [h1]⟩
  intro ref hv hb
  rw [h1]
  exact hext.typedIns (hT ref ⟨by rw [← h2]; exact hv.1, by rw [← h3]; exact hv.2⟩ hb)

/-- Checking `IsKIns`. -/
def isKInsB (ins : IRIns) : Bool :=
  ins.o.isConst && decide (ins.o = .kint → ins.t.type = .int) &&
  decide (ins.o = .kint64 → ins.t.type = .i64) &&
  decide (ins.t.type.isInt = true → ins.o = .kint ∨ ins.o = .kint64)

theorem isKIns_of_isKInsB {ins : IRIns} (h : isKInsB ins = true) : IsKIns ins := by
  simp only [isKInsB, Bool.and_eq_true, decide_eq_true_eq] at h
  exact ⟨h.1.1.1, h.1.1.2, h.1.2, h.2⟩

/-- Checking `IntOperand`. -/
def intOperandB (J : JitState) (w ref : ℕ) : Bool :=
  decide (J.nk ≤ ref) && decide (ref < J.nins) && (J.ir ref).t.type.isInt &&
  decide ((J.ir ref).t.type.width = w)

theorem intOperand_of_intOperandB {w ref : ℕ} (h : J.intOperandB w ref = true) :
    J.IntOperand w ref := by
  simp only [intOperandB, Bool.and_eq_true, decide_eq_true_eq] at h
  exact ⟨⟨h.1.1.1, h.1.1.2⟩, h.1.2, h.2⟩

/-- Checking `TypedIns`. -/
def typedInsB (J : JitState) (ins : IRIns) : Bool :=
  (!ins.t.type.isArith ||
    match ins.o.arity with
    | .unary => J.intOperandB ins.t.type.width ins.op1
    | .binary => J.intOperandB ins.t.type.width ins.op1 && J.intOperandB ins.t.type.width ins.op2
    | .shift => J.intOperandB ins.t.type.width ins.op1 && J.intOperandB 32 ins.op2
    | .other => true) &&
  decide (ins.o.arity ≠ .other → ins.t.type.isInt = true → ins.t.type.isArith = true) &&
  decide (ins.o = .addov ∨ ins.o = .subov ∨ ins.o = .mulov → ins.t.type = .int) &&
  (decide (ins.o ≠ .abc) || (J.intOperandB 32 ins.op1 && J.intOperandB 32 ins.op2))

theorem typedIns_of_typedInsB {ins : IRIns} (h : J.typedInsB ins = true) : J.TypedIns ins := by
  simp only [typedInsB, Bool.and_eq_true, Bool.or_eq_true, decide_eq_true_eq] at h
  refine ⟨fun ha => ?_, h.1.1.2, h.1.2, fun ho => ?_⟩
  · have hops := h.1.1.1.resolve_left (by simp [ha])
    cases har : ins.o.arity with
    | unary => rw [har] at hops; exact intOperand_of_intOperandB hops
    | binary | shift =>
        rw [har] at hops
        simp only [Bool.and_eq_true] at hops
        exact hops.imp intOperand_of_intOperandB intOperand_of_intOperandB
    | other => trivial
  · exact (h.2.resolve_left (by simp [ho])).imp intOperand_of_intOperandB intOperand_of_intOperandB

/-- Checking that instructions can be added in turn. -/
def codeOk : JitState → List IRIns → Bool
  | _, [] => true
  | J, ins :: code =>
      !ins.o.isConst && decide (ins.op1 < J.nins) && decide (ins.op2 < J.nins) &&
      J.typedInsB ins && codeOk (J.addins ins).2 code

theorem wf_typed_foldl_addk {ks : List IRIns} :
    ∀ {J : JitState}, J.WF → J.Typed → ks.length ≤ J.nk → ks.all isKInsB = true →
      (ks.foldl (fun J ins => (J.addk ins).2) J).WF ∧
      (ks.foldl (fun J ins => (J.addk ins).2) J).Typed := by
  induction ks with
  | nil => intro J hJ hT _ _; exact ⟨hJ, hT⟩
  | cons ins ks ih =>
      intro J hJ hT hlen hall
      rw [List.all_cons, Bool.and_eq_true] at hall
      rw [List.length_cons] at hlen
      have h0 : 0 < J.nk := by omega
      refine ih (hJ.addk h0 (isKIns_of_isKInsB hall.1)) (hT.addk hJ h0) ?_ hall.2
      show ks.length ≤ J.nk - 1
      omega

theorem wf_typed_foldl_addins {code : List IRIns} :
    ∀ {J : JitState}, J.WF → J.Typed → J.codeOk code = true →
      (code.foldl (fun J ins => (J.addins ins).2) J).WF ∧
      (code.foldl (fun J ins => (J.addins ins).2) J).Typed := by
  induction code with
  | nil => intro J hJ hT _; exact ⟨hJ, hT⟩
  | cons ins code ih =>
      intro J hJ hT hok
      simp only [codeOk, Bool.and_eq_true, Bool.not_eq_true', decide_eq_true_eq] at hok
      obtain ⟨⟨⟨⟨hk, h1⟩, h2⟩, ht⟩, hok⟩ := hok
      exact ih (hJ.addins hk h1 h2) (hT.addins (typedIns_of_typedInsB ht)) hok

/-- A store built from code that passes the checks is well formed and well typed. -/
theorem ofCode_wf_typed {ks code : List IRIns} (fins : IRIns) (hlen : ks.length ≤ refBias)
    (hks : ks.all isKInsB = true)
    (hcode : (ks.foldl (fun J ins => (J.addk ins).2) empty).codeOk code = true) :
    (ofCode ks code fins).WF ∧ (ofCode ks code fins).Typed := by
  have hT : empty.Typed := fun ref hv => absurd hv.2 (Nat.not_lt.2 hv.1)
  have h1 := wf_typed_foldl_addk WF.empty hT hlen hks
  have h2 := wf_typed_foldl_addins h1.1 h1.2 hcode
  exact ⟨h2.1.congr rfl rfl rfl rfl, h2.2.congr rfl rfl rfl⟩

/-- A property of all references of a concrete store. -/
theorem forall_valid {P : ℕ → Prop} (h : ∀ d < J.nins - J.nk, P (J.nk + d)) {ref : ℕ}
    (hv : J.Valid ref) : P ref := by
  have h1 := hv.1
  have h2 := hv.2
  have := h (ref - J.nk) (by lia)
  rwa [show J.nk + (ref - J.nk) = ref by lia] at this

/-- What interning a constant does: the reference it returns is a constant with the property, and
everything that was there is kept. -/
structure Interned (J : JitState) (o : IROp) (P : IRIns → Prop) (r : ℕ × JitState) : Prop where
  ext : J.Ext r.2
  wf : r.2.WF
  typed : J.Typed → r.2.Typed
  inChain : r.2.InChain o r.1
  holds : P (r.2.ir r.1)
  fins_eq : r.2.fins = J.fins
  nins_eq : r.2.nins = J.nins
  nk_ge : J.nk ≤ r.2.nk + 1
  extend : J.Typed → ∀ ρ : Env, J.Models ρ →
    ∃ ρ' : Env, r.2.Models ρ' ∧ ∀ ref : ℕ, J.Valid ref → ρ' ref = ρ ref

/-- A constant that is found. -/
theorem Interned.found (hJ : J.WF) {o : IROp} {P : IRIns → Prop} {ref : ℕ}
    (hc : J.InChain o ref) (hP : P (J.ir ref)) : J.Interned o P (ref, J) where
  ext := Ext.refl J
  wf := hJ
  typed := id
  inChain := hc
  holds := hP
  fins_eq := rfl
  nins_eq := rfl
  nk_ge := Nat.le_succ _
  extend := fun _ ρ hm => ⟨ρ, hm, fun _ _ => rfl⟩

/-- A constant that is added. -/
theorem Interned.added (hJ : J.WF) (h0 : 0 < J.nk) {ins : IRIns} {P : IRIns → Prop}
    (hk : IsKIns ins) (hP : P { ins with prev := J.chain ins.o }) {v : BitVec 64}
    (hv : ∀ ρ : Env, InsHolds ρ ins v) : J.Interned ins.o P (J.addk ins) where
  ext := addk_ext h0
  wf := hJ.addk h0 hk
  typed := fun hT => hT.addk hJ h0
  inChain := addk_inChain hJ h0
  holds := by rw [show (J.addk ins).1 = J.nk - 1 from rfl, addk_ir]; exact hP
  fins_eq := rfl
  nins_eq := rfl
  nk_ge := show J.nk ≤ J.nk - 1 + 1 by omega
  extend := by
    intro hT ρ hm
    refine ⟨_, hm.extend_addk hT hJ h0 hv, fun ref hr => ?_⟩
    have := hr.1
    exact Function.update_of_ne (by omega) _ _

/-- `lj_ir_kint` returns a `KINT` of the value. -/
theorem kint_spec (hJ : J.WF) (h0 : 0 < J.nk) (k : BitVec 32) :
    J.Interned .kint (fun ins => ins.i = k) (J.kint k) := by
  unfold kint
  split
  case h_1 ref hf =>
    have hs := findk_spec hJ (hJ.chain_ok .kint) hf
    exact Interned.found hJ hs.1 (by simpa using hs.2)
  case h_2 =>
    have hk : IsKIns { o := .kint, t := { type := .int }, i := k } :=
      ⟨rfl, fun _ => rfl, by simp, fun _ => Or.inl rfl⟩
    refine Interned.added (v := k.signExtend 64) hJ h0 hk rfl ?_
    intro ρ
    exact ⟨fun _ => rfl, by simp, by simp [evalOp]⟩

/-- `lj_ir_kint64` returns a `KINT64` of the value. -/
theorem kint64_spec (hJ : J.WF) (h0 : 0 < J.nk) (k : BitVec 64) :
    J.Interned .kint64 (fun ins => ins.u64 = k) (J.kint64 k) := by
  unfold kint64
  split
  case h_1 ref hf =>
    have hs := findk_spec hJ (hJ.chain_ok .kint64) hf
    exact Interned.found hJ hs.1 (by simpa using hs.2)
  case h_2 =>
    have hk : IsKIns { o := .kint64, t := { type := .i64 }, u64 := k } :=
      ⟨rfl, by simp, fun _ => rfl, fun _ => Or.inr rfl⟩
    refine Interned.added (v := k) hJ h0 hk rfl ?_
    intro ρ
    exact ⟨by simp, fun _ => rfl, by simp [evalOp]⟩

end JitState

end Ir
