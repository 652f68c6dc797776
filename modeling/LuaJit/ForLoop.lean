/-
**Narrowed numeric for loops.**

The recorder narrows the index of a numeric for loop to an integer when the values at that time are
integers whose last sum does not overflow.  The index is then added to without an overflow check in
each iteration; instead, the recorder emits guards on the direction and on the bounds in front of the
loop.  It leaves out those for the overflow where a `FORI` should have checked before.

Main definitions:

* `ForLoop.optNarrowForl` — whether a loop is narrowed;
* `ForLoop.recForCheck` — the guards in front of a loop;
* `ForLoop.Path` — the ways in which a loop gets recorded, with the type and the guards of each;
* `ForLoop.forIter`, `ForLoop.exactIter` — the index in the compiled loop and in exact arithmetic;
* `ForLoop.NeverWraps` — each addition is exact, and so the iterations are the same.

Main results:

* `ForLoop.forIter_spec` — the index in the iterations of a loop whose last sum fits;
* `ForLoop.recForCheck_sound` — the guards for the overflow bound the last sum;
* `ForLoop.neverWraps_iff` — **an index never wraps exactly if its loop was checked for overflow or
  the sum after the last iteration fits**;
* `ForLoop.not_neverWraps` — a loop that was not checked.
-/

import LuaJit.IrSem
import LuaJit.Obj

set_option relaxedAutoImplicit false
set_option autoImplicit false

namespace ForLoop

open Ir Dbl Obj

/-! ### Narrowing -/

/-- The flags that narrowing depends on: `LJ_DUALNUM`, `JIT_F_OPT_NARROW`, and the conversion of
numbers to integers. -/
structure Cfg where
  dualnum : Bool
  optNarrow : Bool
  num2int : Num2Int

/-- A number in a slot. -/
inductive Num
  | int (k : BitVec 32)
  | num (n : BitVec 64)
  deriving DecidableEq

/-- The values of the three slots of a loop when it is recorded. -/
structure ForVals where
  idx : Num
  stop : Num
  step : Num

/-- `narrow_forl`, with the integer. -/
def narrowForl (cfg : Cfg) : Num → Option (BitVec 32)
  | .int k => some k
  | .num n => if cfg.dualnum = true ∨ cfg.optNarrow = true then num2intCheck cfg.num2int n else none

/-- `lj_opt_narrow_forl`. -/
def optNarrowForl (cfg : Cfg) (tv : ForVals) : IRType :=
  match narrowForl cfg tv.idx, narrowForl cfg tv.stop, narrowForl cfg tv.step with
  | some _, some stop, some step =>
      let sum := roundInt (stop.toInt + step.toInt)
      if (if 0 ≤ step.toInt then sum ≤ 2147483647 else -2147483648 ≤ sum) then .int else .num
  | _, _, _ => .num

/-- `rec_for_direction`. -/
def recForDirection : Num → Bool
  | .int k => decide (0 ≤ k.toInt)
  | .num n => !n.msb

/-! ### Recording -/

/-- An operand of a guard: the value of a slot, or a constant. -/
inductive Opd
  | stop
  | step
  | kint (k : BitVec 32)
  deriving DecidableEq

/-- A guard. -/
structure Guard where
  op : IROp
  left : Opd
  right : Opd
  deriving DecidableEq

/-- The constants that the recorder has for the stop and the step. -/
structure ForArgs where
  stop : Option (BitVec 32)
  step : Option (BitVec 32)

/-- `rec_for_check`, for an integer index. -/
def recForCheck (dir : Bool) (args : ForArgs) (init : Bool) : List Guard :=
  match args.step with
  | none =>
      -- a guard for the direction, and one for the overflow
      ⟨if dir = true then .ge else .lt, .step, .kint 0⟩ ::
        if init = true then
          match args.stop with
          | some k =>
              if dir = true then
                if 0 < k.toInt then [⟨.le, .step, .kint (0x7fffffff - k)⟩] else []
              else if k.toInt < 0 then [⟨.ge, .step, .kint (0x80000000 - k)⟩] else []
          | none => [⟨.addov, .step, .stop⟩]
        else []
  | some k =>
      if init = true ∧ args.stop = none then
        [⟨if dir = true then .le else .ge, .stop,
          .kint ((if dir = true then 0x7fffffff else 0x80000000) - k)⟩]
      else []

/-- The type of the index in `rec_for_loop`, where `idx` is the type of a known index. -/
def recForLoopType (cfg : Cfg) (tv : ForVals) (idx : Option IRType) (init : Bool) : IRType :=
  match idx with
  | some t => t
  | none => if init = true ∨ cfg.dualnum = true then optNarrowForl cfg tv else .num

/-- The type of the index in `rec_for` for `FORI`. -/
def recForiType (cfg : Cfg) (tv : ForVals) (isint : Bool) : IRType :=
  if cfg.dualnum = true ∨ isint = true then optNarrowForl cfg tv else .num

/-- How a loop gets recorded. -/
inductive Path
  /-- `lj_record_setup`: the trace starts in the loop. -/
  | setup
  /-- `FORI` or `JFORI`, by whether the index is an integer. -/
  | fori (isint : Bool)
  /-- `FORL`, where the trace does not know the index yet. -/
  | forl
  /-- `FORL`, where the index is known from another recording, in this trace or in its parent. -/
  | known (p : Path)

/-- The type of the index. -/
def Path.type (cfg : Cfg) (tv : ForVals) : Path → IRType
  | .setup => recForLoopType cfg tv none true
  | .fori isint => recForiType cfg tv isint
  | .forl => recForLoopType cfg tv none false
  | .known p => recForLoopType cfg tv (some (p.type cfg tv)) false

/-- The guards that have been emitted for the loop. -/
def Path.guards (dir : Bool) (args : ForArgs) : Path → List Guard
  | .setup | .fori _ => recForCheck dir args true
  | .forl => recForCheck dir args false
  | .known p => p.guards dir args ++ recForCheck dir args false

/-- The recording has checked for overflow. -/
def Path.checked : Path → Bool
  | .setup | .fori _ => true
  | .forl => false
  | .known p => p.checked

/-! ### Executions -/

/-- The values of the three slots when the compiled loop is entered. -/
structure Exec where
  start : BitVec 32
  stop : BitVec 32
  step : BitVec 32

/-- The value of an operand. -/
def Opd.val (e : Exec) : Opd → BitVec 32
  | .stop => e.stop
  | .step => e.step
  | .kint k => k

/-- A guard passes. -/
def Guard.Holds (e : Exec) (g : Guard) : Prop :=
  if g.op = .addov then ¬ overflows .addov (g.left.val e) (g.right.val e)
  else evalGuard g.op (g.left.val e) (g.right.val e) = some true

/-- The comparison of an index that stays in the loop. -/
def loopOp (dir : Bool) : IROp := if dir = true then .le else .ge

/-- The index in each iteration of the compiled loop, with an unchecked addition. -/
def forIter (dir : Bool) (e : Exec) : ℕ → Option (BitVec 32)
  | 0 => some e.start
  | n + 1 => (forIter dir e n).bind fun i =>
      if evalGuard (loopOp dir) (i + e.step) e.stop = some true then some (i + e.step) else none

/-- The index in each iteration, in exact arithmetic. -/
def exactIter (dir : Bool) (e : Exec) : ℕ → Option ℤ
  | 0 => some e.start.toInt
  | n + 1 => (exactIter dir e n).bind fun i =>
      if (if dir = true then i + e.step.toInt ≤ e.stop.toInt else e.stop.toInt ≤ i + e.step.toInt)
      then some (i + e.step.toInt) else none

/-- Each addition is exact, and the iterations are the same. -/
structure NeverWraps (dir : Bool) (e : Exec) : Prop where
  add : ∀ n i, forIter dir e n = some i → (i + e.step).toInt = i.toInt + e.step.toInt
  iter : ∀ n, (forIter dir e n).map BitVec.toInt = exactIter dir e n

/-- The sum after the last iteration. -/
def afterLast (e : Exec) : ℤ :=
  e.start.toInt + (e.stop.toInt - e.start.toInt).tdiv e.step.toInt * e.step.toInt + e.step.toInt

/-! ### Counting up and down -/

/-- Count up where the loop counts down. -/
def sg (dir : Bool) (z : ℤ) : ℤ := if dir = true then z else -z

theorem loopOp_eq {dir : Bool} {a b : BitVec 32} :
    evalGuard (loopOp dir) a b = some true ↔ sg dir a.toInt ≤ sg dir b.toInt := by
  cases dir <;> simp [loopOp, evalGuard, sg, BitVec.sle, BitVec.slt]

theorem sg_add (dir : Bool) (a b : ℤ) : sg dir (a + b) = sg dir a + sg dir b := by
  cases dir
  · simp only [sg, Bool.false_eq_true, if_false]
    omega
  · rfl

theorem sg_mul (dir : Bool) (a b : ℤ) : sg dir (a * b) = a * sg dir b := by
  cases dir <;> simp [sg]

theorem exactIter_succ (dir : Bool) (e : Exec) (n : ℕ) :
    exactIter dir e (n + 1) = (exactIter dir e n).bind fun i =>
      if sg dir (i + e.step.toInt) ≤ sg dir e.stop.toInt then some (i + e.step.toInt) else none := by
  cases dir <;> simp [exactIter, sg]

theorem forIter_succ (dir : Bool) (e : Exec) (n : ℕ) :
    forIter dir e (n + 1) = (forIter dir e n).bind fun i =>
      if sg dir (i + e.step).toInt ≤ sg dir e.stop.toInt then some (i + e.step) else none := by
  simp only [forIter, loopOp_eq]

section Count

variable {dir : Bool} {e : Exec}

/-- The index in an iteration, in exact arithmetic. -/
theorem exactIter_eq (hstep : 0 ≤ sg dir e.step.toInt)
    (henter : sg dir e.start.toInt ≤ sg dir e.stop.toInt) (n : ℕ) :
    exactIter dir e n =
      if sg dir (e.start.toInt + n * e.step.toInt) ≤ sg dir e.stop.toInt then
        some (e.start.toInt + n * e.step.toInt) else none := by
  induction n with
  | zero => simp [exactIter, henter]
  | succ n ih =>
      have hnext : e.start.toInt + n * e.step.toInt + e.step.toInt =
          e.start.toInt + (n + 1 : ℕ) * e.step.toInt := by
        push_cast
        ring
      rw [exactIter_succ, ih]
      by_cases h : sg dir (e.start.toInt + n * e.step.toInt) ≤ sg dir e.stop.toInt
      · rw [if_pos h, Option.bind_some, hnext]
      · rw [if_neg h, Option.bind_none, if_neg]
        rw [← hnext, sg_add]
        omega

/-- The number of the last iteration. -/
def lastIter (e : Exec) : ℤ := (e.stop.toInt - e.start.toInt).tdiv e.step.toInt

theorem lastIter_eq (dir : Bool) (e : Exec) :
    lastIter e = (sg dir e.stop.toInt - sg dir e.start.toInt).tdiv (sg dir e.step.toInt) := by
  cases dir
  · simp only [sg, Bool.false_eq_true, if_false, lastIter]
    rw [Int.tdiv_neg, ← Int.neg_tdiv]
    congr 1
    omega
  · rfl

/-- The last iteration is one, and it comes last. -/
theorem lastIter_spec (hstep : 0 ≤ sg dir e.step.toInt)
    (henter : sg dir e.start.toInt ≤ sg dir e.stop.toInt) :
    0 ≤ lastIter e ∧ sg dir (e.start.toInt + lastIter e * e.step.toInt) ≤ sg dir e.stop.toInt ∧
      ∀ n : ℕ, sg dir (e.start.toInt + n * e.step.toInt) ≤ sg dir e.stop.toInt →
        n * sg dir e.step.toInt ≤ lastIter e * sg dir e.step.toInt := by
  have hq := lastIter_eq dir e
  simp only [sg_add, sg_mul]
  generalize sg dir e.step.toInt = c at hq hstep ⊢
  generalize sg dir e.start.toInt = a at hq henter ⊢
  generalize sg dir e.stop.toInt = b at hq henter ⊢
  rw [Int.tdiv_eq_ediv_of_nonneg (by omega)] at hq
  refine ⟨hq ▸ Int.ediv_nonneg (by omega) hstep, ?_, fun n hn => ?_⟩
  · have hle : (b - a) / c * c ≤ b - a := by
      rcases hstep.lt_or_eq with hc | hc
      · exact Int.ediv_mul_le _ hc.ne'
      · simp only [← hc, mul_zero]
        omega
    rw [hq]
    omega
  · rcases hstep.lt_or_eq with hc | hc
    · have hn' : (n : ℤ) ≤ (b - a) / c := (Int.le_ediv_iff_mul_le hc).2 (by omega)
      rw [hq]
      exact Int.mul_le_mul_of_nonneg_right hn' hstep
    · simp [← hc]

theorem afterLast_eq (e : Exec) :
    afterLast e = e.start.toInt + lastIter e * e.step.toInt + e.step.toInt := rfl

/-- Where the last sum fits, so do the others. -/
theorem fits_of_afterLast (hstep : 0 ≤ sg dir e.step.toInt)
    (henter : sg dir e.start.toInt ≤ sg dir e.stop.toInt) (hfits : FitsInt32 (afterLast e)) {n : ℕ}
    (hn : sg dir (e.start.toInt + n * e.step.toInt) ≤ sg dir e.stop.toInt) :
    FitsInt32 (e.start.toInt + n * e.step.toInt + e.step.toInt) := by
  have hle := (lastIter_spec hstep henter).2.2 n hn
  have hpos : 0 ≤ (n : ℤ) * sg dir e.step.toInt := mul_nonneg (Int.natCast_nonneg n) hstep
  obtain ⟨hs₁, hs₂⟩ := fitsInt32_toInt e.start
  obtain ⟨h₁, h₂⟩ := hfits
  rw [afterLast_eq] at h₁ h₂
  cases dir
  · simp only [sg, Bool.false_eq_true, if_false, mul_neg] at hle hpos hstep
    constructor <;> lia
  · simp only [sg, if_true] at hle hpos hstep
    constructor <;> lia

/-- What the index is in an iteration, where the last sum fits. -/
theorem forIter_spec (hstep : 0 ≤ sg dir e.step.toInt)
    (henter : sg dir e.start.toInt ≤ sg dir e.stop.toInt) (hfits : FitsInt32 (afterLast e)) (n : ℕ) :
    (forIter dir e n).map BitVec.toInt = exactIter dir e n := by
  induction n with
  | zero => rfl
  | succ n ih =>
      rw [exactIter_eq hstep henter] at ih
      rw [forIter_succ, exactIter_succ, exactIter_eq hstep henter]
      split at ih
      · next hn =>
          obtain ⟨i, hi, hval⟩ := Option.map_eq_some_iff.1 ih
          have hadd : (i + e.step).toInt = i.toInt + e.step.toInt := by
            refine toInt_add_of_fits ?_
            rw [hval]
            exact fits_of_afterLast hstep henter hfits hn
          rw [hi, if_pos hn, Option.bind_some, Option.bind_some, hadd, hval]
          split
          · rw [Option.map_some, hadd, hval]
          · rfl
      · next hn =>
          rw [Option.map_eq_none_iff.1 ih, if_neg hn]
          rfl

/-- The last sum fits if the stop plus the step does in the direction of the loop. -/
theorem fits_afterLast (hstep : 0 ≤ sg dir e.step.toInt)
    (henter : sg dir e.start.toInt ≤ sg dir e.stop.toInt)
    (hsum : sg dir (e.stop.toInt + e.step.toInt) ≤
      sg dir (if dir = true then 2 ^ 31 - 1 else -2 ^ 31)) : FitsInt32 (afterLast e) := by
  obtain ⟨hpos, hlast, -⟩ := lastIter_spec hstep henter
  have hnonneg := mul_nonneg hpos hstep
  obtain ⟨hs₁, hs₂⟩ := fitsInt32_toInt e.start
  rw [afterLast_eq]
  cases dir
  · simp only [sg, Bool.false_eq_true, if_false, mul_neg] at hsum hstep hlast hnonneg
    constructor <;> lia
  · simp only [sg, if_true] at hsum hstep hlast hnonneg
    constructor <;> lia

/-- The loop never wraps exactly if the sum after the last iteration fits. -/
theorem neverWraps_iff_fits (hstep : 0 ≤ sg dir e.step.toInt)
    (henter : sg dir e.start.toInt ≤ sg dir e.stop.toInt) :
    NeverWraps dir e ↔ FitsInt32 (afterLast e) := by
  constructor
  · intro h
    obtain ⟨hpos, hlast, -⟩ := lastIter_spec hstep henter
    obtain ⟨n, hn⟩ := Int.eq_ofNat_of_zero_le hpos
    have hiter := h.iter n
    rw [exactIter_eq hstep henter, if_pos (by rw [← hn]; exact hlast)] at hiter
    obtain ⟨i, hi, hval⟩ := Option.map_eq_some_iff.1 hiter
    rw [afterLast_eq, hn, ← hval, ← h.add n i hi]
    exact fitsInt32_toInt _
  · intro hfits
    refine ⟨fun n i hi => ?_, forIter_spec hstep henter hfits⟩
    have hiter := forIter_spec hstep henter hfits n
    rw [hi, exactIter_eq hstep henter, Option.map_some] at hiter
    split at hiter
    · next hn =>
        refine toInt_add_of_fits ?_
        rw [Option.some.inj hiter]
        exact fits_of_afterLast hstep henter hfits hn
    · exact nomatch hiter

/-- The index of an iteration, and the iterations there are. -/
theorem forIter_eq (hstep : 0 ≤ sg dir e.step.toInt)
    (henter : sg dir e.start.toInt ≤ sg dir e.stop.toInt) (hfits : FitsInt32 (afterLast e)) (n : ℕ) :
    (∀ i, forIter dir e n = some i → i.toInt = e.start.toInt + n * e.step.toInt ∧
      sg dir i.toInt ≤ sg dir e.stop.toInt ∧
      n * sg dir e.step.toInt ≤ lastIter e * sg dir e.step.toInt) ∧
    ((n : ℤ) ≤ lastIter e → ∃ i, forIter dir e n = some i) := by
  have hspec := forIter_spec hstep henter hfits n
  obtain ⟨-, hlast, hle⟩ := lastIter_spec hstep henter
  rw [exactIter_eq hstep henter] at hspec
  constructor
  · intro i hi
    rw [hi, Option.map_some] at hspec
    split at hspec
    · next hn =>
        have heq := Option.some.inj hspec
        exact ⟨heq, heq ▸ hn, hle n hn⟩
    · exact nomatch hspec
  · intro hn
    rw [if_pos] at hspec
    · obtain ⟨i, hi, -⟩ := Option.map_eq_some_iff.1 hspec
      exact ⟨i, hi⟩
    · rw [sg_add, sg_mul] at hlast ⊢
      have := Int.mul_le_mul_of_nonneg_right hn hstep
      omega

end Count

/-! ### The guards -/

/-- The constants of the recorder are the values of the slots, when the loop is recorded and when it
is executed. -/
structure ForArgs.Constant (cfg : Cfg) (tv : ForVals) (args : ForArgs) (e : Exec) : Prop where
  stop : ∀ k, args.stop = some k → narrowForl cfg tv.stop = some k ∧ e.stop = k
  step : ∀ k, args.step = some k → narrowForl cfg tv.step = some k ∧ e.step = k

/-- What narrowing has checked of the values. -/
theorem optNarrowForl_eq_int {cfg : Cfg} {tv : ForVals} (h : optNarrowForl cfg tv = .int) :
    ∃ stop step, narrowForl cfg tv.stop = some stop ∧ narrowForl cfg tv.step = some step ∧
      (0 ≤ step.toInt → stop.toInt + step.toInt < 2 ^ 31) ∧
      (step.toInt < 0 → -2 ^ 31 ≤ stop.toInt + step.toInt) := by
  unfold optNarrowForl at h
  split at h
  · next idx stop step _ hstop hstep =>
      refine ⟨stop, step, hstop, hstep, ?_⟩
      have hround : roundInt (stop.toInt + step.toInt) = stop.toInt + step.toInt := by
        refine roundInt_of_lt ?_
        have := fitsInt32_toInt stop
        have := fitsInt32_toInt step
        unfold FitsInt32 at *
        lia
      simp only [hround] at h
      by_cases hs : 0 ≤ step.toInt
      · simp only [if_pos hs] at h
        split at h
        · exact ⟨fun _ => by omega, fun _ => by omega⟩
        · exact nomatch h
      · simp only [if_neg hs] at h
        split at h
        · exact ⟨fun _ => by omega, fun _ => by omega⟩
        · exact nomatch h
  · exact nomatch h

/-- The sign of the pattern of an integer. -/
theorem msb_int2num (k : BitVec 32) : (int2num k).msb = decide (k.toInt < 0) := by
  by_cases hk : k = 0
  · subst hk
    decide
  · obtain ⟨heq, hlt⟩ := toNat_int2num hk
    rw [BitVec.msb_eq_decide, heq]
    refine decide_eq_decide.2 ?_
    split <;> lia

/-- The direction is the sign of an integer step. -/
theorem recForDirection_spec {cfg : Cfg} {o : Num} {k : BitVec 32} (h : narrowForl cfg o = some k) :
    0 ≤ sg (recForDirection o) k.toInt := by
  cases o with
  | int k' =>
      cases h
      by_cases hk : 0 ≤ k.toInt
      · simp [recForDirection, sg, hk]
      · simp only [recForDirection, sg, hk, decide_false, Bool.false_eq_true, if_false]
        omega
  | num n =>
      have hnum := num2intCheck_eq_some_iff.1 (Option.ite_none_right_eq_some.1 h).2
      rcases numEq_int2num_iff.1 hnum with rfl | ⟨rfl, rfl⟩
      · rw [recForDirection, msb_int2num]
        by_cases hk : k.toInt < 0
        · simp only [sg, hk, decide_true, Bool.not_true, Bool.false_eq_true, if_false]
          omega
        · simp only [sg, hk, decide_false, Bool.not_false, if_true]
          omega
      · decide

/-- The guards of a loop bound its direction. -/
theorem recForCheck_direction {dir init : Bool} {args : ForArgs} {e : Exec}
    (hguards : ∀ g ∈ recForCheck dir args init, g.Holds e)
    (hconst : ∀ k, args.step = some k → e.step = k ∧ 0 ≤ sg dir k.toInt) :
    0 ≤ sg dir e.step.toInt := by
  cases hstep : args.step with
  | some k =>
      obtain ⟨heq, hk⟩ := hconst k hstep
      exact heq ▸ hk
  | none =>
      have hg := hguards ⟨if dir = true then .ge else .lt, .step, .kint 0⟩
        (by rw [recForCheck, hstep]; exact List.mem_cons_self)
      cases dir
      · have : e.step.toInt < 0 := by
          simpa [Guard.Holds, evalGuard, Opd.val, BitVec.slt] using hg
        simp only [sg, Bool.false_eq_true, if_false]
        omega
      · simpa [Guard.Holds, evalGuard, Opd.val, BitVec.slt, sg] using hg

/-- The bounds of the range checks. -/
theorem toInt_limit {dir : Bool} {k : BitVec 32} (h : 0 ≤ sg dir k.toInt) :
    ((if dir = true then 0x7fffffff else 0x80000000) - k).toInt =
      (if dir = true then 2 ^ 31 - 1 else -2 ^ 31) - k.toInt := by
  obtain ⟨h₁, h₂⟩ := fitsInt32_toInt k
  cases dir
  · simp only [sg, Bool.false_eq_true, if_false] at h ⊢
    rw [toInt_sub_of_fits, show (0x80000000 : BitVec 32).toInt = -2 ^ 31 from rfl]
    rw [show (0x80000000 : BitVec 32).toInt = -2 ^ 31 from rfl]
    constructor <;> lia
  · simp only [sg, if_true] at h ⊢
    rw [toInt_sub_of_fits, show (0x7fffffff : BitVec 32).toInt = 2 ^ 31 - 1 from rfl]
    rw [show (0x7fffffff : BitVec 32).toInt = 2 ^ 31 - 1 from rfl]
    constructor <;> lia

/-- A range check bounds the sum of its operand and the constant. -/
theorem holds_limit {dir : Bool} {e : Exec} {o : Opd} {k : BitVec 32} (hk : 0 ≤ sg dir k.toInt)
    (hg : (⟨if dir = true then .le else .ge, o,
      .kint ((if dir = true then 0x7fffffff else 0x80000000) - k)⟩ : Guard).Holds e) :
    sg dir ((o.val e).toInt + k.toInt) ≤ sg dir (if dir = true then 2 ^ 31 - 1 else -2 ^ 31) := by
  have hop : (if dir = true then IROp.le else .ge) = loopOp dir := rfl
  have hne : loopOp dir ≠ .addov := by cases dir <;> decide
  rw [Guard.Holds, hop, if_neg hne, loopOp_eq] at hg
  have hlimit := toInt_limit hk
  rw [show Opd.val e (.kint ((if dir = true then 0x7fffffff else 0x80000000) - k)) =
    (if dir = true then 0x7fffffff else 0x80000000) - k from rfl, hlimit] at hg
  cases dir
  · simp only [sg, Bool.false_eq_true, if_false] at hg ⊢
    omega
  · simp only [sg, if_true] at hg ⊢
    omega

/-- The guards for the overflow bound the last sum. -/
theorem recForCheck_sound {dir : Bool} {args : ForArgs} {e : Exec}
    (hguards : ∀ g ∈ recForCheck dir args true, g.Holds e)
    (hstop : ∀ k, args.stop = some k → e.stop = k) (hstep : ∀ k, args.step = some k → e.step = k)
    (hdir : 0 ≤ sg dir e.step.toInt)
    (hboth : args.stop.isSome → args.step.isSome →
      sg dir (e.stop.toInt + e.step.toInt) ≤ sg dir (if dir = true then 2 ^ 31 - 1 else -2 ^ 31)) :
    sg dir (e.stop.toInt + e.step.toInt) ≤ sg dir (if dir = true then 2 ^ 31 - 1 else -2 ^ 31) := by
  cases hkstep : args.step with
  | some k =>
      obtain rfl := hstep k hkstep
      cases hkstop : args.stop with
      | some k' => exact hboth (by simp [hkstop]) (by simp [hkstep])
      | none =>
          -- a range check for the stop
          exact holds_limit (o := .stop) hdir (hguards _ (by simp [recForCheck, hkstep, hkstop]))
  | none =>
      obtain ⟨hd₁, hd₂⟩ := fitsInt32_toInt e.step
      cases hkstop : args.stop with
      | none =>
          -- the full check
          have hg := hguards ⟨.addov, .step, .stop⟩ (by simp [recForCheck, hkstep, hkstop])
          have hfits : FitsInt32 (e.step.toInt + e.stop.toInt) := by
            by_contra h
            exact hg ⟨_, rfl, h⟩
          obtain ⟨h₁, h₂⟩ := hfits
          cases dir
          · simp only [sg, Bool.false_eq_true, if_false]
            omega
          · simp only [sg, if_true]
            omega
      | some k' =>
          -- a range check for the step, unless the stop is on the near side of zero
          obtain rfl := hstop k' hkstop
          by_cases hpos : 0 < sg dir e.stop.toInt
          · have hmem : (⟨if dir = true then .le else .ge, .step,
                .kint ((if dir = true then 0x7fffffff else 0x80000000) - e.stop)⟩ : Guard) ∈
                recForCheck dir args true := by
              cases dir <;> simp_all [recForCheck, sg]
            have := holds_limit (o := .step) hpos.le (hguards _ hmem)
            rwa [Opd.val, add_comm] at this
          · cases dir
            · simp only [sg, Bool.false_eq_true, if_false] at hpos ⊢
              omega
            · simp only [sg, if_true] at hpos ⊢
              omega

/-! ### The loop -/

theorem Path.type_eq_int {cfg : Cfg} {tv : ForVals} {p : Path} (h : p.type cfg tv = .int) :
    optNarrowForl cfg tv = .int := by
  induction p with
  | setup => exact h
  | fori isint =>
      unfold Path.type recForiType at h
      split at h
      exacts [h, nomatch h]
  | forl =>
      unfold Path.type recForLoopType at h
      dsimp only at h
      split at h
      exacts [h, nomatch h]
  | known p ih => exact ih h

/-- The guards of a recording have those of its check. -/
theorem Path.guards_check (dir : Bool) (args : ForArgs) (p : Path) :
    recForCheck dir args p.checked ⊆ p.guards dir args := by
  induction p with
  | setup | fori | forl => exact List.Subset.refl _
  | known p ih => exact fun g hg => List.mem_append_left _ (ih hg)

section Loop

variable {cfg : Cfg} {tv : ForVals} {p : Path} {args : ForArgs} {e : Exec}

/-- The guards of a narrowed loop bound its direction. -/
theorem direction_of_guards (hint : p.type cfg tv = .int) (hconst : args.Constant cfg tv e)
    (hguards : ∀ g ∈ p.guards (recForDirection tv.step) args, g.Holds e) :
    0 ≤ sg (recForDirection tv.step) e.step.toInt := by
  obtain ⟨stop, step, hstop, hstep, -⟩ := optNarrowForl_eq_int (Path.type_eq_int hint)
  refine recForCheck_direction (fun g hg => hguards g (p.guards_check _ _ hg)) fun k hk => ?_
  obtain ⟨hval, heq⟩ := hconst.step k hk
  obtain rfl := Option.some.inj (hstep.symm.trans hval)
  exact ⟨heq, recForDirection_spec hstep⟩

/-- A loop that was checked for overflow. -/
theorem fits_of_checked (hint : p.type cfg tv = .int) (hconst : args.Constant cfg tv e)
    (hguards : ∀ g ∈ p.guards (recForDirection tv.step) args, g.Holds e)
    (henter : sg (recForDirection tv.step) e.start.toInt ≤ sg (recForDirection tv.step) e.stop.toInt)
    (hchecked : p.checked = true) : FitsInt32 (afterLast e) := by
  have hdir := direction_of_guards hint hconst hguards
  obtain ⟨stop, step, hstop, hstep, hup, hdown⟩ := optNarrowForl_eq_int (Path.type_eq_int hint)
  have hsign := recForDirection_spec hstep
  have hcheck := fun g hg => hguards g (p.guards_check _ _ hg)
  rw [hchecked] at hcheck
  refine fits_afterLast hdir henter (recForCheck_sound hcheck (fun k hk => (hconst.stop k hk).2)
    (fun k hk => (hconst.step k hk).2) hdir fun hs hs' => ?_)
  -- both are constants: narrowing has looked at their sum
  obtain ⟨k, hk⟩ := Option.isSome_iff_exists.1 hs
  obtain ⟨k', hk'⟩ := Option.isSome_iff_exists.1 hs'
  obtain ⟨hval, heq⟩ := hconst.stop k hk
  obtain ⟨hval', heq'⟩ := hconst.step k' hk'
  obtain rfl := Option.some.inj (hstop.symm.trans hval)
  obtain rfl := Option.some.inj (hstep.symm.trans hval')
  rw [heq, heq']
  have hs₁ := fitsInt32_toInt stop
  have hs₂ := fitsInt32_toInt step
  unfold FitsInt32 at hs₁ hs₂
  generalize recForDirection tv.step = dir at *
  cases dir
  · simp only [sg, Bool.false_eq_true, if_false] at hsign ⊢
    lia
  · simp only [sg, if_true] at hsign ⊢
    lia

end Loop

/-- For a loop that is narrowed and an execution for which the guards pass, the index never wraps
exactly if the loop was checked for overflow when it was recorded, or the sum after its last iteration
fits. -/
theorem neverWraps_iff (cfg : Cfg) (tv : ForVals) (p : Path) (args : ForArgs) (e : Exec)
    (hint : p.type cfg tv = .int) (hconst : args.Constant cfg tv e)
    (hguards : ∀ g ∈ p.guards (recForDirection tv.step) args, g.Holds e)
    (henter : evalGuard (loopOp (recForDirection tv.step)) e.start e.stop = some true) :
    NeverWraps (recForDirection tv.step) e ↔ p.checked = true ∨ FitsInt32 (afterLast e) := by
  rw [loopOp_eq] at henter
  rw [neverWraps_iff_fits (direction_of_guards hint hconst hguards) henter]
  refine ⟨.inr, ?_⟩
  rintro (hchecked | hfits)
  · exact fits_of_checked hint hconst hguards henter hchecked
  · exact hfits

/-- A loop up to 100, recorded at a `FORL` whose index is not known, that runs from 2147483647 to
2147483647: the index wraps around, and the loop does not end. -/
theorem not_neverWraps :
    ¬ ∀ (cfg : Cfg) (tv : ForVals) (p : Path) (args : ForArgs) (e : Exec),
      p.type cfg tv = .int → args.Constant cfg tv e →
      (∀ g ∈ p.guards (recForDirection tv.step) args, g.Holds e) →
      evalGuard (loopOp (recForDirection tv.step)) e.start e.stop = some true →
      NeverWraps (recForDirection tv.step) e := by
  intro h
  have hwrap := h ⟨true, true, .trunc⟩ ⟨.int 1, .int 100, .int 1⟩ .forl ⟨none, some 1⟩
    ⟨0x7fffffff, 0x7fffffff, 1⟩ (by decide)
    ⟨nofun, fun k hk => ⟨by simpa [narrowForl] using hk, Option.some.inj hk⟩⟩
    (by simp [Path.guards, recForCheck]) (by decide)
  exact absurd (hwrap.add 0 _ rfl) (by decide)

/-- A loop up to a variable stop, recorded where the trace starts. -/
theorem neverWraps_iff_setup :
    NeverWraps (recForDirection (.num (int2num 1))) ⟨1, 10, 1⟩ ↔
      Path.setup.checked = true ∨ FitsInt32 (afterLast ⟨1, 10, 1⟩) := by
  have hguards : Path.setup.guards (recForDirection (.num (int2num 1))) ⟨none, some 1⟩ =
      [⟨.le, .stop, .kint 0x7ffffffe⟩] := by decide
  refine neverWraps_iff ⟨false, true, .trunc⟩
    ⟨.num (int2num 5), .num (int2num 100), .num (int2num 1)⟩ .setup ⟨none, some 1⟩ ⟨1, 10, 1⟩
    (by decide) ⟨nofun, ?_⟩ ?_ (by decide)
  · rintro k hk
    cases hk
    exact ⟨by decide, rfl⟩
  · rw [hguards, List.forall_mem_singleton, Guard.Holds, if_neg (by decide)]
    decide

end ForLoop
