/-
**What the recorder knows of the index of a loop.**

When a trace starts in a narrowed for loop, the recorder remembers the reference of the index with the
start, the stop and the direction of the loop.  Two optimizations use that.  `rec_idx_abc` checks the
array index `i + ofs` at the ends of the loop instead of in each iteration.  `simplify_conv_sext`
drops the sign extension of `i + ofs`, or makes it a zero extension, where it takes the lower end of
the loop for a constant and the sum with it for not negative.

Main definitions:

* `ForScev.Scev` — the entry;
* `ForScev.recIdxAbc` — the bounds checks that are emitted for an access;
* `ForScev.SextSound` — a sign extension is reduced only for values that are not negative;
* `ForScev.lowest`, `ForScev.highest` — the ends of the iterations there are.

Main results:

* `ForScev.forIter_range` — the ends of the iterations;
* `ForScev.inBounds_iff` — **the checks cover every iteration exactly if the sums do not wrap around
  between the ends**;
* `ForScev.not_inBounds` — an offset for which they do;
* `ForScev.sextSound_iff` — **a reduced extension is one of values that are not negative exactly if the
  sums at both ends are not negative as words**;
* `ForScev.not_sextSound` — a loop that counts down to a stop that is not a constant.
-/

import LuaJit.ForLoop
import LuaJit.FoldAbc
import LuaJit.FoldConv

set_option relaxedAutoImplicit false
set_option autoImplicit false

namespace ForScev

open Ir Dbl Obj ForLoop

/-! ### The entry -/

/-- The reference of the stop: a constant, or an `SLOAD` with its operands. -/
inductive StopRef
  | kint (k : BitVec 32)
  | sload (op1 op2 : BitVec 16)
  deriving DecidableEq

/-- `IR(ref)->i`: the constant, or the two operands taken together. -/
def StopRef.i : StopRef → BitVec 32
  | .kint k => k
  | .sload op1 op2 => op2 ++ op1

/-- The scalar evolution analysis cache, for the index it is about. -/
structure Scev where
  start : Option (BitVec 32)
  stop : StopRef
  dir : Bool

/-- What `rec_for_loop` enters, with the constant start, if there is one, and the operands of the
`SLOAD` for a stop that is not a constant. -/
def recForScev (tv : ForVals) (args : ForArgs) (start : Option (BitVec 32)) (op1 op2 : BitVec 16) :
    Scev where
  start := start
  stop := match args.stop with
    | some k => .kint k
    | none => .sload op1 op2
  dir := recForDirection tv.step

/-! ### Executions -/

/-- An execution of a trace that starts in a narrowed loop, with all guards for the loop passed.  The
index with which it is entered comes from the first one by additions in the interpreter. -/
structure Enters (cfg : Cfg) (tv : ForVals) (args : ForArgs) (start : Option (BitVec 32))
    (e : Exec) : Prop where
  int : Path.setup.type cfg tv = .int
  const : args.Constant cfg tv e
  guards : ∀ g ∈ Path.setup.guards (recForDirection tv.step) args, g.Holds e
  enter : evalGuard (loopOp (recForDirection tv.step)) e.start e.stop = some true
  first : ∀ k, start = some k → ∃ m : ℕ, e.start.toInt = k.toInt + m * e.step.toInt

/-- The index of the last iteration. -/
def lastIdx (e : Exec) : ℤ := e.start.toInt + lastIter e * e.step.toInt

/-- The lowest index. -/
def lowest (dir : Bool) (e : Exec) : ℤ := if dir = true then e.start.toInt else lastIdx e

/-- The highest index. -/
def highest (dir : Bool) (e : Exec) : ℤ := if dir = true then lastIdx e else e.start.toInt

section Range

variable {cfg : Cfg} {tv : ForVals} {args : ForArgs} {start : Option (BitVec 32)} {e : Exec}

theorem Enters.direction (h : Enters cfg tv args start e) :
    0 ≤ sg (recForDirection tv.step) e.step.toInt :=
  direction_of_guards h.int h.const h.guards

theorem Enters.fits (h : Enters cfg tv args start e) : FitsInt32 (afterLast e) :=
  fits_of_checked h.int h.const h.guards (loopOp_eq.1 h.enter) rfl

/-- The iterations lie between the ends. -/
theorem forIter_range (h : Enters cfg tv args start e) {n : ℕ} {i : BitVec 32}
    (hi : forIter (recForDirection tv.step) e n = some i) :
    i.toInt = e.start.toInt + n * e.step.toInt ∧ lowest (recForDirection tv.step) e ≤ i.toInt ∧
      i.toInt ≤ highest (recForDirection tv.step) e := by
  have hdir := h.direction
  obtain ⟨heq, -, hle⟩ := (forIter_eq hdir (loopOp_eq.1 h.enter) h.fits n).1 i hi
  have hpos := mul_nonneg (Int.natCast_nonneg n) hdir
  refine ⟨heq, ?_⟩
  generalize recForDirection tv.step = dir at *
  cases dir
  · simp only [sg, Bool.false_eq_true, if_false, mul_neg] at hle hpos
    simp only [lowest, highest, lastIdx, Bool.false_eq_true, if_false]
    lia
  · simp only [sg, if_true] at hle hpos
    simp only [lowest, highest, lastIdx, if_true]
    lia

/-- The last iteration. -/
theorem forIter_last (h : Enters cfg tv args start e) :
    ∃ n i, forIter (recForDirection tv.step) e n = some i ∧ (n : ℤ) = lastIter e ∧
      i.toInt = lastIdx e := by
  have hdir := h.direction
  obtain ⟨hpos, -⟩ := lastIter_spec hdir (loopOp_eq.1 h.enter)
  obtain ⟨n, hn⟩ := Int.eq_ofNat_of_zero_le hpos
  obtain ⟨i, hi⟩ := (forIter_eq hdir (loopOp_eq.1 h.enter) h.fits n).2 hn.ge
  refine ⟨n, i, hi, hn.symm, ?_⟩
  rw [(forIter_range h hi).1, lastIdx, hn]

/-- The last index does not go beyond the stop. -/
theorem lastIdx_le (h : Enters cfg tv args start e) :
    sg (recForDirection tv.step) (lastIdx e) ≤ sg (recForDirection tv.step) e.stop.toInt :=
  (lastIter_spec h.direction (loopOp_eq.1 h.enter)).2.1

/-- Counting up from a constant. -/
theorem Enters.start_le (h : Enters cfg tv args start e) (hdir : recForDirection tv.step = true)
    {k : BitVec 32} (hk : start = some k) : k.toInt ≤ e.start.toInt := by
  obtain ⟨m, hm⟩ := h.first k hk
  have hstep := h.direction
  rw [hdir] at hstep
  have := mul_nonneg (Int.natCast_nonneg m) hstep
  simp only [sg, if_true] at this
  omega

end Range

/-! ### Bounds checks -/

/-- A bounds check: whether it is marked as invariant, and whether it is for the stop plus the offset
or for the index of the access. -/
structure AbcCheck where
  invar : Bool
  ofStop : Bool
  deriving DecidableEq

/-- Invariant checks are made, for the values of the stop and of the array size when the access is
recorded, where `opt` has the flags for the optimization. -/
def abcReplaced (opt : Bool) (ofs stop asize : BitVec 32) : Bool :=
  opt && (stop.signExtend 64 + ofs.signExtend 64).ult (asize.setWidth 64)

/-- `rec_idx_abc`, for the key `i + ofs`. -/
def recIdxAbc (opt : Bool) (scev : Scev) (ofs stop asize : BitVec 32) : List AbcCheck :=
  if abcReplaced opt ofs stop asize = true then
    ⟨true, true⟩ ::
      if scev.dir = true ∧ scev.start.any (fun k => 0 ≤ k.toInt + ofs.toInt) = true then []
      else [⟨true, false⟩]
  else [⟨false, false⟩]

/-- The index that a check is for. -/
def AbcCheck.index (c : AbcCheck) (e : Exec) (ofs i : BitVec 32) : BitVec 32 :=
  if c.ofStop = true then e.stop + ofs else i + ofs

/-- The iterations in which a check is made.  `abc_invar` drops the copies of an invariant check for
an invariant array size. -/
def AbcCheck.made (c : AbcCheck) (asizeInvar : Bool) (n : ℕ) : Prop :=
  n = 0 ∨ ¬(c.invar = true ∧ asizeInvar = true)

/-- The checks pass, for the array sizes in each iteration. -/
def ChecksPass (dir : Bool) (e : Exec) (ofs : BitVec 32) (asize : ℕ → BitVec 32) (asizeInvar : Bool)
    (cs : List AbcCheck) : Prop :=
  ∀ n i, forIter dir e n = some i → ∀ c ∈ cs, c.made asizeInvar n →
    evalGuard .abc (asize n) (c.index e ofs i) = some true

/-- Every access is in bounds. -/
def InBounds (dir : Bool) (e : Exec) (ofs : BitVec 32) (asize : ℕ → BitVec 32) : Prop :=
  ∀ n i, forIter dir e n = some i → (i + ofs).toNat < (asize n).toNat

theorem abc_iff {a b : BitVec 32} : evalGuard .abc a b = some true ↔ b.toNat < a.toNat := by
  simp [evalGuard, BitVec.ult]

/-- A sum as a word: it may have wrapped around at either end. -/
theorem toNat_add_eq (a b : BitVec 32) :
    ((a + b).toNat : ℤ) =
      if a.toInt + b.toInt < 0 then a.toInt + b.toInt + 2 ^ 32 else a.toInt + b.toInt := by
  have hmod : ((a + b).toNat : ℤ) = (a.toInt + b.toInt) % 2 ^ 32 := by
    rw [BitVec.toInt_eq_toNat_cond, BitVec.toInt_eq_toNat_cond, BitVec.toNat_add]
    push_cast
    split <;> split <;> lia
  have ha := fitsInt32_toInt a
  have hb := fitsInt32_toInt b
  unfold FitsInt32 at ha hb
  rw [hmod]
  split <;> lia

section Abc

variable {cfg : Cfg} {tv : ForVals} {args : ForArgs} {start : Option (BitVec 32)} {e : Exec}
  {ofs : BitVec 32} {asize : ℕ → BitVec 32}

/-- Checks at both ends, and no wrapping in between. -/
theorem lt_of_ends (h : Enters cfg tv args start e) {n : ℕ} {i a : BitVec 32}
    (hi : forIter (recForDirection tv.step) e n = some i) (hstop : (e.stop + ofs).toNat < a.toNat)
    (hstart : (e.start + ofs).toNat < a.toNat ∨
      (recForDirection tv.step = true ∧ 0 ≤ e.start.toInt + ofs.toInt))
    (hends : 0 ≤ lowest (recForDirection tv.step) e + ofs.toInt ∨
      highest (recForDirection tv.step) e + ofs.toInt + 2 ^ 32 < a.toNat) :
    (i + ofs).toNat < a.toNat := by
  obtain ⟨-, hlo, hhi⟩ := forIter_range h hi
  have hlast := lastIdx_le h
  have hofs := fitsInt32_toInt ofs
  have hi' := fitsInt32_toInt i
  have hsum := toNat_add_eq i ofs
  have hsum' := toNat_add_eq e.stop ofs
  have hsum'' := toNat_add_eq e.start ofs
  unfold FitsInt32 at hofs hi'
  generalize recForDirection tv.step = dir at *
  cases dir
  · simp only [lowest, highest, sg, Bool.false_eq_true, if_false, false_and, or_false] at *
    split at hsum <;> split at hsum'' <;> lia
  · simp only [lowest, highest, sg, if_true, true_and] at *
    split at hsum <;> split at hsum' <;> lia

/-- Each iteration but the first comes from another one. -/
theorem forIter_pred (h : Enters cfg tv args start e) {n : ℕ} {i : BitVec 32}
    (hi : forIter (recForDirection tv.step) e (n + 1) = some i) :
    ∃ i', forIter (recForDirection tv.step) e n = some i' ∧ i.toInt = i'.toInt + e.step.toInt := by
  obtain ⟨i', hi', -⟩ := Option.bind_eq_some_iff.1 ((forIter_succ _ _ _).symm.trans hi)
  refine ⟨i', hi', ?_⟩
  rw [(forIter_range h hi).1, (forIter_range h hi').1]
  push_cast
  ring

/-- The sums cannot step over the addresses that are out of bounds. -/
theorem ends_of_inBounds (h : Enters cfg tv args start e) {a : BitVec 32}
    (hsize : ∀ n, asize n = a) (hmax : a.toNat ≤ 2 ^ 31)
    (hin : InBounds (recForDirection tv.step) e ofs asize) :
    0 ≤ lowest (recForDirection tv.step) e + ofs.toInt ∨
      highest (recForDirection tv.step) e + ofs.toInt + 2 ^ 32 < a.toNat := by
  have hbound : ∀ n i, forIter (recForDirection tv.step) e n = some i →
      0 ≤ i.toInt + ofs.toInt ∨ i.toInt + ofs.toInt + 2 ^ 32 < a.toNat := by
    intro n i hi
    have hlt := hin n i hi
    have hsum := toNat_add_eq i ofs
    rw [hsize n] at hlt
    split at hsum <;> lia
  have hstep := fitsInt32_toInt e.step
  unfold FitsInt32 at hstep
  obtain ⟨n, i, hi, -, hlast⟩ := forIter_last h
  -- all sums are on the same side as the first one
  have hside : ∀ n i, forIter (recForDirection tv.step) e n = some i →
      (0 ≤ e.start.toInt + ofs.toInt ↔ 0 ≤ i.toInt + ofs.toInt) := by
    intro n
    induction n with
    | zero =>
        rintro i ⟨⟩
        rfl
    | succ n ih =>
        intro i hi
        obtain ⟨i', hi', heq⟩ := forIter_pred h hi
        have hb := hbound _ _ hi
        have hb' := hbound _ _ hi'
        rw [ih i' hi']
        lia
  have hfirst := hbound 0 e.start rfl
  have hb := hbound n i hi
  have hs := hside n i hi
  rw [hlast] at hb hs
  generalize recForDirection tv.step = dir at *
  cases dir
  · simp only [lowest, highest, Bool.false_eq_true, if_false]
    lia
  · simp only [lowest, highest, if_true]
    lia

/-- A check of the index that is made in each iteration. -/
theorem inBounds_of_check {dir : Bool} {e : Exec} {asizeInvar : Bool} {cs : List AbcCheck} {c : AbcCheck}
    (hpass : ChecksPass dir e ofs asize asizeInvar cs) (hc : c ∈ cs) (hindex : c.ofStop = false)
    (hmade : ¬(c.invar = true ∧ asizeInvar = true)) : InBounds dir e ofs asize := by
  intro n i hi
  have hcheck := hpass n i hi c hc (.inr hmade)
  rwa [AbcCheck.index, hindex, if_neg Bool.false_ne_true, abc_iff] at hcheck

/-- Without a check of the index, the start is a constant for which the sum is not negative. -/
theorem mem_recIdxAbc {opt : Bool} {vstop vasize : BitVec 32} {op1 op2 : BitVec 16}
    (h : Enters cfg tv args start e) (hrep : abcReplaced opt ofs vstop vasize = true) :
    ⟨true, true⟩ ∈ recIdxAbc opt (recForScev tv args start op1 op2) ofs vstop vasize ∧
      (⟨true, false⟩ ∈ recIdxAbc opt (recForScev tv args start op1 op2) ofs vstop vasize ∨
        (recForDirection tv.step = true ∧ 0 ≤ e.start.toInt + ofs.toInt)) := by
  rw [recIdxAbc, if_pos hrep]
  refine ⟨List.mem_cons_self, ?_⟩
  by_cases hconst : recForDirection tv.step = true ∧
      start.any (fun k => 0 ≤ k.toInt + ofs.toInt) = true
  · obtain ⟨k, hk, hsum⟩ := (Option.any_eq_true _ _).1 hconst.2
    have hle := h.start_le hconst.1 hk
    exact .inr ⟨hconst.1, by have := of_decide_eq_true hsum; omega⟩
  · exact .inl (by simp [recForScev, hconst])

end Abc

/-- For a narrowed loop and an execution for which the guards and the checks pass, every access is in
bounds exactly if the access keeps a check in each iteration or the sums do not wrap around between
the ends. -/
theorem inBounds_iff (cfg : Cfg) (tv : ForVals) (args : ForArgs) (start : Option (BitVec 32)) (e : Exec)
    (op1 op2 : BitVec 16) (opt : Bool) (ofs vstop vasize : BitVec 32) (asize : ℕ → BitVec 32)
    (asizeInvar : Bool) (henter : Enters cfg tv args start e)
    (hinvar : asizeInvar = true → ∀ n, asize n = asize 0) (hmax : ∀ n, (asize n).toNat ≤ maxAsize)
    (hpass : ChecksPass (recForDirection tv.step) e ofs asize asizeInvar
      (recIdxAbc opt (recForScev tv args start op1 op2) ofs vstop vasize)) :
    InBounds (recForDirection tv.step) e ofs asize ↔
      abcReplaced opt ofs vstop vasize = false ∨ asizeInvar = false ∨
        0 ≤ lowest (recForDirection tv.step) e + ofs.toInt ∨
        highest (recForDirection tv.step) e + ofs.toInt + 2 ^ 32 < (asize 0).toNat := by
  cases hrep : abcReplaced opt ofs vstop vasize with
  | false =>
      refine ⟨fun _ => .inl rfl, fun _ => inBounds_of_check hpass (c := ⟨false, false⟩) ?_ rfl fun h => by cases h.1⟩
      simp [recIdxAbc, hrep]
  | true =>
      obtain ⟨hstop, hstart⟩ := @mem_recIdxAbc _ _ args _ _ _ _ _ _ op1 op2 henter hrep
      cases asizeInvar with
      | false =>
          refine ⟨fun _ => .inr (.inl rfl), fun _ => ?_⟩
          rcases hstart with hstart | ⟨hdir, hsum⟩
          · exact inBounds_of_check hpass hstart rfl fun h => by cases h.2
          · intro n i hi
            have hs := abc_iff.1 (hpass n i hi _ hstop (.inr fun h => by cases h.2))
            refine lt_of_ends henter hi hs (.inr ⟨hdir, hsum⟩) (.inl ?_)
            rwa [hdir, lowest, if_pos rfl]
      | true =>
          have hs := abc_iff.1 (hpass 0 e.start rfl _ hstop (.inl rfl))
          have hs' : (e.start + ofs).toNat < (asize 0).toNat ∨
              (recForDirection tv.step = true ∧ 0 ≤ e.start.toInt + ofs.toInt) :=
            hstart.imp_left fun hmem => abc_iff.1 (hpass 0 e.start rfl ⟨true, false⟩ hmem (.inl rfl))
          refine ⟨fun hin => .inr (.inr (ends_of_inBounds henter (hinvar rfl) ((hmax 0).trans (by decide)) hin)), ?_⟩
          rintro (hne | hne | hends) n i hi
          · cases hne
          · cases hne
          · rw [hinvar rfl n]
            exact lt_of_ends henter hi hs hs' hends

/-- A loop that is entered from one variable to another, by one. -/
theorem enters_upto {tv : ForVals} {start stop : BitVec 32} (hstep : tv.step = .int 1)
    (hint : optNarrowForl ⟨true, true, .trunc⟩ tv = .int) (hle : start.toInt ≤ stop.toInt)
    (hstop : stop.toInt ≤ 0x7ffffffe) :
    Enters ⟨true, true, .trunc⟩ tv ⟨none, some 1⟩ none ⟨start, stop, 1⟩ where
  int := hint
  const := by
    refine ⟨nofun, ?_⟩
    rintro k ⟨⟩
    rw [hstep]
    exact ⟨rfl, rfl⟩
  guards := by
    have hguards : Path.setup.guards (recForDirection (.int 1)) ⟨none, some 1⟩ =
        [⟨.le, .stop, .kint 0x7ffffffe⟩] := by decide
    rw [hstep, hguards, List.forall_mem_singleton, Guard.Holds, if_neg (by decide)]
    exact (@loopOp_eq true _ _).2 hstop
  enter := by
    rw [hstep]
    exact (@loopOp_eq true _ _).2 hle
  first := nofun

/-- Invariant checks pass if they do in the first iteration. -/
theorem checksPass_of_invar {dir : Bool} {e : Exec} {ofs : BitVec 32} {asize : ℕ → BitVec 32}
    {cs : List AbcCheck} (hinvar : ∀ c ∈ cs, c.invar = true)
    (hpass : ∀ c ∈ cs, evalGuard .abc (asize 0) (c.index e ofs e.start) = some true) :
    ChecksPass dir e ofs asize true cs := by
  intro n i hi c hc hmade
  rcases hmade with rfl | hmade
  · cases hi
    exact hpass c hc
  · exact absurd ⟨hinvar c hc, rfl⟩ hmade

/-- The loop from -2147483648 to 2147483646 with the accesses `t[i - 2147483646]`, for an array size of
3: the checks pass for 2 and for 0, and the second access is at 3. -/
theorem not_inBounds :
    ¬ ∀ (cfg : Cfg) (tv : ForVals) (args : ForArgs) (start : Option (BitVec 32)) (e : Exec)
      (op1 op2 : BitVec 16) (opt : Bool) (ofs vstop vasize : BitVec 32) (asize : ℕ → BitVec 32)
      (asizeInvar : Bool), Enters cfg tv args start e →
      (asizeInvar = true → ∀ n, asize n = asize 0) → (∀ n, (asize n).toNat ≤ maxAsize) →
      ChecksPass (recForDirection tv.step) e ofs asize asizeInvar
        (recIdxAbc opt (recForScev tv args start op1 op2) ofs vstop vasize) →
      InBounds (recForDirection tv.step) e ofs asize := by
  intro h
  have hin := h ⟨true, true, .trunc⟩ ⟨.int 0x80000039, .int 0x7ffffffe, .int 1⟩ ⟨none, some 1⟩ none
    ⟨0x80000000, 0x7ffffffe, 1⟩ 0 0 true 0x80000002 0x7ffffffe 200 (fun _ => 3) true
    (enters_upto rfl (by decide) (by decide) (by decide)) (fun _ _ => rfl)
    (fun _ => by decide) (checksPass_of_invar (by decide) (by decide))
  exact absurd (hin 1 0x80000001 (by decide)) (by decide)

/-- A loop up to a variable stop. -/
theorem inBounds_iff_upto :
    InBounds (recForDirection (.int 1)) ⟨1, 10, 1⟩ 0 (fun _ => 20) ↔
      abcReplaced true 0 100 200 = false ∨ true = false ∨
        0 ≤ lowest (recForDirection (.int 1)) ⟨1, 10, 1⟩ + (0 : BitVec 32).toInt ∨
        highest (recForDirection (.int 1)) ⟨1, 10, 1⟩ + (0 : BitVec 32).toInt + 2 ^ 32 <
          (20 : BitVec 32).toNat := by
  refine inBounds_iff ⟨true, true, .trunc⟩ ⟨.int 5, .int 100, .int 1⟩ ⟨none, some 1⟩ none ⟨1, 10, 1⟩ 0 0
    true 0 100 200 (fun _ => 20) true (enters_upto rfl (by decide) (by decide) (by decide))
    (fun _ _ => rfl) (fun _ => by decide) (checksPass_of_invar (by decide) (by decide))

/-! ### Extensions of the index -/

/-- The cache of the trace has the entry. -/
structure Caches (J : JitState) (scev : Scev) : Prop where
  dir : J.scev.dir = scev.dir
  start_none : scev.start = none → J.scev.start = 0
  start_some : ∀ k, scev.start = some k → J.scev.start ≠ 0 ∧ (J.ir J.scev.start).i = k
  stop : J.scev.stop ≠ 0 ∧ (J.ir J.scev.stop).i = scev.stop.i

/-- The trace extends the index plus a constant: the index itself is an `SLOAD`. -/
inductive ExtendsIdx (J : JitState) : BitVec 32 → Prop
  | idx : J.fins.op1 = J.scev.idx → J.fleft.o = .sload → ExtendsIdx J 0
  | add : J.fleft.o = .add → irrefIsk J.fleft.op2 = true → J.fleft.op1 = J.scev.idx →
      ExtendsIdx J (J.ir J.fleft.op2).i

/-- The low end that `simplify_conv_sext` takes from the entry. -/
def sextLow (scev : Scev) : Option (BitVec 32) :=
  if scev.dir = true then scev.start else some scev.stop.i

/-- The low end and the constant allow a reduction. -/
def sextReduced (scev : Scev) (ofs : BitVec 32) : Bool :=
  (sextLow scev).any fun k => 0 ≤ k.toInt + ofs.toInt

/-- The constants of an entry bound the index in each iteration. -/
structure Describes (scev : Scev) (e : Exec) : Prop where
  iter : ∀ n i, forIter scev.dir e n = some i → i.toInt = e.start.toInt + n * e.step.toInt
  start : ∀ k, scev.start = some k → ∀ n i, forIter scev.dir e n = some i →
    sg scev.dir k.toInt ≤ sg scev.dir i.toInt
  stop : ∀ k, scev.stop = .kint k → ∀ n i, forIter scev.dir e n = some i →
    sg scev.dir i.toInt ≤ sg scev.dir k.toInt

/-- The entry describes the index, and where the extension is reduced, the values that get extended
are not negative, so that both extensions agree. -/
structure SextSound (target : Target) (J : JitState) (scev : Scev) (e : Exec) (ofs : BitVec 32) :
    Prop where
  describes : Describes scev e
  nonneg : (simplifyConvSext target J).1 ≠ .next → ∀ n i, forIter scev.dir e n = some i →
    0 ≤ (i + ofs).toInt ∧ (i + ofs).signExtend 64 = (i + ofs).setWidth 64

/-- The test of the rule, on the entry. -/
theorem sextNonneg_eq {J : JitState} {scev : Scev} {ofs : BitVec 32} (hcache : Caches J scev)
    (hidx : ExtendsIdx J ofs) : sextNonneg J = sextReduced scev ofs := by
  have hlow : ∀ z : ℤ, (decide ((if J.scev.dir then J.scev.start else J.scev.stop) ≠ 0) &&
      decide (0 ≤ (J.ir (if J.scev.dir then J.scev.start else J.scev.stop)).i.toInt + z)) =
      (sextLow scev).any fun k => 0 ≤ k.toInt + z := by
    intro z
    rw [hcache.dir, sextLow]
    cases scev.dir with
    | false => simp [hcache.stop.1, hcache.stop.2]
    | true =>
        cases hstart : scev.start with
        | none => simp [hcache.start_none hstart]
        | some k => simp [(hcache.start_some k hstart).1, (hcache.start_some k hstart).2]
  cases hidx with
  | idx hop hload => simpa [sextNonneg, sextReduced, hop, hload] using hlow 0
  | add hop hk hidx =>
      simpa [sextNonneg, sextReduced, hop, hk, hidx] using hlow (J.ir J.fleft.op2).i.toInt

/-- The extension is reduced. -/
theorem simplifyConvSext_ne_next {target : Target} {J : JitState} {scev : Scev} {ofs : BitVec 32}
    (hsext : convSext J.fins.op2 = true) (hcache : Caches J scev) (hidx : ExtendsIdx J ofs) :
    (simplifyConvSext target J).1 ≠ .next ↔ J.fleft.t.isphi = false ∧ sextReduced scev ofs = true := by
  have hload : J.fleft.o ≠ .xload := by
    cases hidx with
    | idx _ hop => simp [hop]
    | add hop _ _ => simp [hop]
  rw [simplifyConvSext, if_neg (by simp [hsext]), JitState.phiBarrierLeft, sextNonneg_eq hcache hidx]
  cases J.fleft.t.isphi with
  | true => simp [JitState.nextFold]
  | false =>
      cases sextReduced scev ofs with
      | false => simp [hload, JitState.nextFold]
      | true => cases hx : target.x64 <;> simp [JitState.leftFold, JitState.retryFold]

/-- Both extensions agree on values that are not negative, and these are below `2 ^ 31`. -/
theorem nonneg_iff {a : BitVec 32} :
    0 ≤ a.toInt ∧ a.signExtend 64 = a.setWidth 64 ↔ a.toNat < (0x80000000 : BitVec 32).toNat := by
  have hmsb : a.msb = false ↔ a.toNat < (0x80000000 : BitVec 32).toNat := by
    rw [BitVec.msb_eq_decide, decide_eq_false_iff_not]
    exact not_le
  rw [← hmsb]
  refine ⟨fun h => BitVec.msb_eq_toInt.trans ?_, fun h => ?_⟩
  · exact decide_eq_false h.1.not_gt
  · exact ⟨by rw [BitVec.toInt_eq_toNat_of_msb h]; omega, BitVec.signExtend_eq_setWidth_of_msb_false h⟩

section Sext

variable {cfg : Cfg} {tv : ForVals} {args : ForArgs} {start : Option (BitVec 32)} {e : Exec}
  {op1 op2 : BitVec 16}

/-- The entry describes the index. -/
theorem describes (h : Enters cfg tv args start e) :
    Describes (recForScev tv args start op1 op2) e where
  iter n i hi := (forIter_range h hi).1
  start k hk n i hi := by
    have hk' : start = some k := hk
    obtain ⟨m, hm⟩ := h.first k hk'
    have hdir := h.direction
    have hiter := (forIter_range h hi).1
    have hpos := mul_nonneg (Int.natCast_nonneg m) hdir
    have hpos' := mul_nonneg (Int.natCast_nonneg n) hdir
    change sg (recForDirection tv.step) _ ≤ sg (recForDirection tv.step) _
    rw [hiter, hm, sg_add, sg_add, sg_mul, sg_mul]
    lia
  stop k hk n i hi := by
    have hstop : e.stop = k := by
      cases hargs : args.stop with
      | none => simp [recForScev, hargs] at hk
      | some k' =>
          have : k' = k := by simpa [recForScev, hargs] using hk
          exact this ▸ (h.const.stop k' hargs).2
    rw [← hstop]
    exact ((forIter_eq h.direction (loopOp_eq.1 h.enter) h.fits n).1 i hi).2.1

/-- The values are not negative exactly if they are not at the ends. -/
theorem nonneg_iff_ends (h : Enters cfg tv args start e) (ofs : BitVec 32) :
    InBounds (recForDirection tv.step) e ofs (fun _ => 0x80000000) ↔
      (0 ≤ lowest (recForDirection tv.step) e + ofs.toInt ∧
        highest (recForDirection tv.step) e + ofs.toInt < 2 ^ 31) ∨
      highest (recForDirection tv.step) e + ofs.toInt < -2 ^ 31 := by
  constructor
  · intro hin
    have hends := ends_of_inBounds h (fun _ => rfl) (by decide) hin
    obtain ⟨n, i, hi, -, hlast⟩ := forIter_last h
    have hfirst := hin 0 e.start rfl
    have hlt := hin n i hi
    have hsum := toNat_add_eq e.start ofs
    have hsum' := toNat_add_eq i ofs
    rw [hlast] at hsum'
    change _ < 2 ^ 31 at hfirst hlt
    change _ ∨ _ < ((2 ^ 31 : ℕ) : ℤ) at hends
    generalize recForDirection tv.step = dir at *
    cases dir
    · simp only [lowest, highest, Bool.false_eq_true, if_false] at hends ⊢
      split at hsum <;> split at hsum' <;> lia
    · simp only [lowest, highest, if_true] at hends ⊢
      split at hsum <;> split at hsum' <;> lia
  · intro hends n i hi
    obtain ⟨-, hlo, hhi⟩ := forIter_range h hi
    have hsum := toNat_add_eq i ofs
    have hofs := fitsInt32_toInt ofs
    have hi' := fitsInt32_toInt i
    unfold FitsInt32 at hofs hi'
    change _ < 2 ^ 31
    split at hsum <;> lia

end Sext

/-- For a narrowed loop and an execution for which the guards pass, a reduction of an extension is
sound exactly if there is none or the sums at both ends of the loop are not negative as words. -/
theorem sextSound_iff (target : Target) (J : JitState) (cfg : Cfg) (tv : ForVals) (args : ForArgs)
    (start : Option (BitVec 32)) (e : Exec) (op1 op2 : BitVec 16) (ofs : BitVec 32)
    (henter : Enters cfg tv args start e) (hcache : Caches J (recForScev tv args start op1 op2))
    (hsext : convSext J.fins.op2 = true) (hidx : ExtendsIdx J ofs) :
    SextSound target J (recForScev tv args start op1 op2) e ofs ↔
      J.fleft.t.isphi = true ∨ sextReduced (recForScev tv args start op1 op2) ofs = false ∨
        (0 ≤ lowest (recForDirection tv.step) e + ofs.toInt ∧
          highest (recForDirection tv.step) e + ofs.toInt < 2 ^ 31) ∨
        highest (recForDirection tv.step) e + ofs.toInt < -2 ^ 31 := by
  have hred : (simplifyConvSext target J).1 ≠ .next ↔ _ :=
    simplifyConvSext_ne_next hsext hcache hidx
  have hends := nonneg_iff_ends henter ofs
  constructor
  · intro h
    by_cases hphi : J.fleft.t.isphi = true
    · exact .inl hphi
    cases hr : sextReduced (recForScev tv args start op1 op2) ofs with
    | false => exact .inr (.inl rfl)
    | true =>
        refine .inr (.inr (hends.1 fun n i hi => nonneg_iff.1 (h.nonneg ?_ n i hi)))
        exact hred.2 ⟨Bool.eq_false_of_not_eq_true hphi, hr⟩
  · intro h
    refine ⟨describes henter, fun hne n i hi => nonneg_iff.2 ?_⟩
    obtain ⟨hphi, hr⟩ := hred.1 hne
    rcases h with h | h | h
    · exact absurd h (by simp [hphi])
    · exact absurd h (by simp [hr])
    · exact hends.2 h n i hi

/-- A loop that is entered from one variable to another, by minus one. -/
theorem enters_downto {start stop : BitVec 32} (hle : stop.toInt ≤ start.toInt)
    (hstop : -0x7fffffff ≤ stop.toInt) :
    Enters ⟨false, true, .trunc⟩ ⟨.num (int2num 5), .num (int2num (-5)), .num (int2num (-1))⟩
      ⟨none, some (-1)⟩ none ⟨start, stop, -1⟩ where
  int := by decide
  const := by
    refine ⟨nofun, ?_⟩
    rintro k ⟨⟩
    exact ⟨by decide, rfl⟩
  guards := by
    have hguards : Path.setup.guards (recForDirection (.num (int2num (-1)))) ⟨none, some (-1)⟩ =
        [⟨.ge, .stop, .kint 0x80000001⟩] := by decide
    rw [hguards, List.forall_mem_singleton, Guard.Holds, if_neg (by decide)]
    exact (@loopOp_eq false _ _).2 (neg_le_neg hstop)
  enter := (@loopOp_eq false _ _).2 (neg_le_neg hle)
  first := nofun

/-- The trace with the stop and the index of a loop that counts down, and the extension of the index.
The stop is in slot 3. -/
def sextTrace : JitState :=
  { JitState.ofCode []
      [{ o := .base, t := { type := .nil } },
       { o := .sload, t := { type := .int, isguard := true }, op1 := 3, op2 := 0x38, i := 0x380003 },
       { o := .sload, t := { type := .int }, op1 := 2, op2 := 0x28, i := 0x280002 }]
      { o := .conv, t := { type := .i64 }, op1 := 0x8002, op2 := irconv .i64 .int + irconvSext } with
    scev := ⟨0x8002, 0, 0x8001, false⟩ }

theorem caches_sextTrace :
    Caches sextTrace (recForScev
      ⟨.num (int2num 5), .num (int2num (-5)), .num (int2num (-1))⟩ ⟨none, some (-1)⟩ none 3 0x38) where
  dir := by decide
  start_none _ := rfl
  start_some := nofun
  stop := by decide

theorem extendsIdx_sextTrace : ExtendsIdx sextTrace 0 := .idx (by decide) (by decide)

/-- The loop from 5 down to -5: the word of the `SLOAD` for the stop is taken for the low end, and the
extension of the index is dropped, which is negative in the seventh iteration. -/
theorem not_sextSound :
    ¬ ∀ (target : Target) (J : JitState) (cfg : Cfg) (tv : ForVals) (args : ForArgs)
      (start : Option (BitVec 32)) (e : Exec) (op1 op2 : BitVec 16) (ofs : BitVec 32),
      Enters cfg tv args start e → Caches J (recForScev tv args start op1 op2) →
      convSext J.fins.op2 = true → ExtendsIdx J ofs →
      SextSound target J (recForScev tv args start op1 op2) e ofs := by
  intro h
  have hsound := h ⟨true, true, true, true, false⟩ sextTrace _ _ _ _ ⟨5, -5, -1⟩ _ _ 0
    (enters_downto (by decide) (by decide)) caches_sextTrace (by decide) extendsIdx_sextTrace
  exact absurd (hsound.nonneg (by decide) 6 (-1) (by decide)).1 (by decide)

/-- The same loop from 5 down to 2. -/
theorem sextSound_iff_downto :
    SextSound ⟨true, true, true, true, false⟩ sextTrace (recForScev
      ⟨.num (int2num 5), .num (int2num (-5)), .num (int2num (-1))⟩ ⟨none, some (-1)⟩ none 3 0x38)
      ⟨5, 2, -1⟩ 0 ↔
      sextTrace.fleft.t.isphi = true ∨ sextReduced (recForScev
        ⟨.num (int2num 5), .num (int2num (-5)), .num (int2num (-1))⟩ ⟨none, some (-1)⟩ none 3 0x38) 0 =
          false ∨
        (0 ≤ lowest (recForDirection (.num (int2num (-1)))) ⟨5, 2, -1⟩ + (0 : BitVec 32).toInt ∧
          highest (recForDirection (.num (int2num (-1)))) ⟨5, 2, -1⟩ + (0 : BitVec 32).toInt < 2 ^ 31) ∨
        highest (recForDirection (.num (int2num (-1)))) ⟨5, 2, -1⟩ + (0 : BitVec 32).toInt < -2 ^ 31 :=
  sextSound_iff _ _ ⟨false, true, .trunc⟩ _ _ _ ⟨5, 2, -1⟩ _ _ 0
    (enters_downto (by decide) (by decide)) caches_sextTrace (by decide) extendsIdx_sextTrace

end ForScev
