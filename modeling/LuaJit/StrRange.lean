/-
**Recording of `string.sub` and `string.byte`.**

The recorder specializes a call to the signs and to the range that it sees: guards on the start and on
the end keep later executions in the same case, and the trace computes with 32 bit sums and
differences.  The plain functions are those of `lib_string.c` and of the interpreter, in exact
arithmetic.

Main definitions:

* `StrRange.stringByte`, `StrRange.stringSub` — the plain functions;
* `StrRange.recffStringRange` — the guards and the result that are recorded;
* `StrRange.Result.run` — the bytes that a trace returns, if it reads inside the string only;
* `StrRange.Agrees` — the trace returns what the plain function does.

Main results:

* `StrRange.stringByte_eq`, `StrRange.stringSub_eq` — the plain functions cut out a range;
* `StrRange.recffStringStart_spec`, `StrRange.recffStringEnd_spec` — the ends that a trace computes;
* `StrRange.agrees_iff` — **a trace agrees exactly if its start does not wrap around, its end is not
  negative where a larger one was recorded, and their difference does not wrap around**;
* `StrRange.not_agrees` — a negative end where one beyond the string was recorded.
-/

import LuaJit.Double
import LuaJit.IrSem

set_option relaxedAutoImplicit false
set_option autoImplicit false

namespace StrRange

open Ir Dbl

/-- A string. -/
abbrev Str := List (BitVec 8)

/-- The arguments after the string, as integers. -/
structure Args where
  start : Option (BitVec 32)
  stop : Option (BitVec 32)
  deriving DecidableEq

/-! ### The plain functions -/

/-- `LUAI_MAXCSTACK`. -/
def luaiMaxcstack : ℤ := 8000

/-- `LJ_MAX_JSLOTS`. -/
def ljMaxJslots : ℕ := 250

/-- `string_byte`, with its error for a slice that is too long. -/
def stringByte (s : Str) (args : Args) : Except String Str :=
  let len : ℤ := s.length
  let start := args.start.getD 1
  let stop := (args.stop.getD start).toInt
  let start := start.toInt
  let stop := if stop < 0 then stop + (len + 1) else stop
  let start := if start < 0 then start + (len + 1) else start
  let start := if start ≤ 0 then 1 else start
  let stop := if len < stop then len else stop
  if stop < start then .ok []
  else
    let start := start - 1
    let n := stop - start
    if luaiMaxcstack < n then .error "string slice too long"
    else .ok ((s.drop start.toNat).take n.toNat)

/-- `string_sub` of the interpreter. -/
def stringSub (s : Str) (start : BitVec 32) (arg : Option (BitVec 32)) : Str :=
  let len : ℤ := s.length
  let stop := (arg.getD (-1)).toInt
  let start := start.toInt
  -- negative end or overflow
  let stop := if stop < 0 ∨ len < stop then (if len < stop then len else stop + len + 1) else stop
  -- negative start or underflow
  let start := if start ≤ 0 then
      (if start = 0 then 1 else if 0 < start + len + 1 then start + len + 1 else 1)
    else start
  if stop - start < 0 then [] else (s.drop (start - 1).toNat).take (stop - start + 1).toNat

/-- The plain function: `string.sub` for `data`, otherwise `string.byte`. -/
def stringRange (data : Bool) (s : Str) (args : Args) : Except String Str :=
  if data = true then .ok (stringSub s (args.start.getD 1) args.stop) else stringByte s args

/-! ### Recording -/

/-- An operand: the length of the string, an argument, a constant, or a sum or difference. -/
inductive Opd
  | len
  | start
  | stop
  | kint (k : BitVec 32)
  | add (a b : Opd)
  | sub (a b : Opd)
  deriving DecidableEq

/-- A guard. -/
structure Guard where
  op : IROp
  left : Opd
  right : Opd
  deriving DecidableEq

/-- What a trace returns: a new string from an offset and a length, the empty string, or the bytes at
some offsets. -/
inductive Result
  | snew (ofs size : Opd)
  | strempty
  | bytes (ofs : List Opd)
  deriving DecidableEq

/-- `recff_string_start`, with the start at that time. -/
def recffStringStart (slen start : BitVec 32) (tr : Opd) : List Guard × Opd × BitVec 32 :=
  if start.toInt < 0 then
    let tr' := Opd.add .len tr
    let start' := start + slen
    if start'.toInt < 0 then ([⟨.lt, tr, .kint 0⟩, ⟨.lt, tr', .kint 0⟩], .kint 0, 0)
    else ([⟨.lt, tr, .kint 0⟩, ⟨.ge, tr', .kint 0⟩], tr', start')
  else if start = 0 then ([⟨.eq, tr, .kint 0⟩], .kint 0, 0)
  else ([⟨.ge, .add tr (.kint (-1)), .kint 0⟩], .add tr (.kint (-1)), start - 1)

/-- The specialization to the end in `recff_string_range`. -/
def recffStringEnd (slen stop : BitVec 32) (tr : Opd) : List Guard × Opd × BitVec 32 :=
  if stop.toInt < 0 then
    ([⟨.lt, tr, .kint 0⟩], .add (.add .len tr) (.kint 1), stop + slen + 1)
  else if stop.toNat ≤ slen.toNat then ([⟨.ule, tr, .len⟩], tr, stop)
  else ([⟨.ugt, tr, .len⟩], .len, slen)

/-- The offsets of the bytes from `i` on. -/
def byteOfs (tr : Opd) (i : ℕ) : ℕ → List Opd
  | 0 => []
  | n + 1 => .add tr (.kint (BitVec.ofNat 32 i)) :: byteOfs tr (i + 1) n

/-- The value of the start argument. -/
def Args.startVal (args : Args) : BitVec 32 := args.start.getD 1

/-- The value of the end argument. -/
def Args.stopVal (data : Bool) (args : Args) : BitVec 32 :=
  args.stop.getD (if data = true then -1 else args.startVal)

/-- The operand for the start argument. -/
def Args.startOpd (args : Args) : Opd := if args.start.isSome then .start else .kint 1

/-- The operand for the end argument. -/
def Args.stopOpd (data : Bool) (args : Args) : Opd :=
  if args.stop.isSome then .stop else if data = true then .kint (-1) else args.startOpd

/-- The length of the range when the call is recorded. -/
def recLen (data : Bool) (slen : BitVec 32) (args : Args) : BitVec 32 :=
  (recffStringEnd slen (args.stopVal data) (args.stopOpd data)).2.2 -
    (recffStringStart slen args.startVal args.startOpd).2.2

/-- The call is recorded with a range, which may be empty for `string.sub`. -/
def recRange (data : Bool) (slen : BitVec 32) (args : Args) : Bool :=
  if data = true then decide (0 ≤ (recLen data slen args).toInt)
  else decide (0 < (recLen data slen args).toInt)

/-- `recff_string_range`, for a string of length `slen`. -/
def recffStringRange (data : Bool) (baseslot : ℕ) (slen : BitVec 32) (args : Args) :
    Option (List Guard × Result) :=
  -- the start of `string.sub` is not optional
  if data = true ∧ args.start = none then none
  else
    let (ge, trend, _) := recffStringEnd slen (args.stopVal data) (args.stopOpd data)
    let (gs, trstart, _) := recffStringStart slen args.startVal args.startOpd
    let trslen := Opd.sub trend trstart
    if data = true then
      if recRange data slen args = true then
        some (ge ++ gs ++ [⟨.ge, trslen, .kint 0⟩], .snew trstart trslen)
      else some (ge ++ gs ++ [⟨.lt, trend, trstart⟩], .strempty)
    else
      if recRange data slen args = true then
        let n := recLen data slen args
        if baseslot + n.toNat > ljMaxJslots then none
        else some (ge ++ gs ++ [⟨.eq, trslen, .kint n⟩], .bytes (byteOfs trstart 0 n.toNat))
      else some (ge ++ gs ++ [⟨.le, trend, trstart⟩], .bytes [])

/-! ### Executions -/

/-- A later execution: the string and the arguments. -/
structure Exec where
  str : Str
  args : Args

/-- The value of an operand. -/
@[grind =]
def Opd.val (e : Exec) : Opd → BitVec 32
  | .len => BitVec.ofNat 32 e.str.length
  | .start => e.args.start.getD 0
  | .stop => e.args.stop.getD 0
  | .kint k => k
  | .add a b => a.val e + b.val e
  | .sub a b => a.val e - b.val e

/-- A guard passes. -/
def Guard.Holds (e : Exec) (g : Guard) : Prop :=
  evalGuard g.op (g.left.val e) (g.right.val e) = some true

instance (e : Exec) (g : Guard) : Decidable (g.Holds e) := inferInstanceAs (Decidable (_ = _))

/-- The byte at an offset of a string, if it has one there. -/
def readByte (s : Str) (ofs : ℤ) : Option (BitVec 8) :=
  if 0 ≤ ofs then s[ofs.toNat]? else none

/-- The bytes from an offset on. -/
def readBytes (s : Str) (ofs : ℤ) : ℕ → Option Str
  | 0 => some []
  | n + 1 => do
      let b ← readByte s ofs
      let bs ← readBytes s (ofs + 1) n
      some (b :: bs)

/-- The bytes that a trace returns. -/
def Result.run (e : Exec) : Result → Option Str
  | .snew ofs size => readBytes e.str (ofs.val e).toInt (size.val e).toNat
  | .strempty => some []
  | .bytes ofs => ofs.mapM fun o => readByte e.str (o.val e).toInt

/-- The trace reads inside the string only, and returns what the plain function does. -/
def Agrees (data : Bool) (r : Result) (e : Exec) : Prop :=
  ∃ bs, r.run e = some bs ∧ stringRange data e.str e.args = .ok bs

/-! ### Ranges -/

/-- The bytes from `a` up to `b`. -/
def slice (s : Str) (a b : ℤ) : Str := (s.drop a.toNat).take (b - a).toNat

/-- The offset of the first byte. -/
def plainStart (len start : ℤ) : ℤ := max 0 (if start < 0 then start + len else start - 1)

/-- The offset behind the last byte. -/
def plainStop (len stop : ℤ) : ℤ := if stop < 0 then stop + len + 1 else min stop len

theorem plainStart_nonneg (len start : ℤ) : 0 ≤ plainStart len start := le_max_left _ _

theorem plainStop_le (len stop : ℤ) : plainStop len stop ≤ len := by
  unfold plainStop
  split <;> lia

theorem slice_eq_nil {s : Str} {a b : ℤ} (h : b ≤ a) : slice s a b = [] := by
  rw [slice, Int.toNat_of_nonpos (by omega), List.take_zero]

theorem length_slice {s : Str} {a b : ℤ} (ha : 0 ≤ a) (hb : b ≤ s.length) :
    (slice s a b).length = (b - a).toNat := by
  rw [slice, List.length_take, List.length_drop]
  lia

theorem slice_eq_nil_iff {s : Str} {a b : ℤ} (ha : 0 ≤ a) (hb : b ≤ s.length) :
    slice s a b = [] ↔ b ≤ a := by
  rw [← List.length_eq_zero_iff, length_slice ha hb]
  lia

/-- `string.byte` cuts out a range, unless that is too long. -/
theorem stringByte_eq (s : Str) (args : Args) :
    stringByte s args =
      if luaiMaxcstack < plainStop s.length (args.stopVal false).toInt -
          plainStart s.length args.startVal.toInt then .error "string slice too long"
      else .ok (slice s (plainStart s.length args.startVal.toInt)
        (plainStop s.length (args.stopVal false).toInt)) := by
  have hstop : args.stopVal false = args.stop.getD (args.start.getD 1) := rfl
  rw [stringByte, hstop, Args.startVal]
  generalize (args.stop.getD (args.start.getD 1)).toInt = E
  generalize (args.start.getD 1).toInt = S
  generalize hlen : (s.length : ℤ) = L
  have hpos : 0 ≤ L := hlen ▸ Int.natCast_nonneg _
  dsimp only
  -- the start and the end after the adjustments
  have hE : (if L < (if E < 0 then E + (L + 1) else E) then L else if E < 0 then E + (L + 1) else E) =
      plainStop L E := by
    unfold plainStop
    split_ifs <;> lia
  have hS : (if (if S < 0 then S + (L + 1) else S) ≤ 0 then 1 else if S < 0 then S + (L + 1) else S) =
      plainStart L S + 1 := by
    unfold plainStart
    split_ifs <;> lia
  rw [hE, hS, add_sub_cancel_right]
  by_cases hlt : plainStop L E < plainStart L S + 1
  · rw [if_pos hlt, if_neg (by unfold luaiMaxcstack; omega), slice_eq_nil (by omega)]
  · rw [if_neg hlt]
    rfl

/-- `string.sub` cuts out a range. -/
theorem stringSub_eq (s : Str) (args : Args) :
    stringSub s args.startVal args.stop = slice s (plainStart s.length args.startVal.toInt)
      (plainStop s.length (args.stopVal true).toInt) := by
  have hstop : args.stopVal true = args.stop.getD (-1) := rfl
  rw [stringSub, hstop]
  generalize (args.stop.getD (-1)).toInt = E
  generalize args.startVal.toInt = S
  generalize hlen : (s.length : ℤ) = L
  have hpos : 0 ≤ L := hlen ▸ Int.natCast_nonneg _
  have hE : (if E < 0 ∨ L < E then (if L < E then L else E + L + 1) else E) = plainStop L E := by
    unfold plainStop
    split_ifs <;> lia
  have hS : (if S ≤ 0 then (if S = 0 then 1 else if 0 < S + L + 1 then S + L + 1 else 1) else S) =
      plainStart L S + 1 := by
    unfold plainStart
    split_ifs <;> lia
  rw [hE, hS, add_sub_cancel_right]
  by_cases hlt : plainStop L E - (plainStart L S + 1) < 0
  · rw [if_pos hlt, slice_eq_nil (by omega)]
  · rw [if_neg hlt, slice]
    congr 2
    lia

/-! ### Reading -/

/-- Reading from an offset of the string. -/
theorem readBytes_natCast (s : Str) (n o : ℕ) :
    readBytes s o n = if n = 0 ∨ o + n ≤ s.length then some ((s.drop o).take n) else none := by
  induction n generalizing o with
  | zero => simp [readBytes]
  | succ n ih =>
      have hnext : (o : ℤ) + 1 = (o + 1 : ℕ) := by push_cast; rfl
      rw [readBytes, readByte, if_pos (Int.natCast_nonneg o), Int.toNat_natCast, hnext, ih]
      by_cases ho : o < s.length
      · have hdrop : s.drop o = s[o] :: s.drop (o + 1) := List.drop_eq_getElem_cons ho
        have hiff : (n = 0 ∨ o + 1 + n ≤ s.length) ↔ (n + 1 = 0 ∨ o + (n + 1) ≤ s.length) := by lia
        rw [List.getElem?_eq_getElem ho, hdrop, List.take_succ_cons]
        simp only [hiff]
        split <;> rfl
      · rw [List.getElem?_eq_none (by omega)]
        exact (if_neg (by omega)).symm

/-- Reading a range of the string, for an end that is not behind it. -/
theorem readBytes_eq_slice_iff {s : Str} {a b : ℤ} {n : ℕ} (ha : 0 ≤ a) (hb : b ≤ s.length) :
    readBytes s a n = some (slice s a b) ↔ (n : ℤ) = b - a ∨ (n = 0 ∧ b ≤ a) := by
  have hslice := length_slice ha hb
  obtain ⟨o, rfl⟩ := Int.eq_ofNat_of_zero_le ha
  rw [readBytes_natCast]
  constructor
  · intro h
    split at h
    · next hle =>
        -- both have the same length
        have hlength := congrArg List.length (Option.some.inj h)
        rw [hslice, List.length_take, List.length_drop] at hlength
        lia
    · exact nomatch h
  · rintro (h | ⟨rfl, hle⟩)
    · rw [if_pos (by omega), slice, Int.toNat_natCast, ← h, Int.toNat_natCast]
    · rw [if_pos (.inl rfl), slice_eq_nil hle, List.take_zero]

theorem length_of_readBytes {s : Str} {n : ℕ} {a : ℤ} {bs : Str} (h : readBytes s a n = some bs) :
    bs.length = n := by
  induction n generalizing a bs with
  | zero =>
      cases h
      rfl
  | succ n ih =>
      obtain ⟨b, -, h⟩ := Option.bind_eq_some_iff.1 h
      obtain ⟨bs', hbs', h⟩ := Option.bind_eq_some_iff.1 h
      cases h
      rw [List.length_cons, ih hbs']

/-- Reading behind the string. -/
theorem readBytes_of_lt {s : Str} {a : ℤ} {n : ℕ} (ha : 0 ≤ a) (hlt : s.length < a + n) (hn : n ≠ 0) :
    readBytes s a n = none := by
  obtain ⟨o, rfl⟩ := Int.eq_ofNat_of_zero_le ha
  rw [readBytes_natCast, if_neg (by lia)]

/-- The bytes at the offsets of `string.byte`: a sum that wraps around comes after an offset that is
behind the string. -/
theorem run_byteOfs {e : Exec} (hlen : e.str.length < 2 ^ 31) (tr : Opd) (n : ℕ) :
    ∀ i : ℕ, 0 ≤ (tr.val e).toInt → (tr.val e).toInt + i < 2 ^ 31 →
      (byteOfs tr i n).mapM (fun o => readByte e.str (o.val e).toInt) =
        readBytes e.str ((tr.val e).toInt + i) n := by
  induction n with
  | zero => exact fun _ _ _ => rfl
  | succ n ih =>
      intro i hpos hlt
      have hi : (BitVec.ofNat 32 i).toInt = i := by
        rw [BitVec.toInt_ofNat']
        exact Int.bmod_eq_of_le (by omega) (by omega)
      have hsum : (tr.val e + BitVec.ofNat 32 i).toInt = (tr.val e).toInt + i := by
        rw [toInt_add_of_fits, hi]
        rw [hi]
        constructor <;> omega
      rw [byteOfs, List.mapM_cons, readBytes, Opd.val, Opd.val, hsum]
      cases hread : readByte e.str ((tr.val e).toInt + i) with
      | none => rfl
      | some b =>
          have hin : (tr.val e).toInt + i < e.str.length := by
            rw [readByte, if_pos (by lia)] at hread
            have := (List.getElem?_eq_some_iff.1 hread).1
            lia
          have := ih (i + 1) hpos (by push_cast; lia)
          rw [this]
          push_cast
          rw [add_assoc]
          rfl

/-! ### The ends of a trace -/

/-- An execution does not take the lowest start where the recorded one was positive. -/
def StartOk (rstart start : BitVec 32) : Prop := 0 < rstart.toInt → -2 ^ 31 < start.toInt

/-- An execution does not take a negative end, other than -1, where the recorded one was beyond the
string. -/
def StopOk (slen rstop stop : BitVec 32) : Prop :=
  0 ≤ rstop.toInt → slen.toNat < rstop.toNat → -1 ≤ stop.toInt

theorem plainStart_of_not_startOk {len : ℤ} {rstart start : BitVec 32} (hlen : len < 2 ^ 31)
    (h : ¬ StartOk rstart start) : plainStart len start.toInt = 0 := by
  have hle : start.toInt ≤ -2 ^ 31 := not_lt.1 fun hlt => h fun _ => hlt
  rw [plainStart, if_pos (by omega)]
  lia

theorem plainStop_of_not_stopOk {len : ℤ} {slen rstop stop : BitVec 32} (h : ¬ StopOk slen rstop stop) :
    plainStop len stop.toInt < len := by
  have hlt : stop.toInt < -1 := not_le.1 fun hle => h fun _ _ => hle
  rw [plainStop, if_pos (by omega)]
  omega

section Ends

variable {e : Exec}

theorem holds_lt {a b : Opd} : Guard.Holds e ⟨.lt, a, b⟩ ↔ (a.val e).toInt < (b.val e).toInt := by
  simp [Guard.Holds, evalGuard, BitVec.slt]

theorem holds_ge {a b : Opd} : Guard.Holds e ⟨.ge, a, b⟩ ↔ (b.val e).toInt ≤ (a.val e).toInt := by
  simp [Guard.Holds, evalGuard, BitVec.slt]

theorem holds_le {a b : Opd} : Guard.Holds e ⟨.le, a, b⟩ ↔ (a.val e).toInt ≤ (b.val e).toInt := by
  simp [Guard.Holds, evalGuard, BitVec.sle]

theorem holds_eq {a b : Opd} : Guard.Holds e ⟨.eq, a, b⟩ ↔ a.val e = b.val e := by
  simp [Guard.Holds, evalGuard]

theorem holds_ule {a b : Opd} : Guard.Holds e ⟨.ule, a, b⟩ ↔ (a.val e).toNat ≤ (b.val e).toNat := by
  simp [Guard.Holds, evalGuard, BitVec.ule]

theorem holds_ugt {a b : Opd} : Guard.Holds e ⟨.ugt, a, b⟩ ↔ (b.val e).toNat < (a.val e).toNat := by
  simp [Guard.Holds, evalGuard, BitVec.ule]

theorem toInt_val_len (hlen : e.str.length < 2 ^ 31) : (Opd.len.val e).toInt = e.str.length := by
  rw [Opd.val, BitVec.toInt_ofNat']
  exact Int.bmod_eq_of_le (by omega) (by omega)

/-- The start that a trace computes. -/
theorem recffStringStart_spec (hlen : e.str.length < 2 ^ 31) {slen rstart : BitVec 32} {tr : Opd}
    (hguards : ∀ g ∈ (recffStringStart slen rstart tr).1, g.Holds e) :
    (StartOk rstart (tr.val e) → ((recffStringStart slen rstart tr).2.1.val e).toInt =
      plainStart e.str.length (tr.val e).toInt) ∧
    (¬ StartOk rstart (tr.val e) →
      ((recffStringStart slen rstart tr).2.1.val e).toInt = 2 ^ 31 - 1) := by
  have hL := toInt_val_len hlen
  obtain ⟨hs₁, hs₂⟩ := fitsInt32_toInt (tr.val e)
  have hzero : ((Opd.kint 0).val e).toInt = 0 := rfl
  unfold recffStringStart at hguards ⊢
  by_cases hneg : rstart.toInt < 0
  · -- a negative start, from the end of the string
    simp only [if_pos hneg] at hguards ⊢
    have hok : StartOk rstart (tr.val e) := fun h => absurd h (by omega)
    have hsum (hs : (tr.val e).toInt < 0) :
        ((Opd.add .len tr).val e).toInt = (tr.val e).toInt + e.str.length := by
      rw [Opd.val, toInt_add_of_fits, hL, add_comm]
      rw [hL]
      constructor <;> lia
    refine ⟨fun _ => ?_, fun h => absurd hok h⟩
    split at hguards
    · next hlt =>
        rw [List.forall_mem_cons, List.forall_mem_singleton, holds_lt, holds_lt, hzero] at hguards
        obtain ⟨hlow, hunder⟩ := hguards
        rw [hsum hlow] at hunder
        rw [if_pos hlt, hzero, plainStart, if_pos hlow]
        lia
    · next hlt =>
        rw [List.forall_mem_cons, List.forall_mem_singleton, holds_lt, holds_ge, hzero] at hguards
        obtain ⟨hlow, hover⟩ := hguards
        rw [hsum hlow] at hover
        rw [if_neg hlt, hsum hlow, plainStart, if_pos hlow]
        lia
  · simp only [if_neg hneg] at hguards ⊢
    by_cases hz : rstart = 0
    · subst hz
      simp only [if_true, List.forall_mem_singleton] at hguards ⊢
      have hstart := congrArg BitVec.toInt (holds_eq.1 hguards)
      rw [hzero] at hstart
      refine ⟨fun _ => ?_, fun h => absurd (fun h' => absurd h' (by decide)) h⟩
      rw [hstart, hzero]
      rfl
    · -- a positive start: the lowest one wraps around
      have hpos : 0 < rstart.toInt := by
        have : rstart.toInt ≠ 0 := fun h => hz (BitVec.toInt_inj.1 h)
        lia
      simp only [if_neg hz, List.forall_mem_singleton] at hguards ⊢
      rw [holds_ge, hzero] at hguards
      constructor
      · intro hok
        have hgt := hok hpos
        have hsum : ((Opd.add tr (.kint (-1))).val e).toInt = (tr.val e).toInt - 1 :=
          toInt_add_of_fits (b := -1) ⟨by change _ ≤ _ + (-1 : ℤ); omega, by change _ + (-1 : ℤ) < _; omega⟩
        rw [hsum] at hguards ⊢
        rw [plainStart, if_neg (by lia)]
        lia
      · intro hok
        have hlow : tr.val e = 0x80000000 := by
          refine BitVec.toInt_inj.1 (le_antisymm ?_ hs₁)
          exact not_lt.1 fun h => hok fun _ => h
        rw [Opd.val, hlow]
        change (0x80000000 + (-1) : BitVec 32).toInt = 2 ^ 31 - 1
        decide

/-- The end that a trace computes. -/
theorem recffStringEnd_spec (hlen : e.str.length < 2 ^ 31) {slen rstop : BitVec 32} {tr : Opd}
    (hguards : ∀ g ∈ (recffStringEnd slen rstop tr).1, g.Holds e) :
    (StopOk slen rstop (tr.val e) → ((recffStringEnd slen rstop tr).2.1.val e).toInt =
      plainStop e.str.length (tr.val e).toInt) ∧
    (¬ StopOk slen rstop (tr.val e) →
      ((recffStringEnd slen rstop tr).2.1.val e).toInt = e.str.length) := by
  have hL := toInt_val_len hlen
  obtain ⟨hs₁, hs₂⟩ := fitsInt32_toInt (tr.val e)
  have hzero : ((Opd.kint 0).val e).toInt = 0 := rfl
  have hone : ((Opd.kint 1).val e).toInt = 1 := rfl
  have hLnat : (Opd.len.val e).toNat = e.str.length := by
    rw [Opd.val, BitVec.toNat_ofNat]
    exact Nat.mod_eq_of_lt (by omega)
  unfold recffStringEnd at hguards ⊢
  by_cases hneg : rstop.toInt < 0
  · -- a negative end, from the end of the string
    simp only [if_pos hneg, List.forall_mem_singleton, holds_lt, hzero] at hguards ⊢
    refine ⟨fun _ => ?_, fun h => absurd (fun h' => absurd h' (by omega)) h⟩
    have hsum : ((Opd.add .len tr).val e).toInt = e.str.length + (tr.val e).toInt := by
      rw [Opd.val, toInt_add_of_fits, hL]
      rw [hL]
      constructor <;> lia
    have hsum' : ((Opd.add (.add .len tr) (.kint 1)).val e).toInt =
        e.str.length + (tr.val e).toInt + 1 := by
      rw [Opd.val, toInt_add_of_fits, hsum, hone]
      rw [hsum, hone]
      constructor <;> lia
    rw [hsum', plainStop, if_pos hguards]
    lia
  · simp only [if_neg hneg] at hguards ⊢
    have hnat := BitVec.toInt_eq_toNat_cond (tr.val e)
    have hlt := (tr.val e).isLt
    by_cases hle : rstop.toNat ≤ slen.toNat
    · simp only [if_pos hle, List.forall_mem_singleton, holds_ule] at hguards ⊢
      refine ⟨fun _ => ?_, fun h => absurd (fun _ h' => absurd h' (by omega)) h⟩
      rw [if_pos (by lia)] at hnat
      rw [plainStop, if_neg (by lia)]
      lia
    · -- an end beyond the string: so are the negative ones
      simp only [if_neg hle, List.forall_mem_singleton, holds_ugt] at hguards ⊢
      refine ⟨fun hok => ?_, fun _ => hL⟩
      have hle := hok (by omega) (by omega)
      rw [hL, plainStop]
      split
      · lia
      · rw [if_pos (by lia)] at hnat
        lia

/-- A difference as a word. -/
theorem toNat_sub_eq (a b : BitVec 32) :
    ((a - b).toNat : ℤ) = if a.toInt < b.toInt then a.toInt - b.toInt + 2 ^ 32 else a.toInt - b.toInt := by
  have ha := fitsInt32_toInt a
  have hb := fitsInt32_toInt b
  unfold FitsInt32 at ha hb
  have hmod : ((a - b).toNat : ℤ) = (a.toInt - b.toInt) % 2 ^ 32 := by
    rw [BitVec.toInt_eq_toNat_cond, BitVec.toInt_eq_toNat_cond, BitVec.toNat_sub]
    have := a.isLt
    have := b.isLt
    push_cast
    split <;> split <;> lia
  rw [hmod]
  split <;> lia

/-- The operands have the values of the arguments. -/
theorem val_startOpd {args : Args} (hstart : e.args.start.isSome = args.start.isSome) :
    args.startOpd.val e = e.args.startVal := by
  rw [Args.startOpd, ← hstart, Args.startVal]
  cases h : e.args.start with
  | none => rfl
  | some k => simp [Opd.val, h]

theorem val_stopOpd {data : Bool} {args : Args} (hstart : e.args.start.isSome = args.start.isSome)
    (hstop : e.args.stop.isSome = args.stop.isSome) :
    (args.stopOpd data).val e = e.args.stopVal data := by
  rw [Args.stopOpd, ← hstop, Args.stopVal]
  cases h : e.args.stop with
  | some k => simp [Opd.val, h]
  | none =>
      cases data with
      | true => rfl
      | false => exact val_startOpd hstart

end Ends

/-! ### Agreement -/

/-- The exact condition on an execution, for a recorded call. -/
def Covered (data : Bool) (slen : BitVec 32) (args : Args) (e : Exec) : Prop :=
  let startOk := StartOk args.startVal e.args.startVal
  let stopOk := StopOk slen (args.stopVal data) (e.args.stopVal data)
  let start := plainStart e.str.length e.args.startVal.toInt
  let stop := plainStop e.str.length (e.args.stopVal data).toInt
  if recRange data slen args = true then
    (startOk ∧ stopOk ∧ start - stop ≤ 2 ^ 31) ∨ (startOk ∧ ¬ stopOk ∧ e.str.length ≤ start) ∨
      (¬ startOk ∧ ¬ stopOk ∧ e.str.length = 2 ^ 31 - 1 ∧ stop ≤ 0)
  else startOk ∨ stop ≤ 0

section Agree

variable {data : Bool} {slen : BitVec 32} {args : Args} {e : Exec}

/-- The range that the plain function cuts out. -/
def plainRange (data : Bool) (e : Exec) : Str :=
  slice e.str (plainStart e.str.length e.args.startVal.toInt)
    (plainStop e.str.length (e.args.stopVal data).toInt)

/-- A result that is short enough for `string.byte` agrees if it is the range. -/
theorem agrees_iff_run {r : Result}
    (hshort : data = true ∨ ∀ bs, r.run e = some bs → (bs.length : ℤ) ≤ luaiMaxcstack) :
    Agrees data r e ↔ r.run e = some (plainRange data e) := by
  cases data with
  | true =>
      have hplain : stringRange true e.str e.args = .ok (plainRange true e) :=
        congrArg Except.ok (stringSub_eq e.str e.args)
      rw [Agrees, hplain]
      exact ⟨fun ⟨bs, hrun, hbs⟩ => Except.ok.inj hbs ▸ hrun, fun hrun => ⟨_, hrun, rfl⟩⟩
  | false =>
      have hplain : stringRange false e.str e.args = _ := stringByte_eq e.str e.args
      rw [Agrees, hplain]
      constructor
      · rintro ⟨bs, hrun, hbs⟩
        split at hbs
        · exact nomatch hbs
        · rw [hrun, ← Except.ok.inj hbs]
          rfl
      · intro hrun
        have hle := (hshort.resolve_left nofun) _ hrun
        rw [plainRange, length_slice (plainStart_nonneg _ _) (plainStop_le _ _)] at hle
        refine ⟨_, hrun, if_neg ?_⟩
        lia

/-- A trace that reads the range. -/
theorem read_iff {data : Bool} {trstart trend : BitVec 32} {n : ℕ}
    (hlen : e.str.length < 2 ^ 31)
    (hstart : (StartOk args.startVal e.args.startVal →
        trstart.toInt = plainStart e.str.length e.args.startVal.toInt) ∧
      (¬ StartOk args.startVal e.args.startVal → trstart.toInt = 2 ^ 31 - 1))
    (hstop : (StopOk slen (args.stopVal data) (e.args.stopVal data) →
        trend.toInt = plainStop e.str.length (e.args.stopVal data).toInt) ∧
      (¬ StopOk slen (args.stopVal data) (e.args.stopVal data) → trend.toInt = e.str.length))
    (hn : (trend - trstart).toNat = n) (hlt : n < 2 ^ 31) (hrange : recRange data slen args = true) :
    readBytes e.str trstart.toInt n = some (plainRange data e) ↔ Covered data slen args e := by
  have hsub := toNat_sub_eq trend trstart
  have hle := plainStop_le e.str.length (e.args.stopVal data).toInt
  have hpos := plainStart_nonneg e.str.length e.args.startVal.toInt
  have hfits := fitsInt32_toInt trend
  have hfits' := fitsInt32_toInt trstart
  unfold FitsInt32 at hfits hfits'
  rw [hn] at hsub
  simp only [Covered, if_pos hrange, plainRange]
  by_cases hs : StartOk args.startVal e.args.startVal
  · have hval := hstart.1 hs
    rw [hval] at hsub ⊢
    rw [readBytes_eq_slice_iff hpos hle]
    by_cases ht : StopOk slen (args.stopVal data) (e.args.stopVal data)
    · have hval' := hstop.1 ht
      simp only [hs, ht, not_true, true_and, false_and, or_false]
      split at hsub <;> lia
    · have hval' := hstop.2 ht
      have hlt' : _ < (e.str.length : ℤ) := plainStop_of_not_stopOk ht
      simp only [hs, ht, not_true, not_false_iff, true_and, false_and, or_false, false_or]
      split at hsub <;> lia
  · -- the start has wrapped around, and no byte is left
    have hval := hstart.2 hs
    have hzero : plainStart e.str.length _ = 0 := plainStart_of_not_startOk (by omega) hs
    rw [hval, hzero]
    rw [hval] at hsub
    by_cases hn0 : n = 0
    · subst hn0
      have hnil := readBytes_eq_slice_iff (n := 0) le_rfl hle
      rw [show readBytes e.str (2 ^ 31 - 1) 0 = readBytes e.str 0 0 from rfl, hnil]
      by_cases ht : StopOk slen (args.stopVal data) (e.args.stopVal data)
      · have hval' := hstop.1 ht
        simp only [hs, ht, not_true, false_and, and_false, or_false, true_and, iff_false]
        split at hsub <;> lia
      · have hval' := hstop.2 ht
        simp only [hs, ht, not_false_iff, false_and, false_or, true_and]
        split at hsub <;> lia
    · have hnone : readBytes e.str (2 ^ 31 - 1) n = none := readBytes_of_lt (by omega) (by lia) hn0
      rw [hnone]
      refine iff_of_false nofun ?_
      rintro (h | h | ⟨-, ht, hL, -⟩)
      · exact hs h.1
      · exact hs h.1
      · have hval' := hstop.2 ht
        split at hsub <;> lia

/-- A trace that returns nothing. -/
theorem nil_iff {data : Bool} {trstart trend : BitVec 32} (hlen : e.str.length < 2 ^ 31)
    (hstart : (StartOk args.startVal e.args.startVal →
        trstart.toInt = plainStart e.str.length e.args.startVal.toInt) ∧
      (¬ StartOk args.startVal e.args.startVal → trstart.toInt = 2 ^ 31 - 1))
    (hstop : (StopOk slen (args.stopVal data) (e.args.stopVal data) →
        trend.toInt = plainStop e.str.length (e.args.stopVal data).toInt) ∧
      (¬ StopOk slen (args.stopVal data) (e.args.stopVal data) → trend.toInt = e.str.length))
    (hle : trend.toInt ≤ trstart.toInt) (hrange : recRange data slen args = false) :
    some [] = some (plainRange data e) ↔ Covered data slen args e := by
  simp only [Covered, hrange, Bool.false_eq_true, if_false]
  rw [Option.some_inj, eq_comm, plainRange,
    slice_eq_nil_iff (plainStart_nonneg _ _) (plainStop_le _ _)]
  by_cases hs : StartOk args.startVal e.args.startVal
  · have hval := hstart.1 hs
    simp only [hs, true_or, iff_true]
    by_cases ht : StopOk slen (args.stopVal data) (e.args.stopVal data)
    · have hval' := hstop.1 ht
      omega
    · have hval' := hstop.2 ht
      have hlt' : _ < (e.str.length : ℤ) := plainStop_of_not_stopOk ht
      lia
  · have hzero : plainStart e.str.length _ = 0 := plainStart_of_not_startOk (by omega) hs
    simp only [hs, false_or, hzero]

end Agree

/-- For an execution with the guards of a recorded call passed, the trace agrees with the plain
function exactly if the start, the end and their difference do not leave the recorded case. -/
theorem agrees_iff (data : Bool) (baseslot : ℕ) (slen : BitVec 32) (args : Args) (gs : List Guard)
    (r : Result) (e : Exec) (hrec : recffStringRange data baseslot slen args = some (gs, r))
    (hlen : e.str.length < 2 ^ 31) (hstart : e.args.start.isSome = args.start.isSome)
    (hstop : e.args.stop.isSome = args.stop.isSome) (hguards : ∀ g ∈ gs, g.Holds e) :
    Agrees data r e ↔ Covered data slen args e := by
  have hstart' := val_startOpd hstart
  have hstop' := @val_stopOpd _ data _ hstart hstop
  have hS := @recffStringStart_spec e hlen slen args.startVal args.startOpd
  have hE := @recffStringEnd_spec e hlen slen (args.stopVal data) (args.stopOpd data)
  rw [hstart'] at hS
  rw [hstop'] at hE
  unfold recffStringRange at hrec
  generalize recffStringEnd slen (args.stopVal data) (args.stopOpd data) = pe at hE hrec
  generalize recffStringStart slen args.startVal args.startOpd = ps at hS hrec
  obtain ⟨ge, trend, _⟩ := pe
  obtain ⟨gs', trstart, _⟩ := ps
  by_cases hnone : data = true ∧ args.start = none
  · rw [if_pos hnone] at hrec
    exact nomatch hrec
  rw [if_neg hnone] at hrec
  dsimp only at hrec
  have hmem {g : Guard} (hgs : gs = ge ++ gs' ++ [g]) : (∀ g ∈ ge, g.Holds e) ∧
      (∀ g ∈ gs', g.Holds e) ∧ g.Holds e := by
    subst hgs
    simp only [List.forall_mem_append, List.forall_mem_singleton, and_assoc] at hguards
    exact hguards
  cases hr : recRange data slen args with
  | true =>
      simp only [hr, if_true] at hrec
      cases data with
      | true =>
          simp only [if_true, Option.some.injEq, Prod.mk.injEq] at hrec
          obtain ⟨hgs, rfl⟩ := hrec
          obtain ⟨hge, hgs', hg⟩ := hmem hgs.symm
          rw [holds_ge] at hg
          rw [agrees_iff_run (.inl rfl)]
          have hlt : 2 * (Opd.sub trend trstart |>.val e).toNat < 2 ^ 32 := BitVec.toInt_pos_iff.1 hg
          exact read_iff hlen (hS hgs') (hE hge) rfl (by omega) hr
      | false =>
          simp only [Bool.false_eq_true, if_false] at hrec
          split at hrec
          · exact nomatch hrec
          simp only [Option.some.injEq, Prod.mk.injEq] at hrec
          obtain ⟨hgs, rfl⟩ := hrec
          obtain ⟨hge, hgs', hg⟩ := hmem hgs.symm
          rw [holds_eq] at hg
          have hpos : 0 < (recLen false slen args).toInt := by simpa [recRange] using hr
          have hlt : 2 * (recLen false slen args).toNat < 2 ^ 32 := BitVec.toInt_pos_iff.1 hpos.le
          have hstart₀ : 0 ≤ (trstart.val e).toInt := by
            by_cases hs : StartOk args.startVal e.args.startVal
            · exact ((hS hgs').1 hs).symm ▸ plainStart_nonneg _ _
            · exact ((hS hgs').2 hs).symm ▸ by decide
          have hlt₀ := (fitsInt32_toInt (trstart.val e)).2
          have hrun : Result.run e (.bytes (byteOfs trstart 0 (recLen false slen args).toNat)) =
              readBytes e.str (trstart.val e).toInt (recLen false slen args).toNat := by
            have := run_byteOfs hlen trstart (recLen false slen args).toNat 0 hstart₀ (by simpa using hlt₀)
            rw [Nat.cast_zero, add_zero] at this
            exact this
          rw [agrees_iff_run, hrun]
          · exact read_iff hlen (hS hgs') (hE hge) (congrArg BitVec.toNat hg) (by omega) hr
          · refine .inr fun bs hbs => ?_
            rw [length_of_readBytes (hrun.symm.trans hbs)]
            unfold ljMaxJslots at *
            unfold luaiMaxcstack
            lia
  | false =>
      simp only [hr, Bool.false_eq_true, if_false] at hrec
      cases data with
      | true =>
          simp only [if_true, Option.some.injEq, Prod.mk.injEq] at hrec
          obtain ⟨hgs, rfl⟩ := hrec
          obtain ⟨hge, hgs', hg⟩ := hmem hgs.symm
          rw [agrees_iff_run (.inl rfl)]
          exact nil_iff hlen (hS hgs') (hE hge) (holds_lt.1 hg).le hr
      | false =>
          simp only [Bool.false_eq_true, if_false, Option.some.injEq, Prod.mk.injEq] at hrec
          obtain ⟨hgs, rfl⟩ := hrec
          obtain ⟨hge, hgs', hg⟩ := hmem hgs.symm
          rw [agrees_iff_run (.inr fun bs hbs => by cases hbs; decide)]
          exact nil_iff hlen (hS hgs') (hE hge) (holds_le.1 hg) hr

/-- `string.sub(s, 1, n)`, recorded for a string of three characters and 100, and executed with -2: the
guard compares unsigned and passes, and the trace returns the whole string. -/
theorem not_agrees :
    ¬ ∀ (data : Bool) (baseslot : ℕ) (slen : BitVec 32) (args : Args) (gs : List Guard) (r : Result)
      (e : Exec), recffStringRange data baseslot slen args = some (gs, r) →
      e.str.length < 2 ^ 31 → e.args.start.isSome = args.start.isSome →
      e.args.stop.isSome = args.stop.isSome → (∀ g ∈ gs, g.Holds e) → Agrees data r e := by
  intro h
  obtain ⟨bs, hrun, hplain⟩ := h true 1 3 ⟨some 1, some 100⟩ _ _ ⟨[97, 98, 99], ⟨some 1, some (-2)⟩⟩ rfl
    (by decide) rfl rfl (by decide)
  cases hrun
  exact absurd (Except.ok.inj hplain) (by decide)

/-- `string.sub(s, -2)`. -/
theorem agrees_iff_suffix :
    Agrees true (.snew (.add .len .start) (.sub (.add (.add .len (.kint (-1))) (.kint 1)) (.add .len .start)))
      ⟨[97, 98, 99, 100], ⟨some (-3), none⟩⟩ ↔
    Covered true 3 ⟨some (-2), none⟩ ⟨[97, 98, 99, 100], ⟨some (-3), none⟩⟩ :=
  agrees_iff true 1 3 ⟨some (-2), none⟩ _ _ ⟨[97, 98, 99, 100], ⟨some (-3), none⟩⟩ rfl (by decide) rfl rfl
    (by decide)

end StrRange
