/-
**Concatenation of many operands.**

`lj_meta_cat` works on the operand stack from the top: a run of strings and numbers is concatenated
in one go, and for anything else the stack is rearranged for the call of a metamethod, whose result
the continuation stores back before the loop goes on below it.  Lookups and calls of metamethods are
parameters, and so is the number formatting of the C library; the collector is left out.  Lengths are
natural numbers: the sum of 2^31 lengths of 32 bits does not wrap in 64 bits.

Main definitions:

* `MetaCat.Vm` — what the loop uses of the rest of the system;
* `MetaCat.metaCat` — `lj_meta_cat`;
* `MetaCat.drive` — the continuation, up to the final value or an error;
* `MetaCat.foldWith` — the right fold of the binary operation, with a check for the length.
-/

import Mathlib

set_option relaxedAutoImplicit false
set_option autoImplicit false

namespace MetaCat

/-! ### Values -/

/-- A slot of the stack: `nil`, a string, an integer, a number, any other object, or a continuation. -/
inductive TValue (O : Type) where
  | nil
  | str (s : List UInt8)
  | int (k : BitVec 32)
  | num (n : BitVec 64)
  | obj (o : O)
  | cont

variable {O W E : Type}

/-- `tvisnil`. -/
def tvisnil : TValue O → Bool
  | .nil => true
  | _ => false

/-- `tvisstr(o) || tvisnumber(o)`. -/
def isStrNum : TValue O → Bool
  | .str _ | .int _ | .num _ => true
  | _ => false

/-- `STRFMT_MAXBUF_NUM`. -/
def strfmtMaxbufNum : ℕ := 32

/-- `LJ_MAX_STR`. -/
def ljMaxStr : ℕ := 0x7fffff00

/-- `tvisstr(o) ? strV(o)->len : STRFMT_MAXBUF_NUM`. -/
def lenMax : TValue O → ℕ
  | .str s => s.length
  | _ => strfmtMaxbufNum

/-! ### Formatting -/

/-- `(char)('0'+d)`. -/
def digit (d : BitVec 32) : UInt8 := UInt8.ofNat (48 + d.toNat)

/-- `WINT_R`: a digit, and the rest. -/
def wintR (x : BitVec 32) (sh sc : ℕ) : UInt8 × BitVec 32 :=
  let d := (x * BitVec.ofNat 32 ((2 ^ sh + sc - 1) / sc)) >>> sh
  (digit d, x - d * BitVec.ofNat 32 sc)

/-- The arguments of `WINT_R` before the labels `dig1`, `dig2` and `dig3`. -/
def wintScale : ℕ → ℕ × ℕ
  | 0 => (10, 10)
  | 1 => (12, 100)
  | _ => (23, 1000)

/-- The digits from a label on: `n + 1` of them. -/
def wintDigits : ℕ → BitVec 32 → List UInt8
  | 0, x => [digit x]
  | n + 1, x =>
      let r := wintR x (wintScale n).1 (wintScale n).2
      r.1 :: wintDigits n r.2

/-- The label to go to. -/
def wintLabel (x : BitVec 32) : ℕ :=
  if x.toNat < 10 then 0 else if x.toNat < 100 then 1 else if x.toNat < 1000 then 2 else 3

/-- The digits of `lj_strfmt_wint`. -/
def wintAbs (u : BitVec 32) : List UInt8 :=
  if u.toNat < 10000 then wintDigits (wintLabel u) u
  else
    let v := BitVec.ofNat 32 (u.toNat / 10000)
    let u := u - v * 10000#32
    if v.toNat < 10000 then wintDigits (wintLabel v) v ++ wintDigits 3 u
    else
      let w := BitVec.ofNat 32 (v.toNat / 10000)
      let v := v - w * 10000#32
      (if 10 ≤ w.toNat then [(wintR w 10 10).1, digit (wintR w 10 10).2] else [digit w]) ++
        wintDigits 3 v ++ wintDigits 3 u

/-- `lj_strfmt_wint`. -/
def strfmtWint (k : BitVec 32) : List UInt8 :=
  if k.toInt < 0 then 45 :: wintAbs (-k) else wintAbs k

/-- What the loop uses of the rest of the system, where `W` is the state of everything but the operand
stack: whether frames take two slots, the format of finite numbers, the metamethod of a value, and a
call of a metamethod with its result and what it leaves above its frame. -/
structure Vm (O W E : Type) where
  fr2 : Bool
  bionic : Bool
  number2str : BitVec 64 → List UInt8
  lookup : W → TValue O → TValue O
  call : W → TValue O → TValue O → TValue O → Except (E × W) (TValue O × W × (ℕ → TValue O))

/-- `lj_strfmt_wnum`. -/
def strfmtWnum (vm : Vm O W E) (n : BitVec 64) : List UInt8 :=
  if ((n.extractLsb' 32 32) <<< 1).toNat < 0xffe00000 then
    if vm.bionic && n == 0x8000000000000000#64 then [45, 48] else vm.number2str n
  else if (n.extractLsb' 32 32 &&& 0x000fffff#32) ||| n.extractLsb' 0 32 ≠ 0 then [110, 97, 110]
  else if n.extractLsb' 32 32 &&& 0x80000000#32 = 0 then [105, 110, 102]
  else [45, 105, 110, 102]

/-- The bytes of a string or a number. -/
def bytes (vm : Vm O W E) : TValue O → List UInt8
  | .str s => s
  | .int k => strfmtWint k
  | .num n => strfmtWnum vm n
  | _ => []

/-! ### `lj_meta_cat` -/

/-- The operand stack. -/
abbrev Stack (O : Type) := ℕ → TValue O

/-- The inner loop: `left`, `o` and `tlen` after it. -/
def scan (st : Stack O) : ℕ → ℕ → ℕ → ℕ × ℕ × ℕ
  | 0, o, tlen => (0, o, tlen)
  | left + 1, o, tlen =>
      let o := o - 1
      let tlen := tlen + lenMax (st o)
      if decide (0 < left) && isStrNum (st (o - 1)) then scan st left o tlen else (left, o, tlen)

/-- The loop that writes the slots from `o` on into the buffer. -/
def writeRun (vm : Vm O W E) (st : Stack O) (o : ℕ) : ℕ → List UInt8
  | 0 => []
  | n + 1 => bytes vm (st o) ++ writeRun vm st (o + 1) n

/-- The errors: `LJ_ERR_OPCAT` for an operand, `LJ_ERR_STROV`, and those of metamethods. -/
inductive Err (O E : Type) where
  | opcat (o : TValue O)
  | strov
  | mm (e : E)

/-- What `lj_meta_cat` ends with: finished, a metamethod to call at a base, or an error. -/
inductive Result (O E : Type) where
  | done (st : Stack O)
  | mm (st : Stack O) (base : ℕ)
  | err (e : Err O E)

/-- The slots of a frame: 1, or 2 with `LJ_FR2`. -/
def Vm.frame (vm : Vm O W E) : ℕ := if vm.fr2 then 2 else 1

/-- The stack for the call of a metamethod. -/
def setupMm (vm : Vm O W E) (st : Stack O) (top : ℕ) (mo : TValue O) : Stack O :=
  let st := Function.update st (top + 2 * (vm.frame - 1) + 2) (st top)
  let st := Function.update st (top + 2 * (vm.frame - 1) + 1) (st (top - 1))
  let st := Function.update st (top + (vm.frame - 1)) mo
  let st := Function.update st (top - 1) .cont
  if vm.fr2 then Function.update (Function.update st top .nil) (top + 2) .nil else st

theorem scan_lt (st : Stack O) (left o tlen : ℕ) (h : 0 < left) : (scan st left o tlen).1 < left := by
  induction left generalizing o tlen with
  | zero => cases h
  | succ left ih =>
    rw [scan]
    split
    · rename_i hc
      simp only [Bool.and_eq_true, decide_eq_true_eq] at hc
      exact (ih _ _ hc.1).trans (Nat.lt_succ_self left)
    · exact Nat.lt_succ_self left

/-- The loop of `lj_meta_cat`. -/
def metaCat (vm : Vm O W E) (w : W) (st : Stack O) (top left : ℕ) : Result O E :=
  if !isStrNum (st top) || !isStrNum (st (top - 1)) then
    let mo := vm.lookup w (st (top - 1))
    let mo := if tvisnil mo then vm.lookup w (st top) else mo
    if tvisnil mo then .err (.opcat (if isStrNum (st (top - 1)) then st top else st (top - 1)))
    else .mm (setupMm vm st top mo) (top + 2 * (vm.frame - 1) + 1)
  else
    let r := scan st left top (lenMax (st top))
    if ljMaxStr ≤ r.2.2 then .err .strov
    else
      let st := Function.update st r.2.1 (.str (writeRun vm st r.2.1 (top + 1 - r.2.1)))
      if _h : 1 ≤ r.1 then metaCat vm w st r.2.1 r.1 else .done st
termination_by left
decreasing_by
  refine scan_lt _ _ _ _ ?_
  rcases Nat.eq_zero_or_pos left with h | h
  · subst h
    exact absurd _h (Nat.not_succ_le_zero 0)
  · exact h

/-- What an execution ends with: a value or an error, and the state then. -/
abbrev Out (O W E : Type) := Except (Err O E × W) (TValue O × W)

/-- The machine around `lj_meta_cat`: it calls the metamethod, and `lj_cont_cat` stores the result below
the frame and goes on, or is finished at the first operand.  Nothing if `fuel` runs out. -/
def drive (vm : Vm O W E) (base : ℕ) : ℕ → W → Stack O → ℕ → ℕ → Option (Out O W E)
  | 0, _, _, _, _ => none
  | fuel + 1, w, st, top, left =>
      match metaCat vm w st top left with
      | .done st => some (.ok (st base, w))
      | .err e => some (.error (e, w))
      | .mm st mbase =>
          match vm.call w (st (mbase - vm.frame)) (st mbase) (st (mbase + 1)) with
          | .error (e, w) => some (.error (.mm e, w))
          | .ok (v, w, above) =>
              let slot := mbase - 2 * vm.frame
              if slot = base then some (.ok (v, w))
              else
                drive vm base fuel w
                  (fun i => if i < slot then st i else if i = slot then v else above i) slot (slot - base)

/-! ### The right fold -/

/-- The operands below a slot, from the top. -/
@[grind =]
def below (st : Stack O) (top : ℕ) : ℕ → List (TValue O)
  | 0 => []
  | n + 1 => st (top - 1) :: below st (top - 1) n

/-- The right fold of the binary operation over the operands, from the top: `acc` is the value of those
to the right.  `tooLong` says when the length overflows. -/
def foldWith (vm : Vm O W E) (tooLong : List (TValue O) → Bool) :
    TValue O → List (TValue O) → W → Out O W E
  | acc, [], w => .ok (acc, w)
  | acc, a :: rest, w =>
      if isStrNum a && isStrNum acc then
        if tooLong (acc :: a :: rest) then .error (.strov, w)
        else foldWith vm tooLong (.str (bytes vm a ++ bytes vm acc)) rest w
      else
        let mo := vm.lookup w a
        let mo := if tvisnil mo then vm.lookup w acc else mo
        if tvisnil mo then .error (.opcat (if isStrNum a then acc else a), w)
        else
          match vm.call w mo a acc with
          | .error (e, w) => .error (.mm e, w)
          | .ok (v, w, _) => foldWith vm tooLong v rest w

/-- The length of two operands overflows. -/
def pairTooLong (xs : List (TValue O)) : Bool := decide (ljMaxStr ≤ ((xs.take 2).map lenMax).sum)

/-- The length of the run of strings and numbers at the top overflows. -/
def runTooLong (xs : List (TValue O)) : Bool :=
  decide (ljMaxStr ≤ ((xs.takeWhile isStrNum).map lenMax).sum)

/-- The right fold of the binary operation. -/
def foldCat (vm : Vm O W E) : TValue O → List (TValue O) → W → Out O W E := foldWith vm pairTooLong

/-- The same, where the length is checked for the run. -/
def foldRun (vm : Vm O W E) : TValue O → List (TValue O) → W → Out O W E := foldWith vm runTooLong

end MetaCat
