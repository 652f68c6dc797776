/-
**Executing a recorded trace and an unrolled loop.**

The values and the meaning of instructions are parameters: FOLD is the only part of the loop
optimization that knows them.  The recorded trace is executed again and again, with its final slots
fed back into the stack that its `SLOAD`s read.  The unrolled loop executes the pre-roll once and then
its body; nothing is written to the stack, and at the back edge every PHI gives its left operand the
value of its right operand.  A failing guard leaves the trace, and the snapshot of the guard says
which slots are restored.

Main definitions:

* `Loop.Sem` — values and the meaning of instructions;
* `Loop.exec`, `Loop.Passes`, `Loop.ExitsAt` — execution of a range of instructions, and its guards;
* `Loop.restore`, `Loop.snapAt` — restoring slots from the snapshot of a guard;
* `Loop.recStack`, `Loop.recEnv` — repeated execution of the recorded trace;
* `Loop.backEdge`, `Loop.loopStart`, `Loop.loopEnv` — execution of the unrolled loop.
-/

import LuaJit.Loop

set_option relaxedAutoImplicit false
set_option autoImplicit false

namespace Loop

open Ir

/-! ### The meaning of instructions -/

/-- Values, and what instructions do with them. -/
structure Sem (Val : Type) where
  /-- The value of a constant. -/
  konst : IRIns → Val
  /-- The value of an instruction on the values of its operands. -/
  val : IROp → IRType → Val → Val → Val
  /-- Whether a guard holds. -/
  ok : IROp → IRType → Val → Val → Bool
  /-- The value is an integer, as the type check of an `SLOAD` asks. -/
  isInt : Val → Bool
  val_isInt : ∀ o t a b, isInteger t = true → isInt (val o t a b) = true
  konst_isInt : ∀ ins, isInteger ins.t.type = true → isInt (konst ins) = true

/-- An instruction without its PHI flag. -/
def erase (ins : IRIns) : IRIns := { ins with t := { ins.t with isphi := false } }

/-- The instruction only guards and has no value. -/
def isCmp : IROp → Bool
  | .lt | .ge | .le | .gt | .ult | .uge | .ule | .ugt | .eq | .ne | .abc | .nop => true
  | _ => false

section

variable {Val : Type} (S : Sem Val)

/-- The value of an instruction.  `σ` is the stack. -/
def value (σ : ℕ → Val) (ins : IRIns) (ρ : ℕ → Val) : Val :=
  if ins.o = .sload then σ ins.op1 else S.val ins.o ins.t.type (ρ ins.op1) (ρ ins.op2)

/-- Execute `n` instructions from `lo` on, whether their guards hold or not. -/
@[grind =]
def exec (J : JitState) (σ : ℕ → Val) (lo : ℕ) : ℕ → (ℕ → Val) → (ℕ → Val)
  | 0, ρ => ρ
  | n + 1, ρ =>
      let ρ := exec J σ lo n ρ
      Function.update ρ (lo + n) (value S σ (J.ir (lo + n)) ρ)

/-- The guard at `r` holds, if there is one. -/
def Holds (J : JitState) (ρ : ℕ → Val) (r : ℕ) : Prop :=
  (J.ir r).t.isguard = true →
    if (J.ir r).o = .sload then S.isInt (ρ r) = true
    else S.ok (J.ir r).o (J.ir r).t.type (ρ (J.ir r).op1) (ρ (J.ir r).op2) = true

/-- All guards in the range hold. -/
def Passes (J : JitState) (ρ : ℕ → Val) (lo hi : ℕ) : Prop :=
  ∀ r, lo ≤ r → r < hi → Holds S J ρ r

/-- Execution of the range leaves at the guard `g`. -/
def ExitsAt (J : JitState) (ρ : ℕ → Val) (lo hi g : ℕ) : Prop :=
  lo ≤ g ∧ g < hi ∧ ¬ Holds S J ρ g ∧ Passes S J ρ lo g

/-- The slots after restoring a snapshot. -/
def restore (snap : SnapShot) (ρ σ : ℕ → Val) (s : ℕ) : Val :=
  match snap.map.find? fun sn => sn.slot = s with
  | some sn => if sn.norestore then σ s else ρ sn.ref
  | none => σ s

/-- The snapshot of the guard at `g`. -/
def snapAt (snaps : List SnapShot) (g : ℕ) : Option SnapShot :=
  (snaps.filter fun snap => snap.ref ≤ g).getLast?

/-! ### The recorded trace -/

/-- Constants have their value in `ρ`.  What `ρ` is below them are the values of literals. -/
def Consts (J : JitState) (ρ : ℕ → Val) : Prop :=
  ∀ r, J.nk ≤ r → r < refBias → ρ r = S.konst (erase (J.ir r))

/-- Execute the recorded trace: the constants are those of `ρ`. -/
def recExec (T : Trace) (ρ σ : ℕ → Val) : ℕ → Val :=
  exec S T.core σ refFirst (T.core.nins - refFirst) ρ

/-- Restore the loop snapshot, if there is one. -/
def restoreLoop (T : Trace) (ρ σ : ℕ → Val) : ℕ → Val :=
  match T.snap.getLast? with
  | some snap => restore snap ρ σ
  | none => σ

/-- The stack before execution number `n` of the recorded trace. -/
def recStack (T : Trace) (ρ σ : ℕ → Val) : ℕ → ℕ → Val
  | 0 => σ
  | n + 1 => restoreLoop T (recExec S T ρ (recStack T ρ σ n)) (recStack T ρ σ n)

/-- The values of execution number `n` of the recorded trace. -/
def recEnv (T : Trace) (ρ σ : ℕ → Val) (n : ℕ) : ℕ → Val := recExec S T ρ (recStack S T ρ σ n)

/-- Execution number `n` runs to its end. -/
def RecPasses (T : Trace) (ρ σ : ℕ → Val) (n : ℕ) : Prop :=
  Passes S T.core (recEnv S T ρ σ n) refFirst T.core.nins

/-- Execution number `n` leaves at the guard `g`. -/
def RecExitsAt (T : Trace) (ρ σ : ℕ → Val) (n g : ℕ) : Prop :=
  ExitsAt S T.core (recEnv S T ρ σ n) refFirst T.core.nins g

/-! ### The unrolled loop -/

/-- The back edge: the left operand of a PHI gets the value of its right operand. -/
def backEdge (J : JitState) (ρ : ℕ → Val) (r : ℕ) : Val :=
  match (List.range J.nins).find?
      fun q => refFirst ≤ q ∧ (J.ir q).o = .phi ∧ (J.ir q).op1 = r with
  | some q => ρ (J.ir q).op2
  | none => ρ r

/-- Execute the body of the loop. -/
def bodyExec (J : JitState) (invar : ℕ) (σ ρ : ℕ → Val) : ℕ → Val :=
  exec S J σ (invar + 1) (J.nins - (invar + 1)) ρ

/-- The values before iteration number `n` of the body; iteration 0 is the pre-roll. -/
def loopStart (J : JitState) (invar : ℕ) (ρ σ : ℕ → Val) : ℕ → ℕ → Val
  | 0 => ρ
  | 1 => exec S J σ refFirst (invar - refFirst) ρ
  | n + 2 => backEdge J (bodyExec S J invar σ (loopStart J invar ρ σ (n + 1)))

/-- The values of iteration number `n + 1` of the body. -/
def loopEnv (J : JitState) (invar : ℕ) (ρ σ : ℕ → Val) (n : ℕ) : ℕ → Val :=
  bodyExec S J invar σ (loopStart S J invar ρ σ (n + 1))

/-- Iteration number `n + 1` runs to its end. -/
def BodyPasses (J : JitState) (invar : ℕ) (ρ σ : ℕ → Val) (n : ℕ) : Prop :=
  Passes S J (loopEnv S J invar ρ σ n) (invar + 1) J.nins

/-- Iteration number `n + 1` leaves at the guard `g`. -/
def BodyExitsAt (J : JitState) (invar : ℕ) (ρ σ : ℕ → Val) (n g : ℕ) : Prop :=
  ExitsAt S J (loopEnv S J invar ρ σ n) (invar + 1) J.nins g

end

end Loop
