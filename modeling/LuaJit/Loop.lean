/-
**Loop optimization by copy-substitution.**

A recorded trace is one iteration of a loop.  `loop_unroll` makes the recorded instructions the
pre-roll, emits `LOOP`, and copies every instruction behind it with substituted operands, passing
it through FOLD and CSE.  A copy that turns out to be an instruction of the pre-roll is invariant or
a loop-carried dependency; the latter are collected as candidates for a PHI.  `loop_emit_phi`
drops the candidates whose value is not needed.  Snapshots are copied and substituted along with the
instructions, with the slots of the loop snapshot as a fallback.

FOLD is a parameter: a function that appends instructions and returns a reference, or fails.

Main definitions:

* `Loop.SnapEntry`, `Loop.SnapShot`, `Loop.snapshotSlots` — snapshots and how they are taken;
* `Loop.Trace`, `Loop.LoopState` — the state of the trace recorder and of the optimization;
* `Loop.substMap`, `Loop.loopSubstSnap` — substitution of a snapshot;
* `Loop.copyIns`, `Loop.copyAll` — the copy-substitution;
* `Loop.loopEmitPhi` — the five passes over the candidates;
* `Loop.loopUnroll` — all of it.
-/

import LuaJit.IrDef

set_option relaxedAutoImplicit false
set_option autoImplicit false

namespace Loop

open Ir

/-! ### Instructions -/

/-- `REF_FIRST`. -/
def refFirst : ℕ := refBias + 1

/-- `LJ_MAX_PHI`. -/
def maxPhi : ℕ := 64

/-- The kinds of instructions, from the mode column of `IRDEF`. -/
inductive IrmKind
  | n
  | a
  | l
  | s
  deriving DecidableEq

/-- `irm_kind`. -/
def irmKind : IROp → IrmKind
  | .retf | .gcstep | .hiop | .loop | .use | .phi | .rename | .prof | .newref
  | .astore | .hstore | .ustore | .fstore | .xstore | .tbar | .obar | .xbar | .calls | .callxs => .s
  | .href | .urefo | .urefc | .lref | .aload | .hload | .uload | .fload | .xload | .sload | .vload
  | .bufhdr | .bufput | .calll => .l
  | .xsnew | .tnew | .tdup | .cnew | .bufstr | .calla => .a
  | _ => .n

/-- `irt_isinteger`. -/
def isInteger : IRType → Bool
  | .i8 | .u8 | .i16 | .u16 | .int => true
  | _ => false

/-- `irt_ispri`. -/
def isPri : IRType → Bool
  | .nil | .false | .true => true
  | _ => false

/-- `ir->o >= IR_CALLN && ir->o <= IR_CARG`. -/
def isCall : IROp → Bool
  | .calln | .calla | .calll | .calls | .callxs | .carg => true
  | _ => false

/-- Flags of `SLOAD`. -/
def irsloadParent : ℕ := 0x01
def irsloadFrame : ℕ := 0x02
def irsloadReadonly : ℕ := 0x10
def irsloadInherit : ℕ := 0x20

/-- Modes of `CONV`: int to number, and number to int with a check. -/
def irconvNumInt : ℕ := (14 <<< 5) ||| 19
def irconvIntNumCheck : ℕ := (19 <<< 5) ||| 14 ||| (3 <<< 12)

/-- `irt_setphi`, `irt_clearphi`. -/
def setPhi (J : JitState) (ref : ℕ) (b : Bool) : JitState :=
  { J with ir := Function.update J.ir ref { J.ir ref with t := { (J.ir ref).t with isphi := b } } }

/-! ### Snapshots -/

/-- A slot of a snapshot. -/
structure SnapEntry where
  slot : ℕ
  ref : ℕ
  cont : Bool := false
  frame : Bool := false
  norestore : Bool := false
  deriving DecidableEq

/-- A snapshot.  `links` are the PC and the frame links behind the slots. -/
structure SnapShot where
  ref : ℕ
  nslots : ℕ
  topslot : ℕ
  map : List SnapEntry
  links : List ℕ
  deriving DecidableEq

/-- The recorded trace: the IR, the snapshots, and the references in the slots. -/
structure Trace where
  core : JitState
  guardemit : Bool
  snap : List SnapShot
  slot : ℕ → ℕ
  nslots : ℕ

/-- The entry of `snapshot_slots` for a slot, if any. -/
def snapshotSlot (J : JitState) (s ref : ℕ) : Option SnapEntry :=
  if ref = 0 then none
  else
    let ir := J.ir ref
    if ir.o = .sload ∧ ir.op1 = s ∧ J.chain .retf < ref then
      if ir.op2 &&& irsloadInherit = 0 then none
      else
        some { slot := s, ref := ref,
               norestore := decide (ir.op2 &&& (irsloadReadonly ||| irsloadParent) ≠ irsloadParent) }
    else some { slot := s, ref := ref }

/-- Add all modified slots to the snapshot. -/
def snapshotSlots (J : JitState) (slot : ℕ → ℕ) (nslots : ℕ) : List SnapEntry :=
  (List.range nslots).filterMap fun s => snapshotSlot J s (slot s)

/-! ### Copy-substitution -/

/-- The state of the optimization.  `first` is not in the source: it remembers where the copy of
each instruction starts. -/
structure LoopState where
  T : Trace
  subst : ℕ → ℕ
  phi : List ℕ
  mark : ℕ → Bool
  first : ℕ → ℕ

/-- Substitute an entry of a snapshot. -/
def substEntry (subst : ℕ → ℕ) (osn : SnapEntry) : SnapEntry :=
  if irrefIsk osn.ref then osn else { osn with ref := subst osn.ref, norestore := false }

/-- The loop slots behind `slot`: a loop slot with the same number is shadowed. -/
def unshadowed (slot : ℕ) : List SnapEntry → List SnapEntry
  | [] => []
  | lsn :: lmap => if lsn.slot = slot then lmap else lsn :: lmap

/-- Substitute snapshot slots; the slots of the loop snapshot that are not shadowed are kept.  The
end of `loopmap` stands for the sentinel. -/
@[grind =]
def substMap (subst : ℕ → ℕ) (nslots : ℕ) : List SnapEntry → List SnapEntry → List SnapEntry
  | [], lmap => lmap.takeWhile fun lsn => lsn.slot < nslots
  | osn :: omap, lmap =>
      (lmap.takeWhile fun lsn => lsn.slot < osn.slot) ++ substEntry subst osn ::
        substMap subst nslots omap
          (unshadowed osn.slot (lmap.dropWhile fun lsn => lsn.slot < osn.slot))

/-- Copy-substitute snapshot. -/
def loopSubstSnap (st : LoopState) (osnap : SnapShot) (loopmap : List SnapEntry) : LoopState :=
  let snap : SnapShot :=
    { ref := st.T.core.nins
      nslots := osnap.nslots
      topslot := osnap.topslot
      map := substMap st.subst osnap.nslots osnap.map loopmap
      links := osnap.links }
  -- without a guard inbetween the previous snapshot is overwritten
  let snaps := if st.T.guardemit then st.T.snap ++ [snap] else st.T.snap.dropLast ++ [snap]
  { st with T := { st.T with snap := snaps, guardemit := false } }

/-- FOLD: the instruction is in `fins`. -/
abbrev Fold := JitState → Option (ℕ × JitState)

/-- `emitir`: pass an instruction on to FOLD.  The copy of an `SLOAD` is what is in the slot at the
end of the recorded trace. -/
def emitir (fold : Fold) (T : Trace) (ins : IRIns) : Option (ℕ × Trace) :=
  if ins.o = .sload ∧ ins.op2 &&& irsloadFrame = 0 then some (T.slot ins.op1, T)
  else
    match fold { T.core with fins := ins } with
    | none => none
    | some (ref, core) =>
        let guard := (List.range' T.core.nins (core.nins - T.core.nins)).any
          fun r => (core.ir r).t.isguard
        some (ref, { T with core := core, guardemit := T.guardemit || guard })

/-- Add a candidate for a PHI. -/
def addPhi (st : LoopState) (ref : ℕ) : Option LoopState :=
  if maxPhi ≤ st.phi.length then none
  else
    some { st with
      T := { st.T with core := setPhi st.T.core ref true }
      phi := st.phi ++ [ref] }

/-- Add a candidate for a PHI unless it is a constant or already one. -/
def phiconv (st : LoopState) (invar ref : ℕ) : Option LoopState :=
  if ref < invar ∧ irrefIsk ref = false ∧ (st.T.core.ir ref).t.isphi = false then addPhi st ref
  else some st

/-- Fix the type of a loop-carried dependency with a conversion. -/
def convPhi (fold : Fold) (st : LoopState) (invar ins : ℕ) (conv : IRIns) : Option LoopState :=
  match emitir fold st.T conv with
  | none => none
  | some (ref, T) =>
      phiconv { st with T := T, subst := Function.update st.subst ins ref } invar ref

/-- Check a loop-carried dependency for type instability. -/
def checkType (fold : Fold) (st : LoopState) (invar ins ref : ℕ) (t : IRType) : Option LoopState :=
  let rt := (st.T.core.ir ref).t.type
  if t = rt then some st
  else if isInteger t ∧ isInteger rt then some st
  else if t = .num ∧ isInteger rt then
    convPhi fold st invar ins
      { o := .conv, t := { type := .num }, op1 := ref, op2 := irconvNumInt }
  else if rt = .num ∧ isInteger t then
    convPhi fold st invar ins
      { o := .conv, t := { type := .int, isguard := true }, op1 := ref, op2 := irconvIntNumCheck }
  else none

/-- What is done with the reference that the copy of `ins` turned out to be. -/
def copyRef (fold : Fold) (st : LoopState) (invar ins ref : ℕ) (t : IRType) : Option LoopState :=
  let irr := st.T.core.ir ref
  if ref = ins then some st
  else if ref < invar then
    let st' :=
      if irrefIsk ref = false ∧ irr.t.isphi = false ∧ isPri irr.t.type = false then addPhi st ref
      else some st
    match st' with
    | none => none
    | some st => checkType fold st invar ins ref t
  else if ref ≠ refDrop ∧ irr.o = .conv ∧ invar < ref ∧ irr.op1 < invar then
    phiconv st invar irr.op1
  else some st

/-- Substitute an operand. -/
def substOp (subst : ℕ → ℕ) (op : ℕ) : ℕ := if irrefIsk op then op else subst op

/-- Copy-substitute an instruction. -/
def copyIns (fold : Fold) (invar ins : ℕ) (st : LoopState) : Option LoopState :=
  let ir := st.T.core.ir ins
  let op1 := substOp st.subst ir.op1
  let op2 := substOp st.subst ir.op2
  let st := { st with first := Function.update st.first ins st.T.core.nins }
  if irmKind ir.o = .n ∧ op1 = ir.op1 ∧ op2 = ir.op2 then
    some { st with subst := Function.update st.subst ins ins }
  else
    match emitir fold st.T
        { o := ir.o, t := { ir.t with isphi := false }, op1 := op1, op2 := op2 } with
    | none => none
    | some (ref, T) =>
        copyRef fold { st with T := T, subst := Function.update st.subst ins ref } invar ins ref
          ir.t.type

/-- Copy and substitute the next `n` instructions and their snapshots. -/
def copyAll (fold : Fold) (invar : ℕ) (loopmap : List SnapEntry) :
    ℕ → ℕ → List SnapShot → LoopState → Option LoopState
  | 0, _, _, st => some st
  | n + 1, ins, osnaps, st =>
      match osnaps with
      | osnap :: rest =>
          if osnap.ref ≤ ins then
            match copyIns fold invar ins (loopSubstSnap st osnap loopmap) with
            | none => none
            | some st => copyAll fold invar loopmap n (ins + 1) rest st
          else
            match copyIns fold invar ins st with
            | none => none
            | some st => copyAll fold invar loopmap n (ins + 1) osnaps st
      | [] =>
          match copyIns fold invar ins st with
          | none => none
          | some st => copyAll fold invar loopmap n (ins + 1) [] st

/-! ### PHI elimination -/

/-- Pass #1: mark redundant and potentially redundant PHIs. -/
def phiPass1 : List ℕ → LoopState → LoopState
  | [], st => st
  | lref :: rest, st =>
      let rref := st.subst lref
      let irr := st.T.core.ir rref
      if lref = rref ∨ rref = refDrop then
        phiPass1 rest { st with T := { st.T with core := setPhi st.T.core lref false } }
      else if irr.op1 = lref ∨ irr.op2 = lref then
        phiPass1 rest { st with phi := st.phi ++ [lref] }
      else
        phiPass1 rest { st with
          phi := st.phi ++ [lref], mark := Function.update st.mark lref true }

/-- `irt_clearmark` of a reference that is not a constant. -/
def clearMark (mark : ℕ → Bool) (ref : ℕ) : ℕ → Bool :=
  if irrefIsk ref then mark else Function.update mark ref false

/-- Clear the marks of the arguments of a call, from the `CARG` at `ref` on. -/
def clearCargs (J : JitState) : ℕ → ℕ → (ℕ → Bool) → (ℕ → Bool)
  | 0, _, mark => mark
  | fuel + 1, ref, mark =>
      if (J.ir ref).o = .carg then
        let mark := clearMark mark (J.ir ref).op2
        if irrefIsk (J.ir ref).op1 then mark
        else clearCargs J fuel (J.ir ref).op1 (clearMark mark (J.ir ref).op1)
      else mark

/-- Clear the marks of the operands of an instruction. -/
def clearIns (J : JitState) (invar : ℕ) (mark : ℕ → Bool) (i : ℕ) : ℕ → Bool :=
  let ir := J.ir i
  let mark := clearMark mark ir.op2
  if irrefIsk ir.op1 then mark
  else
    let mark := clearMark mark ir.op1
    if ir.op1 < invar ∧ isCall ir.o then clearCargs J ir.op1 ir.op1 mark else mark

/-- Clear the marks of the references of a snapshot. -/
def clearSnap (mark : ℕ → Bool) (snap : SnapShot) : ℕ → Bool :=
  snap.map.foldl (fun mark sn => clearMark mark sn.ref) mark

/-- Pass #2: traverse variant part and clear marks of non-redundant PHIs. -/
def phiPass2 (invar onsnap : ℕ) (st : LoopState) : LoopState :=
  let J := st.T.core
  let mark := (List.range' (invar + 1) (J.nins - (invar + 1))).reverse.foldl (clearIns J invar) st.mark
  { st with mark := (st.T.snap.drop onsnap).reverse.foldl clearSnap mark }

/-- Follow a slot and its substitutions; `room` is the number of PHIs that may still be added. -/
def phiSlot (invar : ℕ) : ℕ → ℕ → LoopState → Option LoopState
  | room, ref, st =>
      if irrefIsk ref ∨ ref = st.subst ref then some st
      else
        let ir := st.T.core.ir ref
        let st := { st with mark := Function.update st.mark ref false }
        if ir.t.isphi ∨ isPri ir.t.type then some st
        else
          match room with
          | 0 => none
          | room + 1 =>
              let st := { st with
                T := { st.T with core := setPhi st.T.core ref true }
                phi := st.phi ++ [ref] }
              if invar < st.subst ref then some st else phiSlot invar room (st.subst ref) st

/-- Pass #3: add PHIs for variant slots without a corresponding SLOAD. -/
def phiPass3 (invar : ℕ) : List ℕ → LoopState → Option LoopState
  | [], st => some st
  | i :: rest, st =>
      match phiSlot invar (maxPhi - st.phi.length) (st.T.slot i) st with
      | none => none
      | some st => phiPass3 invar rest st

/-- One round of pass #4. -/
def phiPass4Round (subst : ℕ → ℕ) : List ℕ → (ℕ → Bool) → Bool → (ℕ → Bool) × Bool
  | [], mark, passx => (mark, passx)
  | lref :: rest, mark, passx =>
      if mark lref = false ∧ mark (subst lref) then
        phiPass4Round subst rest (Function.update mark (subst lref) false) true
      else phiPass4Round subst rest mark passx

/-- Pass #4: propagate non-redundant PHIs. -/
def phiPass4 (subst : ℕ → ℕ) (phi : List ℕ) : ℕ → (ℕ → Bool) → (ℕ → Bool)
  | 0, mark => mark
  | fuel + 1, mark =>
      let r := phiPass4Round subst phi mark false
      if r.2 then phiPass4 subst phi fuel r.1 else r.1

/-- Pass #5: emit PHI instructions or eliminate PHIs. -/
def phiPass5 (invar : ℕ) (subst : ℕ → ℕ) (mark : ℕ → Bool) : List ℕ → JitState → JitState
  | [], J => J
  | lref :: rest, J =>
      if mark lref then phiPass5 invar subst mark rest (setPhi J lref false)
      else
        let rref := subst lref
        let J := if invar < rref then setPhi J rref true else J
        phiPass5 invar subst mark rest
          (J.addins { o := .phi, t := { type := (J.ir lref).t.type }, op1 := lref, op2 := rref }).2

/-- Emit or eliminate collected PHIs. -/
def loopEmitPhi (invar onsnap : ℕ) (st : LoopState) : Option LoopState :=
  let st := phiPass1 st.phi { st with phi := [], mark := fun _ => false }
  -- without a mark the passes #2 and #4 have nothing to do
  let st := if st.phi.any fun lref => st.mark lref then phiPass2 invar onsnap st else st
  match phiPass3 invar (List.range' 1 (st.T.nslots - 1)) st with
  | none => none
  | some st =>
      let mark := phiPass4 st.subst st.phi (st.phi.length + 1) st.mark
      some { st with
        T := { st.T with core := phiPass5 invar st.subst mark st.phi st.T.core }
        mark := mark }

/-! ### Loop unrolling -/

/-- Drop a redundant snapshot at the end. -/
def dropSnap (T : Trace) : Trace := if T.guardemit then T else { T with snap := T.snap.dropLast }

/-- The state before the first instruction is copied: `LOOP` separates the pre-roll from the loop
body. -/
def loopInit (T : Trace) : LoopState :=
  { T := { T with
      core := (T.core.addins { o := .loop, t := { type := .nil, isguard := true } }).2
      guardemit := true }
    subst := fun _ => refBias
    phi := []
    mark := fun _ => false
    first := fun _ => 0 }

/-- The loop snapshot is used for fallback substitutions. -/
def loopMap (T : Trace) : List SnapEntry :=
  match T.snap.getLast? with
  | some snap => snap.map
  | none => []

/-- Unroll loop. -/
def loopUnroll (fold : Fold) (T : Trace) : Option LoopState :=
  (copyAll fold T.core.nins (loopMap T) (T.core.nins - refFirst) refFirst T.snap.tail
    (loopInit T)).bind fun st =>
      loopEmitPhi T.core.nins T.snap.length { st with T := dropSnap st.T }

end Loop
