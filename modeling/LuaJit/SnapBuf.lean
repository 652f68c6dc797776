/-
**The snapshot buffers of the recorder.**

Snapshots are headers in one array and entries in another, the snapshot map: a header has the offset of
its entries, their number and the number of stack slots, in fields of 16 and 8 bits.  The entries of a
snapshot are the modified slots in ascending order, behind them the PC and the frame links.  The last
snapshot is merged with a new one if nothing can leave the trace in between, and it is shrunk when slots
turn out to be dead.  Loop unrolling copies the snapshots behind the recorded ones: a slot that the copied
snapshot does not have comes from the loop snapshot, whose PC is a sentinel for the time being.

Main definitions:

* `Snap.snapshotSlots`, `Snap.framelinks`, `Snap.snapshotStack`, `Snap.snapAdd`, `Snap.snapShrink` — `lj_snap.c`;
* `Snap.loopSubstSnap`, `Snap.loopBegin`, `Snap.loopEnd` — the snapshots of `loop_unroll`;
* `Snap.step` — the operations on the buffers, as the recorder and the loop optimization call them.
-/

import LuaJit.IrDef

set_option relaxedAutoImplicit false
set_option autoImplicit false

namespace Snap

open Ir

/-! ### Entries -/

/-- A snapshot entry: the slot in bits 24–31, flags, and the reference in bits 0–15; or a PC; or a frame size. -/
abbrev SnapEntry := BitVec 32

/-- `SNAP_NORESTORE`, `SNAP_SOFTFPNUM`. -/
def snapNorestore : SnapEntry := 0x040000
def snapSoftfpnum : SnapEntry := 0x080000

/-- `snap_slot`. -/
def snapSlot (sn : SnapEntry) : ℕ := sn.toNat / 2 ^ 24

/-- `snap_ref`. -/
def snapRef (sn : SnapEntry) : ℕ := sn.toNat % 2 ^ 16

/-- `snap_setref`. -/
def snapSetref (sn : SnapEntry) (ref : ℕ) : SnapEntry :=
  (sn &&& (0xffff0000#32 &&& ~~~snapNorestore)) ||| BitVec.ofNat 32 (ref % 2 ^ 16)

/-- `SNAP_TR(s, tr)`. -/
def snapTr (s : ℕ) (tr : BitVec 32) : SnapEntry := BitVec.ofNat 32 (s * 2 ^ 24 + (tr &&& 0x3ffff#32).toNat)

/-- `SNAP(255, 0, 0)`. -/
def sentinel : SnapEntry := 0xff000000

/-- `LJ_MAX_JSLOTS`. -/
def maxJslots : ℕ := 250

/-! ### Buffers -/

/-- `SnapShot`. -/
structure SnapShot where
  mapofs : ℕ
  ref : ℕ
  nslots : ℕ
  topslot : ℕ
  nent : ℕ
  count : ℕ
  deriving DecidableEq, Inhabited

/-- The part of `jit_State` that the snapshots are in.  `map` is the snapshot map, of `sizesnapmap` entries. -/
structure SnapBuf where
  snap : ℕ → SnapShot
  nsnap : ℕ
  sizesnap : ℕ
  map : ℕ → SnapEntry
  nsnapmap : ℕ
  sizesnapmap : ℕ
  nins : ℕ
  guardemit : Bool
  mergesnap : Bool

/-- `lj_snap_grow_buf`: fails with `LJ_TRERR_SNAPOV`. -/
def growBuf (maxsnap need : ℕ) (B : SnapBuf) : Option SnapBuf :=
  if need ≤ B.sizesnap then some B
  else if maxsnap < need then none
  else some { B with sizesnap := min (max (2 * B.sizesnap) 8) maxsnap }

/-- `lj_snap_grow_map`. -/
def growMap (need : ℕ) (B : SnapBuf) : SnapBuf :=
  if need ≤ B.sizesnapmap then B
  else
    { B with sizesnapmap :=
        if need < 2 * B.sizesnapmap then 2 * B.sizesnapmap else if need < 64 then 64 else need }

/-! ### Generation -/

/-- The target. -/
structure Target where
  dualnum : Bool
  softfp : Bool

/-- A frame above the base of the trace, with the extent of the frame below it. -/
inductive Frame
  /-- A Lua frame. -/
  | lua (pc : BitVec 32) (top : ℕ)
  /-- A continuation frame. -/
  | cont (ftsz pc : BitVec 32) (top : ℕ)
  /-- A frame of a vararg function or a protected call. -/
  | delta (ftsz : BitVec 32)

/-- The links of a frame. -/
def Frame.links : Frame → List SnapEntry
  | .lua pc _ => [pc]
  | .cont ftsz pc _ => [ftsz, pc]
  | .delta ftsz => [ftsz]

/-- `ftop` after a frame. -/
def Frame.ftop (top : ℕ) : Frame → ℕ
  | .lua _ t => max top t
  | .cont _ _ t => max top t
  | .delta _ => top

/-- What the recorder knows of the stack: the slots, the IR they refer to, and the frames. -/
structure Stack where
  slot : ℕ → BitVec 32
  ir : ℕ → IRIns
  /-- `J->chain[IR_RETF]`. -/
  retf : ℕ
  baseslot : ℕ
  maxslot : ℕ
  pc : BitVec 32
  /-- The extent of the current frame. -/
  top : ℕ
  frames : List Frame
  framedepth : ℕ

/-- The frame links, behind the current PC. -/
def Stack.links (S : Stack) : List SnapEntry := S.pc :: S.frames.flatMap Frame.links

/-- `IRSLOAD_PARENT`, `IRSLOAD_CONVERT`, `IRSLOAD_READONLY`, `IRSLOAD_INHERIT`, as bits. -/
def sloadParent : ℕ := 0
def sloadConvert : ℕ := 3
def sloadReadonly : ℕ := 4
def sloadInherit : ℕ := 5

/-- The entry of a slot, unless it needs none. -/
def snapEntry (cfg : Target) (S : Stack) (s : ℕ) : Option SnapEntry :=
  let tr := S.slot s
  let ref := (tr &&& 0xffff#32).toNat
  if ref = 0 then none
  else
    let sn := snapTr s tr
    let ir := S.ir ref
    let unmodified := decide (sn &&& 0x30000#32 = 0#32 ∧ ir.o = .sload ∧ ir.op1 = s ∧ S.retf < ref)
    -- no need to snapshot unmodified non-inherited slots
    if unmodified && !ir.op2.testBit sloadInherit then none
    else
      let keep := (cfg.dualnum && ir.op2.testBit sloadConvert) ||
        (ir.op2.testBit sloadParent && !ir.op2.testBit sloadReadonly)
      let sn := if unmodified && !keep then sn ||| snapNorestore else sn
      some (if cfg.softfp && decide (ir.t.type = .num) then sn ||| snapSoftfpnum else sn)

/-- `snapshot_slots` from slot `s` on: the number of entries and the map. -/
def snapshotSlots (cfg : Target) (S : Stack) (p : ℕ) : ℕ → ℕ → ℕ → (ℕ → SnapEntry) → ℕ × (ℕ → SnapEntry)
  | 0, _, n, map => (n, map)
  | cnt + 1, s, n, map =>
      match snapEntry cfg S s with
      | none => snapshotSlots cfg S p cnt (s + 1) n map
      | some sn => snapshotSlots cfg S p cnt (s + 1) (n + 1) (Function.update map (p + n) sn)

/-- Writing entries from an offset on. -/
@[grind =]
def write (map : ℕ → SnapEntry) (p : ℕ) : List SnapEntry → ℕ → SnapEntry
  | [] => map
  | sn :: sns => write (Function.update map p sn) (p + 1) sns

/-- `snapshot_framelinks`: the map and the extent of the frames. -/
def framelinks (S : Stack) (map : ℕ → SnapEntry) (p : ℕ) : (ℕ → SnapEntry) × ℕ :=
  (write map p S.links, S.frames.foldl Frame.ftop S.top)

/-- `snapshot_stack`. -/
def snapshotStack (cfg : Target) (S : Stack) (idx nsnapmap : ℕ) (B : SnapBuf) : SnapBuf :=
  let nslots := S.baseslot + S.maxslot
  let B := growMap (nsnapmap + nslots + (S.framedepth + 1)) B
  let (nent, map) := snapshotSlots cfg S nsnapmap nslots 0 0 B.map
  let (map, topslot) := framelinks S map (nsnapmap + nent)
  { B with
    map := map
    snap := Function.update B.snap idx
      { mapofs := nsnapmap % 2 ^ 16, ref := B.nins % 2 ^ 16, nslots := nslots % 2 ^ 8, topslot := topslot % 2 ^ 8,
        nent := nent % 2 ^ 8, count := 0 }
    nsnapmap := (nsnapmap + nent + 1 + S.framedepth) % 2 ^ 16 }

/-- `lj_snap_add`. -/
def snapAdd (cfg : Target) (maxsnap : ℕ) (S : Stack) (B : SnapBuf) : Option SnapBuf :=
  let merge := if B.mergesnap then !B.guardemit else decide (0 < B.nsnap ∧ (B.snap (B.nsnap - 1)).ref = B.nins)
  let finish := fun (idx nsnapmap : ℕ) (B : SnapBuf) =>
    snapshotStack cfg S idx nsnapmap { B with mergesnap := false, guardemit := false }
  let add := fun B : SnapBuf =>
    (growBuf maxsnap (B.nsnap + 1) B).map fun B =>
      finish B.nsnap B.nsnapmap { B with nsnap := (B.nsnap + 1) % 2 ^ 16 }
  if merge then
    -- snapshot #0 keeps its PC
    if B.nsnap = 1 then add { B with nins := B.nins + 1 }
    else some (finish (B.nsnap - 1) (B.snap (B.nsnap - 1)).mapofs B)
  else add B

/-! ### Shrinking -/

/-- Copying the entries that are kept from `n` down to `m`: the end of the copy and the map. -/
def compact (keep : SnapEntry → Bool) (p : ℕ) : ℕ → ℕ → ℕ → (ℕ → SnapEntry) → ℕ × (ℕ → SnapEntry)
  | 0, _, m, map => (m, map)
  | cnt + 1, n, m, map =>
      if keep (map (p + n)) then compact keep p cnt (n + 1) (m + 1) (Function.update map (p + m) (map (p + n)))
      else compact keep p cnt (n + 1) m map

/-- The dead slots, as `snap_usedef` finds them: slots from `minslot` on that are dead have a nonzero entry. -/
structure UseDef where
  minslot : ℕ
  dead : ℕ → Bool

/-- The entry is kept; slots are relative to the base of the trace. -/
def UseDef.keeps (u : UseDef) (baseslot maxslot : ℕ) (sn : SnapEntry) : Bool :=
  let s := snapSlot sn
  decide (s < u.minslot + baseslot) || (decide (s < maxslot + baseslot) && !u.dead (s - baseslot))

/-- `lj_snap_shrink`. -/
def snapShrink (baseslot maxslot : ℕ) (u : UseDef) (B : SnapBuf) : SnapBuf :=
  let idx := B.nsnap - 1
  let snap := B.snap idx
  let (m, map) := compact (u.keeps baseslot maxslot) snap.mapofs snap.nent 0 0 B.map
  let (m', map) := compact (fun _ => true) snap.mapofs (B.nsnapmap - snap.mapofs - snap.nent) snap.nent m map
  { B with
    map := map
    snap := Function.update B.snap idx { snap with nslots := (maxslot + baseslot) % 2 ^ 8, nent := m % 2 ^ 8 }
    nsnapmap := (snap.mapofs + m') % 2 ^ 16 }

/-! ### Loop unrolling -/

/-- `snap_nextofs`. -/
def nextofs (B : SnapBuf) (idx : ℕ) : ℕ := if idx + 1 = B.nsnap then B.nsnapmap else (B.snap (idx + 1)).mapofs

/-- The substituted entry. -/
def substEntry (subst : ℕ → ℕ) (sn : SnapEntry) : SnapEntry :=
  if snapRef sn < refBias then sn else snapSetref sn (subst (snapRef sn))

/-- The merge of `loop_subst_snap`: `on`, `ln` and `nn` count the entries of the old snapshot, of the loop
snapshot and of the new one.  The fuel bounds the entries that are written. -/
def substMerge (subst : ℕ → ℕ) (omap onent loopmap nmap nslots : ℕ) :
    ℕ → ℕ → ℕ → ℕ → (ℕ → SnapEntry) → Option (ℕ × (ℕ → SnapEntry))
  | 0, _, _, _, _ => none
  | fuel + 1, on, ln, nn, map =>
      let lsn := map (loopmap + ln)
      if on < onent then
        let osn := map (omap + on)
        if snapSlot lsn < snapSlot osn then
          substMerge subst omap onent loopmap nmap nslots fuel on (ln + 1) (nn + 1) (Function.update map (nmap + nn) lsn)
        else
          substMerge subst omap onent loopmap nmap nslots fuel (on + 1) (if snapSlot lsn = snapSlot osn then ln + 1 else ln)
            (nn + 1) (Function.update map (nmap + nn) (substEntry subst osn))
      else if snapSlot lsn < nslots then
        substMerge subst omap onent loopmap nmap nslots fuel on (ln + 1) (nn + 1) (Function.update map (nmap + nn) lsn)
      else some (nn, map)

/-- Copying entries from an offset to another. -/
def copy (src dst : ℕ) : ℕ → (ℕ → SnapEntry) → ℕ → SnapEntry
  | 0, map => map
  | cnt + 1, map => copy (src + 1) (dst + 1) cnt (Function.update map dst (map src))

/-- `loop_subst_snap` of the snapshot `osnap`, with the entries of the loop snapshot at `loopmap`. -/
def loopSubstSnap (subst : ℕ → ℕ) (osnap loopmap : ℕ) (B : SnapBuf) : Option SnapBuf :=
  let os := B.snap osnap
  let nextmap := nextofs B osnap
  let idx := if B.guardemit then B.nsnap else B.nsnap - 1
  let nsnap := if B.guardemit then (B.nsnap + 1) % 2 ^ 16 else B.nsnap
  let nmapofs := if B.guardemit then B.nsnapmap else (B.snap (B.nsnap - 1)).mapofs
  (substMerge subst os.mapofs os.nent loopmap nmapofs os.nslots (2 ^ 9) 0 0 0 B.map).map fun (nn, map) =>
    let cnt := nextmap - (os.mapofs + os.nent)
    { B with
      guardemit := false
      nsnap := nsnap
      map := copy (os.mapofs + os.nent) (nmapofs + nn) cnt map
      snap := Function.update B.snap idx
        { mapofs := nmapofs % 2 ^ 16, ref := B.nins % 2 ^ 16, nslots := os.nslots, topslot := os.topslot,
          nent := nn % 2 ^ 8, count := 0 }
      nsnapmap := (nmapofs + nn + cnt) % 2 ^ 16 }

/-- What `loop_unroll` keeps. -/
structure LoopCtx where
  /-- The instructions in front of the loop. -/
  invar : ℕ
  onsnap : ℕ
  loopmap : ℕ
  psentinel : ℕ
  /-- The next snapshot to copy. -/
  osnap : ℕ

/-- `loop_unroll` in front of the first instruction that is copied: `LOOP` is a guard. -/
def loopBegin (maxsnap : ℕ) (B : SnapBuf) : Option (LoopCtx × SnapBuf) :=
  let invar := B.nins
  let onsnap := B.nsnap
  (growBuf maxsnap (2 * onsnap - 2) { B with nins := B.nins + 1, guardemit := true }).map fun B =>
    let last := B.snap (onsnap - 1)
    let B := growMap (B.nsnapmap * 2 + (onsnap - 2) * last.nent) B
    ({ invar := invar, onsnap := onsnap, loopmap := last.mapofs, psentinel := last.mapofs + last.nent, osnap := 1 },
      { B with map := Function.update B.map (last.mapofs + last.nent) sentinel })

/-- `loop_unroll` behind the last instruction that is copied. -/
def loopEnd (C : LoopCtx) (B : SnapBuf) : SnapBuf :=
  let B := if B.guardemit then B else { B with nsnap := B.nsnap - 1, nsnapmap := (B.snap (B.nsnap - 1)).mapofs % 2 ^ 16 }
  { B with map := Function.update B.map C.psentinel (B.map (B.snap 0).nent) }

/-! ### Operations -/

/-- What the recorder and the loop optimization do. -/
inductive Op
  /-- Instructions are emitted, and a guard may be among them. -/
  | emit (n : ℕ) (guard : Bool)
  /-- `J->mergesnap = 1`. -/
  | mergesnap
  /-- `lj_snap_add`. -/
  | add (S : Stack)
  /-- `lj_snap_shrink`. -/
  | shrink (baseslot maxslot : ℕ) (u : UseDef)
  /-- `loop_unroll` starts. -/
  | loopBegin
  /-- `loop_unroll` comes to the instruction `ins`, which belongs to the next snapshot. -/
  | subst (ins : ℕ) (subst : ℕ → ℕ)
  /-- `loop_unroll` ends. -/
  | loopEnd

/-- The buffers, and the state of `loop_unroll` while it runs. -/
structure State where
  buf : SnapBuf
  loop : Option LoopCtx

/-- One operation.  It fails with an error, or because it is not called in this state. -/
def step (cfg : Target) (maxsnap : ℕ) (st : State) (op : Op) : Option State :=
  match op, st.loop with
  | .emit n guard, _ =>
      some { st with buf := { st.buf with nins := st.buf.nins + n, guardemit := st.buf.guardemit || guard } }
  | .mergesnap, none => some { st with buf := { st.buf with mergesnap := true } }
  | .add S, none => (snapAdd cfg maxsnap S st.buf).map fun B => { st with buf := B }
  | .shrink baseslot maxslot u, none => some { st with buf := snapShrink baseslot maxslot u st.buf }
  | .loopBegin, none => (loopBegin maxsnap st.buf).map fun (C, B) => { buf := B, loop := some C }
  | .subst ins subst, some C =>
      if (st.buf.snap C.osnap).ref ≤ ins then
        (loopSubstSnap subst C.osnap C.loopmap st.buf).map fun B =>
          { buf := B, loop := some { C with osnap := C.osnap + 1 } }
      else some st
  | .loopEnd, some C => some { buf := loopEnd C st.buf, loop := none }
  | _, _ => none

/-- The start of a trace, with the arrays that earlier traces have left. -/
def start (B : SnapBuf) : State where
  buf := { B with nsnap := 0, nsnapmap := 0, nins := refBias + 1, guardemit := false, mergesnap := false }
  loop := none

/-- The buffers after operations in turn. -/
def run (cfg : Target) (maxsnap : ℕ) (B : SnapBuf) (ops : List Op) : Option State := ops.foldlM (step cfg maxsnap) (start B)

end Snap
