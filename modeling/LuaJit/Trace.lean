/-
**Trace management.**

The bookkeeping of the trace compiler: the array of traces and the scan for a free trace number,
the patches that a finished root trace makes to the bytecode of its prototype, the chain of root
traces anchored in the prototype, and everything that takes these apart again — aborted recordings,
flushes, blacklisting, and the collector.

A trace number names a slot of the trace array, which is empty, or holds the trace under
construction, or holds a saved trace.  Following a number whose slot is empty is a null dereference
in the source and has no result here.

Main definitions:

* `Trace.Proto`, `Trace.GCtrace`, `Trace.JitState` — prototypes, traces, the state of the compiler;
* `Trace.traceFindfree` — the scan for a free trace number;
* `Trace.traceUnpatch`, `Trace.traceFlushroot`, `Trace.ljTraceFlush`, `Trace.ljTraceFlushproto`,
  `Trace.ljTraceFlushall` — flushing;
* `Trace.ljTraceReenableproto`, `Trace.blacklistPc`, `Trace.penaltyPc` — blacklisting;
* `Trace.traceStart`, `Trace.traceStop`, `Trace.traceAbort` — the life of a recording;
* `Trace.ljTraceFree`, `Trace.gcMark` — what the collector does to traces.
-/

import LuaJit.Bc

set_option relaxedAutoImplicit false
set_option autoImplicit false

namespace Trace

open Bc

/-! ### Data -/

/-- A prototype: its bytecode, the flags `PROTO_ILOOP` and `PROTO_NOJIT`, and the anchor of its
chain of root traces.  `dead` says that the collector found it unreachable. -/
structure Proto where
  sizebc : ℕ
  bc : ℕ → BCIns
  iloop : Bool
  nojit : Bool
  trace : ℕ
  dead : Bool

/-- A trace.  `nslots` is the slot count of its first snapshot. -/
structure GCtrace where
  traceno : ℕ
  link : ℕ
  root : ℕ
  nextroot : ℕ
  nextside : ℕ
  nchild : ℕ
  startpt : ℕ
  startpc : ℕ
  startins : BCIns
  nslots : BitVec 8
  dead : Bool
  deriving DecidableEq

/-- A slot of the trace array: empty, `&J->cur`, or a saved trace. -/
inductive Slot
  | null
  | cur
  | saved (T : GCtrace)
  deriving DecidableEq

/-- The state of the compiler; `err` is an active state whose activity bit was cleared. -/
inductive TraceState
  | idle
  | record
  | err
  deriving DecidableEq

/-- A slot of the penalty cache: the penalised instruction and its penalty. -/
structure HotPenalty where
  pc : Option (ℕ × ℕ)
  val : ℕ
  deriving DecidableEq

structure JitState where
  pt : ℕ → Proto
  trace : ℕ → Slot
  sizetrace : ℕ
  freetrace : ℕ
  cur : GCtrace
  state : TraceState
  parent : ℕ
  exitno : ℕ
  penalty : List HotPenalty
  penaltyslot : ℕ

def penaltySlots : ℕ := 64
def penaltyMin : ℕ := 36 * 2
def penaltyMax : ℕ := 60000

/-- A zeroed instruction word. -/
def BCIns.zero : BCIns := ⟨.islt, 0, 0⟩

/-- A zeroed trace. -/
def GCtrace.zero : GCtrace := ⟨0, 0, 0, 0, 0, 0, 0, 0, BCIns.zero, 0, false⟩

/-- The penalty cache after it was cleared. -/
def penaltyClear : List HotPenalty := List.replicate penaltySlots ⟨none, 0⟩

/-! ### Access -/

/-- `traceref(J, n)`; `none` is the null pointer. -/
def traceref (J : JitState) (n : ℕ) : Option GCtrace :=
  match J.trace n with
  | .null => none
  | .cur => some J.cur
  | .saved T => some T

/-- Write to the trace in slot `n`. -/
def modifyTrace (J : JitState) (n : ℕ) (f : GCtrace → GCtrace) : JitState :=
  match J.trace n with
  | .null => J
  | .cur => { J with cur := f J.cur }
  | .saved T => { J with trace := Function.update J.trace n (.saved (f T)) }

def setSlot (J : JitState) (n : ℕ) (s : Slot) : JitState :=
  { J with trace := Function.update J.trace n s }

def setPt (J : JitState) (p : ℕ) (pt : Proto) : JitState :=
  { J with pt := Function.update J.pt p pt }

/-- `*pc = ins`. -/
def setbc (pt : Proto) (pc : ℕ) (ins : BCIns) : Proto :=
  { pt with bc := Function.update pt.bc pc ins }

/-- `setbc_op(pc, op)`. -/
def setbcOp (pt : Proto) (pc : ℕ) (op : BCOp) : Proto := setbc pt pc { pt.bc pc with op := op }

/-! ### Trace numbers -/

/-- The limit on the size of the trace array for the parameter `maxtrace`. -/
def traceLimit (maxtrace : BitVec 32) : ℕ :=
  let lim := (maxtrace + 1).toNat
  if lim < 2 then 2 else if 65535 < lim then 65535 else lim

/-- The new size of a vector that has to grow. -/
def memGrow (sz lim : ℕ) : ℕ :=
  let sz := 2 * sz
  let sz := if sz < 8 then 8 else sz
  if lim < sz then lim else sz

/-- The scan for an empty slot below `size`; it stops there or at `size`. -/
def scanFree (trace : ℕ → Slot) (size : ℕ) : ℕ → ℕ → ℕ
  | 0, i => i
  | fuel + 1, i =>
      if i < size then
        match trace i with
        | .null => i
        | _ => scanFree trace size fuel (i + 1)
      else i

/-- Find a free trace number; 0 means that there are too many traces. -/
def traceFindfree (maxtrace : BitVec 32) (J : JitState) : ℕ × JitState :=
  let free := if J.freetrace = 0 then 1 else J.freetrace
  let free := scanFree J.trace J.sizetrace J.sizetrace free
  if free < J.sizetrace then (free, { J with freetrace := free + 1 })
  else
    let lim := traceLimit maxtrace
    if lim ≤ J.sizetrace then (0, { J with freetrace := free })
    -- the fresh slots of the grown array are empty already
    else (free, { J with freetrace := free, sizetrace := memGrow J.sizetrace lim })

/-! ### Unpatching and flushing -/

/-- Unpatch the bytecode modified by a root trace. -/
def traceUnpatch (T : GCtrace) (pt : Proto) : Proto :=
  let pc := T.startpc
  if T.startins.op = .jmp then pt
  else
    match (pt.bc pc).op with
    | .jforl => setbcOp (setbc pt pc T.startins) (jumpTo pc (bcJ T.startins)) .fori
    | .jiterl | .jloop => setbc pt pc T.startins
    | .jmp =>
        let pc := jumpTo pc (bcJ (pt.bc pc) + 2)
        if (pt.bc pc).op = .jiterl then setbc pt pc T.startins else pt
    | .jfuncf => setbc pt pc T.startins
    | _ => pt

/-- The search for the predecessor of trace `no` in a chain of root traces, and its removal. -/
def unlinkRoot (no next : ℕ) : ℕ → JitState → ℕ → Option JitState
  | 0, _, _ => none
  | fuel + 1, J, n =>
      match traceref J n with
      | none => none
      | some T2 =>
          if T2.nextroot = 0 then some J
          else if T2.nextroot = no then some (modifyTrace J n fun T => { T with nextroot := next })
          else unlinkRoot no next fuel J T2.nextroot

/-- Flush a root trace. -/
def traceFlushroot (J : JitState) (T : GCtrace) : Option JitState :=
  let pt := traceUnpatch T (J.pt T.startpt)
  if pt.trace = T.traceno then some (setPt J T.startpt { pt with trace := T.nextroot })
  else if pt.trace ≠ 0 then
    match traceref J pt.trace with
    | none => some (setPt J T.startpt pt)
    | some _ => unlinkRoot T.traceno T.nextroot J.sizetrace (setPt J T.startpt pt) pt.trace
  else some (setPt J T.startpt pt)

/-- Flush a trace.  Only root traces are considered. -/
def ljTraceFlush (J : JitState) (traceno : ℕ) : Option JitState :=
  if 0 < traceno ∧ traceno < J.sizetrace then
    match traceref J traceno with
    | none => some J
    | some T => if T.root = 0 then traceFlushroot J T else some J
  else some J

/-- The loop of `lj_trace_flushproto`. -/
def flushprotoLoop : ℕ → JitState → ℕ → Option JitState
  | 0, J, p => if (J.pt p).trace = 0 then some J else none
  | fuel + 1, J, p =>
      if (J.pt p).trace = 0 then some J
      else
        match traceref J (J.pt p).trace with
        | none => none
        | some T =>
            match traceFlushroot J T with
            | none => none
            | some J => flushprotoLoop fuel J p

/-- Flush all traces associated with a prototype. -/
def ljTraceFlushproto (J : JitState) (p : ℕ) : Option JitState := flushprotoLoop J.sizetrace J p

/-- What `lj_trace_flushall` does to one slot. -/
def flushSlot (J : JitState) (i : ℕ) : Option JitState :=
  match traceref J i with
  | none => some J
  | some T =>
      match (if T.root = 0 then traceFlushroot J T else some J) with
      | none => none
      | some J =>
          some (setSlot (modifyTrace J i fun T => { T with traceno := 0, link := 0 }) i .null)

/-- The slots from `n` down to 1. -/
def flushSlots : ℕ → JitState → Option JitState
  | 0, J => some J
  | n + 1, J =>
      match flushSlot J (n + 1) with
      | none => none
      | some J => flushSlots n J

/-- Flush all traces.  Nothing happens inside a finalizer. -/
def ljTraceFlushall (hookGc : Bool) (J : JitState) : Option JitState :=
  if hookGc then some J
  else
    match flushSlots (J.sizetrace - 1) J with
    | none => none
    | some J =>
        some { J with
          cur := { J.cur with traceno := 0 }, freetrace := 0, penalty := penaltyClear }

/-! ### Blacklisting -/

/-- Blacklist a bytecode instruction. -/
def blacklistPc (pt : Proto) (pc : ℕ) : Proto :=
  { setbcOp pt pc ((pt.bc pc).op.shift .iloop .loop) with iloop := true }

/-- Penalize a bytecode instruction; `rnd` are the random bits. -/
def penaltyPc (rnd : BitVec 4) (J : JitState) (p pc : ℕ) : JitState :=
  match J.penalty.findIdx? (fun h => h.pc == some (p, pc)) with
  | some i =>
      -- first try to bump its hotcount several times
      let val := 2 * (J.penalty.getD i ⟨none, 0⟩).val + rnd.toNat
      if penaltyMax < val then setPt J p (blacklistPc (J.pt p) pc)
      else { J with penalty := J.penalty.set i ⟨some (p, pc), val⟩ }
  | none =>
      { J with
        penaltyslot := (J.penaltyslot + 1) % penaltySlots
        penalty := J.penalty.set J.penaltyslot ⟨some (p, pc), penaltyMin⟩ }

/-- Turn the interpreted forms of loops back. -/
def reenableIns (ins : BCIns) : BCIns :=
  match ins.op with
  | .iforl | .iiterl | .iloop => { ins with op := ins.op.shift .loop .iloop }
  | _ => ins

/-- Re-enable compiling a prototype by unpatching any modified bytecode. -/
def ljTraceReenableproto (pt : Proto) : Proto :=
  if pt.iloop then
    { pt with
      iloop := false
      bc := fun i =>
        if i = 0 then if (pt.bc 0).op = .ifuncf then { pt.bc 0 with op := .funcf } else pt.bc 0
        else if i < pt.sizebc then reenableIns (pt.bc i)
        else pt.bc i }
  else pt

/-! ### Recording -/

/-- The part of `lj_record_setup` that fills in the trace under construction. -/
def recordSetup (J : JitState) (traceno p pc : ℕ) : Option JitState :=
  let cur := { GCtrace.zero with traceno := traceno, startpt := p, startpc := pc }
  if J.parent ≠ 0 then
    match traceref J J.parent with
    | none => none
    | some T =>
        let root := if T.root ≠ 0 then T.root else J.parent
        some { J with
          state := .record
          cur := { cur with root := root, startins := ⟨.jmp, 0, 0⟩ } }
  else some { J with state := .record, cur := { cur with startins := (J.pt p).bc pc } }

/-- Start tracing. -/
def traceStart (maxtrace : BitVec 32) (J : JitState) (p pc : ℕ) : Option JitState :=
  if (J.pt p).nojit then
    if J.parent = 0 ∧ J.exitno = 0 then
      -- lazy bytecode patching to disable hotcount events
      some { setPt J p (blacklistPc (J.pt p) pc) with state := .idle }
    else some { J with state := .idle }
  else
    let r := traceFindfree maxtrace J
    if r.1 = 0 then
      match ljTraceFlushall false r.2 with
      | none => none
      | some J => some { J with state := .idle }
    else recordSetup (setSlot r.2 r.1 .cur) r.1 p pc

/-- Save the current trace. -/
def traceSave (J : JitState) : JitState :=
  { setSlot J J.cur.traceno (.saved J.cur) with cur := { J.cur with traceno := 0 } }

/-- Patch the starting instruction of a root trace, and the `FORI` of a `FORL`. -/
def patchLoop (pt : Proto) (cur : GCtrace) : Proto :=
  let op := cur.startins.op
  let pt :=
    if op = .forl then setbcOp pt (jumpTo cur.startpc (bcJ cur.startins)) .jfori else pt
  setbc pt cur.startpc
    { pt.bc cur.startpc with op := op.shift .jloop .loop, d := BitVec.ofNat 16 cur.traceno }

/-- Add the current trace to the root trace chain in its prototype, whose bytecode is patched. -/
def addRoot (J : JitState) (pt : Proto) : JitState :=
  let J := { J with cur := { J.cur with nextroot := pt.trace } }
  setPt J J.cur.startpt { pt with trace := J.cur.traceno }

/-- Stop tracing.  The recorder has left `nslots` and `link` in the current trace. -/
def traceStop (nslots : BitVec 8) (link : ℕ) (J : JitState) : Option JitState :=
  let J := { J with cur := { J.cur with nslots := nslots, link := link }, state := .idle }
  let pt := J.pt J.cur.startpt
  match J.cur.startins.op with
  | .forl | .loop | .iterl | .funcf => some (traceSave (addRoot J (patchLoop pt J.cur)))
  | .ret | .ret0 | .ret1 =>
      let ins := ⟨.jloop, J.cur.nslots, BitVec.ofNat 16 J.cur.traceno⟩
      some (traceSave (addRoot J (setbc pt J.cur.startpc ins)))
  | .jmp =>
      -- patch the exit of the parent, then add to the side trace chain in the root trace
      match traceref J J.parent, traceref J J.cur.root with
      | some _, some root =>
          let J := modifyTrace J J.cur.root fun T =>
            { T with nchild := T.nchild + 1, nextside := J.cur.traceno }
          some (traceSave { J with cur := { J.cur with nextside := root.nextside } })
      | _, _ => none
  | .callm | .call | .iterc =>
      -- trace stitching: patch link of previous trace
      match traceref J J.exitno with
      | some _ => some (traceSave (modifyTrace J J.exitno fun T => { T with link := J.cur.traceno }))
      | none => none
  | _ => some (traceSave J)

/-- The trace errors that `trace_abort` treats in their own way. -/
inductive TraceErr
  | retry
  | mcodelm
  | mcodeal
  | downrec
  | other
  deriving DecidableEq

/-- Penalize or blacklist the starting bytecode instruction. -/
def abortPenalty (e : TraceErr) (rnd : BitVec 4) (J : JitState) : Option JitState :=
  if J.parent = 0 ∧ bcIsret J.cur.startins.op = false then
    if J.exitno = 0 then
      if e = .retry then some J else some (penaltyPc rnd J J.cur.startpt J.cur.startpc)
    else
      match traceref J J.exitno with
      | none => none
      | some _ => some (modifyTrace J J.exitno fun T => { T with link := J.exitno })
  else some J

/-- Drop the aborted trace. -/
def abortDrop (J : JitState) : JitState :=
  if J.cur.traceno = 0 then J
  else
    { setSlot J J.cur.traceno .null with
      freetrace := if J.cur.traceno < J.freetrace then J.cur.traceno else J.freetrace
      cur := { J.cur with traceno := 0, link := 0 } }

/-- Start a new root trace for down-recursion at the return instruction `pc` of `p`. -/
def traceDownrec (maxtrace : BitVec 32) (J : JitState) (p pc : ℕ) : Option JitState :=
  if ((J.pt p).bc pc).op = .retm then some { J with state := .idle }
  else traceStart maxtrace { J with parent := 0, exitno := 0, state := .record } p pc

/-- Abort tracing.  The recorder is at the instruction `pc` of `p`. -/
def traceAbort (e : TraceErr) (rnd : BitVec 4) (maxtrace : BitVec 32) (J : JitState) (p pc : ℕ) :
    Option JitState :=
  if e = .mcodelm then some { J with state := .record }
  else
    match abortPenalty e rnd J with
    | none => none
    | some J =>
        let J := { abortDrop J with state := .idle }
        match e with
        | .downrec => traceDownrec maxtrace J p pc
        | .mcodeal => ljTraceFlushall false J
        | _ => some J

/-! ### The collector -/

/-- Free a trace. -/
def ljTraceFree (J : JitState) (T : GCtrace) : JitState :=
  if T.traceno = 0 then J
  else
    { setSlot J T.traceno .null with
      freetrace := if T.traceno < J.freetrace then T.traceno else J.freetrace }

/-- The traces that are marked with a trace. -/
def markedBy (T : GCtrace) : List ℕ := [T.link, T.nextroot, T.nextside].filter (· ≠ 0)

/-- The marks are complete: a marked prototype keeps its first root trace, a trace keeps its
prototype and the traces it refers to, and so does the trace under construction. -/
structure MarkClosed (J : JitState) (mp mt : ℕ → Bool) : Prop where
  proto : ∀ p, mp p → (J.pt p).trace ≠ 0 → mt (J.pt p).trace
  trace : ∀ n T, mt n → J.trace n = .saved T → mp T.startpt ∧ ∀ m ∈ markedBy T, mt m
  cur : J.cur.traceno ≠ 0 → mp J.cur.startpt ∧ ∀ m ∈ markedBy J.cur, mt m

/-- The end of the mark phase: what is not marked is dead. -/
def gcMark (mp mt : ℕ → Bool) (J : JitState) : JitState :=
  { J with
    pt := fun p => { J.pt p with dead := (J.pt p).dead || !mp p }
    trace := fun n =>
      match J.trace n with
      | .saved T => .saved { T with dead := T.dead || !mt n }
      | s => s }

end Trace
