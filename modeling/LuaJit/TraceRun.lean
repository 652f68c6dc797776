/-
**Runs of the trace compiler.**

Every way in which traces are started, finished, aborted, flushed and collected is a step of the
state, labelled with what happened.  From the labels of a run one can tell which traces are *live*:
those that were finished as root traces of a prototype and since then neither flushed nor freed.
The invariant of `TraceInv` holds in every state of every run, for exactly these live traces.

Main definitions:

* `Trace.Event`, `Trace.liveRoots` — what happens in a run, and the traces it leaves live;
* `Trace.Step`, `Trace.Run` — the steps of the compiler, its users and the collector, and runs;
* `Trace.Inv` — the invariant, with the recording in progress.

Main results:

* `Trace.traceFindfree_spec` — the scan returns an empty slot;
* `Trace.Step.inv`, `Trace.Run.inv` — **the invariant holds in every run**;
* `Trace.trace_bookkeeping` — what it says about trace numbers, chains and bytecode.
-/

import LuaJit.TraceInv

set_option relaxedAutoImplicit false
set_option autoImplicit false

namespace Trace

open Bc

/-! ### Events -/

/-- What happens to traces.  A trace that is stopped is either a root trace of a prototype, linked
into its chain, or a side trace or stitched trace. -/
inductive Event
  | start (n : ℕ)
  | stop (n p : ℕ)
  | stopOther (n : ℕ)
  | abort
  | flush (n : ℕ)
  | flushproto (p : ℕ)
  | flushall
  | free (n : ℕ)
  deriving DecidableEq

/-- The effect of an event on the live root traces, a map from trace numbers to prototypes. -/
def Event.apply (live : ℕ → Option ℕ) : Event → ℕ → Option ℕ
  | .stop n p => Function.update live n (some p)
  | .flush n => Function.update live n none
  | .flushproto p => fun n => if live n = some p then none else live n
  | .flushall => fun _ => none
  | .free n => Function.update live n none
  | _ => live

/-- The live root traces after some events. -/
def liveRoots (evs : List Event) : ℕ → Option ℕ := evs.foldl Event.apply fun _ => none

/-- The events of an attempt to start a trace. -/
def startEvents (maxtrace : BitVec 32) (J : JitState) (p : ℕ) : List Event :=
  if (J.pt p).nojit then []
  else if (traceFindfree maxtrace J).1 = 0 then [.flushall]
  else [.start (traceFindfree maxtrace J).1]

/-- The event of a finished trace. -/
def stopEvent (J : JitState) : Event :=
  if hotOp J.cur.startins.op ∨ retOp J.cur.startins.op then .stop J.cur.traceno J.cur.startpt
  else .stopOther J.cur.traceno

/-- The state in which an aborted recording leaves the compiler. -/
def aborted (e : TraceErr) (rnd : BitVec 4) (J : JitState) : Option JitState :=
  (abortPenalty e rnd J).map fun J => { abortDrop J with state := .idle }

/-- The events of an aborted recording. -/
def abortEvents (e : TraceErr) (rnd : BitVec 4) (maxtrace : BitVec 32) (J : JitState) (p pc : ℕ) :
    List Event :=
  match e, aborted e rnd J with
  | .mcodelm, _ => []
  | .mcodeal, _ => [.abort, .flushall]
  | .downrec, some J =>
      if ((J.pt p).bc pc).op = .retm then [.abort]
      else .abort :: startEvents maxtrace { J with parent := 0, exitno := 0, state := .record } p
  | _, _ => [.abort]

/-- `lj_trace_abort`: stop recording at the next opportunity. -/
def ljTraceAbort (J : JitState) : JitState :=
  { J with state := if J.state = .idle then .idle else .err }

/-! ### Steps -/

/-- The steps.  Flushes by the user abort a recording in progress, and so does the only flush that
the recorder makes itself. -/
inductive Step : JitState → List Event → JitState → Prop
  /-- A hotcount triggered. -/
  | hot {J J' : JitState} {p pc : ℕ} {maxtrace : BitVec 32} (hs : J.state = .idle)
      (hop : hotOp ((J.pt p).bc pc).op) (hpc : pc < (J.pt p).sizebc)
      (h : traceStart maxtrace { J with parent := 0, exitno := 0, state := .record } p pc =
        some J') :
      Step J (startEvents maxtrace { J with parent := 0, exitno := 0, state := .record } p) J'
  /-- A side exit got hot. -/
  | side {J J' : JitState} {p pc parent exitno : ℕ} {maxtrace : BitVec 32} (hs : J.state = .idle)
      (hp : parent ≠ 0)
      (h : traceStart maxtrace { J with parent := parent, exitno := exitno, state := .record } p
        pc = some J') :
      Step J (startEvents maxtrace
        { J with parent := parent, exitno := exitno, state := .record } p) J'
  /-- Stitch a new trace to the trace `exitno`. -/
  | stitch {J J' : JitState} {p pc exitno : ℕ} {maxtrace : BitVec 32} (hs : J.state = .idle)
      (he : exitno ≠ 0) (hop : stitchOp ((J.pt p).bc pc).op)
      (h : traceStart maxtrace { J with parent := 0, exitno := exitno, state := .record } p pc =
        some J') :
      Step J (startEvents maxtrace { J with parent := 0, exitno := exitno, state := .record } p) J'
  /-- A trace was assembled. -/
  | stop {J J' : JitState} {nslots : BitVec 8} {link : ℕ} (hs : J.state = .record)
      (h : traceStop nslots link J = some J') : Step J [stopEvent J] J'
  /-- An error was thrown, or the recording was stopped from outside. -/
  | abort {J J' : JitState} {e : TraceErr} {rnd : BitVec 4} {maxtrace : BitVec 32} {p pc : ℕ}
      (hs : J.state ≠ .idle) (he : J.state = .err → e = .other)
      (hd : e = .downrec →
        bcIsret ((J.pt p).bc pc).op ∧ (J.pt p).nojit = false ∧ (J.pt p).dead = false)
      (h : traceAbort e rnd maxtrace J p pc = some J') :
      Step J (abortEvents e rnd maxtrace J p pc) J'
  | flush {J J' : JitState} {n : ℕ} (h : ljTraceFlush (ljTraceAbort J) n = some J') :
      Step J [.flush n] J'
  | flushproto {J J' : JitState} {p : ℕ} (hp : (J.pt p).dead = false)
      (h : ljTraceFlushproto (ljTraceAbort J) p = some J') : Step J [.flushproto p] J'
  | flushall {J J' : JitState} (h : ljTraceFlushall false (ljTraceAbort J) = some J') :
      Step J [.flushall] J'
  /-- Inside a finalizer nothing is flushed. -/
  | flushallGc {J J' : JitState} (h : ljTraceFlushall true (ljTraceAbort J) = some J') :
      Step J [] J'
  /-- Turn compilation of a prototype on. -/
  | modeOn {J : JitState} {p : ℕ} :
      Step J []
        (setPt (ljTraceAbort J) p (ljTraceReenableproto { J.pt p with nojit := false }))
  /-- Turn compilation of a prototype off. -/
  | modeOff {J J' : JitState} {p : ℕ} (hp : (J.pt p).dead = false)
      (h : ljTraceFlushproto (setPt (ljTraceAbort J) p { J.pt p with nojit := true }) p = some J') :
      Step J [.flushproto p] J'
  /-- The collector has marked everything that is reachable. -/
  | mark {J : JitState} {mp mt : ℕ → Bool} (h : MarkClosed J mp mt) : Step J [] (gcMark mp mt J)
  /-- The collector frees a dead trace. -/
  | free {J : JitState} {n : ℕ} {T : GCtrace} (hT : J.trace n = .saved T) (hd : T.dead = true) :
      Step J [.free n] (ljTraceFree J T)

/-- The initial state, before any trace. -/
structure Initial (orig : ℕ → ℕ → BCIns) (J : JitState) : Prop where
  bc : ∀ p, (J.pt p).bc = orig p
  iloop : ∀ p, (J.pt p).iloop = false
  trace : ∀ p, (J.pt p).trace = 0
  slots : ∀ n, J.trace n = .null
  sizetrace : J.sizetrace = 0
  freetrace : J.freetrace = 0
  cur : J.cur = GCtrace.zero
  state : J.state = .idle

/-- The states reached from an initial one, with the events on the way. -/
inductive Run (orig : ℕ → ℕ → BCIns) : List Event → JitState → Prop
  | init {J : JitState} (h : Initial orig J) : Run orig [] J
  | step {evs es : List Event} {J J' : JitState} (h : Run orig evs J) (hs : Step J es J') :
      Run orig (evs ++ es) J'

/-! ### The invariant -/

/-- The trace under construction is a root trace or is treated like one. -/
structure RootStart (orig : ℕ → ℕ → BCIns) (J : JitState) : Prop where
  root : J.cur.root = 0
  hot : J.exitno = 0 →
    hotOp J.cur.startins.op ∧ J.cur.startpc < (J.pt J.cur.startpt).sizebc ∨
      retOp J.cur.startins.op
  stitch : J.exitno ≠ 0 → stitchOp J.cur.startins.op
  ins : (J.pt J.cur.startpt).dead = false →
    J.cur.startins = orig J.cur.startpt J.cur.startpc ∧
      (J.pt J.cur.startpt).bc J.cur.startpc = orig J.cur.startpt J.cur.startpc

/-- The bookkeeping of the trace numbers. -/
structure Numbers (J : JitState) : Prop where
  occupied : ∀ n, 0 < n → n < J.freetrace → J.trace n ≠ .null
  free : J.freetrace ≤ max 1 J.sizetrace

/-- The invariant. -/
structure Inv (orig : ℕ → ℕ → BCIns) (live : ℕ → Option ℕ) (J : JitState) : Prop where
  core : Core orig live J
  numbers : Numbers J
  fresh : J.cur.dead = false
  idle : J.state = .idle → J.cur.traceno = 0
  record : J.state = .record → J.cur.traceno ≠ 0
  side : J.state ≠ .idle → J.parent ≠ 0 → J.cur.root ≠ 0 ∧ J.cur.startins.op = .jmp
  root : J.state ≠ .idle → J.parent = 0 → RootStart orig J

section

variable {orig : ℕ → ℕ → BCIns} {live : ℕ → Option ℕ} {J J' : JitState}

theorem Initial.inv (ho : ∀ p, Original (orig p)) (h : Initial orig J) :
    Inv orig (fun _ => none) J where
  core := by
    constructor
    · refine ⟨h.slots 0, fun n _ => h.slots n, by simp [h.sizetrace], ?_, ?_⟩
      · intro n T hT
        rw [h.slots] at hT
        cases hT
      · intro n
        rw [h.slots, h.cur]
        simp [GCtrace.zero]
    · intro p _
      refine ⟨⟨[], ?_, List.nodup_nil, by simp⟩, by simp, ?_, ?_, ?_⟩
      · rw [h.trace]
        exact .nil
      · intro n T hT
        rw [h.slots] at hT
        cases hT
      · intro i
        exact .plain (by rw [h.bc])
      · intro i hi
        have := compiledOp_orig (ho p) i
        rw [h.bc] at hi
        rw [hi] at this
        cases this
  numbers := ⟨by simp [h.freetrace], by simp [h.freetrace]⟩
  fresh := by rw [h.cur]; rfl
  idle _ := by rw [h.cur]; rfl
  record hs := by
    rw [h.state] at hs
    cases hs
  side hs := absurd h.state hs
  root hs := absurd h.state hs

theorem Inv.curOk (hi : Inv orig live J) : CurOk orig J := by
  intro h0 hr hd
  have hs : J.state ≠ .idle := fun hs => h0 (hi.idle hs)
  by_cases hp : J.parent = 0
  · exact ((hi.root hs hp).ins hd).1
  · exact absurd hr (hi.side hs hp).1

/-! ### Flushes -/

theorem RootStart.frame (h : RootStart orig J) (hf : FlushFrame orig J J') : RootStart orig J' where
  root := by rw [hf.root, h.root]
  hot he := by
    obtain ⟨bc, tr, hpt, _⟩ := hf.pt J.cur.startpt
    rw [hf.startins, hf.startpc, hf.startpt, hpt]
    exact h.hot (hf.exitno ▸ he)
  stitch he := by
    rw [hf.startins]
    exact h.stitch (hf.exitno ▸ he)
  ins hd := by
    obtain ⟨bc, tr, hpt, hb⟩ := hf.pt J.cur.startpt
    rw [hf.startpt, hpt] at hd
    rw [hf.startins, hf.startpc, hf.startpt, hpt]
    obtain ⟨h₁, h₂⟩ := h.ins hd
    refine ⟨h₁, ?_⟩
    rcases hb hd J.cur.startpc with he | he
    · exact he.trans h₂
    · exact he

/-- A flush that leaves the trace array as it is. -/
theorem Inv.flushed {live' : ℕ → Option ℕ} (hi : Inv orig live J) (hc : Core orig live' J')
    (hf : Flushed orig J J') : Inv orig live' J' := by
  obtain ⟨x, hx⟩ := hf.cur
  have hff := hf.frame
  constructor
  · exact hc
  · constructor
    · intro n h0 hn
      rw [hf.freetrace] at hn
      exact fun h => hi.numbers.occupied n h0 hn ((hf.slot.null_iff n).mp h)
    · rw [hf.freetrace, hf.sizetrace]
      exact hi.numbers.free
  · rw [hx]
    exact hi.fresh
  · intro hs
    rw [hx]
    exact hi.idle (hf.state ▸ hs)
  · intro hs
    rw [hx]
    exact hi.record (hf.state ▸ hs)
  · intro hs hp
    rw [hff.root, hff.startins]
    exact hi.side (hf.state ▸ hs) (hf.parent ▸ hp)
  · intro hs hp
    exact (hi.root (hf.state ▸ hs) (hf.parent ▸ hp)).frame hff

/-- The state does not matter to the core of the invariant. -/
theorem Core.setState (hc : Core orig live J) (st : TraceState) (parent exitno : ℕ) :
    Core orig live { J with state := st, parent := parent, exitno := exitno } where
  slots := { hc.slots with }
  proto p hp :=
    (hc.proto p hp).untouched ⟨rfl, rfl, rfl, rfl, fun _ => Iff.rfl, fun _ T _ hT => ⟨T, hT, rfl⟩⟩
      (hc.proto p hp).started

theorem Inv.ljTraceAbort (hi : Inv orig live J) : Inv orig live (ljTraceAbort J) where
  core := hi.core.setState _ J.parent J.exitno
  numbers := { hi.numbers with }
  fresh := hi.fresh
  idle hs := by
    refine hi.idle ?_
    by_contra hne
    simp [Trace.ljTraceAbort, hne] at hs
  record hs := by
    simp only [Trace.ljTraceAbort] at hs
    split at hs
    · cases hs
    · cases hs
  side hs hp := by
    refine hi.side ?_ hp
    intro he
    simp [Trace.ljTraceAbort, he] at hs
  root hs hp := by
    refine { hi.root ?_ hp with }
    intro he
    simp [Trace.ljTraceAbort, he] at hs

theorem Inv.flush (ho : ∀ p, Original (orig p)) (hi : Inv orig live J) {n : ℕ}
    (h : ljTraceFlush J n = some J') : Inv orig (Function.update live n none) J' := by
  obtain ⟨hc, hf⟩ := hi.core.flush ho hi.curOk h
  exact hi.flushed hc hf

theorem Inv.flushproto (ho : ∀ p, Original (orig p)) (hi : Inv orig live J) {p : ℕ}
    (hd : (J.pt p).dead = false) (h : ljTraceFlushproto J p = some J') :
    Inv orig (fun n => if live n = some p then none else live n) J' := by
  obtain ⟨J₁, h₁, hc, hf⟩ := hi.core.flushproto ho hi.curOk hd
  obtain rfl := Option.some_injective _ (h.symm.trans h₁)
  exact hi.flushed hc hf

theorem Inv.flushall (ho : ∀ p, Original (orig p)) (hi : Inv orig live J) (hs : J.state ≠ .record)
    (h : ljTraceFlushall false J = some J') : Inv orig (fun _ => none) J' := by
  obtain ⟨hc, hf, h0, hfr⟩ := hi.core.flushall ho hi.curOk h
  constructor
  · exact hc
  · constructor
    · intro n _ hn
      rw [hfr] at hn
      exact absurd hn (Nat.not_lt_zero n)
    · rw [hfr]
      exact Nat.zero_le _
  · rw [hf.curDead]
    exact hi.fresh
  · exact fun _ => h0
  · intro hs'
    exact absurd (hf.state ▸ hs') hs
  · intro hs' hp
    rw [hf.root, hf.startins]
    exact hi.side (hf.state ▸ hs') (hf.parent ▸ hp)
  · intro hs' hp
    exact (hi.root (hf.state ▸ hs') (hf.parent ▸ hp)).frame hf

/-! ### Blacklisting -/

/-- A change to one prototype. -/
theorem Core.setPt (hc : Core orig live J) {p : ℕ} {pt : Proto} (hd : pt.dead = (J.pt p).dead)
    (hp : (J.pt p).dead = false → ProtoOk (orig p) live (setPt J p pt) p) :
    Core orig live (Trace.setPt J p pt) where
  slots := { hc.slots with }
  proto q hq := by
    by_cases hqp : q = p
    · subst hqp
      simp only [Trace.setPt, Function.update_self] at hq
      exact hp (hd ▸ hq)
    · have hpt : (Trace.setPt J p pt).pt q = J.pt q := Function.update_of_ne hqp ..
      rw [hpt] at hq
      refine (hc.proto q hq).untouched ⟨?_, ?_, ?_, ?_, fun _ => Iff.rfl, fun _ T _ hT =>
        ⟨T, hT, rfl⟩⟩ (hc.proto q hq).started
      · rw [hpt]
      · rw [hpt]
      · rw [hpt]
      · rw [hpt]

/-- Replacing an unpatched instruction that starts traces leaves the other instructions as they
were. -/
theorem ProtoOk.patch {orig : ℕ → BCIns} {p i : ℕ} (h : ProtoOk orig live J p)
    (bc : ℕ → BCIns) (hbc : bc i = (J.pt p).bc i)
    (hj : ∀ k, ((J.pt p).bc k).op = .jforl → (bc k).op = .jforl) {live' : ℕ → Option ℕ}
    (hpt : (J'.pt p).bc = bc) (hsz : (J'.pt p).sizebc = (J.pt p).sizebc)
    (hil : (J.pt p).iloop = true → (J'.pt p).iloop = true)
    (hsl : ∀ n T, live n = some p → J.trace n = .saved T →
      live' n = some p ∧ J'.trace n = .saved T) :
    Patched orig live' J' p i := by
  cases h.patched i with
  | plain h => exact .plain (by rw [hpt, hbc, h])
  | blacklisted ho hi hf h =>
      exact .blacklisted ho (by rw [hsz]; exact hi) (hil hf) (by rw [hpt, hbc, h])
  | loop n T ho hl hT hs h =>
      obtain ⟨hl', hT'⟩ := hsl n T hl hT
      exact .loop n T ho hl' hT' hs (by rw [hpt, hbc, h])
  | ret n T ho hl hT hs h =>
      obtain ⟨hl', hT'⟩ := hsl n T hl hT
      exact .ret n T ho hl' hT' hs (by rw [hpt, hbc, h])
  | fori k hk hi hjk h => exact .fori k hk hi (by rw [hpt]; exact hj k hjk) (by rw [hpt, hbc, h])

theorem ProtoOk.blacklist {orig : ℕ → BCIns} {p pc : ℕ} (h : ProtoOk orig live J p)
    (hop : hotOp ((J.pt p).bc pc).op) (hpc : pc < (J.pt p).sizebc) :
    ProtoOk orig live (Trace.setPt J p (blacklistPc (J.pt p) pc)) p := by
  have he : (J.pt p).bc pc = orig pc := (h.patched pc).eq_orig (patchedOp_of_start (.inl hop))
  have hpt : (Trace.setPt J p (blacklistPc (J.pt p) pc)).pt p = blacklistPc (J.pt p) pc :=
    Function.update_self ..
  have hbc : (blacklistPc (J.pt p) pc).bc =
      Function.update (J.pt p).bc pc (iForm (orig pc)) := by
    simp only [blacklistPc, setbcOp, setbc, he]
    rfl
  have hjforl : ∀ k, ((J.pt p).bc k).op = .jforl → k ≠ pc := by
    rintro k hk rfl
    rw [hk] at hop
    cases hop
  have hjfori : ∀ k, ((J.pt p).bc k).op = .jfori → k ≠ pc := by
    rintro k hk rfl
    rw [hk] at hop
    cases hop
  constructor
  · rw [hpt]
    exact h.chain
  · exact h.member
  · exact h.started
  · intro i
    by_cases hi : i = pc
    · subst hi
      refine .blacklisted (he ▸ hop) ?_ ?_ ?_
      · rw [hpt]
        exact hpc
      · rw [hpt]
        rfl
      · rw [hpt, hbc, Function.update_self]
    · refine h.patch _ (Function.update_of_ne hi ..) ?_ (by rw [hpt, hbc]) (by rw [hpt]; rfl) ?_
        fun n T hl hT => ⟨hl, hT⟩
      · intro k hk
        rw [Function.update_of_ne (hjforl k hk)]
        exact hk
      · intro _
        rw [hpt]
        rfl
  · intro i hi
    rw [hpt, hbc] at hi ⊢
    have hne : i ≠ pc := by
      rintro rfl
      rw [Function.update_self] at hi
      rcases hotOp_cases (he ▸ hop) with h | h | h | h <;> rw [iForm, h] at hi <;> cases hi
    rw [Function.update_of_ne hne] at hi
    have hf := h.pair i hi
    rw [Function.update_of_ne (hjfori _ hf)]
    exact hf

theorem Core.blacklist (hc : Core orig live J) {p pc : ℕ}
    (h : (J.pt p).dead = false → hotOp ((J.pt p).bc pc).op ∧ pc < (J.pt p).sizebc) :
    Core orig live (Trace.setPt J p (blacklistPc (J.pt p) pc)) :=
  hc.setPt rfl fun hd => (hc.proto p hd).blacklist (h hd).1 (h hd).2

/-- The interpreted forms. -/
def interpOp (op : BCOp) : Bool := op matches .iforl | .iiterl | .iloop | .ifuncf

/-- Other instructions are left alone. -/
theorem reenableproto_of_not_interp {pt : Proto} {i : ℕ} (h : interpOp (pt.bc i).op = false) :
    (ljTraceReenableproto pt).bc i = pt.bc i := by
  unfold ljTraceReenableproto
  split
  · dsimp only
    split
    · next hi =>
        subst hi
        split
        · next hop =>
            rw [hop] at h
            cases h
        · rfl
    · split
      · unfold reenableIns
        split
        · next hop =>
            rw [hop] at h
            cases h
        · next hop =>
            rw [hop] at h
            cases h
        · next hop =>
            rw [hop] at h
            cases h
        · rfl
      · rfl
  · rfl

theorem reenableIns_iForm {ins : BCIns} (hop : hotOp ins.op) (hf : ins.op ≠ .funcf) :
    reenableIns (iForm ins) = ins := by
  obtain ⟨op, a, d⟩ := ins
  rcases hotOp_cases hop with h | h | h | h
  · cases h
    rw [iForm_forl]
    rfl
  · cases h
    rw [iForm_iterl]
    rfl
  · cases h
    rw [iForm_loop]
    rfl
  · exact absurd h hf

/-- The interpreted forms are turned back. -/
theorem reenableproto_iForm {pt : Proto} {orig : ℕ → BCIns} {i : ℕ} (ho : Original orig)
    (hf : pt.iloop = true) (hi : i < pt.sizebc) (hop : hotOp (orig i).op)
    (h : pt.bc i = iForm (orig i)) : (ljTraceReenableproto pt).bc i = orig i := by
  unfold ljTraceReenableproto
  rw [if_pos hf]
  dsimp only
  split
  · next h0 =>
      -- the function header
      subst h0
      have hfun : (orig 0).op = .funcf := by
        rcases ho.header with h | h
        · exact h
        · rw [h] at hop
          cases hop
      rw [h, if_pos (by simp only [iForm, hfun]; rfl)]
      simp only [iForm, ← hfun]
  · next h0 =>
      rw [h]
      have hfun := ho.body i (Nat.pos_of_ne_zero h0)
      exact reenableIns_iForm hop hfun

theorem interpOp_orig {orig : ℕ → BCIns} (ho : Original orig) (i : ℕ) :
    interpOp (orig i).op = false := by
  have h := ho.plain i
  revert h
  cases (orig i).op <;> simp [patchedOp, interpOp]

theorem reenableproto_jforl {pt : Proto} {i : ℕ} (h : (pt.bc i).op = .jforl) :
    (ljTraceReenableproto pt).bc i = pt.bc i :=
  reenableproto_of_not_interp (by rw [h]; rfl)

theorem reenableproto_fields (pt : Proto) :
    (ljTraceReenableproto pt).sizebc = pt.sizebc ∧ (ljTraceReenableproto pt).trace = pt.trace ∧
      (ljTraceReenableproto pt).dead = pt.dead := by
  unfold ljTraceReenableproto
  split <;> exact ⟨rfl, rfl, rfl⟩

/-- Re-enabling keeps the invariant: no interpreted form is left. -/
theorem ProtoOk.reenable {orig : ℕ → BCIns} {p : ℕ} {pt : Proto} (ho : Original orig)
    (h : ProtoOk orig live J p) (hbc : pt.bc = (J.pt p).bc) (hsz : pt.sizebc = (J.pt p).sizebc)
    (hil : pt.iloop = (J.pt p).iloop) (htr : pt.trace = (J.pt p).trace)
    (hpt : J'.pt p = ljTraceReenableproto pt) (htrace : J'.trace = J.trace) :
    ProtoOk orig live J' p := by
  obtain ⟨_, htr', _⟩ := reenableproto_fields pt
  constructor
  · rw [hpt, htr', htr, htrace]
    exact h.chain
  · rw [htrace]
    exact h.member
  · rw [htrace]
    exact h.started
  · intro i
    cases h.patched i with
    | plain h =>
        refine .plain ?_
        rw [hpt, reenableproto_of_not_interp, hbc, h]
        rw [hbc, h]
        exact interpOp_orig ho i
    | blacklisted hop hi hf h =>
        refine .plain ?_
        rw [hpt]
        exact reenableproto_iForm ho (hil.trans hf) (hsz ▸ hi) hop (by rw [hbc, h])
    | loop n T hop hl hT hs h =>
        refine .loop n T hop hl (by rw [htrace]; exact hT) hs ?_
        rw [hpt, reenableproto_of_not_interp, hbc, h]
        rw [hbc, h]
        rcases hotOp_cases hop with h | h | h | h <;> rw [jForm, h] <;> rfl
    | ret n T hop hl hT hs h =>
        refine .ret n T hop hl (by rw [htrace]; exact hT) hs ?_
        rw [hpt, reenableproto_of_not_interp, hbc, h]
        rw [hbc, h]
        rfl
    | fori k hk hi hj h =>
        refine .fori k hk hi ?_ ?_
        · rw [hpt, reenableproto_jforl, hbc, hj]
          rw [hbc, hj]
        · rw [hpt, reenableproto_of_not_interp, hbc, h]
          rw [hbc, h]
          rfl
  · intro i hi
    have hi' : ((J.pt p).bc i).op = .jforl := by
      by_cases hb : interpOp (pt.bc i).op
      · -- an interpreted form is turned back and is no compiled loop
        exfalso
        rw [hpt] at hi
        cases h.patched i with
        | plain h =>
            rw [hbc, h, interpOp_orig ho] at hb
            cases hb
        | blacklisted hop hlt hf h =>
            rw [reenableproto_iForm ho (hil.trans hf) (hsz ▸ hlt) hop (by rw [hbc, h])] at hi
            have := compiledOp_orig ho i
            rw [hi] at this
            cases this
        | loop n T hop _ _ _ h =>
            rw [hbc, h] at hb
            rcases hotOp_cases hop with h | h | h | h <;> rw [jForm, h] at hb <;> cases hb
        | ret n T _ _ _ _ h =>
            rw [hbc, h] at hb
            cases hb
        | fori k _ _ _ h =>
            rw [hbc, h] at hb
            cases hb
      · rw [hpt, reenableproto_of_not_interp (by simpa using hb), hbc] at hi
        exact hi
    have hf := h.pair i hi'
    rw [hpt, reenableproto_of_not_interp, hbc, hf]
    rw [hbc, hf]
    rfl

/-! ### Starting a trace -/

theorem scanFree_spec (trace : ℕ → Slot) {size fuel i : ℕ} (hf : size ≤ fuel + i) :
    i ≤ scanFree trace size fuel i ∧ scanFree trace size fuel i ≤ max i size ∧
      (∀ m, i ≤ m → m < scanFree trace size fuel i → trace m ≠ .null) ∧
      (scanFree trace size fuel i < size → trace (scanFree trace size fuel i) = .null) := by
  induction fuel generalizing i with
  | zero =>
      simp only [scanFree]
      refine ⟨le_rfl, le_max_left .., fun m h₁ h₂ => absurd h₁ (by omega), fun h => ?_⟩
      omega
  | succ fuel ih =>
      unfold scanFree
      split
      · next hlt =>
          split
          · next hn => exact ⟨le_rfl, le_max_left .., fun m h₁ h₂ => absurd h₁ (by omega), fun _ => hn⟩
          · next hn =>
              obtain ⟨h₁, h₂, h₃, h₄⟩ := @ih (i + 1) (by omega)
              refine ⟨by omega, by lia, ?_, h₄⟩
              intro m hm hlt'
              rcases Nat.eq_or_lt_of_le hm with rfl | hm
              · exact hn
              · exact h₃ m hm hlt'
      · next hge =>
          refine ⟨le_rfl, le_max_left .., fun m h₁ h₂ => absurd h₁ (by omega), fun h => ?_⟩
          exact absurd h hge

theorem traceLimit_le (maxtrace : BitVec 32) :
    2 ≤ traceLimit maxtrace ∧ traceLimit maxtrace ≤ 65535 := by
  unfold traceLimit
  dsimp only
  split
  · omega
  · split <;> lia

theorem memGrow_spec {sz lim : ℕ} (h : sz < lim) (h2 : 2 ≤ lim) :
    sz < memGrow sz lim ∧ 2 ≤ memGrow sz lim ∧ memGrow sz lim ≤ lim := by
  unfold memGrow
  dsimp only
  split <;> split <;> lia

/-- The scan returns the number of an empty slot, or finds that there are too many traces. -/
theorem traceFindfree_spec (maxtrace : BitVec 32) (hs : Slots J) (hn : Numbers J) :
    ∃ n f s, traceFindfree maxtrace J = (n, { J with freetrace := f, sizetrace := s }) ∧
      J.sizetrace ≤ s ∧ s ≤ 65535 ∧
      (n ≠ 0 → n < s ∧ J.trace n = .null ∧ f ≤ max 1 s ∧
        ∀ m, 0 < m → m < f → m ≠ n → J.trace m ≠ .null) := by
  obtain ⟨_, hlim⟩ := traceLimit_le maxtrace
  have hsize := hs.size
  have hfree := hn.free
  simp only [traceFindfree]
  set i := if J.freetrace = 0 then 1 else J.freetrace with hi
  have hi1 : 0 < i := by
    rw [hi]
    split <;> lia
  have himax : i ≤ max 1 J.sizetrace := by
    rw [hi]
    split <;> lia
  have hbelow : ∀ m, 0 < m → m < i → J.trace m ≠ .null := by
    intro m h0 hm
    refine hn.occupied m h0 ?_
    rw [hi] at hm
    split at hm <;> omega
  obtain ⟨h₁, h₂, h₃, h₄⟩ :=
    scanFree_spec J.trace (show J.sizetrace ≤ J.sizetrace + i by omega)
  set r := scanFree J.trace J.sizetrace J.sizetrace i
  have hocc : ∀ m, 0 < m → m < r → J.trace m ≠ .null := by
    intro m h0 hm
    rcases Nat.lt_or_ge m i with hlt | hge
    · exact hbelow m h0 hlt
    · exact h₃ m hge hm
  split
  · next hlt =>
      refine ⟨r, r + 1, J.sizetrace, rfl, le_rfl, hsize, fun _ => ⟨hlt, h₄ hlt, by lia, ?_⟩⟩
      intro m h0 hm hne
      exact hocc m h0 (by lia)
  · next hge =>
      split
      · exact ⟨0, r, J.sizetrace, rfl, le_rfl, hsize, fun h => absurd rfl h⟩
      · next hl =>
          obtain ⟨hg₁, hg₂, hg₃⟩ := memGrow_spec (Nat.lt_of_not_le hl) (by omega)
          refine ⟨r, r, _, rfl, by omega, by lia, fun _ => ⟨by lia, ?_, by lia, ?_⟩⟩
          · exact hs.range r (by omega)
          · intro m h0 hm _
            exact hocc m h0 hm

/-- The instruction a trace is started at fits the way it is started. -/
def StartOk (J : JitState) (p pc : ℕ) : Prop :=
  J.parent = 0 →
    (J.exitno = 0 → hotOp ((J.pt p).bc pc).op ∧ pc < (J.pt p).sizebc ∨
      retOp ((J.pt p).bc pc).op ∧ (J.pt p).nojit = false) ∧
    (J.exitno ≠ 0 → stitchOp ((J.pt p).bc pc).op)

/-- Putting the trace under construction into an empty slot. -/
theorem Core.setCur (hc : Core orig live J) {n f s : ℕ} {cur : GCtrace} (hn : J.trace n = .null)
    (h0 : n ≠ 0) (hcur : J.cur.traceno = 0) (hno : cur.traceno = n) (hns : n < s)
    (hs : J.sizetrace ≤ s) (hmax : s ≤ 65535) {st : TraceState} :
    Core orig live { J with
      freetrace := f, sizetrace := s, trace := Function.update J.trace n .cur, cur := cur,
      state := st } where
  slots := by
    have hsl := hc.slots
    constructor
    · dsimp only
      rw [Function.update_of_ne h0.symm]
      exact hsl.zero
    · intro m hm
      dsimp only at hm ⊢
      rw [Function.update_of_ne (by omega)]
      exact hsl.range m (by omega)
    · exact hmax
    · intro m T hT
      dsimp only at hT
      by_cases hmn : m = n
      · rw [hmn, Function.update_self] at hT
        cases hT
      · rw [Function.update_of_ne hmn] at hT
        exact hsl.no m T hT
    · intro m
      dsimp only
      rw [hno]
      by_cases hmn : m = n
      · subst hmn
        simp [h0]
      · rw [Function.update_of_ne hmn, hsl.cur m, hcur]
        constructor
        · rintro ⟨rfl, h⟩
          exact absurd rfl h
        · rintro ⟨h, _⟩
          exact absurd h hmn
  proto q hq := by
    refine (hc.proto q hq).untouched ⟨rfl, rfl, rfl, rfl, fun _ => Iff.rfl, ?_⟩ ?_
    · intro m T _ hT
      refine ⟨T, ?_, rfl⟩
      rw [← hT]
      refine Function.update_of_ne ?_ ..
      rintro rfl
      rw [hn] at hT
      cases hT
    · intro m T hT
      by_cases hmn : m = n
      · rw [hmn] at hT
        simp only [Function.update_self] at hT
        cases hT
      · simp only [Function.update_of_ne hmn] at hT
        exact (hc.proto q hq).started m T hT

theorem numbers_setCur {n f s : ℕ} {cur : GCtrace} (hf : f ≤ max 1 s)
    (hocc : ∀ m, 0 < m → m < f → m ≠ n → J.trace m ≠ .null) {st : TraceState} :
    Numbers { J with
      freetrace := f, sizetrace := s, trace := Function.update J.trace n .cur, cur := cur,
      state := st } where
  occupied m h0 hm := by
    dsimp only
    by_cases hmn : m = n
    · rw [hmn, Function.update_self]
      simp
    · rw [Function.update_of_ne hmn]
      exact hocc m h0 hm hmn
  free := hf

/-- An idle compiler. -/
theorem Inv.ofIdle (hc : Core orig live J) (hn : Numbers J) (hf : J.cur.dead = false)
    (h0 : J.cur.traceno = 0) (hs : J.state = .idle) : Inv orig live J where
  core := hc
  numbers := hn
  fresh := hf
  idle _ := h0
  record h := by
    rw [hs] at h
    cases h
  side h := absurd hs h
  root h := absurd hs h

theorem Core.setSize (hc : Core orig live J) (f : ℕ) {s : ℕ} (hs : J.sizetrace ≤ s)
    (hmax : s ≤ 65535) : Core orig live { J with freetrace := f, sizetrace := s } where
  slots := { hc.slots with range := fun n hn => hc.slots.range n (hs.trans hn), size := hmax }
  proto q hq :=
    (hc.proto q hq).untouched ⟨rfl, rfl, rfl, rfl, fun _ => Iff.rfl, fun _ T _ hT => ⟨T, hT, rfl⟩⟩
      (hc.proto q hq).started

/-- What the setup fills in, for a side trace and for one that is treated as a root trace. -/
theorem recordSetup_cases {n p pc : ℕ} (h : recordSetup J n p pc = some J') :
    ∃ cur, J' = { J with state := .record, cur := cur } ∧ cur.traceno = n ∧ cur.startpt = p ∧
      cur.startpc = pc ∧ cur.dead = false ∧
      (J.parent ≠ 0 → cur.root ≠ 0 ∧ cur.startins.op = .jmp) ∧
      (J.parent = 0 → cur.root = 0 ∧ cur.startins = (J.pt p).bc pc) := by
  simp only [recordSetup] at h
  by_cases hp : J.parent = 0
  · rw [if_neg (not_not.mpr hp)] at h
    refine ⟨{ GCtrace.zero with
      traceno := n, startpt := p, startpc := pc, startins := (J.pt p).bc pc },
      (Option.some_injective _ h).symm, rfl, rfl, rfl, rfl, fun h => absurd hp h,
      fun _ => ⟨rfl, rfl⟩⟩
  · rw [if_pos hp] at h
    split at h
    · cases h
    · next T _ =>
        obtain rfl := Option.some_injective _ h
        refine ⟨_, rfl, rfl, rfl, rfl, rfl, fun _ => ⟨?_, rfl⟩, fun h => absurd h hp⟩
        dsimp only
        split
        · assumption
        · exact hp

/-- Setting up the recording keeps the invariant. -/
theorem Inv.recordSetup {n f s p pc : ℕ} (hc : Core orig live J) (h0 : J.cur.traceno = 0)
    (hs : StartOk J p pc) (hn : n ≠ 0) (hns : n < s)
    (hnull : J.trace n = .null) (hsz : J.sizetrace ≤ s) (hmax : s ≤ 65535) (hf : f ≤ max 1 s)
    (hocc : ∀ m, 0 < m → m < f → m ≠ n → J.trace m ≠ .null)
    (h : Trace.recordSetup (setSlot { J with freetrace := f, sizetrace := s } n .cur) n p pc =
      some J') :
    Inv orig live J' := by
  obtain ⟨cur, rfl, hno, hpt, hpc, hd, hside, hroot⟩ := recordSetup_cases h
  constructor
  · exact hc.setCur hnull hn h0 hno hns hsz hmax
  · exact numbers_setCur hf hocc
  · exact hd
  · intro hst
    cases hst
  · intro _
    dsimp only
    rw [hno]
    exact hn
  · exact fun _ hp => hside hp
  · intro _ hp
    obtain ⟨hr, hins⟩ := hroot hp
    replace hins : cur.startins = (J.pt p).bc pc := hins
    constructor
    · exact hr
    · intro he
      dsimp only [setSlot]
      rw [hins, hpt, hpc]
      rcases (hs hp).1 he with h | h
      · exact .inl h
      · exact .inr h.1
    · intro he
      dsimp only
      rw [hins]
      exact (hs hp).2 he
    · intro hdead
      dsimp only [setSlot] at hdead ⊢
      rw [hpt] at hdead
      rw [hins, hpt, hpc]
      have hop : hotOp ((J.pt p).bc pc).op ∨ retOp ((J.pt p).bc pc).op ∨
          stitchOp ((J.pt p).bc pc).op := by
        by_cases he : J.exitno = 0
        · rcases (hs hp).1 he with h | h
          · exact .inl h.1
          · exact .inr (.inl h.1)
        · exact .inr (.inr ((hs hp).2 he))
      have he := ((hc.proto p hdead).patched pc).eq_orig (patchedOp_of_start hop)
      exact ⟨he, he⟩

/-- Starting a trace keeps the invariant. -/
theorem Inv.traceStart (ho : ∀ p, Original (orig p)) {maxtrace : BitVec 32} {p pc : ℕ}
    (hc : Core orig live J) (hn : Numbers J) (hf : J.cur.dead = false) (h0 : J.cur.traceno = 0)
    (hs : StartOk J p pc) (h : Trace.traceStart maxtrace J p pc = some J') :
    Inv orig ((startEvents maxtrace J p).foldl Event.apply live) J' ∧
      ∀ n, .start n ∈ startEvents maxtrace J p → J.trace n = .null ∧ J'.trace n = .cur := by
  unfold Trace.traceStart at h
  unfold startEvents
  split at h
  · next hj =>
      -- compilation is turned off: blacklist the instruction or do nothing
      rw [if_pos hj]
      refine ⟨?_, by simp⟩
      split at h
      · next hpe =>
          obtain rfl := Option.some_injective _ h
          have hcore : Core orig live (Trace.setPt J p (blacklistPc (J.pt p) pc)) := by
            refine hc.blacklist fun _ => ?_
            rcases (hs hpe.1).1 hpe.2 with h | h
            · exact h
            · rw [hj] at h
              cases h.2
          exact Inv.ofIdle (hcore.setState .idle J.parent J.exitno) { hn with } hf h0 rfl
      · obtain rfl := Option.some_injective _ h
        exact Inv.ofIdle (hc.setState .idle J.parent J.exitno) { hn with } hf h0 rfl
  · next hj =>
      rw [if_neg hj]
      obtain ⟨n, f, s, hr, hsz, hmax, hspec⟩ := traceFindfree_spec maxtrace hc.slots hn
      simp only [hr] at h ⊢
      split at h
      · next hz =>
          -- too many traces: flush them all
          rw [if_pos hz]
          refine ⟨?_, by simp⟩
          split at h
          · cases h
          · next J₁ h₁ =>
              obtain rfl := Option.some_injective _ h
              have hcur : CurOk orig { J with freetrace := f, sizetrace := s } :=
                fun hne => absurd h0 hne
              obtain ⟨hc₁, hf₁, h0₁, hfr⟩ := (hc.setSize f hsz hmax).flushall ho hcur h₁
              refine Inv.ofIdle (hc₁.setState .idle J₁.parent J₁.exitno) ⟨?_, ?_⟩ ?_ h0₁ rfl
              · intro m _ hm
                simp [hfr] at hm
              · simp [hfr]
              · exact hf₁.curDead.trans hf
      · next hz =>
          rw [if_neg hz]
          obtain ⟨hns, hnull, hfm, hocc⟩ := hspec hz
          refine ⟨?_, ?_⟩
          · exact Inv.recordSetup hc h0 hs hz hns hnull hsz hmax hfm hocc h
          · intro m hm
            obtain rfl : m = n := by simpa using hm
            refine ⟨hnull, ?_⟩
            obtain ⟨cur, rfl, _⟩ := recordSetup_cases h
            exact Function.update_self ..

/-! ### Finishing a trace -/

theorem modifyTrace_pt (J : JitState) (m : ℕ) (f : GCtrace → GCtrace) :
    (modifyTrace J m f).pt = J.pt ∧ (modifyTrace J m f).sizetrace = J.sizetrace ∧
      (modifyTrace J m f).freetrace = J.freetrace ∧ (modifyTrace J m f).state = J.state ∧
      (modifyTrace J m f).parent = J.parent ∧ (modifyTrace J m f).exitno = J.exitno := by
  unfold modifyTrace
  split <;> exact ⟨rfl, rfl, rfl, rfl, rfl, rfl⟩

theorem modifyTrace_cur (J : JitState) (m : ℕ) {f : GCtrace → GCtrace}
    (hf : ∀ T, SameTrace T (f T)) : SameTrace J.cur (modifyTrace J m f).cur := by
  unfold modifyTrace
  split
  · exact .refl _
  · exact hf _
  · exact .refl _

theorem modifyTrace_slot (J : JitState) (m : ℕ) (f : GCtrace → GCtrace) (n : ℕ) :
    (modifyTrace J m f).trace n = J.trace n ∨
      ∃ T, J.trace n = .saved T ∧ (modifyTrace J m f).trace n = .saved (f T) := by
  unfold modifyTrace
  split
  · exact .inl rfl
  · exact .inl rfl
  · next T hT =>
      by_cases hn : n = m
      · subst hn
        exact .inr ⟨T, hT, Function.update_self ..⟩
      · exact .inl (Function.update_of_ne hn ..)

/-- Changing the links of a trace to other traces, its root chain excepted. -/
theorem Core.modifyTrace (hc : Core orig live J) (m : ℕ) {f : GCtrace → GCtrace}
    (hf : ∀ T, SameTrace T (f T)) : Core orig live (modifyTrace J m f) := by
  obtain ⟨hpt, hsz, _⟩ := modifyTrace_pt J m f
  have hslot := modifyTrace_slot J m f
  have hcur := modifyTrace_cur J m hf
  constructor
  · constructor
    · rcases hslot 0 with h | ⟨T, hT, _⟩
      · rw [h]
        exact hc.slots.zero
      · rw [hc.slots.zero] at hT
        cases hT
    · intro n hn
      rw [hsz] at hn
      rcases hslot n with h | ⟨T, hT, _⟩
      · rw [h]
        exact hc.slots.range n hn
      · rw [hc.slots.range n hn] at hT
        cases hT
    · rw [hsz]
      exact hc.slots.size
    · intro n T hT
      rcases hslot n with h | ⟨T', hT', h⟩
      · exact hc.slots.no n T (h ▸ hT)
      · obtain rfl : f T' = T := by simpa using h.symm.trans hT
        rw [hf T']
        exact hc.slots.no n T' hT'
    · intro n
      rw [hcur]
      have hn := hc.slots.cur n
      rcases hslot n with h | ⟨T', hT', h⟩
      · rw [h]
        exact hn
      · rw [h]
        rw [hT'] at hn
        simpa using hn
  · intro q hq
    rw [hpt] at hq
    refine (hc.proto q hq).untouched ⟨by rw [hpt], by rw [hpt], by rw [hpt], by rw [hpt],
      fun _ => Iff.rfl, ?_⟩ ?_
    · intro n T _ hT
      rcases hslot n with h | ⟨T', hT', h⟩
      · exact ⟨T, h.trans hT, .refl T⟩
      · obtain rfl : T' = T := by simpa using hT'.symm.trans hT
        exact ⟨f T', h, hf T'⟩
    · intro n T hT hr hp
      rcases hslot n with h | ⟨T', hT', h⟩
      · exact (hc.proto q hq).started n T (h ▸ hT) hr hp
      · obtain rfl : f T' = T := by simpa using h.symm.trans hT
        rw [hf T'] at hr hp ⊢
        exact (hc.proto q hq).started n T' hT' hr hp

/-- Saving the current trace, without linking it into a chain. -/
theorem Core.traceSave (hc : Core orig live J) (h0 : J.cur.traceno ≠ 0) (hcur : CurOk orig J) :
    Core orig live (traceSave J) := by
  have hslot : J.trace J.cur.traceno = .cur := (hc.slots.cur _).mpr ⟨rfl, h0⟩
  have hlt : J.cur.traceno < J.sizetrace := by
    by_contra hge
    rw [hc.slots.range _ (by omega)] at hslot
    cases hslot
  constructor
  · constructor
    · simp only [Trace.traceSave, setSlot]
      rw [Function.update_of_ne h0.symm]
      exact hc.slots.zero
    · intro n hn
      simp only [Trace.traceSave, setSlot] at hn ⊢
      rw [Function.update_of_ne (by omega)]
      exact hc.slots.range n hn
    · exact hc.slots.size
    · intro n T hT
      simp only [Trace.traceSave, setSlot] at hT
      by_cases hn : n = J.cur.traceno
      · subst hn
        rw [Function.update_self] at hT
        cases hT
        rfl
      · rw [Function.update_of_ne hn] at hT
        exact hc.slots.no n T hT
    · intro n
      simp only [Trace.traceSave, setSlot]
      by_cases hn : n = J.cur.traceno
      · subst hn
        rw [Function.update_self]
        simp
      · rw [Function.update_of_ne hn, hc.slots.cur n]
        constructor
        · rintro ⟨h, _⟩
          exact absurd h hn
        · rintro ⟨h, h'⟩
          exact absurd h h'
  · intro q hq
    have hq' : (J.pt q).dead = false := hq
    refine (hc.proto q hq').untouched ⟨rfl, rfl, rfl, rfl, fun _ => Iff.rfl, ?_⟩ ?_
    · intro n T _ hT
      refine ⟨T, ?_, rfl⟩
      simp only [Trace.traceSave, setSlot]
      rw [← hT]
      refine Function.update_of_ne ?_ ..
      rintro rfl
      rw [hslot] at hT
      cases hT
    · intro n T hT hr hp
      simp only [Trace.traceSave, setSlot] at hT
      by_cases hn : n = J.cur.traceno
      · subst hn
        rw [Function.update_self] at hT
        cases hT
        subst hp
        exact hcur h0 hr hq'
      · rw [Function.update_of_ne hn] at hT
        exact (hc.proto q hq').started n T hT hr hp

theorem update_some_iff {n m p q : ℕ} :
    Function.update live n (some p) m = some q ↔ m = n ∧ p = q ∨ m ≠ n ∧ live m = some q := by
  by_cases h : m = n
  · subst h
    simp
  · simp [Function.update_of_ne h, h]

/-- A saved trace of `p` that can be put in front of the chain of root traces of `p`. -/
structure NewRoot (live : ℕ → Option ℕ) (J : JitState) (p n : ℕ) (T : GCtrace) : Prop where
  slot : J.trace n = .saved T
  ne_zero : n ≠ 0
  not_live : live n ≠ some p
  root : T.root = 0
  startpt : T.startpt = p
  dead : T.dead = false
  op : hotOp T.startins.op ∨ retOp T.startins.op
  nextroot : T.nextroot = (J.pt p).trace

/-- The chain of `p` with a new first trace, for bytecode that was patched accordingly. -/
theorem ProtoOk.addRoot {orig : ℕ → BCIns} {p n : ℕ} {T : GCtrace} (h : ProtoOk orig live J p)
    (hT : NewRoot live J p n T) (htr : J'.trace = J.trace) (hpt : (J'.pt p).trace = n)
    (hpatched : ∀ i, Patched orig (Function.update live n (some p)) J' p i)
    (hpair : ∀ i, ((J'.pt p).bc i).op = .jforl → ((J'.pt p).bc (foriOf orig i)).op = .jfori) :
    ProtoOk orig (Function.update live n (some p)) J' p where
  chain := by
    obtain ⟨l, hl, hd, hm⟩ := h.chain
    refine ⟨n :: l, ?_, ?_, ?_⟩
    · rw [hpt, htr]
      refine .cons hT.ne_zero hT.slot ?_
      rw [hT.nextroot]
      exact hl
    · refine List.nodup_cons.mpr ⟨?_, hd⟩
      intro hn
      exact hT.not_live ((hm n).mp hn)
    · intro m
      rw [update_some_iff, List.mem_cons, hm]
      by_cases hmn : m = n
      · simp [hmn]
      · simp [hmn]
  member m hm := by
    rw [htr]
    rcases update_some_iff.mp hm with ⟨rfl, _⟩ | ⟨_, hm⟩
    · exact ⟨T, hT.slot, hT.root, hT.startpt, hT.dead, hT.op⟩
    · exact h.member m hm
  started := by
    rw [htr]
    exact h.started
  patched := hpatched
  pair := hpair

section Patch

variable {p n : ℕ} {T : GCtrace} {orig : ℕ → BCIns}

/-- Replacing the starting instruction of a new root trace. -/
theorem ProtoOk.patchIns {ins : BCIns} (h : ProtoOk orig live J p) (hT : NewRoot live J p n T)
    (hbc : (J.pt p).bc T.startpc = orig T.startpc) (hj : ins.op ≠ .jforl)
    (hop : hotOp (orig T.startpc).op ∨ retOp (orig T.startpc).op)
    (hins : hotOp (orig T.startpc).op ∧ ins = jForm (orig T.startpc) n ∨
      retOp (orig T.startpc).op ∧ ins = ⟨.jloop, T.nslots, BitVec.ofNat 16 n⟩) :
    ProtoOk orig (Function.update live n (some p))
      (Trace.setPt J p { setbc (J.pt p) T.startpc ins with trace := n }) p := by
  have hpt : (Trace.setPt J p { setbc (J.pt p) T.startpc ins with trace := n }).pt p =
      { setbc (J.pt p) T.startpc ins with trace := n } := Function.update_self ..
  have hne : ∀ k, ((J.pt p).bc k).op = .jforl ∨ ((J.pt p).bc k).op = .jfori → k ≠ T.startpc := by
    rintro k hk rfl
    rw [hbc] at hk
    rcases hk with hk | hk
    all_goals
      rw [hk] at hop
      rcases hop with hop | hop <;> cases hop
  refine h.addRoot hT rfl (by rw [hpt]) ?_ ?_
  · intro i
    by_cases hi : i = T.startpc
    · subst hi
      have hnew : ((Trace.setPt J p { setbc (J.pt p) T.startpc ins with trace := n }).pt p).bc
          T.startpc = ins := by
        rw [hpt]
        exact Function.update_self ..
      rcases hins with ⟨ho, he⟩ | ⟨ho, he⟩
      · exact .loop n T ho (by simp) hT.slot rfl (hnew.trans he)
      · exact .ret n T ho (by simp) hT.slot rfl (hnew.trans he)
    · refine h.patch (Function.update (J.pt p).bc T.startpc ins)
        (Function.update_of_ne hi ..) ?_ (by rw [hpt]; rfl) (by rw [hpt]; rfl) (by rw [hpt]; exact id)
        ?_
      · intro k hk
        rw [Function.update_of_ne (hne k (.inl hk))]
        exact hk
      · intro m T' hm hT'
        refine ⟨?_, hT'⟩
        rw [update_some_iff]
        by_cases hmn : m = n
        · exact .inl ⟨hmn, rfl⟩
        · exact .inr ⟨hmn, hm⟩
  · intro i hi
    rw [hpt] at hi ⊢
    simp only [setbc] at hi ⊢
    have hi' : i ≠ T.startpc := by
      rintro rfl
      rw [Function.update_self] at hi
      exact hj hi
    rw [Function.update_of_ne hi'] at hi
    have hf := h.pair i hi
    rw [Function.update_of_ne (hne _ (.inr hf))]
    exact hf

/-- Replacing a `FORL` and its `FORI`. -/
theorem ProtoOk.patchForl (ho : Original orig) (h : ProtoOk orig live J p)
    (hT : NewRoot live J p n T) (hbc : (J.pt p).bc T.startpc = orig T.startpc)
    (hop : (orig T.startpc).op = .forl) {bc : ℕ → BCIns}
    (hb : bc = Function.update (Function.update (J.pt p).bc (foriOf orig T.startpc)
      { orig (foriOf orig T.startpc) with op := .jfori }) T.startpc (jForm (orig T.startpc) n)) :
    ProtoOk orig (Function.update live n (some p))
      (Trace.setPt J p { J.pt p with bc := bc, trace := n }) p := by
  have hpt : (Trace.setPt J p { J.pt p with bc := bc, trace := n }).pt p =
      { J.pt p with bc := bc, trace := n } := Function.update_self ..
  have hfne := ho.foriOf_ne hop
  have hpc : bc T.startpc = jForm (orig T.startpc) n := by
    rw [hb, Function.update_self]
  have hjf : (jForm (orig T.startpc) n).op = .jforl := by
    simp only [jForm, hop]
    rfl
  have hfo : bc (foriOf orig T.startpc) = { orig (foriOf orig T.startpc) with op := .jfori } := by
    rw [hb, Function.update_of_ne hfne, Function.update_self]
  have hother : ∀ i, i ≠ T.startpc → i ≠ foriOf orig T.startpc → bc i = (J.pt p).bc i := by
    intro i h₁ h₂
    rw [hb, Function.update_of_ne h₁, Function.update_of_ne h₂]
  -- the starting instruction was not compiled before, and neither was the `FORI` a loop end
  have hjforl : ∀ k, ((J.pt p).bc k).op = .jforl → k ≠ T.startpc ∧ k ≠ foriOf orig T.startpc := by
    intro k hk
    refine ⟨?_, ?_⟩
    · rintro rfl
      rw [hbc, hop] at hk
      cases hk
    · rintro rfl
      have := (h.patched _).forl ho hk
      rw [(ho.fori _ hop).1] at this
      cases this
  refine h.addRoot hT rfl (by rw [hpt]) ?_ ?_
  · intro i
    by_cases hi : i = T.startpc
    · subst hi
      refine .loop n T (by rw [hop]; rfl) (by simp) hT.slot rfl ?_
      rw [hpt]
      exact hpc
    · by_cases hf : i = foriOf orig T.startpc
      · subst hf
        refine .fori T.startpc hop rfl ?_ ?_
        · rw [hpt]
          dsimp only
          rw [hpc]
          exact hjf
        · rw [hpt]
          exact hfo
      · refine h.patch bc (hother i hi hf) ?_ (by rw [hpt]) (by rw [hpt])
          (by rw [hpt]; exact id) ?_
        · intro k hk
          rw [hother k (hjforl k hk).1 (hjforl k hk).2]
          exact hk
        · intro m T' hm hT'
          refine ⟨?_, hT'⟩
          rw [update_some_iff]
          by_cases hmn : m = n
          · exact .inl ⟨hmn, rfl⟩
          · exact .inr ⟨hmn, hm⟩
  · intro i hi
    rw [hpt] at hi ⊢
    dsimp only at hi ⊢
    by_cases hi' : i = T.startpc
    · subst hi'
      rw [hfo]
    · have hif : i ≠ foriOf orig T.startpc := by
        rintro rfl
        rw [hfo] at hi
        cases hi
      rw [hother i hi' hif] at hi
      have hf := h.pair i hi
      by_cases hf' : foriOf orig i = foriOf orig T.startpc
      · rw [hf', hfo]
      · rw [hother _ ?_ hf']
        · exact hf
        · intro he
          rw [he, hbc, hop] at hf
          cases hf

/-- The `FORI` of a loop that is not compiled. -/
theorem ProtoOk.fori_eq (ho : Original orig) (h : ProtoOk orig live J p) {pc : ℕ}
    (hbc : (J.pt p).bc pc = orig pc) (hop : (orig pc).op = .forl) :
    (J.pt p).bc (foriOf orig pc) = orig (foriOf orig pc) := by
  have hfo := (ho.fori pc hop).1
  cases h.patched (foriOf orig pc) with
  | plain h => exact h
  | blacklisted h' _ _ _ =>
      rw [hfo] at h'
      cases h'
  | loop _ _ h' _ _ _ _ =>
      rw [hfo] at h'
      cases h'
  | ret _ _ h' _ _ _ _ =>
      rw [hfo] at h'
      cases h'
  | fori k hk hi hj _ =>
      obtain rfl := ho.foriOf_inj hk hop hi
      rw [hbc, hop] at hj
      cases hj

/-- The patches of a finished root trace that starts at a loop or a function header. -/
theorem ProtoOk.patchLoop (ho : Original orig) (h : ProtoOk orig live J p)
    (hT : NewRoot live J p n T) (hno : T.traceno = n)
    (hbc : (J.pt p).bc T.startpc = orig T.startpc) (hins : T.startins = orig T.startpc)
    (hop : hotOp T.startins.op) :
    ProtoOk orig (Function.update live n (some p))
      (Trace.setPt J p { patchLoop (J.pt p) T with trace := n }) p := by
  by_cases hf : T.startins.op = .forl
  · have hf' : (orig T.startpc).op = .forl := hins ▸ hf
    have hfo : jumpTo T.startpc (bcJ T.startins) = foriOf orig T.startpc := by
      rw [hins]
      rfl
    have heq : Trace.patchLoop (J.pt p) T = { J.pt p with
        bc := Function.update (Function.update (J.pt p).bc (foriOf orig T.startpc)
          { orig (foriOf orig T.startpc) with op := .jfori }) T.startpc
          (jForm (orig T.startpc) n) } := by
      simp only [Trace.patchLoop, hf, if_true, setbcOp, setbc, hfo,
        Function.update_of_ne (ho.foriOf_ne hf').symm, hbc, hno, h.fori_eq ho hbc hf', jForm, hf']
    rw [heq]
    exact h.patchForl ho hT hbc hf' rfl
  · have heq : Trace.patchLoop (J.pt p) T = setbc (J.pt p) T.startpc (jForm (orig T.startpc) n) := by
      simp only [Trace.patchLoop, hf, if_false, hbc, hno, jForm]
      rw [hins]
    rw [heq]
    refine h.patchIns hT hbc ?_ (.inl (hins ▸ hop)) (.inl ⟨hins ▸ hop, rfl⟩)
    rw [hins] at hf hop
    rcases hotOp_cases hop with hop | hop | hop | hop
    · exact absurd hop hf
    all_goals
      simp only [jForm, hop]
      decide

end Patch

/-- A new live root trace of `p`, with the prototype changed accordingly. -/
theorem Core.addRoot (hc : Core orig live J) {n p : ℕ} {pt : Proto}
    (hd : pt.dead = (J.pt p).dead) (hn : ∀ q, (J.pt q).dead = false → live n ≠ some q)
    (hp : (J.pt p).dead = false →
      ProtoOk (orig p) (Function.update live n (some p)) (Trace.setPt J p pt) p) :
    Core orig (Function.update live n (some p)) (Trace.setPt J p pt) where
  slots := { hc.slots with }
  proto q hq := by
    by_cases hqp : q = p
    · subst hqp
      simp only [Trace.setPt, Function.update_self] at hq
      exact hp (hd ▸ hq)
    · have hpt : (Trace.setPt J p pt).pt q = J.pt q := Function.update_of_ne hqp ..
      rw [hpt] at hq
      refine (hc.proto q hq).untouched ⟨?_, ?_, ?_, ?_, ?_, fun _ T _ hT => ⟨T, hT, rfl⟩⟩
        (hc.proto q hq).started
      · rw [hpt]
      · rw [hpt]
      · rw [hpt]
      · rw [hpt]
      · intro m
        rw [update_some_iff]
        constructor
        · rintro (⟨_, h⟩ | ⟨_, h⟩)
          · exact absurd h.symm hqp
          · exact h
        · intro h
          refine .inr ⟨?_, h⟩
          rintro rfl
          exact hn q hq h

/-- Changes to the trace under construction that keep its number. -/
theorem Core.setCurFields (hc : Core orig live J) (cur : GCtrace) (st : TraceState)
    (h : cur.traceno = J.cur.traceno) : Core orig live { J with cur := cur, state := st } where
  slots := { hc.slots with cur := fun n => by rw [hc.slots.cur n, h] }
  proto q hq :=
    (hc.proto q hq).untouched ⟨rfl, rfl, rfl, rfl, fun _ => Iff.rfl, fun _ T _ hT => ⟨T, hT, rfl⟩⟩
      (hc.proto q hq).started

theorem Numbers.traceSave (hn : Numbers J) : Numbers (traceSave J) where
  occupied n h0 hlt := by
    simp only [Trace.traceSave, setSlot]
    by_cases h : n = J.cur.traceno
    · rw [h, Function.update_self]
      simp
    · rw [Function.update_of_ne h]
      exact hn.occupied n h0 hlt
  free := hn.free

/-- The slot of the trace under construction holds no live trace. -/
theorem Core.cur_not_live (hc : Core orig live J) (h0 : J.cur.traceno ≠ 0) (q : ℕ)
    (hq : (J.pt q).dead = false) : live J.cur.traceno ≠ some q := by
  intro hl
  obtain ⟨T, hT, _⟩ := (hc.proto q hq).member _ hl
  rw [(hc.slots.cur _).mpr ⟨rfl, h0⟩] at hT
  cases hT

/-- Finishing a root trace: it is saved, linked into the chain, and the bytecode is patched. -/
theorem Inv.stopRoot (hi : Inv orig live J) (h0 : J.cur.traceno ≠ 0) {T : GCtrace} {pt : Proto}
    (hr : J.cur.root = 0)
    (hop : hotOp J.cur.startins.op ∨ retOp J.cur.startins.op)
    (hins : (J.pt J.cur.startpt).dead = false →
      J.cur.startins = orig J.cur.startpt J.cur.startpc)
    (hT : SameTrace { J.cur with nslots := T.nslots, nextroot := (J.pt J.cur.startpt).trace } T)
    (hd : pt.dead = (J.pt J.cur.startpt).dead)
    (hp : ∀ J₂, J₂.pt = J.pt → Core orig live J₂ → NewRoot live J₂ J.cur.startpt T.traceno T →
      (J.pt J.cur.startpt).dead = false →
      ProtoOk (orig J.cur.startpt) (Function.update live T.traceno (some J.cur.startpt))
        (setPt J₂ J.cur.startpt pt) J.cur.startpt) :
    Inv orig (Function.update live J.cur.traceno (some J.cur.startpt))
      (setPt (Trace.traceSave { J with cur := T, state := .idle }) J.cur.startpt pt) := by
  have hno : T.traceno = J.cur.traceno := by rw [hT]
  have hc₁ : Core orig live { J with cur := T, state := .idle } := hi.core.setCurFields T .idle hno
  have hcur : CurOk orig { J with cur := T, state := .idle } := by
    intro _ _ hdead
    dsimp only at hdead ⊢
    rw [hT] at hdead ⊢
    exact hins hdead
  have hc₂ := hc₁.traceSave (by rw [hno]; exact h0) hcur
  have hnl : ∀ q, (J.pt q).dead = false → live J.cur.traceno ≠ some q :=
    hi.core.cur_not_live h0
  rw [← hno] at hnl h0 ⊢
  refine Inv.ofIdle (hc₂.addRoot hd hnl ?_) ?_ ?_ rfl rfl
  · intro hdead
    refine hp _ rfl hc₂ ⟨?_, h0, hnl _ hdead, ?_, ?_, ?_, ?_, ?_⟩ hdead
    · exact Function.update_self ..
    · rw [hT]
      exact hr
    · rw [hT]
    · rw [hT]
      exact hi.fresh
    · rw [hT]
      exact hop
    · rw [hT]
      rfl
  · exact { (Numbers.traceSave (J := { J with cur := T, state := .idle }) { hi.numbers with }) with }
  · simp only [Trace.setPt, Trace.traceSave]
    rw [hT]
    exact hi.fresh

/-- Saving a side trace or a stitched trace. -/
theorem Inv.stopOther (hc : Core orig live J) (hn : Numbers J) (hf : J.cur.dead = false)
    (h0 : J.cur.traceno ≠ 0) (hcur : CurOk orig J) (hs : J.state = .idle) :
    Inv orig live (Trace.traceSave J) :=
  Inv.ofIdle (hc.traceSave h0 hcur) hn.traceSave hf rfl hs

theorem modifyTrace_id (J : JitState) (m : ℕ) : modifyTrace J m id = J := by
  unfold modifyTrace
  split
  · rfl
  · rfl
  · next T hT => rw [id, ← hT, Function.update_eq_self]

/-- The state in which the recorder leaves a finished trace. -/
def recorded (nslots : BitVec 8) (link : ℕ) (J : JitState) : JitState :=
  { J with cur := { J.cur with nslots := nslots, link := link }, state := .idle }

/-- The three ways to finish a trace. -/
theorem traceStop_cases {nslots : BitVec 8} {link : ℕ} (h : traceStop nslots link J = some J') :
    hotOp J.cur.startins.op ∧
        J' = traceSave (addRoot (recorded nslots link J)
          (patchLoop (J.pt J.cur.startpt) (recorded nslots link J).cur)) ∨
      retOp J.cur.startins.op ∧
        J' = traceSave (addRoot (recorded nslots link J)
          (setbc (J.pt J.cur.startpt) J.cur.startpc
            ⟨.jloop, nslots, BitVec.ofNat 16 J.cur.traceno⟩)) ∨
      ¬ (hotOp J.cur.startins.op ∨ retOp J.cur.startins.op) ∧
        ∃ m f x, (∀ T, SameTrace T (f T)) ∧
          J' = traceSave { modifyTrace (recorded nslots link J) m f with
            cur := { (modifyTrace (recorded nslots link J) m f).cur with nextside := x } } := by
  have hother : ∀ op : BCOp, J.cur.startins.op = op → hotOp op = false → retOp op = false →
      ¬ (hotOp J.cur.startins.op ∨ retOp J.cur.startins.op) := by
    rintro op rfl h₁ h₂ (h | h)
    · rw [h₁] at h
      cases h
    · rw [h₂] at h
      cases h
  simp only [traceStop] at h
  split at h
  iterate 4
    next hop =>
      refine .inl ⟨by rw [hop]; rfl, (Option.some_injective _ h).symm⟩
  iterate 3
    next hop =>
      refine .inr (.inl ⟨by rw [hop]; rfl, (Option.some_injective _ h).symm⟩)
  · next hop =>
      -- a side trace: its root trace gets a new first side trace
      refine .inr (.inr ⟨hother _ hop rfl rfl, ?_⟩)
      split at h
      · next root _ _ =>
          refine ⟨J.cur.root, fun T =>
            { T with nchild := T.nchild + 1, nextside := J.cur.traceno }, root.nextside,
            fun _ => rfl, (Option.some_injective _ h).symm⟩
      · cases h
  iterate 3
    next hop =>
      -- a stitched trace: the previous trace is linked to it
      refine .inr (.inr ⟨hother _ hop rfl rfl, ?_⟩)
      split at h
      · exact ⟨J.exitno, fun T => { T with link := J.cur.traceno }, _, fun _ => rfl,
          (Option.some_injective _ h).symm⟩
      · cases h
  · next h₁ h₂ h₃ h₄ h₅ h₆ h₇ _ _ _ _ =>
      refine .inr (.inr ⟨?_, 0, id, J.cur.nextside, SameTrace.refl, ?_⟩)
      · rintro (hop | hop)
        · rcases hotOp_cases hop with hop | hop | hop | hop
          · exact h₁ hop
          · exact h₃ hop
          · exact h₂ hop
          · exact h₄ hop
        · rcases retOp_cases hop with hop | hop | hop
          · exact h₅ hop
          · exact h₆ hop
          · exact h₇ hop
      · rw [← Option.some_injective _ h, modifyTrace_id]
        rfl

theorem patchLoop_fields (pt : Proto) (T : GCtrace) :
    (patchLoop pt T).trace = pt.trace ∧ (patchLoop pt T).dead = pt.dead := by
  simp only [patchLoop, setbc, setbcOp]
  split <;> exact ⟨rfl, rfl⟩

/-- Finishing a trace keeps the invariant. -/
theorem Inv.traceStop (ho : ∀ p, Original (orig p)) (hi : Inv orig live J)
    (hs : J.state = .record) {nslots : BitVec 8} {link : ℕ}
    (h : Trace.traceStop nslots link J = some J') :
    Inv orig ((stopEvent J).apply live) J' := by
  have hne : J.state ≠ .idle := by
    rw [hs]
    decide
  have h0 := hi.record hs
  -- a trace that starts at a loop, a function header or a return is a root trace
  have hroot : hotOp J.cur.startins.op ∨ retOp J.cur.startins.op → RootStart orig J := by
    intro hop
    refine hi.root hne ?_
    by_contra hp
    rw [(hi.side hne hp).2] at hop
    rcases hop with hop | hop <;> cases hop
  unfold stopEvent
  rcases traceStop_cases h with ⟨hop, rfl⟩ | ⟨hop, rfl⟩ | ⟨hop, m, f, x, hf, rfl⟩
  · rw [if_pos (.inl hop)]
    have hr := hroot (.inl hop)
    obtain ⟨htr, hd⟩ := patchLoop_fields (J.pt J.cur.startpt) (recorded nslots link J).cur
    set T : GCtrace := { J.cur with
      nslots := nslots, link := link, nextroot := (J.pt J.cur.startpt).trace } with hT
    have heq : traceSave (Trace.addRoot (recorded nslots link J)
        (patchLoop (J.pt J.cur.startpt) (recorded nslots link J).cur)) =
        setPt (Trace.traceSave { J with cur := T, state := .idle }) J.cur.startpt
          { patchLoop (J.pt J.cur.startpt) T with trace := T.traceno } := by
      simp only [Trace.addRoot, htr]
      rfl
    rw [heq]
    refine hi.stopRoot h0 hr.root (.inl hop) (fun hd => (hr.ins hd).1) rfl ?_ ?_
    · exact (patchLoop_fields _ _).2
    · intro J₂ hpt hc₂ hN hdead
      have hd₂ : (J₂.pt J.cur.startpt).dead = false := by
        rw [hpt]
        exact hdead
      have hp := (hc₂.proto _ hd₂).patchLoop (ho _) hN rfl
        (by rw [hpt]; exact (hr.ins hdead).2) (hr.ins hdead).1 hop
      rw [hpt] at hp
      exact hp
  · rw [if_pos (.inr hop)]
    have hr := hroot (.inr hop)
    set T : GCtrace := { J.cur with
      nslots := nslots, link := link, nextroot := (J.pt J.cur.startpt).trace } with hT
    have heq : traceSave (Trace.addRoot (recorded nslots link J)
        (setbc (J.pt J.cur.startpt) J.cur.startpc
          ⟨.jloop, nslots, BitVec.ofNat 16 J.cur.traceno⟩)) =
        setPt (Trace.traceSave { J with cur := T, state := .idle }) J.cur.startpt
          { setbc (J.pt J.cur.startpt) T.startpc ⟨.jloop, T.nslots, BitVec.ofNat 16 T.traceno⟩
            with trace := T.traceno } := rfl
    rw [heq]
    refine hi.stopRoot h0 hr.root (.inr hop) (fun hd => (hr.ins hd).1) rfl rfl ?_
    intro J₂ hpt hc₂ hN hdead
    have hd₂ : (J₂.pt J.cur.startpt).dead = false := by
      rw [hpt]
      exact hdead
    have hop' : retOp (orig J.cur.startpt T.startpc).op := (hr.ins hdead).1 ▸ hop
    have hp := (hc₂.proto _ hd₂).patchIns hN (by rw [hpt]; exact (hr.ins hdead).2)
      (by simp) (.inr hop') (.inr ⟨hop', rfl⟩)
    rw [hpt] at hp
    exact hp
  · rw [if_neg hop]
    have hc₁ : Core orig live (recorded nslots link J) :=
      hi.core.setCurFields { J.cur with nslots := nslots, link := link } .idle rfl
    have hc₂ := hc₁.modifyTrace m hf
    have hcur := modifyTrace_cur (recorded nslots link J) m hf
    have hslot := modifyTrace_slot (recorded nslots link J) m f
    obtain ⟨hpt, hsz, hfr, hst, _⟩ := modifyTrace_pt (recorded nslots link J) m f
    set M := Trace.modifyTrace (recorded nslots link J) m f
    refine Inv.stopOther (hc₂.setCurFields { M.cur with nextside := x } M.state rfl) ?_ ?_ ?_ ?_ hst
    · refine ⟨?_, ?_⟩
      · intro n hn hlt
        dsimp only at hlt ⊢
        rw [hfr] at hlt
        have hocc := hi.numbers.occupied n hn hlt
        rcases hslot n with he | ⟨T, _, he⟩
        · rw [he]
          exact hocc
        · rw [he]
          simp
      · dsimp only
        rw [hfr, hsz]
        exact hi.numbers.free
    · dsimp only
      rw [hcur]
      exact hi.fresh
    · dsimp only
      rw [hcur]
      exact h0
    · intro _ hr hd
      dsimp only at hr hd ⊢
      rw [hpt] at hd
      rw [hcur] at hr hd ⊢
      exact hi.curOk h0 hr hd

/-! ### Aborting a trace -/

/-- What penalizing the starting instruction keeps. -/
structure Penalized (live : ℕ → Option ℕ) (orig : ℕ → ℕ → BCIns) (J J' : JitState) : Prop where
  core : Core orig live J'
  numbers : Numbers J'
  traceno : J'.cur.traceno = J.cur.traceno
  fresh : J'.cur.dead = false
  nojit : ∀ p, (J'.pt p).nojit = (J.pt p).nojit
  slot : ∀ n T, J.trace n = .saved T → ∃ T', J'.trace n = .saved T'
  ret : ∀ p pc, (J.pt p).dead = false → bcIsret ((J.pt p).bc pc).op →
    (J'.pt p).bc pc = (J.pt p).bc pc

theorem Inv.penaltyPc (hi : Inv orig live J) (rnd : BitVec 4) {p pc : ℕ}
    (hp : (J.pt p).dead = false → hotOp ((J.pt p).bc pc).op ∧ pc < (J.pt p).sizebc) :
    Penalized live orig J (penaltyPc rnd J p pc) := by
  have hsame : ∀ pen slot, Penalized live orig J { J with penalty := pen, penaltyslot := slot } :=
    fun pen slot =>
      { core :=
          { slots := { hi.core.slots with }
            proto := fun q hq =>
              (hi.core.proto q hq).untouched
                ⟨rfl, rfl, rfl, rfl, fun _ => Iff.rfl, fun _ T _ hT => ⟨T, hT, rfl⟩⟩
                (hi.core.proto q hq).started }
        numbers := { hi.numbers with }
        traceno := rfl
        fresh := hi.fresh
        nojit := fun _ => rfl
        slot := fun _ T hT => ⟨T, hT⟩
        ret := fun _ _ _ _ => rfl }
  unfold Trace.penaltyPc
  split
  · dsimp only
    split
    · constructor
      · exact hi.core.blacklist hp
      · exact { hi.numbers with }
      · rfl
      · exact hi.fresh
      · intro q
        by_cases hq : q = p
        · subst hq
          simp [setPt, blacklistPc, setbcOp, setbc]
        · simp [setPt, Function.update_of_ne hq]
      · exact fun _ T hT => ⟨T, hT⟩
      · intro q k hd hr
        by_cases hq : q = p
        · subst hq
          have hk : k ≠ pc := by
            rintro rfl
            rcases hotOp_cases (hp hd).1 with h | h | h | h <;> rw [h] at hr <;> cases hr
          simp [setPt, blacklistPc, setbcOp, setbc, Function.update_of_ne hk]
        · simp [setPt, Function.update_of_ne hq]
    · exact hsame _ _
  · exact hsame _ _

theorem Inv.penalized_self (hi : Inv orig live J) : Penalized live orig J J :=
  ⟨hi.core, hi.numbers, rfl, hi.fresh, fun _ => rfl, fun _ T hT => ⟨T, hT⟩, fun _ _ _ _ => rfl⟩

theorem Inv.abortPenalty (hi : Inv orig live J) (hs : J.state ≠ .idle) {e : TraceErr}
    {rnd : BitVec 4} (h : Trace.abortPenalty e rnd J = some J') : Penalized live orig J J' := by
  unfold Trace.abortPenalty at h
  split at h
  · next hp =>
      have hr := hi.root hs hp.1
      split at h
      · next he =>
          split at h
          · obtain rfl := Option.some_injective _ h
            exact hi.penalized_self
          · obtain rfl := Option.some_injective _ h
            refine hi.penaltyPc rnd fun hd => ?_
            obtain ⟨h₁, h₂⟩ := hr.ins hd
            rw [h₂, ← h₁]
            rcases hr.hot he with h | h
            · exact h
            · -- a return is not penalized
              rcases retOp_cases h with h | h | h
              all_goals
                rw [h] at hp
                cases hp.2
      · split at h
        · cases h
        · obtain rfl := Option.some_injective _ h
          set f : GCtrace → GCtrace := fun T => { T with link := J.exitno }
          have hf : ∀ T, SameTrace T (f T) := fun _ => rfl
          obtain ⟨hpt, hsz, hfr, _⟩ := modifyTrace_pt J J.exitno f
          have hcur := modifyTrace_cur J J.exitno hf
          have hslot := modifyTrace_slot J J.exitno f
          constructor
          · exact hi.core.modifyTrace _ hf
          · refine ⟨?_, ?_⟩
            · intro n hn hlt
              rw [hfr] at hlt
              have hocc := hi.numbers.occupied n hn hlt
              rcases hslot n with he | ⟨T, _, he⟩
              · rw [he]
                exact hocc
              · rw [he]
                simp
            · rw [hfr, hsz]
              exact hi.numbers.free
          · rw [hcur]
          · rw [hcur]
            exact hi.fresh
          · intro p
            rw [hpt]
          · intro n T hT
            rcases hslot n with he | ⟨T', _, he⟩
            · exact ⟨T, he.trans hT⟩
            · exact ⟨_, he⟩
          · intro p pc _ _
            rw [hpt]
  · obtain rfl := Option.some_injective _ h
    exact hi.penalized_self

/-- Dropping the trace under construction leaves the compiler idle. -/
theorem Inv.abortDrop (hc : Core orig live J) (hn : Numbers J) (hf : J.cur.dead = false) :
    Inv orig live { abortDrop J with state := .idle } ∧ (abortDrop J).pt = J.pt ∧
      ∀ n T, J.trace n = .saved T → (abortDrop J).trace n = .saved T := by
  unfold Trace.abortDrop
  split
  · next h0 =>
      exact ⟨Inv.ofIdle (hc.setState .idle J.parent J.exitno) { hn with } hf h0 rfl, rfl,
        fun _ _ hT => hT⟩
  · next h0 =>
      have hslot := (hc.slots.cur _).mpr ⟨rfl, h0⟩
      have hfree := hn.free
      refine ⟨Inv.ofIdle (hc.clear (n := J.cur.traceno) (hc.cur_not_live h0) rfl rfl rfl ?_)
        ⟨?_, ?_⟩ hf rfl rfl, rfl, ?_⟩
      · simp [hslot]
      · intro n hn0 hlt
        dsimp only [setSlot] at hlt ⊢
        rw [Function.update_of_ne]
        · refine hn.occupied n hn0 ?_
          split at hlt <;> omega
        · rintro rfl
          split at hlt <;> omega
      · dsimp only [setSlot]
        split <;> omega
      · intro n T hT
        dsimp only [setSlot]
        rw [Function.update_of_ne, hT]
        rintro rfl
        rw [hslot] at hT
        cases hT

/-- Aborting a trace keeps the invariant. -/
theorem Inv.traceAbort (ho : ∀ p, Original (orig p)) (hi : Inv orig live J) {e : TraceErr}
    {rnd : BitVec 4} {maxtrace : BitVec 32} {p pc : ℕ} (hs : J.state ≠ .idle)
    (he : J.state = .err → e = .other)
    (hd : e = .downrec →
      bcIsret ((J.pt p).bc pc).op ∧ (J.pt p).nojit = false ∧ (J.pt p).dead = false)
    (h : Trace.traceAbort e rnd maxtrace J p pc = some J') :
    Inv orig ((abortEvents e rnd maxtrace J p pc).foldl Event.apply live) J' ∧
      ∀ n, .start n ∈ abortEvents e rnd maxtrace J p pc →
        (∀ T, J.trace n ≠ .saved T) ∧ J'.trace n = .cur := by
  unfold Trace.traceAbort at h
  unfold abortEvents aborted
  split at h
  · next hm =>
      -- the machine code area was full: try again
      subst hm
      obtain rfl := Option.some_injective _ h
      have hrec : J.state = .record := by
        cases hst : J.state with
        | idle => exact absurd hst hs
        | record => rfl
        | err => cases he hst
      refine ⟨?_, by simp⟩
      rw [← hrec]
      exact hi
  · next hm =>
      split at h
      · cases h
      · next J₁ h₁ =>
          have hpen := hi.abortPenalty hs h₁
          obtain ⟨hi₂, hpt, hsl⟩ := Inv.abortDrop hpen.core hpen.numbers hpen.fresh
          rw [h₁, Option.map_some]
          set J₂ : JitState := { Trace.abortDrop J₁ with state := .idle } with hJ₂
          cases e with
          | mcodelm => exact absurd rfl hm
          | retry =>
              obtain rfl := Option.some_injective _ h
              exact ⟨hi₂, by simp⟩
          | other =>
              obtain rfl := Option.some_injective _ h
              exact ⟨hi₂, by simp⟩
          | mcodeal => exact ⟨hi₂.flushall ho (by simp [hJ₂]) h, by simp⟩
          | downrec =>
              obtain ⟨hret, hj, hdead⟩ := hd rfl
              have hbc : (J₂.pt p).bc pc = (J.pt p).bc pc := by
                change ((Trace.abortDrop J₁).pt p).bc pc = _
                rw [hpt]
                exact hpen.ret p pc hdead hret
              change traceDownrec maxtrace J₂ p pc = some J' at h
              unfold traceDownrec at h
              split at h
              · next hm =>
                  -- returns with a variable number of results are not compiled
                  obtain rfl := Option.some_injective _ h
                  simp only [hm, if_true]
                  exact ⟨hi₂, by simp⟩
              · next hm =>
                  simp only [hm, if_false]
                  have hstart : StartOk { J₂ with parent := 0, exitno := 0, state := .record } p pc := by
                    intro _
                    refine ⟨fun _ => .inr ⟨?_, ?_⟩, fun h => absurd rfl h⟩
                    · dsimp only
                      rw [hbc] at hm ⊢
                      revert hret hm
                      cases ((J.pt p).bc pc).op <;> simp [bcIsret, retOp]
                    · change ((Trace.abortDrop J₁).pt p).nojit = false
                      rw [hpt, hpen.nojit]
                      exact hj
                  obtain ⟨hi₃, hstarted⟩ := Inv.traceStart ho
                    (hi₂.core.setState .record 0 0) { hi₂.numbers with } hi₂.fresh (hi₂.idle rfl)
                    hstart h
                  refine ⟨hi₃, ?_⟩
                  intro n hn
                  obtain ⟨hnull, hcur⟩ := hstarted n (by simpa using hn)
                  refine ⟨?_, hcur⟩
                  intro T hT
                  obtain ⟨T', hT'⟩ := hpen.slot n T hT
                  rw [show J₂.trace n = _ from hsl n T' hT'] at hnull
                  cases hnull

/-! ### The collector -/

/-- The chain of a marked prototype is marked. -/
theorem MarkClosed.chain {mp mt : ℕ → Bool} (h : MarkClosed J mp mt) {n : ℕ} {l : List ℕ}
    (hl : RootChain J.trace n l) (hn : n ≠ 0 → mt n) : ∀ m ∈ l, mt m := by
  induction hl with
  | nil => simp
  | @cons n T l h0 hT _ ih =>
      intro m hm
      rcases List.mem_cons.mp hm with rfl | hm
      · exact hn h0
      · refine ih ?_ m hm
        intro hne
        refine (h.trace n T (hn h0) hT).2 _ ?_
        simp [markedBy, hne]

theorem gcMark_saved {mp mt : ℕ → Bool} {n : ℕ} {T : GCtrace} (h : J.trace n = .saved T) :
    (gcMark mp mt J).trace n = .saved { T with dead := T.dead || !mt n } := by
  simp only [gcMark, h]

theorem saved_of_gcMark {mp mt : ℕ → Bool} {n : ℕ} {T : GCtrace}
    (h : (gcMark mp mt J).trace n = .saved T) :
    ∃ T', J.trace n = .saved T' ∧ T = { T' with dead := T'.dead || !mt n } := by
  simp only [gcMark] at h
  split at h
  · next T' hT' =>
      cases h
      exact ⟨T', hT', rfl⟩
  · next hne => exact absurd h (hne T)

theorem gcMark_null_iff {mp mt : ℕ → Bool} {n : ℕ} :
    ((gcMark mp mt J).trace n = .null ↔ J.trace n = .null) ∧
      ((gcMark mp mt J).trace n = .cur ↔ J.trace n = .cur) := by
  simp only [gcMark]
  split
  · next T hT => simp [hT]
  · exact ⟨Iff.rfl, Iff.rfl⟩

theorem Inv.gcMark (hi : Inv orig live J) {mp mt : ℕ → Bool} (hm : MarkClosed J mp mt) :
    Inv orig live (gcMark mp mt J) := by
  have hs := hi.core.slots
  have hd : ∀ q, ((Trace.gcMark mp mt J).pt q).dead = false →
      (J.pt q).dead = false ∧ mp q = true := by
    intro q hq
    simpa [Trace.gcMark] using hq
  constructor
  · constructor
    · constructor
      · exact gcMark_null_iff.1.mpr hs.zero
      · exact fun n hn => gcMark_null_iff.1.mpr (hs.range n hn)
      · exact hs.size
      · intro n T hT
        obtain ⟨T', hT', rfl⟩ := saved_of_gcMark hT
        exact hs.no n T' hT'
      · intro n
        rw [gcMark_null_iff.2]
        exact hs.cur n
    · intro q hq
      obtain ⟨hq, hmq⟩ := hd q hq
      have hp := hi.core.proto q hq
      refine hp.untouched ⟨rfl, rfl, rfl, rfl, fun _ => Iff.rfl, ?_⟩ ?_
      · intro n T hn hT
        obtain ⟨l, hl, _, hmem⟩ := hp.chain
        have hmn := hm.chain hl (hm.proto q hmq) n ((hmem n).mpr hn)
        obtain ⟨T', hT', _, _, hdead, _⟩ := hp.member n hn
        obtain rfl : T' = T := by simpa using hT'.symm.trans hT
        refine ⟨_, gcMark_saved hT, ?_⟩
        simp only [SameTrace, hmn, hdead, Bool.not_true, Bool.or_false]
      · intro n T hT hr hpt
        obtain ⟨T', hT', rfl⟩ := saved_of_gcMark hT
        exact hp.started n T' hT' hr hpt
  · refine ⟨fun n h0 hlt => ?_, hi.numbers.free⟩
    rw [Ne, gcMark_null_iff.1]
    exact hi.numbers.occupied n h0 hlt
  · exact hi.fresh
  · exact hi.idle
  · exact hi.record
  · exact hi.side
  · intro hst hp
    have hr := hi.root hst hp
    exact ⟨hr.root, hr.hot, hr.stitch, fun hdead => hr.ins (hd _ hdead).1⟩

theorem Inv.ljTraceFree (hi : Inv orig live J) {n : ℕ} {T : GCtrace} (hT : J.trace n = .saved T)
    (hd : T.dead = true) : Inv orig (Function.update live n none) (ljTraceFree J T) := by
  have hno := hi.core.slots.no n T hT
  have hn : n ≠ 0 := by
    rintro rfl
    rw [hi.core.slots.zero] at hT
    cases hT
  -- a dead trace is not live
  have hnl : ∀ q, (J.pt q).dead = false → live n ≠ some q := by
    intro q hq hl
    obtain ⟨T', hT', _, _, hdead, _⟩ := (hi.core.proto q hq).member n hl
    obtain rfl : T' = T := by simpa using hT'.symm.trans hT
    rw [hd] at hdead
    cases hdead
  have hfree := hi.numbers.free
  unfold Trace.ljTraceFree
  rw [if_neg (by rw [hno]; exact hn), hno]
  constructor
  · refine (hi.core.forget hnl).clear (n := n) (by simp) rfl rfl rfl ?_
    simp [setSlot, hT]
  · refine ⟨?_, ?_⟩
    · intro m hm hlt
      dsimp only [setSlot] at hlt ⊢
      rw [Function.update_of_ne]
      · refine hi.numbers.occupied m hm ?_
        split at hlt <;> omega
      · rintro rfl
        split at hlt <;> omega
    · dsimp only [setSlot]
      split <;> omega
  · exact hi.fresh
  · exact hi.idle
  · exact hi.record
  · exact hi.side
  · intro hst hp
    exact { hi.root hst hp with }

/-! ### Runs -/

/-- A change to one prototype that keeps the instruction a recording started at. -/
theorem Inv.setPt (hi : Inv orig live J) {p : ℕ} {pt : Proto} (hd : pt.dead = (J.pt p).dead)
    (hsz : pt.sizebc = (J.pt p).sizebc)
    (hbc : (J.pt p).dead = false → ∀ i, (J.pt p).bc i = orig p i → pt.bc i = orig p i)
    (hp : (J.pt p).dead = false → ProtoOk (orig p) live (setPt J p pt) p) :
    Inv orig live (setPt J p pt) where
  core := hi.core.setPt hd hp
  numbers := { hi.numbers with }
  fresh := hi.fresh
  idle := hi.idle
  record := hi.record
  side := hi.side
  root hs hpar := by
    have hr := hi.root hs hpar
    by_cases hq : J.cur.startpt = p
    · constructor
      · exact hr.root
      · intro he
        simp only [Trace.setPt, hq, Function.update_self]
        rw [hsz, ← hq]
        exact hr.hot he
      · exact hr.stitch
      · intro hdead
        simp only [Trace.setPt, hq, Function.update_self] at hdead ⊢
        rw [hd] at hdead
        obtain ⟨h₁, h₂⟩ := hr.ins (by rw [hq]; exact hdead)
        rw [hq] at h₁ h₂
        exact ⟨h₁, hbc hdead _ h₂⟩
    · have hpt : (Trace.setPt J p pt).pt J.cur.startpt = J.pt J.cur.startpt :=
        Function.update_of_ne hq ..
      refine ⟨hr.root, ?_, hr.stitch, ?_⟩
      · intro he
        change _ ∧ J.cur.startpc < ((Trace.setPt J p pt).pt J.cur.startpt).sizebc ∨ _
        rw [hpt]
        exact hr.hot he
      · intro hdead
        change ((Trace.setPt J p pt).pt J.cur.startpt).dead = false at hdead
        change _ ∧ ((Trace.setPt J p pt).pt J.cur.startpt).bc _ = _
        rw [hpt] at hdead ⊢
        exact hr.ins hdead

/-- Changing `PROTO_NOJIT` changes nothing else. -/
theorem Inv.setNojit (hi : Inv orig live J) (p : ℕ) (b : Bool) :
    Inv orig live (Trace.setPt J p { J.pt p with nojit := b }) := by
  refine hi.setPt rfl rfl (fun _ _ h => h) fun hd => ?_
  have hpt : (Trace.setPt J p { J.pt p with nojit := b }).pt p = { J.pt p with nojit := b } :=
    Function.update_self ..
  refine (hi.core.proto p hd).untouched ⟨?_, ?_, ?_, ?_, fun _ => Iff.rfl, fun _ T _ hT =>
    ⟨T, hT, rfl⟩⟩ (hi.core.proto p hd).started
  · rw [hpt]
  · rw [hpt]
  · rw [hpt]
  · rw [hpt]

/-- Turning compilation on keeps the invariant. -/
theorem Inv.reenable (ho : ∀ p, Original (orig p)) (hi : Inv orig live J) {p : ℕ} {pt : Proto}
    (hpt : pt = { J.pt p with nojit := pt.nojit }) :
    Inv orig live (Trace.setPt J p (ljTraceReenableproto pt)) := by
  obtain ⟨h₁, _, h₃⟩ := reenableproto_fields pt
  refine hi.setPt (by rw [h₃, hpt]) (by rw [h₁, hpt]) ?_ ?_
  · intro _ i he
    rw [reenableproto_of_not_interp, hpt]
    · exact he
    · rw [hpt]
      dsimp only
      rw [he]
      exact interpOp_orig (ho p) i
  · intro hd
    refine (hi.core.proto p hd).reenable (ho p) ?_ ?_ ?_ ?_ (Function.update_self ..) rfl
    · rw [hpt]
    · rw [hpt]
    · rw [hpt]
    · rw [hpt]

/-- Every step keeps the invariant, and a trace is only started under a number that no saved trace
has. -/
theorem Step.inv (ho : ∀ p, Original (orig p)) {es : List Event} (h : Step J es J')
    (hi : Inv orig live J) :
    Inv orig (es.foldl Event.apply live) J' ∧
      ∀ n, .start n ∈ es → (∀ T, J.trace n ≠ .saved T) ∧ J'.trace n = .cur := by
  -- what a start from the idle state has to check
  have hstart : ∀ {parent exitno p pc : ℕ} {maxtrace : BitVec 32}, J.state = .idle →
      StartOk { J with parent := parent, exitno := exitno, state := .record } p pc →
      Trace.traceStart maxtrace { J with parent := parent, exitno := exitno, state := .record } p
        pc = some J' →
      Inv orig ((startEvents maxtrace
          { J with parent := parent, exitno := exitno, state := .record } p).foldl Event.apply live)
        J' ∧
        ∀ n, .start n ∈ startEvents maxtrace
            { J with parent := parent, exitno := exitno, state := .record } p →
          (∀ T, J.trace n ≠ .saved T) ∧ J'.trace n = .cur := by
    intro parent exitno p pc maxtrace hs hok h
    obtain ⟨h₁, h₂⟩ := Inv.traceStart ho (hi.core.setState .record parent exitno)
      { hi.numbers with } hi.fresh (hi.idle hs) hok h
    refine ⟨h₁, fun n hn => ⟨?_, (h₂ n hn).2⟩⟩
    intro T hT
    have hnull : J.trace n = .null := (h₂ n hn).1
    rw [hnull] at hT
    cases hT
  cases h with
  | hot hs hop hpc h =>
      exact hstart hs (fun _ => ⟨fun _ => .inl ⟨hop, hpc⟩, fun h => absurd rfl h⟩) h
  | side hs hp h => exact hstart hs (fun h => absurd h hp) h
  | stitch hs he hop h => exact hstart hs (fun _ => ⟨fun h => absurd h he, fun _ => hop⟩) h
  | stop hs h =>
      refine ⟨hi.traceStop ho hs h, ?_⟩
      intro n hn
      unfold stopEvent at hn
      split at hn <;> simp at hn
  | abort hs he hd h => exact hi.traceAbort ho hs he hd h
  | flush h => exact ⟨hi.ljTraceAbort.flush ho h, by simp⟩
  | flushproto hp h => exact ⟨hi.ljTraceAbort.flushproto ho hp h, by simp⟩
  | flushall h =>
      refine ⟨hi.ljTraceAbort.flushall ho ?_ h, by simp⟩
      intro hs
      simp only [Trace.ljTraceAbort] at hs
      split at hs <;> cases hs
  | flushallGc h =>
      obtain rfl : Trace.ljTraceAbort J = J' := Option.some_injective _ h
      exact ⟨hi.ljTraceAbort, by simp⟩
  | modeOn => exact ⟨hi.ljTraceAbort.reenable ho rfl, by simp⟩
  | @modeOff _ p hp h =>
      refine ⟨(hi.ljTraceAbort.setNojit p true).flushproto ho ?_ h, by simp⟩
      simpa [Trace.setPt, Trace.ljTraceAbort] using hp
  | mark h => exact ⟨hi.gcMark h, by simp⟩
  | free hT hd => exact ⟨hi.ljTraceFree hT hd, by simp⟩

/-- The invariant holds in every state of every run. -/
theorem Run.inv (ho : ∀ p, Original (orig p)) {evs : List Event} (h : Run orig evs J) :
    Inv orig (liveRoots evs) J := by
  induction h with
  | init h => exact h.inv ho
  | @step evs es J J' _ hs ih =>
      rw [liveRoots, List.foldl_append]
      exact (hs.inv ho ih).1

/-- In every state of every run no number below `freetrace` is free and a trace is only started
under a number that no saved trace has; the chain of a prototype lists exactly its live root traces,
each once; every compiled instruction names the live trace that replaced it, and a compiled `FORI`
belongs to a compiled `FORL`; and without live root traces the bytecode is the original, except for
interpreted forms, which re-enabling turns back. -/
theorem trace_bookkeeping (ho : ∀ p, Original (orig p)) {evs : List Event} (h : Run orig evs J) :
    (∀ n, 0 < n → n < J.freetrace → J.trace n ≠ .null) ∧
      (∀ es J' n, Step J es J' → .start n ∈ es →
        (∀ T, J.trace n ≠ .saved T) ∧ J'.trace n = .cur) ∧
      ∀ p, (J.pt p).dead = false →
        (∃ l, RootChain J.trace (J.pt p).trace l ∧ l.Nodup ∧
          ∀ n, n ∈ l ↔ liveRoots evs n = some p) ∧
        (∀ i, compiledOp ((J.pt p).bc i).op → ∃ T,
          liveRoots evs ((J.pt p).bc i).d.toNat = some p ∧
          J.trace ((J.pt p).bc i).d.toNat = .saved T ∧ T.root = 0 ∧ T.startpt = p ∧
          T.startpc = i ∧ T.startins = orig p i) ∧
        (∀ i, ((J.pt p).bc i).op = .jfori →
          ∃ k, foriOf (orig p) k = i ∧ ((J.pt p).bc k).op = .jforl) ∧
        ((∀ n, liveRoots evs n ≠ some p) → ∀ i,
          ((J.pt p).bc i = orig p i ∨ (J.pt p).bc i = iForm (orig p i)) ∧
          (ljTraceReenableproto (J.pt p)).bc i = orig p i) := by
  have hi := h.inv ho
  refine ⟨hi.numbers.occupied, fun es J' n hs hn => (hs.inv ho hi).2 n hn, ?_⟩
  intro p hd
  have hp := hi.core.proto p hd
  refine ⟨hp.chain, ?_, ?_, ?_⟩
  · intro i hop
    obtain ⟨n, T, hl, hT, hs, hform⟩ := (hp.patched i).compiled (ho p) hop
    have hdn : ((J.pt p).bc i).d = BitVec.ofNat 16 n := by
      rcases hform with ⟨_, he⟩ | ⟨_, he⟩
      · rw [he]
        rfl
      · rw [he]
    have hlt : n < 65535 := by
      by_contra hge
      rw [hi.core.slots.range n (by have := hi.core.slots.size; omega)] at hT
      cases hT
    have hno : ((J.pt p).bc i).d.toNat = n := by
      rw [hdn, BitVec.toNat_ofNat]
      lia
    obtain ⟨T', hT', hr, hpt, _, _⟩ := hp.member n hl
    obtain rfl : T' = T := by simpa using hT'.symm.trans hT
    rw [hno]
    refine ⟨T', hl, hT', hr, hpt, hs, ?_⟩
    rw [hp.started n T' hT' hr hpt, hs]
  · intro i hop
    cases hp.patched i with
    | fori k _ hk hj _ => exact ⟨k, hk, hj⟩
    | plain h =>
        have := (ho p).plain i
        rw [← h, hop] at this
        cases this
    | blacklisted hh _ _ h =>
        rw [h] at hop
        rcases hotOp_cases hh with h | h | h | h <;> rw [iForm, h] at hop <;> cases hop
    | loop n T hh _ _ _ h =>
        rw [h] at hop
        rcases hotOp_cases hh with h | h | h | h <;> rw [jForm, h] at hop <;> cases hop
    | ret n T _ _ _ _ h =>
        rw [h] at hop
        cases hop
  · intro hnone i
    cases hp.patched i with
    | plain h =>
        refine ⟨.inl h, ?_⟩
        rw [reenableproto_of_not_interp, h]
        rw [h]
        exact interpOp_orig (ho p) i
    | blacklisted hop hlt hf h => exact ⟨.inr h, reenableproto_iForm (ho p) hf hlt hop h⟩
    | loop n T _ hl _ _ _ => exact absurd hl (hnone n)
    | ret n T _ hl _ _ _ => exact absurd hl (hnone n)
    | fori k _ _ hj _ =>
        -- the loop of a compiled `FORI` is compiled by a live trace
        obtain ⟨n, _, hl, _⟩ := (hp.patched k).compiled (ho p) (by rw [hj]; rfl)
        exact absurd hl (hnone n)

end

/-! ### A stitched trace -/

/-- A function with a loop, a call and a return. -/
def callLoop (i : ℕ) : BCIns :=
  match i with
  | 0 => ⟨.funcf, 2, 0⟩
  | 1 => ⟨.loop, 1, 0x8001⟩
  | 2 => ⟨.call, 0, 0x0101⟩
  | _ => ⟨.ret0, 0, 1⟩

theorem original_callLoop : Original callLoop where
  plain i := by
    unfold callLoop
    split <;> rfl
  header := .inl rfl
  body i hi := by
    unfold callLoop
    split
    · omega
    all_goals decide
  fori i h := by
    have hne : (callLoop i).op ≠ .forl := by
      unfold callLoop
      split <;> decide
    exact absurd h hne

/-- The state before any trace, for this function. -/
def callLoopInit : JitState where
  pt _ := ⟨4, callLoop, false, false, 0, false⟩
  trace _ := .null
  sizetrace := 0
  freetrace := 0
  cur := GCtrace.zero
  state := .idle
  parent := 0
  exitno := 0
  penalty := penaltyClear
  penaltyslot := 0

/-- The loop gets hot. -/
def callLoop₁ : JitState :=
  (traceStart 1000 { callLoopInit with parent := 0, exitno := 0, state := .record } 0 1).getD
    callLoopInit

/-- Its trace is finished. -/
def callLoop₂ : JitState := (traceStop 2 1 callLoop₁).getD callLoopInit

/-- A trace is stitched to it at the call. -/
def callLoop₃ : JitState :=
  (traceStart 1000 { callLoop₂ with parent := 0, exitno := 1, state := .record } 0 2).getD
    callLoopInit

/-- That trace is finished, too. -/
def callLoop₄ : JitState := (traceStop 2 0 callLoop₃).getD callLoopInit

theorem run_callLoop₂ : Run (fun _ => callLoop) [.start 1, .stop 1 0] callLoop₂ := by
  have h₀ : Run (fun _ => callLoop) [] callLoopInit :=
    .init ⟨fun _ => rfl, fun _ => rfl, fun _ => rfl, fun _ => rfl, rfl, rfl, rfl, rfl⟩
  have h₁ : Run (fun _ => callLoop) ([] ++ [Event.start 1]) callLoop₁ :=
    h₀.step (@Step.hot _ _ 0 1 1000 rfl rfl (by decide) rfl)
  exact h₁.step (@Step.stop _ _ 2 1 rfl rfl)

/-- After the first trace of the loop, the chain of the function lists the live traces. -/
theorem trace_bookkeeping_callLoop :
    ∃ l, RootChain callLoop₂.trace (callLoop₂.pt 0).trace l ∧ l.Nodup ∧
      ∀ n, n ∈ l ↔ liveRoots [.start 1, .stop 1 0] n = some 0 :=
  ((trace_bookkeeping (fun _ => original_callLoop) run_callLoop₂).2.2 0 rfl).1

/-- The events that take traces away. -/
def Event.removes (e : Event) : Bool := e matches .flush _ | .flushproto _ | .flushall | .free _

/-- A chain need not list every trace of the prototype without a root trace, even if no trace was
ever flushed or freed: a stitched trace is in no chain. -/
theorem chain_misses_stitched :
    ¬ ∀ (orig : ℕ → ℕ → BCIns) (evs : List Event) (J : JitState), (∀ p, Original (orig p)) →
      Run orig evs J → (∀ e ∈ evs, e.removes = false) →
      ∀ p l, (J.pt p).dead = false → RootChain J.trace (J.pt p).trace l →
        ∀ n T, J.trace n = .saved T → T.root = 0 → T.startpt = p → n ∈ l := by
  intro h
  have h₃ : Run (fun _ => callLoop) ([Event.start 1, Event.stop 1 0] ++ [Event.start 2]) callLoop₃ :=
    run_callLoop₂.step (@Step.stitch _ _ 0 2 1 1000 rfl (by decide) rfl rfl)
  have h₄ : Run (fun _ => callLoop) (([Event.start 1, Event.stop 1 0] ++ [Event.start 2]) ++ [Event.stopOther 2])
      callLoop₄ := h₃.step (@Step.stop _ _ 2 0 rfl rfl)
  have hchain : RootChain callLoop₄.trace (callLoop₄.pt 0).trace [1] :=
    .cons (by decide) rfl .nil
  have hmem := h _ _ _ (fun _ => original_callLoop) h₄ (by decide) 0 [1] rfl hchain 2 _ rfl rfl rfl
  simp at hmem

end Trace
