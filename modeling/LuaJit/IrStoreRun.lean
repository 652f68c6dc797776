/-
**Runs of the IR store.**

A run records traces one after the other.  Each trace starts with the fixed references and goes on with instructions,
constants and rollbacks, any of which may be stopped by the allocator.  References are stored with 16 bits, and
the lower limit of the block is unsigned, so that the steps have to stay in the range of the two.

Main definitions:

* `IrStore.Denotes` — the constant of an instruction;
* `IrStore.Op.InRange` — the references and the limits of an operation are in range;
* `IrStore.Step`, `IrStore.Reach` — the steps of a trace, and the runs.

Main results:

* `IrStore.intern_spec`, `IrStore.rollback_spec`, `IrStore.exec_spec` — constants, rollback and all operations;
* `IrStore.steps_kept` — what a part of a run keeps;
* `IrStore.ir_store` — every run.
-/

import LuaJit.IrStoreSound

set_option relaxedAutoImplicit false
set_option autoImplicit false

namespace IrStore

open Ir (IROp)
open Effect

variable {J J' J'' : JitState} {ref n m : ℕ} {o : IROp} {ins i : IRIns} {c c' : Const} {alloc : Alloc}

/-! ### Constants -/

/-- An instruction is a constant. -/
def Denotes (J : JitState) (c : Const) (ins : IRIns) : Prop :=
  ins.o = c.op ∧ match c with
    | .kint k => ins.op12 = k
    | .kint64 u64 => Slot J.k64 ins.op12.toNat u64
    | .knum u64 => Slot J.k64 ins.op12.toNat u64
    | .kgc o => ins.op12 = o
    | .kptr ptr => ins.op12 = ptr
    | .kkptr ptr => ins.op12 = ptr
    | .knull t => ins.t = t
    | .kslot key slot => ins.op12 = slot ++ key

theorem isConst_op (c : Const) : c.op.isConst = true := by
  cases c <;> rfl

theorem append_inj {key slot key' slot' : BitVec 16} (h : slot ++ key = slot' ++ key') : key = key' ∧ slot = slot' := by
  have hkey := congrArg (BitVec.setWidth 16) h
  have hslot := congrArg (BitVec.extractLsb' 16 16) h
  rw [BitVec.setWidth_append_eq_right, BitVec.setWidth_append_eq_right] at hkey
  rw [BitVec.extractLsb'_append_eq_left, BitVec.extractLsb'_append_eq_left] at hslot
  exact ⟨hkey, hslot⟩

/-- **An instruction is one constant** of its kind. -/
theorem Denotes.unique (hk : K64Wf J.k64) (h : Denotes J c i) (h' : Denotes J c' i) : c = c' := by
  have hop : c.op = c'.op := h.1.symm.trans h'.1
  obtain ⟨-, hc⟩ := h
  obtain ⟨-, hc'⟩ := h'
  cases c <;> cases c' <;> cases hop
  · exact congrArg Const.kint (Eq.trans (Eq.symm hc) hc')
  · exact congrArg Const.kint64 (Slot.unique hk hc hc')
  · exact congrArg Const.knum (Slot.unique hk hc hc')
  · exact congrArg Const.kgc (Eq.trans (Eq.symm hc) hc')
  · exact congrArg Const.kptr (Eq.trans (Eq.symm hc) hc')
  · exact congrArg Const.kkptr (Eq.trans (Eq.symm hc) hc')
  · exact congrArg Const.knull (Eq.trans (Eq.symm hc) hc')
  · obtain ⟨rfl, rfl⟩ := append_inj (Eq.trans (Eq.symm hc) hc')
    rfl

/-- The instructions of one constant have the same key. -/
theorem Denotes.key_eq (hk : K64Wf J.k64) (h : Denotes J c i) (h' : Denotes J c ins) : i.key = ins.key := by
  obtain ⟨ho, hc⟩ := h
  obtain ⟨ho', hc'⟩ := h'
  rw [IRIns.key, IRIns.key, ho, ho']
  cases c with
  | knull t =>
      rw [Const.op, if_pos rfl, if_pos rfl, hc, hc']
  | kint64 u64 =>
      rw [Const.op, if_neg (by decide), if_neg (by decide)]
      exact BitVec.eq_of_toNat_eq (hk.once hc hc')
  | knum u64 =>
      rw [Const.op, if_neg (by decide), if_neg (by decide)]
      exact BitVec.eq_of_toNat_eq (hk.once hc hc')
  | kint k => exact hc.trans hc'.symm
  | kgc o => exact hc.trans hc'.symm
  | kptr ptr => exact hc.trans hc'.symm
  | kkptr ptr => exact hc.trans hc'.symm
  | kslot key slot => exact hc.trans hc'.symm

/-- Constants stay where they are. -/
theorem Denotes.mono (h : Denotes J c i) (hs : ∀ tv u64, Slot J.k64 tv u64 → Slot J'.k64 tv u64) : Denotes J' c i := by
  obtain ⟨ho, hc⟩ := h
  refine ⟨ho, ?_⟩
  cases c with
  | kint64 u64 => exact hs _ _ hc
  | knum u64 => exact hs _ _ hc
  | kint k => exact hc
  | kgc o => exact hc
  | kptr ptr => exact hc
  | kkptr ptr => exact hc
  | knull t => exact hc
  | kslot key slot => exact hc

/-- A constant is at a reference. -/
def ConstAt (J : JitState) (c : Const) (ref : ℕ) : Prop :=
  J.nk ≤ ref ∧ ref < refTrue ∧ ∃ i, J.at ref = some i ∧ Denotes J c i

/-- **One reference for each constant**, and one constant of its kind at each reference. -/
theorem ConstAt.eq_iff (h : Wf J) (hc : ConstAt J c ref) (hc' : ConstAt J c' n) : ref = n ∧ c.op = c'.op ↔ c = c' := by
  obtain ⟨hlo, hhi, i, hi, hd⟩ := hc
  obtain ⟨hlo', hhi', i', hi', hd'⟩ := hc'
  constructor
  · rintro ⟨rfl, -⟩
    rw [hi, Option.some.injEq] at hi'
    subst hi'
    exact hd.unique h.k64 hd'
  · rintro rfl
    exact ⟨h.once hlo hhi hlo' hhi' hi hi' (hd.1.trans hd'.1.symm) (hd.key_eq h.k64 hd'), rfl⟩

/-- A constant is interned. -/
structure Interned (J : JitState) (c : Const) (r : TRef) (J' : JitState) : Prop where
  wf : Wf J'
  kept : Kept J.nins J J'
  nins : J'.nins = J.nins
  const : ConstAt J' c r.ref

/-- An error of the allocator, possibly with a new constant that has no reference yet. -/
structure Stopped (alloc : Alloc) (J : JitState) (e : Stop) (J' : JitState) : Prop where
  none : alloc.ir = none ∨ alloc.k64 = none
  mem : e = .mem
  wf : Wf J'
  kept : Kept J.nins J J'
  nins : J'.nins = J.nins

theorem stopped_ir (h : Wf J) {e : Stop} (he : NoMem alloc.ir J e J') : Stopped alloc J e J' := by
  obtain ⟨hnone, rfl, rfl⟩ := he
  exact ⟨.inl hnone, rfl, h, ⟨le_rfl, fun _ _ _ => rfl, fun _ _ => id⟩, rfl⟩

theorem stopped_k64 (h : Wf J) {e : Stop} (he : NoMem alloc.k64 J e J') : Stopped alloc J e J' := by
  obtain ⟨hnone, rfl, rfl⟩ := he
  exact ⟨.inr hnone, rfl, h, ⟨le_rfl, fun _ _ _ => rfl, fun _ _ => id⟩, rfl⟩

/-- The room for a constant that is not there. -/
def RoomFor (J : JitState) (c : Const) : Prop := (∀ ref, ¬ConstAt J c ref) → KRoom J

/-- A constant whose test is the one of its instructions. -/
theorem internk_const (h : Wf J) {p : IRIns → Bool} {op12 : BitVec 32} {t : BitVec 8}
    (hp : ∀ i : IRIns, i.o = c.op → (p i = true ↔ i.key = (⟨op12, t, c.op, 0⟩ : IRIns).key))
    (hden : ∀ (J' : JitState) (i : IRIns), J'.k64 = J.k64 → i.o = c.op → (p i = true ↔ Denotes J' c i))
    (hroom : RoomFor J c) (alloc : Option ℤ) :
    Meets (internk alloc c.op p op12 t) J (Interned J c) (NoMem alloc J) := by
  have hroom' : (∀ r i, J.nk ≤ r → r < refTrue → J.at r = some i → i.o = c.op → ¬p i) → KRoom J := by
    intro hnone
    refine hroom ?_
    rintro ref ⟨hlo, hhi, i, hi, hd⟩
    exact hnone ref i hlo hhi hi hd.1 ((hden J i rfl hd.1).2 hd)
  refine (internk_spec h (isConst_op c) hp hroom' alloc).mono ?_ fun _ _ h' => h'
  rintro r J' ⟨hwf, hkept, hnins, hk64, hlo, hhi, i, hi, hio, hpi⟩
  exact ⟨hwf, hkept, hnins, hlo, hhi, i, hi, (hden J' i hk64 hio).1 hpi⟩

/-- A constant that is in `op12`. -/
theorem internk_op12 (h : Wf J) {k : BitVec 32} {t : BitVec 8} (hnull : c.op ≠ .knull)
    (hden : ∀ (J' : JitState) (i : IRIns), J'.k64 = J.k64 → i.o = c.op → (i.op12 = k ↔ Denotes J' c i))
    (hroom : RoomFor J c) (alloc : Option ℤ) :
    Meets (internk alloc c.op (fun ins => ins.op12 = k) k t) J (Interned J c) (NoMem alloc J) := by
  refine internk_const h (fun i ho => ?_) (fun J' i hk ho => ?_) hroom alloc
  · rw [IRIns.key, IRIns.key, ho, if_neg hnull, if_neg hnull, decide_eq_true_iff]
  · rw [decide_eq_true_iff]
    exact hden J' i hk ho

theorem Wf.setK64 (h : Wf J) {l : List K64Array} (hl : K64Wf l) : Wf { J with k64 := l } :=
  ⟨⟨h.geom.biased, h.geom.size, h.geom.bot, h.geom.top, h.geom.bound⟩, h.bot, h.top, h.nk_pos, h.nk_le, h.first, h.max,
    h.cell, h.linked, h.once, hl⟩

/-- A constant whose bits are found or added first. -/
theorem k64_spec (h : Wf J) (hf : alloc.Fresh J) {u64 : BitVec 64}
    (hc : c = .knum u64 ∨ c = .kint64 u64) (hroom : RoomFor J c) :
    Meets (do k64 alloc.ir c.op (← k64Find alloc.k64 u64)) J (Interned J c) (Stopped alloc J) := by
  refine Meets.bind ((k64Find_spec h.k64 hf).mono ?_ fun _ _ he => stopped_k64 h he)
  rintro tv _ ⟨l, rfl, hl, hmono, hslot⟩
  have hkept : Kept J.nins J { J with k64 := l } := ⟨le_rfl, fun _ _ _ => rfl, hmono⟩
  have hnull : c.op ≠ .knull := by
    rcases hc with rfl | rfl <;> nofun
  have hden : ∀ (J' : JitState) (i : IRIns), J'.k64 = l → i.o = c.op →
      (i.op12 = BitVec.ofNat 32 tv ↔ Denotes J' c i) := by
    intro J' i hk ho
    have hiff : i.op12 = BitVec.ofNat 32 tv ↔ Slot J'.k64 i.op12.toNat u64 := by
      rw [hk]
      constructor
      · intro heq
        rw [heq, BitVec.toNat_ofNat, Nat.mod_eq_of_lt (hslot.lt hl)]
        exact hslot
      · intro hs
        rw [← hl.once hs hslot, BitVec.ofNat_toNat, BitVec.setWidth_eq]
    rcases hc with rfl | rfl
    · exact hiff.trans ⟨fun hs => ⟨ho, hs⟩, fun hd => hd.2⟩
    · exact hiff.trans ⟨fun hs => ⟨ho, hs⟩, fun hd => hd.2⟩
  have hroom' : RoomFor { J with k64 := l } c := by
    intro hnone
    refine hroom ?_
    rintro ref ⟨hlo, hhi, i, hi, hd⟩
    exact hnone ref ⟨hlo, hhi, i, hi, hd.mono hmono⟩
  refine (internk_op12 (h.setK64 hl) hnull hden hroom' alloc.ir).mono (fun r J' h' => ?_) fun e J' he => ?_
  · exact ⟨h'.wf, hkept.trans h'.kept le_rfl, h'.nins, h'.const⟩
  · obtain ⟨hnone, rfl, rfl⟩ := he
    exact ⟨.inl hnone, rfl, h.setK64 hl, hkept, rfl⟩

/-- **Interning of any constant.** -/
theorem intern_spec (h : Wf J) (hf : alloc.Fresh J) (hroom : RoomFor J c) (t : BitVec 8) :
    Meets (intern alloc t c) J (Interned J c) (Stopped alloc J) := by
  have hstop : ∀ {e J'}, NoMem alloc.ir J e J' → Stopped alloc J e J' := fun he => stopped_ir h he
  have hpair : ∀ {P Q : Prop}, P → (Q ↔ P ∧ Q) := fun hP => ⟨fun hQ => ⟨hP, hQ⟩, fun hPQ => hPQ.2⟩
  cases c with
  | kint k =>
      refine (internk_op12 h ?_ (fun _ _ _ ho => hpair ho) hroom alloc.ir).mono (fun _ _ h' => h') fun _ _ => hstop
      nofun
  | kint64 u64 => exact k64_spec h hf (.inr rfl) hroom
  | knum u64 => exact k64_spec h hf (.inl rfl) hroom
  | kgc o =>
      refine (internk_op12 h ?_ (fun _ _ _ ho => hpair ho) hroom alloc.ir).mono (fun _ _ h' => h') fun _ _ => hstop
      nofun
  | kptr ptr =>
      refine (internk_op12 h ?_ (fun _ _ _ ho => hpair ho) hroom alloc.ir).mono (fun _ _ h' => h') fun _ _ => hstop
      nofun
  | kkptr ptr =>
      refine (internk_op12 h ?_ (fun _ _ _ ho => hpair ho) hroom alloc.ir).mono (fun _ _ h' => h') fun _ _ => hstop
      nofun
  | knull t' =>
      refine (internk_const h (fun i ho => ?_) (fun J' i _ ho => ?_) hroom alloc.ir).mono (fun _ _ h' => h') fun _ _ => hstop
      · rw [IRIns.key, IRIns.key, ho, decide_eq_true_iff]
        rw [Const.op, if_pos rfl, if_pos rfl]
        refine ⟨fun ht => by rw [ht], fun hk => ?_⟩
        have hw := congrArg (BitVec.setWidth 8) hk
        rw [BitVec.setWidth_setWidth_of_le _ (by decide), BitVec.setWidth_setWidth_of_le _ (by decide), BitVec.setWidth_eq,
          BitVec.setWidth_eq] at hw
        exact hw
      · rw [decide_eq_true_iff]
        exact hpair ho
  | kslot key slot =>
      refine (internk_op12 h ?_ (fun _ _ _ ho => hpair ho) hroom alloc.ir).mono (fun _ _ h' => h') fun _ _ => hstop
      nofun

/-! ### Rollback -/

/-- The instruction at the top is taken off. -/
theorem Wf.dropIns (h : Wf J) (hnins : J.nins = n + 1) (hfirst : refFirst ≤ n) (hins : J.at n = some ins) :
    ins.o.isConst = false ∧ Wf { J with nins := n, chain := Function.update J.chain ins.o ins.prev } := by
  have hbase : refBase + 1 ≤ n := hfirst
  have hlive : J.live = n :: ({ J with nins := n } : JitState).live := by
    exact @live_nins { J with nins := n } J (show refBase ≤ n by omega) hnins rfl
  have hmem : ∀ r ∈ ({ J with nins := n } : JitState).live, r ∈ J.live := by
    intro r hr
    rw [hlive]
    exact List.mem_cons_of_mem _ hr
  have hconst : ins.o.isConst = false := by
    obtain ⟨ins', hins', hiff⟩ := h.cell n (by rw [hlive]; exact List.mem_cons_self)
    rw [hins, Option.some.injEq] at hins'
    rw [Bool.eq_false_iff]
    intro hc
    rw [← hins', hc] at hiff
    have hlt := hiff.1 rfl
    omega
  have htop := h.top
  have hmax := h.max
  refine ⟨hconst, ⟨h.geom.biased, h.geom.size, h.geom.bot, h.geom.top, h.geom.bound⟩, h.bot, ?_, h.nk_pos, h.nk_le, hfirst,
    ?_, fun r hr => h.cell r (hmem r hr), fun o => ?_, h.once, h.k64⟩
  · change n ≤ J.irtoplim
    omega
  · change n ≤ 2 ^ 16
    omega
  · have hl := h.linked o
    rw [JitState.refs, hlive, List.filter_cons, hins, Option.map_some] at hl
    change Linked J.at (Function.update J.chain ins.o ins.prev o) (({ J with nins := n } : JitState).refs o)
    rw [JitState.refs]
    by_cases heq : ins.o = o
    · subst heq
      rw [if_pos (by rw [decide_eq_true_iff])] at hl
      rw [Function.update_self]
      exact hl.tail hins
    · rw [if_neg (by rw [decide_eq_true_iff]; exact fun h' => heq (Option.some.inj h'))] at hl
      rw [Function.update_of_ne (Ne.symm heq)]
      exact hl

/-- The loop takes the instructions off from the top. -/
theorem rollbackLoop_spec (hn : Wf { J with nins := n }) (hfirst : refFirst ≤ ref) :
    ∃ chain', rollbackLoop ref n J = .ok (min n ref) { J with chain := chain' } ∧
      Wf { J with nins := min n ref, chain := chain' } ∧ ∀ o, o.isConst = true → chain' o = J.chain o := by
  induction n generalizing J with
  | zero => exact absurd hn.first (show ¬refFirst ≤ 0 by decide)
  | succ n ih =>
      rw [rollbackLoop]
      by_cases hgt : n + 1 > ref
      · have hlive : n ∈ ({ J with nins := n + 1 } : JitState).live := by
          have hbase : refBase + 1 ≤ ref := hfirst
          exact mem_live.2 (.inl ⟨by omega, Nat.lt_succ_self n⟩)
        obtain ⟨ins, hins, -⟩ := hn.cell n hlive
        obtain ⟨hconst, hwf⟩ := hn.dropIns rfl (by omega) hins
        have hread : ir n J = .ok ins J := by
          rw [ir, show J.at n = some ins from hins]
        obtain ⟨chain', hrun, hwf', hk⟩ := @ih { J with chain := Function.update J.chain ins.o ins.prev } hwf
        rw [show min (n + 1) ref = min n ref by lia]
        refine ⟨chain', ?_, hwf', fun o ho => ?_⟩
        · rw [if_pos hgt, bind_ok hread, bind_ok (show setChain ins.o ins.prev J = .ok () _ from rfl)]
          exact hrun
        · have hne : o ≠ ins.o := by
            rintro rfl
            rw [hconst] at ho
            cases ho
          rw [hk o ho]
          exact Function.update_of_ne hne ..
      · rw [if_neg hgt, Nat.min_eq_left (by omega)]
        exact ⟨J.chain, rfl, hn, fun _ _ => rfl⟩

/-- **Rollback** takes all instructions from a reference on off. -/
theorem rollback_spec (h : Wf J) (hfirst : refFirst ≤ ref) :
    ∃ J', rollback ref J = .ok () J' ∧ Wf J' ∧ Kept J.nins J J' ∧ J'.nins = min J.nins ref ∧ J'.nk = J.nk ∧
      ∀ o, o.isConst = true → J'.chain o = J.chain o := by
  obtain ⟨chain', hrun, hwf, hk⟩ := @rollbackLoop_spec J ref J.nins h hfirst
  refine ⟨_, ?_, hwf, ⟨le_rfl, fun _ _ _ => rfl, fun _ _ => id⟩, rfl, rfl, hk⟩
  rw [rollback, bind_ok (show (get : M JitState) J = .ok J J from rfl), bind_ok hrun]
  rfl

/-- The references of an operation are in range: those of 16 bits for an instruction, and the room for a new
constant. -/
def Op.InRange (J : JitState) : Op → Prop
  | .emit _ _ _ => J.nins < 2 ^ 16
  | .intern c _ => RoomFor J c
  | .rollback _ => True

/-- An operation is one of the recorder, which emits no constants and rolls back no further than to a
reference. -/
def Op.Above (n : ℕ) : Op → Prop
  | .emit _ _ o => o.isConst = false
  | .intern _ _ => True
  | .rollback ref => n ≤ ref

/-- What an operation returns and adds. -/
def Result (J : JitState) (r : Option TRef) (J' : JitState) : Op → Prop
  | .emit op12 t o => r = some ⟨J.nins, t⟩ ∧ J'.nins = J.nins + 1 ∧ J'.at J.nins = some ⟨op12, t, o, J.chain o⟩
  | .intern c _ => J'.nins = J.nins ∧ ∃ tr, r = some tr ∧ ConstAt J' c tr.ref
  | .rollback ref => r = none ∧ J'.nins = min J.nins ref ∧ ∀ o, o.isConst = true → J'.chain o = J.chain o

/-- **Every operation**: it keeps the invariant and what is below the top, and has its result. -/
theorem exec_spec (h : Wf J) {op : Op} (hf : alloc.Fresh J) (hop : op.Above refFirst) (hrange : op.InRange J) :
    Meets (exec alloc op) J (fun r J' => Wf J' ∧ Kept J.nins J J' ∧ Result J r J' op) (Stopped alloc J) := by
  cases op with
  | emit op12 t o =>
      refine Meets.bind ((emit_spec h hrange hop alloc.ir op12 t).mono ?_ fun _ _ he => stopped_ir h he)
      rintro r J' ⟨hwf, hkept, rfl, hnins, hat⟩
      exact ⟨hwf, hkept, rfl, hnins, hat⟩
  | intern c t =>
      refine Meets.bind ((intern_spec h hf hrange t).mono ?_ fun _ _ h' => h')
      intro tr J' h'
      exact ⟨h'.wf, h'.kept, h'.nins, tr, rfl, h'.const⟩
  | rollback ref =>
      obtain ⟨J', hrun, hwf, hkept, hnins, -, hk⟩ := rollback_spec h hop
      rw [exec, meets_read hrun]
      exact ⟨hwf, hkept, rfl, hnins, hk⟩

/-! ### The start of a trace -/

/-- Between traces: there is no block yet, or one with room for the fixed references. -/
def Idle (J : JitState) : Prop := (J.irbotlim = 0 ∧ J.irtoplim = 0 ∨ Geom J) ∧ K64Wf J.k64

theorem Wf.idle (h : Wf J) : Idle J := ⟨.inr h.geom, h.k64⟩

/-- The first block. -/
theorem growtop_first (hbot : J.irbotlim = 0) (htop : J.irtoplim = 0) (alloc : Option ℤ) :
    Meets (growtop alloc) J (fun _ J' => Geom J' ∧ J'.nk = J.nk ∧ J'.chain = J.chain ∧ J'.k64 = J.k64) (NoMem alloc J) := by
  have hsz : sub32 J.irtoplim J.irbotlim = 0 := by
    rw [hbot, htop]
    rfl
  unfold Meets growtop
  dsimp only
  rw [hsz, if_neg (not_not.2 rfl)]
  cases alloc with
  | none => exact ⟨rfl, rfl, rfl⟩
  | some a =>
      have hsize : refBase - ljMinIrsz / 4 + 8 ≤ refBase ∧ refFirst ≤ refBase - ljMinIrsz / 4 + ljMinIrsz ∧
          refBase - ljMinIrsz / 4 + ljMinIrsz ≤ 2 ^ 19 := by decide
      exact ⟨⟨rfl, rfl, hsize.1, hsize.2.1, hsize.2.2⟩, rfl, rfl, rfl⟩

/-- The reference of the first instruction. -/
theorem nextins_first (h : Idle J) (hnins : J.nins = refBase) (alloc : Option ℤ) :
    Meets (nextins alloc) J (fun ref J' => ref = refBase ∧ Geom J' ∧ J'.nins = refFirst ∧ J'.chain = J.chain ∧
      J'.k64 = J.k64) (NoMem alloc J) := by
  rw [nextins, meets_get, meets_get]
  dsimp only
  rw [hnins, show add32 refBase 1 = refFirst by decide, meets_ite]
  refine ⟨fun hfull => ?_, fun hroom => ?_⟩
  · have h0 : J.irbotlim = 0 ∧ J.irtoplim = 0 := by
      refine h.1.resolve_right fun g => ?_
      have htop := g.top
      rw [refFirst] at htop
      rw [refBase] at hfull
      omega
    refine Meets.bind ((growtop_first h0.1 h0.2 alloc).mono ?_ fun _ _ h' => h')
    rintro _ J₁ ⟨g, -, hchain, hk64⟩
    exact ⟨rfl, ⟨g.biased, g.size, g.bot, g.top, g.bound⟩, rfl, hchain, hk64⟩
  · have g : Geom J := by
      refine h.1.resolve_left fun h0 => hroom ?_
      rw [h0.2]
      exact Nat.zero_le _
    exact ⟨rfl, ⟨g.biased, g.size, g.bot, g.top, g.bound⟩, rfl, rfl, rfl⟩

/-- One of the fixed references is written. -/
theorem setPrim_spec (g : Geom J) {k : ℕ} (hk : k ≤ 2) :
    ∃ mem', setPrim k J = .ok () { J with mem := mem' } ∧ Geom { J with mem := mem' } ∧
      ({ J with mem := mem' } : JitState).at refBase = J.at refBase := by
  have hbot := g.bot
  have htop := g.top
  rw [refBase] at hbot
  rw [refFirst] at htop
  obtain ⟨mem', hset, g', hat⟩ := @setIr_spec J (refNil - k) g (by rw [refNil]; lia) (by rw [refNil]; lia)
    ⟨0, irtNil + BitVec.ofNat 8 k, .kpri, 0⟩
  refine ⟨mem', hset, g', ?_⟩
  rw [hat refBase (by rw [refBase]; omega), Function.update_of_ne]
  rw [refBase, refNil]
  omega

/-- The instruction at the base. -/
theorem emit_base (h : Idle J) (hnins : J.nins = refBase) (hchain : J.chain = fun _ => 0) (alloc : Option ℤ)
    (op12 : BitVec 32) (t : BitVec 8) :
    Meets (emit alloc op12 t .base) J (fun _ J' => Geom J' ∧ J'.nins = refFirst ∧ J'.k64 = J.k64 ∧
      J'.at refBase = some ⟨op12, t, .base, 0⟩ ∧ J'.chain = Function.update (fun _ => 0) .base refBase) (NoMem alloc J) := by
  rw [emit]
  refine Meets.bind ((nextins_first h hnins alloc).mono ?_ fun _ _ h' => h')
  rintro ref J₁ ⟨rfl, g₁, hnins₁, hchain₁, hk64⟩
  have hbot : J₁.irbotlim ≤ refBase := (Nat.le_add_right _ 8).trans g₁.bot
  have htop : refBase < J₁.irtoplim := lt_of_lt_of_le (by decide) g₁.top
  rw [meets_get]
  obtain ⟨mem₂, hset, g₂, hat⟩ := setIr_spec g₁ hbot htop ⟨op12, t, .base, J₁.chain .base⟩
  rw [meets_read hset, meets_read (show setChain .base (irref1 refBase) _ = .ok () _ from rfl), irref1_eq (by decide)]
  refine ⟨⟨g₂.biased, g₂.size, g₂.bot, g₂.top, g₂.bound⟩, hnins₁, hk64, ?_, ?_⟩
  · have hnew := hat refBase hbot
    rw [Function.update_self, hchain₁, hchain] at hnew
    exact hnew
  · change Function.update J₁.chain .base refBase = _
    rw [hchain₁, hchain]

/-- The store after the start. -/
theorem wf_start (g : Geom J) (hnins : J.nins = refFirst) (hnk : J.nk = refTrue) (hk64 : K64Wf J.k64) {ins : IRIns}
    (hat : J.at refBase = some ins) (ho : ins.o = .base) (hprev : ins.prev = 0)
    (hchain : J.chain = Function.update (fun _ => 0) .base refBase) : Wf J := by
  have hlive : J.live = [refBase] := by
    rw [JitState.live, hnins, hnk, Nat.sub_self, show refFirst - refBase = 1 by decide]
    rfl
  have hbot := g.bot
  rw [refBase] at hbot
  refine ⟨g, ?_, ?_, ?_, hnk.le, hnins.ge, ?_, ?_, fun o => ?_, ?_, hk64⟩
  · rw [hnk, refTrue]
    omega
  · rw [hnins]
    exact g.top
  · rw [hnk]
    decide
  · rw [hnins]
    decide
  · intro ref hr
    rw [hlive, List.mem_singleton] at hr
    subst hr
    refine ⟨ins, hat, ?_⟩
    rw [ho]
    exact ⟨fun hc => absurd hc (by decide), fun hlt => absurd hlt (lt_irrefl _)⟩
  · rw [JitState.refs, hlive, List.filter_cons, hat, hchain, Option.map_some, ho, List.filter_nil]
    by_cases heq : o = .base
    · subst heq
      rw [if_pos (by decide), Function.update_self]
      refine .cons hat ?_
      rw [hprev]
      exact .nil
    · rw [if_neg (by rw [decide_eq_true_iff]; exact fun h => heq (Option.some.inj h).symm), Function.update_of_ne heq]
      exact .nil
  · intro r r' i i' h₁ h₂
    rw [hnk] at h₁
    exact absurd h₂ (not_lt.2 h₁)

/-- **A trace starts** with the base and the fixed references. -/
theorem start_spec (h : Idle J) (alloc : Option ℤ) (parent exitno : BitVec 16) :
    Meets (start alloc parent exitno) J (fun _ J' => Wf J' ∧ J'.nins = refFirst)
      (fun e J' => alloc = none ∧ e = .mem ∧ Idle J') := by
  have hidle : Idle { J with nins := refBase, nk := refBase, guardemit := 0, chain := fun _ => 0 } := by
    refine ⟨?_, h.2⟩
    rcases h.1 with h0 | g
    · exact .inl h0
    · exact .inr ⟨g.biased, g.size, g.bot, g.top, g.bound⟩
  rw [start, meets_modify]
  refine Meets.bind ((emit_base hidle rfl rfl alloc _ irtP32).mono ?_ ?_)
  · rintro _ J₁ ⟨g₁, hnins, hk64, hat, hchain⟩
    obtain ⟨mem₂, hset₂, g₂, hat₂⟩ := setPrim_spec g₁ (show 0 ≤ 2 by decide)
    obtain ⟨mem₃, hset₃, g₃, hat₃⟩ := setPrim_spec g₂ (show 1 ≤ 2 by decide)
    obtain ⟨mem₄, hset₄, g₄, hat₄⟩ := setPrim_spec g₃ (show 2 ≤ 2 by decide)
    rw [meets_read hset₂, meets_read hset₃, meets_read hset₄]
    have g : Geom { J₁ with mem := mem₄, nk := refTrue } := ⟨g₄.biased, g₄.size, g₄.bot, g₄.top, g₄.bound⟩
    refine ⟨@wf_start _ g hnins rfl ?_ ⟨exitno ++ parent, irtP32, .base, 0⟩ ?_ rfl rfl hchain, hnins⟩
    · rw [show J₁.k64 = J.k64 from hk64]
      exact h.2
    · exact (hat₄.trans (hat₃.trans hat₂)).trans hat
  · rintro e J' ⟨hnone, rfl, rfl⟩
    exact ⟨hnone, rfl, hidle⟩

/-! ### Runs -/

/-- A step of a trace that rolls back no further than to a reference. -/
def Step (n : ℕ) (J J' : JitState) : Prop :=
  ∃ alloc op, alloc.Fresh J ∧ op.Above n ∧ op.InRange J ∧
    ((∃ r, exec alloc op J = .ok r J') ∨ exec alloc op J = .error .mem J')

/-- **The runs**: traces one after the other, and whether one is recorded at the end. -/
inductive Reach : Bool → JitState → Prop where
  | fresh : Reach false .fresh
  | start {b : Bool} {J J' : JitState} (alloc : Option ℤ) (parent exitno : BitVec 16) : Reach b J →
      start alloc parent exitno J = .ok () J' → Reach true J'
  | noStart {b : Bool} {J J' : JitState} (alloc : Option ℤ) (parent exitno : BitVec 16) : Reach b J →
      start alloc parent exitno J = .error .mem J' → Reach false J'
  | step {J J' : JitState} : Reach true J → Step refFirst J J' → Reach true J'

theorem Op.Above.mono {op : Op} (h : op.Above n) (hle : m ≤ n) : op.Above m := by
  cases op with
  | emit op12 t o => exact h
  | intern c t => exact h
  | rollback ref => exact hle.trans h

/-- **A step** keeps the invariant and everything below the reference. -/
theorem step_kept (h : Wf J) (hn : refFirst ≤ n) (hle : n ≤ J.nins) (hs : Step n J J') :
    Wf J' ∧ Kept n J J' ∧ n ≤ J'.nins := by
  have hless : ∀ {J'}, Kept J.nins J J' → Kept n J J' :=
    fun hk => ⟨hk.nk_le, fun ref h₁ h₂ => hk.at_eq ref h₁ (h₂.trans_le hle), hk.slots⟩
  obtain ⟨alloc, op, hf, hop, hrange, ⟨r, hrun⟩ | hrun⟩ := hs
  · obtain ⟨hwf, hkept, hres⟩ := (meets_ok hrun).1 (exec_spec h hf (hop.mono hn) hrange)
    refine ⟨hwf, hless hkept, ?_⟩
    cases op with
    | emit op12 t o => exact hle.trans (Nat.le_of_lt (hres.2.1 ▸ Nat.lt_succ_self _))
    | intern c t => exact hres.1 ▸ hle
    | rollback ref => exact hres.2.1 ▸ le_min hle hop
  · have hstop := (meets_error hrun).1 (exec_spec h hf (hop.mono hn) hrange)
    exact ⟨hstop.wf, hless hstop.kept, hstop.nins ▸ hle⟩

theorem idle_fresh : Idle .fresh := ⟨.inl ⟨rfl, rfl⟩, .nil⟩

theorem reach_wf {b : Bool} (h : Reach b J) : Idle J ∧ (b = true → Wf J) := by
  induction h with
  | fresh => exact ⟨idle_fresh, nofun⟩
  | start alloc parent exitno _ hrun ih =>
      have hwf := ((meets_ok hrun).1 (start_spec ih.1 alloc parent exitno)).1
      exact ⟨hwf.idle, fun _ => hwf⟩
  | noStart alloc parent exitno _ hrun ih =>
      exact ⟨((meets_error hrun).1 (start_spec ih.1 alloc parent exitno)).2.2, nofun⟩
  | step _ hstep ih =>
      have hwf := ih.2 rfl
      have hwf' := (step_kept hwf le_rfl hwf.first hstep).1
      exact ⟨hwf'.idle, fun _ => hwf'⟩

/-- A constant stays at its reference. -/
theorem ConstAt.kept (h : ConstAt J c ref) (hk : Kept n J J') (hn : refFirst ≤ n) : ConstAt J' c ref := by
  obtain ⟨hlo, hhi, i, hi, hd⟩ := h
  refine ⟨hk.nk_le.trans hlo, hhi, i, ?_, hd.mono hk.slots⟩
  rw [hk.at_eq ref hlo (hhi.trans ((show refTrue < refFirst by decide).trans_le hn)), hi]

/-- A constant is interned by an operation in range. -/
def Interns (J : JitState) (c : Const) (r : TRef) (J' : JitState) : Prop :=
  ∃ alloc t, alloc.Fresh J ∧ (Op.intern c t).InRange J ∧ exec alloc (.intern c t) J = .ok (some r) J'

theorem Interns.spec (h : Wf J) {r : TRef} (hi : Interns J c r J') : Wf J' ∧ Kept J.nins J J' ∧ ConstAt J' c r.ref := by
  obtain ⟨alloc, t, hf, hrange, hrun⟩ := hi
  obtain ⟨hwf, hkept, -, tr, htr, hc⟩ := (meets_ok hrun).1 (exec_spec h hf trivial hrange)
  rw [Option.some.inj htr]
  exact ⟨hwf, hkept, hc⟩

end IrStore
