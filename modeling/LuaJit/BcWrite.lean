/-
**Writing bytecode.**

A prototype is dumped with its instructions as they were before the trace compiler patched them.
The writer does not use `trace_unpatch` for that: it recovers the opcode of each patched instruction
by arithmetic, and the operand `D` of a compiled one from the trace that replaced it.

This inverts all patches of loops, of the `FORI` of a loop and of blacklisted instructions.  It does
not invert the patch of a trace that starts at a return instruction, which replaces the whole word:
such an instruction is written as a `LOOP`.

Main definitions:

* `BcWrite.bcwriteBytecode` — the instructions written for a prototype;
* `BcWrite.originalBytecode` — those it had before any patching.

Main results:

* `BcWrite.unpatchIns_orig`, `BcWrite.unpatchIns_ret` — what is written for one instruction;
* `BcWrite.bcwrite_original_iff` — **exactly when the original is written**, in every run.
-/

import LuaJit.TraceRun

set_option relaxedAutoImplicit false
set_option autoImplicit false

namespace BcWrite

open Bc Trace

/-- Unpatch an instruction in the output.  The header of the function is not in it. -/
def unpatchIns (J : JitState) (ins : BCIns) : Option BCIns :=
  match ins.op with
  | .iforl | .iiterl | .iloop | .jfori => some { ins with op := ins.op.shift .forl .iforl }
  | .jforl | .jiterl | .jloop =>
      match traceref J ins.d.toNat with
      | none => none
      | some T =>
          some ⟨ins.op.shift .forl .jforl, ins.a, bcB T.startins ++ bcC T.startins⟩
  | _ => some ins

/-- The instructions of a prototype without its header. -/
def bytecode (sizebc : ℕ) (bc : ℕ → BCIns) : List BCIns :=
  (List.range (sizebc - 1)).map fun i => bc (i + 1)

/-- Write bytecode instructions. -/
def bcwriteBytecode (J : JitState) (pt : Proto) : Option (List BCIns) :=
  if pt.iloop ∨ pt.trace ≠ 0 then (bytecode pt.sizebc pt.bc).mapM (unpatchIns J)
  else some (bytecode pt.sizebc pt.bc)

/-- The instructions before any patching. -/
def originalBytecode (orig : ℕ → ℕ → BCIns) (J : JitState) (p : ℕ) : List BCIns :=
  bytecode (J.pt p).sizebc (orig p)

section

variable {orig : ℕ → ℕ → BCIns} {live : ℕ → Option ℕ} {J : JitState} {p i : ℕ}

/-- An unpatched instruction is written as it is. -/
theorem unpatchIns_plain {ins : BCIns} (h : patchedOp ins.op = false) :
    unpatchIns J ins = some ins := by
  unfold unpatchIns
  revert h
  cases hop : ins.op <;> simp [patchedOp]

/-- A blacklisted loop. -/
theorem unpatchIns_iForm {ins : BCIns} (hop : hotOp ins.op) (hf : ins.op ≠ .funcf) :
    unpatchIns J (iForm ins) = some ins := by
  obtain ⟨op, a, d⟩ := ins
  rcases hotOp_cases hop with h | h | h | h
  · cases h
    rw [iForm_forl]
    rfl
  · cases h
    rw [iForm_iterl]
    rfl
  · cases h
    rw [iForm_loop]
    rfl
  · exact absurd h hf

/-- A compiled loop. -/
theorem unpatchIns_jForm {ins : BCIns} {n : ℕ} {T : GCtrace} (hop : hotOp ins.op)
    (hf : ins.op ≠ .funcf) (hn : n < 65536) (hT : traceref J n = some T) (hs : T.startins = ins) :
    unpatchIns J (jForm ins n) = some ins := by
  have hd : (jForm ins n).d.toNat = n := by
    simp only [jForm, BitVec.toNat_ofNat]
    lia
  have hbc : bcB T.startins ++ bcC T.startins = ins.d := by
    rw [hs, bcB_append_bcC]
  obtain ⟨op, a, d⟩ := ins
  have hforl : BCOp.forl.shift .jloop .loop = .jforl := rfl
  have hiterl : BCOp.iterl.shift .jloop .loop = .jiterl := rfl
  have hloop : BCOp.loop.shift .jloop .loop = .jloop := rfl
  simp only [unpatchIns, hd, hT, hbc]
  rcases hotOp_cases hop with h | h | h | h
  · cases h
    rw [jForm, hforl]
    rfl
  · cases h
    rw [jForm, hiterl]
    rfl
  · cases h
    rw [jForm, hloop]
    rfl
  · exact absurd h hf

/-- A number that is live fits into the operand of an instruction. -/
theorem lt_of_saved (hi : Inv orig live J) {n : ℕ} {T : GCtrace} (hT : J.trace n = .saved T) :
    n < 65535 := by
  by_contra hge
  have hsize := hi.core.slots.size
  rw [hi.core.slots.range n (by omega)] at hT
  cases hT

/-- A trace that starts at a return is written as a loop, with the slot count in place of the
operand `A`. -/
theorem unpatchIns_ret (hi : Inv orig live J) {n : ℕ} {T : GCtrace} (hT : J.trace n = .saved T) :
    unpatchIns J ⟨.jloop, T.nslots, BitVec.ofNat 16 n⟩ = some ⟨.loop, T.nslots, T.startins.d⟩ := by
  have hn := lt_of_saved hi hT
  have hd : (BitVec.ofNat 16 n).toNat = n := by
    rw [BitVec.toNat_ofNat]
    lia
  simp only [unpatchIns, hd, traceref_saved hT, bcB_append_bcC]
  rfl

/-- Instruction `i` is the `JLOOP` of a trace that starts at a return. -/
def AtReturn (J : JitState) (p i : ℕ) : Prop :=
  ((J.pt p).bc i).op = .jloop ∧
    ∃ T, traceref J ((J.pt p).bc i).d.toNat = some T ∧ bcIsret T.startins.op

/-- The writer restores an instruction exactly if it is not the `JLOOP` of a trace that starts at a
return. -/
theorem unpatchIns_orig (ho : ∀ p, Original (orig p)) (hi : Inv orig live J)
    (hd : (J.pt p).dead = false) (h0 : 0 < i) :
    unpatchIns J ((J.pt p).bc i) = some (orig p i) ↔ ¬ AtReturn J p i := by
  have hp := hi.core.proto p hd
  have hfun := (ho p).body i h0
  -- everything but a trace at a return: the instruction is restored and is no such trace
  have hyes : unpatchIns J ((J.pt p).bc i) = some (orig p i) → ¬ AtReturn J p i →
      (unpatchIns J ((J.pt p).bc i) = some (orig p i) ↔ ¬ AtReturn J p i) :=
    fun h₁ h₂ => ⟨fun _ => h₂, fun _ => h₁⟩
  cases hp.patched i with
  | plain h =>
      refine hyes ?_ ?_
      · rw [h]
        exact unpatchIns_plain ((ho p).plain i)
      · rintro ⟨hop, _⟩
        have := (ho p).plain i
        rw [← h, hop] at this
        cases this
  | blacklisted hop _ _ h =>
      refine hyes ?_ ?_
      · rw [h]
        exact unpatchIns_iForm hop hfun
      · rintro ⟨hj, _⟩
        rw [h] at hj
        rcases hotOp_cases hop with h | h | h | h <;> rw [iForm, h] at hj <;> cases hj
  | loop n T hop hl hT hs h =>
      have hn := lt_of_saved hi hT
      obtain ⟨T', hT', hr, hpt, _, _⟩ := hp.member n hl
      obtain rfl : T' = T := by simpa using hT'.symm.trans hT
      have hins : T'.startins = orig p i := by
        rw [hp.started n T' hT hr hpt, hs]
      refine hyes ?_ ?_
      · rw [h]
        exact unpatchIns_jForm hop hfun (by omega) (traceref_saved hT) hins
      · rintro ⟨_, T₂, hT₂, hret⟩
        have hd : ((J.pt p).bc i).d.toNat = n := by
          rw [h]
          simp only [jForm, BitVec.toNat_ofNat]
          lia
        rw [hd, traceref_saved hT] at hT₂
        obtain rfl := Option.some_injective _ hT₂
        rw [hins] at hret
        rcases hotOp_cases hop with h | h | h | h <;> rw [h] at hret <;> cases hret
  | ret n T hop hl hT hs h =>
      obtain ⟨T', hT', hr, hpt, _, _⟩ := hp.member n hl
      obtain rfl : T' = T := by simpa using hT'.symm.trans hT
      have hins : T'.startins = orig p i := by
        rw [hp.started n T' hT hr hpt, hs]
      have hn := lt_of_saved hi hT
      rw [h, unpatchIns_ret hi hT]
      constructor
      · intro he
        have hloop := congrArg BCIns.op (Option.some_injective _ he)
        change BCOp.loop = _ at hloop
        rw [← hloop] at hop
        cases hop
      · intro hno
        refine absurd ⟨by rw [h], T', ?_, ?_⟩ hno
        · rw [h, BitVec.toNat_ofNat, Nat.mod_eq_of_lt (by omega)]
          exact traceref_saved hT
        · rw [hins]
          rcases retOp_cases hop with h | h | h <;> rw [h] <;> rfl
  | fori k hk hki _ h =>
      have hfo : (orig p i).op = .fori := by
        rw [← hki]
        exact ((ho p).fori k hk).1
      refine hyes ?_ ?_
      · rw [h]
        have heq : (orig p i) = { orig p i with op := .fori } := by rw [← hfo]
        rw [heq]
        rfl
      · rintro ⟨hj, _⟩
        rw [h] at hj
        cases hj

theorem mapM_map_eq_some_iff {α β γ : Type} (g : β → Option γ) (f : α → β) (k : α → γ)
    (l : List α) : (l.map f).mapM g = some (l.map k) ↔ ∀ a ∈ l, g (f a) = some (k a) := by
  induction l with
  | nil => simp
  | cons a l ih =>
      simp only [List.map_cons, List.mapM_cons, List.forall_mem_cons, ← ih]
      cases hg : g (f a) with
      | none => simp
      | some b =>
          cases hl : (l.map f).mapM g with
          | none => simp [hl]
          | some bs => simp [hl]

/-- Without live root traces and blacklisted instructions nothing is patched. -/
theorem bc_eq_orig (ho : ∀ p, Original (orig p)) (hi : Inv orig live J)
    (hd : (J.pt p).dead = false) (hl : (J.pt p).iloop = false) (ht : (J.pt p).trace = 0) :
    (J.pt p).bc i = orig p i := by
  have hp := hi.core.proto p hd
  have hnone : ∀ n, live n ≠ some p := by
    intro n hn
    obtain ⟨l, hch, _, hm⟩ := hp.chain
    rw [ht] at hch
    have hmem := (hm n).mpr hn
    rw [hch.eq_nil] at hmem
    simp at hmem
  cases hp.patched i with
  | plain h => exact h
  | blacklisted _ _ hf _ =>
      rw [hl] at hf
      cases hf
  | loop n _ _ hn _ _ _ => exact absurd hn (hnone n)
  | ret n _ _ hn _ _ _ => exact absurd hn (hnone n)
  | fori k _ _ hj _ =>
      obtain ⟨n, _, hn, _⟩ := (hp.patched k).compiled (ho p) (by rw [hj]; rfl)
      exact absurd hn (hnone n)

/-- In every state of every run, the writer produces the original instructions of a prototype if and
only if none of them is the `JLOOP` of a trace that starts at a return. -/
theorem bcwrite_original_iff (ho : ∀ p, Original (orig p)) {evs : List Event}
    (h : Run orig evs J) (hd : (J.pt p).dead = false) :
    bcwriteBytecode J (J.pt p) = some (originalBytecode orig J p) ↔
      ∀ i, 0 < i → i < (J.pt p).sizebc → ¬ AtReturn J p i := by
  have hi := h.inv ho
  unfold bcwriteBytecode originalBytecode bytecode
  split
  · rw [mapM_map_eq_some_iff]
    constructor
    · intro hall i h0 hlt
      have hmem : i - 1 ∈ List.range ((J.pt p).sizebc - 1) := List.mem_range.mpr (by lia)
      have hins := hall (i - 1) hmem
      rw [Nat.sub_add_cancel h0] at hins
      exact (unpatchIns_orig ho hi hd h0).mp hins
    · intro hall i hmem
      have hlt := List.mem_range.mp hmem
      exact (unpatchIns_orig ho hi hd (Nat.succ_pos i)).mpr (hall (i + 1) (by omega) (by lia))
  · next hno =>
      rw [not_or, not_not, Bool.not_eq_true] at hno
      have hbc : ∀ i, (J.pt p).bc i = orig p i := fun i => bc_eq_orig ho hi hd hno.1 hno.2
      simp only [hbc, true_iff]
      rintro i _ _ ⟨hop, _⟩
      have hplain := (ho p).plain i
      rw [← hbc, hop] at hplain
      cases hplain

end

/-! ### A trace that starts at a return -/

/-- After one trace of its loop, the function is dumped with its original instructions. -/
theorem bcwrite_original_callLoop :
    (∀ i, 0 < i → i < (callLoop₂.pt 0).sizebc → ¬ AtReturn callLoop₂ 0 i) ∧
      bcwriteBytecode callLoop₂ (callLoop₂.pt 0) =
        some (originalBytecode (fun _ => callLoop) callLoop₂ 0) := by
  have hno : ∀ i, 0 < i → i < (callLoop₂.pt 0).sizebc → ¬ AtReturn callLoop₂ 0 i := by
    rintro i h0 hlt ⟨hop, T, hT, hret⟩
    have hlt : i < 4 := hlt
    interval_cases i
    · have hTs : T.startins = ⟨.loop, 1, 0x8001⟩ := by
        rw [← Option.some_injective _ hT]
        rfl
      rw [hTs] at hret
      cases hret
    · cases hop
    · cases hop
  exact ⟨hno, (bcwrite_original_iff (fun _ => original_callLoop) run_callLoop₂ rfl).mpr hno⟩

/-- The recording of the loop is given up for one that starts at the return. -/
def callRet₂ : JitState := (traceAbort .downrec 0 1000 callLoop₁ 0 3).getD callLoopInit

/-- Its trace is finished. -/
def callRet₃ : JitState := (traceStop 2 1 callRet₂).getD callLoopInit

/-- The original instructions are not always written: the `RET0` of this function is written as a
`LOOP`. -/
theorem bcwrite_loses_ret :
    ¬ ∀ (orig : ℕ → ℕ → BCIns) (evs : List Event) (J : JitState) (p : ℕ),
      (∀ p, Original (orig p)) → Run orig evs J → (J.pt p).dead = false →
      bcwriteBytecode J (J.pt p) = some (originalBytecode orig J p) := by
  intro h
  have h₀ : Run (fun _ => callLoop) [] callLoopInit :=
    .init ⟨fun _ => rfl, fun _ => rfl, fun _ => rfl, fun _ => rfl, rfl, rfl, rfl, rfl⟩
  have h₁ : Run (fun _ => callLoop) ([] ++ [Event.start 1]) callLoop₁ :=
    h₀.step (@Step.hot _ _ 0 1 1000 rfl rfl (by decide) rfl)
  have h₂ : Run (fun _ => callLoop) (([] ++ [Event.start 1]) ++ [Event.abort, Event.start 1]) callRet₂ :=
    h₁.step (@Step.abort _ _ .downrec 0 1000 0 3 (by decide) (fun h => by cases h)
      (fun _ => ⟨rfl, rfl, rfl⟩) rfl)
  have h₃ : Run (fun _ => callLoop) ((([] ++ [Event.start 1]) ++ [Event.abort, Event.start 1]) ++ [Event.stop 1 0])
      callRet₃ := h₂.step (@Step.stop _ _ 2 1 rfl rfl)
  have hw := h _ _ _ 0 (fun _ => original_callLoop) h₃ rfl
  have hlast : bcwriteBytecode callRet₃ (callRet₃.pt 0) =
      some [⟨.loop, 1, 0x8001⟩, ⟨.call, 0, 0x0101⟩, ⟨.loop, 2, 1⟩] := by decide
  rw [hlast] at hw
  revert hw
  decide

end BcWrite
