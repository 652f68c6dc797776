/-
**Copy-substitution keeps the trace well formed.**

What the loop optimization needs of the recorded trace and of FOLD, and what holds while the
instructions are copied.  The central notion is `Use`: an operand that an instruction of the loop body
may have is a constant, an instruction of the body, a candidate for a PHI, or invariant.  FOLD does
not look through instructions that are flagged as candidates, so all operands stay of this kind.

Main definitions:

* `Loop.Recorded` — a recorded trace of integer arithmetic, `SLOAD`s and guards;
* `Loop.Models`, `Loop.FoldOk` — FOLD and CSE preserve values and stop at PHIs;
* `Loop.Use`, `Loop.CopyOk` — the invariant of the copy-substitution.

Main results:

* `Loop.copyIns_ok`, `Loop.copyAll_ok` — the invariant holds after copying one and all instructions.
-/

import LuaJit.LoopSem
import LuaJit.IrEnv

set_option relaxedAutoImplicit false
set_option autoImplicit false

namespace Loop

open Ir

/-! ### What is assumed -/

/-- A reference to a value that the trace computes, or to a constant. -/
def ValRef (J : JitState) (lim r : ℕ) : Prop :=
  (J.nk ≤ r ∧ r < refBias) ∨ (refFirst ≤ r ∧ r < lim ∧ isCmp (J.ir r).o = false)

instance (J : JitState) (lim r : ℕ) : Decidable (ValRef J lim r) :=
  inferInstanceAs (Decidable (_ ∨ _))

/-- The instructions of a recorded trace. -/
structure RecordedIns (T : Trace) (r : ℕ) : Prop where
  isphi : (T.core.ir r).t.isphi = false
  kind : (T.core.ir r).o = .sload ∨ irmKind (T.core.ir r).o = .n
  op1_lt : (T.core.ir r).op1 < r
  op2_lt : (T.core.ir r).op2 < r
  op1 : irmKind (T.core.ir r).o = .n → refBias ≤ (T.core.ir r).op1 →
    ValRef T.core r (T.core.ir r).op1
  op2 : irmKind (T.core.ir r).o = .n → refBias ≤ (T.core.ir r).op2 →
    ValRef T.core r (T.core.ir r).op2
  /-- A `NOP` has no operands. -/
  nop : (T.core.ir r).o = .nop → (T.core.ir r).op1 < refBias ∧ (T.core.ir r).op2 < refBias
  type : (T.core.ir r).o ≠ .nop → isInteger (T.core.ir r).t.type = true
  /-- Slots that are loaded are there at the end, too. -/
  sload : (T.core.ir r).o = .sload → (T.core.ir r).op1 < refBias ∧ (T.core.ir r).op2 < refBias ∧
    (T.core.ir r).op2 &&& irsloadFrame = 0 ∧
    (T.core.ir r).op1 < T.nslots ∧ T.slot (T.core.ir r).op1 ≠ 0 ∧
    isInteger (T.core.ir (T.slot (T.core.ir r).op1)).t.type = true

/-- A snapshot of a recorded trace. -/
structure RecordedSnap (T : Trace) (snap : SnapShot) : Prop where
  sorted : snap.map.Pairwise fun a b => a.slot < b.slot
  slot_lt : ∀ sn ∈ snap.map, sn.slot < snap.nslots
  ref : ∀ sn ∈ snap.map, ValRef T.core snap.ref sn.ref
  norestore : ∀ sn ∈ snap.map, sn.norestore = true →
    refFirst ≤ sn.ref ∧ (T.core.ir sn.ref).o = .sload ∧ (T.core.ir sn.ref).op1 = sn.slot

/-- A recorded trace: the first snapshot is empty, the last one is the loop snapshot. -/
structure Recorded (T : Trace) (first : SnapShot) (mid : List SnapShot) (last : SnapShot) : Prop where
  nk_le : T.core.nk ≤ refBias
  nins_le : refFirst ≤ T.core.nins
  nins_lt : T.core.nins + 1 < refDrop
  /-- Constants are no `SLOAD`s. -/
  konst : ∀ r, T.core.nk ≤ r → r < refBias → (T.core.ir r).o ≠ .sload
  ins : ∀ r, refFirst ≤ r → r < T.core.nins → RecordedIns T r
  slot : ∀ s < T.nslots, T.slot s ≠ 0 → ValRef T.core T.core.nins (T.slot s)
  /-- Slot 0 holds the function. -/
  slot_zero : T.slot 0 < refBias
  snap : T.snap = first :: mid ++ [last]
  refs : (first :: mid ++ [last]).Pairwise fun a b => a.ref < b.ref
  first_ref : first.ref = refFirst
  first_map : first.map = []
  mid_ok : ∀ snap ∈ mid, RecordedSnap T snap
  /-- The PC of snapshot #0 and the loop snapshot match. -/
  pc : first.links = last.links
  last_ref : last.ref = T.core.nins
  last_nslots : last.nslots = T.nslots
  last_map : last.map = snapshotSlots T.core T.slot T.nslots

section

variable {Val : Type} (S : Sem Val)

/-- The values are those of the constants and instructions. -/
structure Models (J : JitState) (ρ : ℕ → Val) : Prop where
  konst : Consts S J ρ
  ins : ∀ r, refFirst ≤ r → r < J.nins → irmKind (J.ir r).o = .n →
    ρ r = S.val (J.ir r).o (J.ir r).t.type (ρ (J.ir r).op1) (ρ (J.ir r).op2)

/-- The guard that FOLD is given holds. -/
def FinsHolds (ins : IRIns) (ρ : ℕ → Val) : Prop :=
  ins.t.isguard = true → S.ok ins.o ins.t.type (ρ ins.op1) (ρ ins.op2) = true

/-- What FOLD may be given. -/
structure FoldPre (J : JitState) : Prop where
  nk_le : J.nk ≤ refBias
  nins_le : refFirst ≤ J.nins
  op_lt : ∀ r, refFirst ≤ r → r < J.nins → (J.ir r).op1 < r ∧ (J.ir r).op2 < r
  kind : irmKind J.fins.o = .n
  isphi : J.fins.t.isphi = false
  op1 : J.fins.op1 < J.nins
  op2 : J.fins.op2 < J.nins
  val1 : refBias ≤ J.fins.op1 → isCmp (J.ir J.fins.op1).o = false
  val2 : refBias ≤ J.fins.op2 → isCmp (J.ir J.fins.op2).o = false

/-- **FOLD and CSE preserve values.**  They append instructions and return a reference; only a guard
may be dropped.  In every execution in which the guards so far hold, the new guards hold iff the guard
that was given does, and then the reference has the value of the instruction.  They do not fold across
loop-carried dependencies: all operands they use are new or reached from the given ones through
instructions that are not flagged as operands of a PHI. -/
structure FoldOk (fold : Fold) : Prop where
  ext : ∀ {J r J'}, FoldPre J → fold J = some (r, J') → J.Ext J'
  nk_nins : ∀ {J r J'}, FoldPre J → fold J = some (r, J') → J'.nins < refDrop
  new_ins : ∀ {J r J'}, FoldPre J → fold J = some (r, J') → ∀ q, J.nins ≤ q → q < J'.nins →
    irmKind (J'.ir q).o = .n ∧ (J'.ir q).op1 < q ∧ (J'.ir q).op2 < q ∧ (J'.ir q).t.isphi = false ∧
      (refBias ≤ (J'.ir q).op1 → isCmp (J'.ir (J'.ir q).op1).o = false) ∧
      (refBias ≤ (J'.ir q).op2 → isCmp (J'.ir (J'.ir q).op2).o = false)
  ref_ok : ∀ {J r J'}, FoldPre J → fold J = some (r, J') →
    (r = refDrop ∧ isCmp J.fins.o = true) ∨
      ((isInteger J.fins.t.type = true → isInteger (J'.ir r).t.type = true) ∧
        ((J'.nk ≤ r ∧ r < refBias) ∨
          (refFirst ≤ r ∧ r < J'.nins ∧ (J'.ir r).o ≠ .loop ∧
            (isCmp J.fins.o = false → isCmp (J'.ir r).o = false))))
  sound : ∀ {J r J'}, FoldPre J → fold J = some (r, J') → ∀ ρ : ℕ → Val, Models S J' ρ →
    (∀ q, refFirst ≤ q → q < J.nins → (J.ir q).o ≠ .loop → Holds S J ρ q) →
    (Passes S J' ρ J.nins J'.nins ↔ FinsHolds S J.fins ρ) ∧
      (FinsHolds S J.fins ρ → isCmp J.fins.o = false →
        ρ r = S.val J.fins.o J.fins.t.type (ρ J.fins.op1) (ρ J.fins.op2))
  barrier : ∀ {J r J'}, FoldPre J → fold J = some (r, J') → ∀ P : ℕ → Prop,
    (∀ k < refBias, P k) → (∀ q, J.nins ≤ q → P q) →
    (∀ q, refFirst ≤ q → q < J.nins → (J.ir q).t.isphi = false → P q →
      P (J.ir q).op1 ∧ P (J.ir q).op2) →
    P J.fins.op1 → P J.fins.op2 →
    (∀ q, J.nins ≤ q → q < J'.nins → P (J'.ir q).op1 ∧ P (J'.ir q).op2) ∧
      (r < J.nins → P r ∨ P (J'.ir r).op1 ∧ P (J'.ir r).op2)

end

/-! ### Flags -/

theorem erase_setPhi (J : JitState) (ref : ℕ) (b : Bool) (r : ℕ) :
    erase ((setPhi J ref b).ir r) = erase (J.ir r) := by
  by_cases h : r = ref
  · subst h
    simp [setPhi, erase]
  · simp [setPhi, erase, Function.update_of_ne h]

theorem erase_eq {a b : IRIns} (h : erase a = erase b) :
    a.o = b.o ∧ a.op1 = b.op1 ∧ a.op2 = b.op2 ∧ a.t.type = b.t.type ∧ a.t.isguard = b.t.isguard := by
  have ho := congrArg IRIns.o h
  have h1 := congrArg IRIns.op1 h
  have h2 := congrArg IRIns.op2 h
  have ht := congrArg IRIns.t h
  have hty := congrArg IRType1.type ht
  have hg := congrArg IRType1.isguard ht
  exact ⟨ho, h1, h2, hty, hg⟩

theorem setPhi_isphi (J : JitState) (ref : ℕ) (b : Bool) (r : ℕ) :
    ((setPhi J ref b).ir r).t.isphi = if r = ref then b else (J.ir r).t.isphi := by
  by_cases h : r = ref
  · subst h
    simp [setPhi]
  · simp [setPhi, h]

/-! ### The invariant -/

/-- An operand that an instruction of the loop body may have, when the instructions below `ins` have
been copied. -/
def Use (invar ins : ℕ) (st : LoopState) (o : ℕ) : Prop :=
  o < refBias ∨ invar ≤ o ∨ o ∈ st.phi ∨ (refFirst ≤ o ∧ o < ins ∧ st.subst o = o)

/-- The IR of `J'` extends that of `J`, up to PHI flags. -/
structure CoreExt (J J' : JitState) : Prop where
  nk_le : J'.nk ≤ J.nk
  nins_le : J.nins ≤ J'.nins
  same : ∀ r, J.nk ≤ r → r < J.nins → erase (J'.ir r) = erase (J.ir r)

theorem CoreExt.refl (J : JitState) : CoreExt J J := ⟨le_rfl, le_rfl, fun _ _ _ => rfl⟩

theorem CoreExt.trans {J₁ J₂ J₃ : JitState} (h : CoreExt J₁ J₂) (h' : CoreExt J₂ J₃) :
    CoreExt J₁ J₃ where
  nk_le := h'.nk_le.trans h.nk_le
  nins_le := h.nins_le.trans h'.nins_le
  same r hk hr :=
    (h'.same r (h.nk_le.trans hk) (lt_of_lt_of_le hr h.nins_le)).trans (h.same r hk hr)

theorem CoreExt.setPhi (J : JitState) (ref : ℕ) (b : Bool) : CoreExt J (setPhi J ref b) :=
  ⟨le_rfl, le_rfl, fun r _ _ => erase_setPhi J ref b r⟩

/-- The reference that a copy turned out to be. -/
structure SubstOk (invar ins : ℕ) (st : LoopState) (x r : ℕ) : Prop where
  use : Use invar ins st r
  /-- An instruction of the pre-roll is the instruction itself or a candidate for a PHI. -/
  phi : refBias ≤ r → r < invar → r = x ∨ r ∈ st.phi
  ref : (r = refDrop ∧ isCmp (st.T.core.ir x).o = true) ∨ (st.T.core.nk ≤ r ∧ r < refBias) ∨
    (refFirst ≤ r ∧ r < st.T.core.nins ∧ (st.T.core.ir r).o ≠ .loop ∧
      (isCmp (st.T.core.ir x).o = false → isCmp (st.T.core.ir r).o = false))

/-- The invariant of the copy-substitution: the instructions below `ins` have been copied. -/
structure CopyOk (T : Trace) (ins : ℕ) (st : LoopState) : Prop where
  ins_le : ins ≤ T.core.nins
  ext : CoreExt T.core st.T.core
  slot : st.T.slot = T.slot ∧ st.T.nslots = T.nslots
  nins : T.core.nins < st.T.core.nins ∧ st.T.core.nins < refDrop
  loop : (st.T.core.ir T.core.nins).o = .loop ∧ (st.T.core.ir T.core.nins).op1 = 0 ∧
    (st.T.core.ir T.core.nins).op2 = 0
  body : ∀ q, T.core.nins < q → q < st.T.core.nins →
    irmKind (st.T.core.ir q).o = .n ∧ (st.T.core.ir q).op1 < q ∧ (st.T.core.ir q).op2 < q ∧
      Use T.core.nins ins st (st.T.core.ir q).op1 ∧ Use T.core.nins ins st (st.T.core.ir q).op2
  body_val : ∀ q, T.core.nins < q → q < st.T.core.nins →
    (refBias ≤ (st.T.core.ir q).op1 → isCmp (st.T.core.ir (st.T.core.ir q).op1).o = false) ∧
      (refBias ≤ (st.T.core.ir q).op2 → isCmp (st.T.core.ir (st.T.core.ir q).op2).o = false)
  phi_range : ∀ l ∈ st.phi, refFirst ≤ l ∧ l < T.core.nins
  phi_nodup : st.phi.Nodup
  isphi : ∀ r, refFirst ≤ r → r < st.T.core.nins → ((st.T.core.ir r).t.isphi = true ↔ r ∈ st.phi)
  subst : ∀ x, refFirst ≤ x → x < ins → SubstOk T.core.nins ins st x (st.subst x)
  inv_ops : ∀ x, refFirst ≤ x → x < ins → st.subst x = x → x ∈ st.phi ∨
    Use T.core.nins ins st (st.T.core.ir x).op1 ∧ Use T.core.nins ins st (st.T.core.ir x).op2
  first : ∀ x, refFirst ≤ x → x < ins → T.core.nins < st.first x ∧ st.first x ≤ st.T.core.nins

theorem Use.mono {invar ins ins' : ℕ} {st st' : LoopState} {o : ℕ} (h : Use invar ins st o)
    (hins : ins ≤ ins') (hphi : ∀ l ∈ st.phi, l ∈ st'.phi)
    (hsubst : ∀ x < ins, st'.subst x = st.subst x) : Use invar ins' st' o := by
  rcases h with h | h | h | ⟨hf, h, hs⟩
  · exact .inl h
  · exact .inr (.inl h)
  · exact .inr (.inr (.inl (hphi o h)))
  · exact .inr (.inr (.inr ⟨hf, by lia, by rw [hsubst o h, hs]⟩))

theorem SubstOk.mono {invar ins ins' x r : ℕ} {st st' : LoopState} (h : SubstOk invar ins st x r)
    (hext : CoreExt st.T.core st'.T.core) (hnk : st.T.core.nk ≤ refBias) (hx : refFirst ≤ x)
    (hlt : x < st.T.core.nins) (hins : ins ≤ ins') (hphi : ∀ l ∈ st.phi, l ∈ st'.phi)
    (hsubst : ∀ x < ins, st'.subst x = st.subst x) : SubstOk invar ins' st' x r := by
  have hk : ∀ q, refFirst ≤ q → st.T.core.nk ≤ q := by
    intro q hq
    simp only [refFirst] at hq
    omega
  obtain ⟨hxo, -⟩ := erase_eq (hext.same x (hk x hx) hlt)
  refine ⟨h.use.mono hins hphi hsubst, fun h1 h2 => (h.phi h1 h2).imp_right (hphi r), ?_⟩
  rw [hxo]
  rcases h.ref with hr | hr | ⟨hr1, hr2, hr3⟩
  · exact .inl hr
  · exact .inr (.inl ⟨hext.nk_le.trans hr.1, hr.2⟩)
  · obtain ⟨hro, -⟩ := erase_eq (hext.same r (hk r hr1) hr2)
    rw [hro]
    exact .inr (.inr ⟨hr1, lt_of_lt_of_le hr2 hext.nins_le, hr3⟩)

/-- An operand of the copy of an instruction. -/
structure Operand (T : Trace) (ins : ℕ) (st : LoopState) (o : ℕ) : Prop where
  use : Use T.core.nins ins st o
  lt : o < st.T.core.nins
  value : refBias ≤ o → isCmp (st.T.core.ir o).o = false

/-- The IR as FOLD sees it. -/
theorem CopyOk.foldPre {T : Trace} {first last : SnapShot} {mid : List SnapShot} {ins : ℕ}
    {st : LoopState} (hT : Recorded T first mid last) (h : CopyOk T ins st) {fins : IRIns}
    (hkind : irmKind fins.o = .n) (hphi : fins.t.isphi = false) (h1 : Operand T ins st fins.op1)
    (h2 : Operand T ins st fins.op2) : FoldPre { st.T.core with fins := fins } where
  nk_le := h.ext.nk_le.trans hT.nk_le
  nins_le := le_trans hT.nins_le h.ext.nins_le
  op_lt r hr hlt := by
    rcases lt_trichotomy r T.core.nins with hlt' | rfl | hgt
    · have hk : T.core.nk ≤ r := hT.nk_le.trans (by simp only [refFirst] at hr; omega)
      obtain ⟨-, he1, he2, -⟩ := erase_eq (h.ext.same r hk hlt')
      have hi := hT.ins r hr hlt'
      exact ⟨by simp only [he1]; exact hi.op1_lt, by simp only [he2]; exact hi.op2_lt⟩
    · have hpos : 0 < T.core.nins := lt_of_lt_of_le (by simp [refFirst]) hr
      exact ⟨by simp only [h.loop.2.1]; exact hpos, by simp only [h.loop.2.2]; exact hpos⟩
    · obtain ⟨-, h1, h2, -⟩ := h.body r hgt hlt
      exact ⟨h1, h2⟩
  kind := hkind
  isphi := hphi
  op1 := h1.lt
  op2 := h2.lt
  val1 := h1.value
  val2 := h2.value

/-- Instructions of the pre-roll are unchanged. -/
theorem CopyOk.pre {T : Trace} {first last : SnapShot} {mid : List SnapShot} {ins : ℕ}
    {st : LoopState} (hT : Recorded T first mid last) (h : CopyOk T ins st) {r : ℕ}
    (hr : refFirst ≤ r) (hlt : r < T.core.nins) :
    (st.T.core.ir r).o = (T.core.ir r).o ∧ (st.T.core.ir r).op1 = (T.core.ir r).op1 ∧
      (st.T.core.ir r).op2 = (T.core.ir r).op2 ∧ (st.T.core.ir r).t.type = (T.core.ir r).t.type ∧
      (st.T.core.ir r).t.isguard = (T.core.ir r).t.isguard :=
  erase_eq (h.ext.same r (hT.nk_le.trans (by simp only [refFirst] at hr; omega)) hlt)

/-- The operands of the copy of a recorded instruction. -/
theorem CopyOk.substOp {T : Trace} {first last : SnapShot} {mid : List SnapShot} {ins : ℕ}
    {st : LoopState} (hT : Recorded T first mid last) (h : CopyOk T ins st) {op : ℕ}
    (hop : refBias ≤ op → ValRef T.core ins op) (hins : ins ≤ T.core.nins) :
    Operand T ins st (Loop.substOp st.subst op) := by
  by_cases hk : op < refBias
  · simp only [Loop.substOp, irrefIsk, hk, decide_true, if_true]
    refine ⟨.inl hk, lt_of_lt_of_le hk ?_, fun hge => absurd hk (not_lt.2 hge)⟩
    have := hT.nins_le
    have := h.nins.1
    simp only [refFirst] at *
    omega
  · simp only [Loop.substOp, irrefIsk, hk, decide_false, Bool.false_eq_true, if_false]
    rcases hop (by omega) with hv | ⟨hv1, hv2, hv3⟩
    · omega
    · have hs := h.subst op hv1 hv2
      rw [← (h.pre hT hv1 (by omega)).1] at hv3
      rcases hs.ref with ⟨-, hc⟩ | hc | ⟨-, hc1, -, hc2⟩
      · rw [hc] at hv3
        cases hv3
      · refine ⟨hs.use, ?_, fun hge => absurd hc.2 (not_lt.2 hge)⟩
        have := hT.nins_le
        have := h.nins.1
        simp only [refFirst] at *
        lia
      · exact ⟨hs.use, hc1, fun _ => hc2 hv3⟩

/-! ### Steps -/

theorem Use.update {invar ins o : ℕ} {st : LoopState} (h : Use invar ins st o) (r n : ℕ) :
    Use invar ins { st with
      subst := Function.update st.subst ins r, first := Function.update st.first ins n } o :=
  h.mono le_rfl (fun _ hl => hl) fun _ hx => Function.update_of_ne (by omega) _ _

/-- A new substitution for `ins` and the start of its copy do not matter below `ins`. -/
theorem CopyOk.update {T : Trace} {ins : ℕ} {st : LoopState} (h : CopyOk T ins st) (r n : ℕ) :
    CopyOk T ins { st with
      subst := Function.update st.subst ins r, first := Function.update st.first ins n } := by
  have hs : ∀ x < ins, Function.update st.subst ins r x = st.subst x := fun x hx =>
    Function.update_of_ne (by omega) _ _
  refine { h with body := ?_, subst := ?_, inv_ops := ?_, first := ?_ }
  · intro q hq hlt
    obtain ⟨hk, h1, h2, hu1, hu2⟩ := h.body q hq hlt
    exact ⟨hk, h1, h2, hu1.update r n, hu2.update r n⟩
  · intro x hx hlt
    have hx' := h.subst x hx hlt
    simp only [hs x hlt]
    exact ⟨hx'.use.update r n, hx'.phi, hx'.ref⟩
  · intro x hx hlt he
    simp only [hs x hlt] at he
    exact (h.inv_ops x hx hlt he).imp_right fun hu => ⟨hu.1.update r n, hu.2.update r n⟩
  · intro x hx hlt
    simp only [Function.update_of_ne (Nat.ne_of_lt hlt)]
    exact h.first x hx hlt

/-- The trace after FOLD. -/
theorem CopyOk.emitir {Val : Type} {S : Sem Val} {fold : Fold} (hfold : FoldOk S fold) {T T' : Trace}
    {first last : SnapShot} {mid : List SnapShot} {ins r : ℕ} {st : LoopState}
    (hT : Recorded T first mid last) (h : CopyOk T ins st) {fins : IRIns}
    (hkind : irmKind fins.o = .n) (hphi : fins.t.isphi = false) (h1 : Operand T ins st fins.op1)
    (h2 : Operand T ins st fins.op2) (he : Loop.emitir fold st.T fins = some (r, T')) :
    CopyOk T ins { st with T := T' } ∧
      (r < st.T.core.nins → Use T.core.nins ins st r ∨
        Use T.core.nins ins st (T'.core.ir r).op1 ∧ Use T.core.nins ins st (T'.core.ir r).op2) ∧
      fold { st.T.core with fins := fins } = some (r, T'.core) := by
  have hpre := h.foldPre hT hkind hphi h1 h2
  have hns : fins.o ≠ .sload := by
    intro ho
    rw [ho] at hkind
    cases hkind
  simp only [Loop.emitir, hns, false_and, if_false] at he
  split at he
  next => cases he
  next ref core hf =>
    simp only [Option.some.injEq, Prod.mk.injEq] at he
    obtain ⟨rfl, rfl⟩ := he
    have hext := hfold.ext hpre hf
    have hnew := hfold.new_ins hpre hf
    have hle : st.T.core.nins ≤ core.nins := hext.nins_le
    have hb := hfold.barrier hpre hf (Use T.core.nins ins st) (fun k hk => .inl hk)
      (fun q hq => .inr (.inl (h.nins.1.le.trans hq))) (by
      intro q hq hlt hflag hu
      simp only at hlt hflag hu ⊢
      rcases lt_trichotomy q T.core.nins with hlt' | rfl | hgt
      · rcases hu with hu | hu | hu | ⟨-, hu, hs⟩
        · simp only [refFirst] at hq
          omega
        · omega
        · rw [(h.isphi q hq hlt).2 hu] at hflag
          cases hflag
        · rcases h.inv_ops q hq hu hs with hp | hp
          · rw [(h.isphi q hq hlt).2 hp] at hflag
            cases hflag
          · exact hp
      · rw [h.loop.2.1, h.loop.2.2]
        exact ⟨.inl (by simp [refBias]), .inl (by simp [refBias])⟩
      · obtain ⟨-, -, -, hu1, hu2⟩ := h.body q hgt hlt
        exact ⟨hu1, hu2⟩) h1.use h2.use
    have hsame : ∀ q, refFirst ≤ q → q < st.T.core.nins → core.ir q = st.T.core.ir q := by
      intro q hq hlt
      have hk : st.T.core.nk ≤ q := le_trans (h.ext.nk_le.trans hT.nk_le) (by
        simp only [refFirst] at hq
        omega)
      exact hext.ir_eq ⟨hk, hlt⟩
    have hinv : refFirst ≤ T.core.nins := hT.nins_le
    have hcore : CoreExt st.T.core core :=
      ⟨hext.nk_le, hext.nins_le, fun r hk hr => by rw [hext.ir_eq ⟨hk, hr⟩]⟩
    have hins : ∀ x < ins, x < st.T.core.nins := by
      intro x hx
      have := h.ins_le
      have := h.nins.1
      omega
    refine ⟨⟨h.ins_le, h.ext.trans hcore, h.slot, ?_, ?_, ?_, ?_, h.phi_range, h.phi_nodup, ?_, ?_, ?_,
      ?_⟩, hb.2, hf⟩
    · exact ⟨lt_of_lt_of_le h.nins.1 hle, hfold.nk_nins hpre hf⟩
    · simp only [hsame _ hinv h.nins.1]
      exact h.loop
    · intro q hq hlt
      by_cases hold : q < st.T.core.nins
      · simp only [hsame q (by omega) hold]
        exact h.body q hq hold
      · obtain ⟨hk, hn1, hn2, -⟩ := hnew q (by simp only; omega) hlt
        obtain ⟨hu1, hu2⟩ := hb.1 q (by simp only; omega) hlt
        exact ⟨hk, hn1, hn2, hu1, hu2⟩
    · intro q hq hlt
      by_cases hold : q < st.T.core.nins
      · obtain ⟨hv1, hv2⟩ := h.body_val q hq hold
        obtain ⟨-, hl1, hl2, hu1, hu2⟩ := h.body q hq hold
        -- `BASE` is not an operand
        have hop : ∀ o, o < q → Use T.core.nins ins st o → refBias ≤ o →
            core.ir o = st.T.core.ir o := by
          intro o ho hu hge
          refine hsame o ?_ (by lia)
          rcases hu with hu | hu | hu | hu
          · omega
          · omega
          · exact (h.phi_range o hu).1
          · exact hu.1
        simp only [hsame q (by omega) hold]
        exact ⟨fun hge => by rw [hop _ hl1 hu1 hge]; exact hv1 hge,
          fun hge => by rw [hop _ hl2 hu2 hge]; exact hv2 hge⟩
      · exact (hnew q (by simp only; omega) hlt).2.2.2.2
    · intro q hq hlt
      by_cases hold : q < st.T.core.nins
      · simp only [hsame q hq hold]
        exact h.isphi q hq hold
      · obtain ⟨-, -, -, hp, -⟩ := hnew q (by simp only; omega) hlt
        simp only [hp, Bool.false_eq_true, false_iff]
        intro hm
        have := (h.phi_range q hm).2
        have := h.nins.1
        omega
    · intro x hx hlt
      exact (h.subst x hx hlt).mono hcore (h.ext.nk_le.trans hT.nk_le) hx (hins x hlt) le_rfl
        (fun _ hl => hl) (fun _ _ => rfl)
    · intro x hx hlt hs
      simp only [hsame x hx (hins x hlt)]
      exact h.inv_ops x hx hlt hs
    · intro x hx hlt
      exact ⟨(h.first x hx hlt).1, (h.first x hx hlt).2.trans hle⟩

/-- A new candidate for a PHI. -/
theorem CopyOk.addPhi {T : Trace} {first last : SnapShot} {mid : List SnapShot} {ins p : ℕ}
    {st st' : LoopState} (hT : Recorded T first mid last) (h : CopyOk T ins st)
    (hp : refFirst ≤ p) (hlt : p < T.core.nins) (hflag : (st.T.core.ir p).t.isphi = false)
    (ha : Loop.addPhi st p = some st') :
    CopyOk T ins st' ∧ st'.phi = st.phi ++ [p] ∧ st'.subst = st.subst ∧ st'.first = st.first ∧
      st'.T = { st.T with core := setPhi st.T.core p true } := by
  simp only [Loop.addPhi] at ha
  split at ha
  next => cases ha
  next =>
    simp only [Option.some.injEq] at ha
    subst ha
    refine ⟨?_, rfl, rfl, rfl, rfl⟩
    have hcore := CoreExt.setPhi st.T.core p true
    have hphi : ∀ l ∈ st.phi, l ∈ st.phi ++ [p] := fun l hl => List.mem_append_left _ hl
    have huse : ∀ o, Use T.core.nins ins st o → Use T.core.nins ins { st with
        T := { st.T with core := setPhi st.T.core p true }, phi := st.phi ++ [p] } o :=
      fun o ho => ho.mono le_rfl hphi (fun _ _ => rfl)
    have hir : ∀ q, ((setPhi st.T.core p true).ir q).o = (st.T.core.ir q).o ∧
        ((setPhi st.T.core p true).ir q).op1 = (st.T.core.ir q).op1 ∧
        ((setPhi st.T.core p true).ir q).op2 = (st.T.core.ir q).op2 := by
      intro q
      obtain ⟨h1, h2, h3, -⟩ := erase_eq (erase_setPhi st.T.core p true q)
      exact ⟨h1, h2, h3⟩
    have hnot : p ∉ st.phi := by
      intro hm
      rw [(h.isphi p hp (lt_trans hlt h.nins.1)).2 hm] at hflag
      cases hflag
    refine ⟨h.ins_le, h.ext.trans hcore, h.slot, h.nins, ?_, ?_, ?_, ?_, ?_, ?_, ?_, ?_, h.first⟩
    · simp only [hir]
      exact h.loop
    · intro q hq hlt
      simp only [hir]
      obtain ⟨hk, h1, h2, hu1, hu2⟩ := h.body q hq hlt
      exact ⟨hk, h1, h2, huse _ hu1, huse _ hu2⟩
    · intro q hq hlt
      simp only [hir]
      exact h.body_val q hq hlt
    · intro l hl
      rcases List.mem_append.1 hl with hl | hl
      · exact h.phi_range l hl
      · rw [List.mem_singleton.1 hl]
        exact ⟨hp, hlt⟩
    · exact List.nodup_append.2 ⟨h.phi_nodup, List.nodup_singleton p, by
        intro a ha b hb he
        rw [List.mem_singleton.1 hb] at he
        exact hnot (he ▸ ha)⟩
    · intro q hq hlt
      simp only [setPhi_isphi, List.mem_append, List.mem_singleton]
      split
      next he => simp [he]
      next hne =>
        simp only [hne, or_false]
        exact h.isphi q hq hlt
    · intro x hx hlt
      have hxn : x < st.T.core.nins := by
        have := h.ins_le
        have := h.nins.1
        lia
      exact (h.subst x hx hlt).mono hcore (h.ext.nk_le.trans hT.nk_le) hx hxn le_rfl hphi
        (fun _ _ => rfl)
    · intro x hx hlt hs
      simp only [hir]
      rcases h.inv_ops x hx hlt hs with hm | hu
      · exact .inl (hphi x hm)
      · exact .inr ⟨huse _ hu.1, huse _ hu.2⟩

/-- `ins` is copied, too. -/
theorem CopyOk.succ {T : Trace} {ins : ℕ} {st : LoopState} (h : CopyOk T ins st)
    (hins : refFirst ≤ ins) (hlt : ins < T.core.nins)
    (hs : SubstOk T.core.nins (ins + 1) st ins (st.subst ins))
    (hops : st.subst ins = ins → ins ∈ st.phi ∨
      Use T.core.nins ins st (st.T.core.ir ins).op1 ∧ Use T.core.nins ins st (st.T.core.ir ins).op2)
    (hf : T.core.nins < st.first ins ∧ st.first ins ≤ st.T.core.nins) : CopyOk T (ins + 1) st := by
  have huse : ∀ o, Use T.core.nins ins st o → Use T.core.nins (ins + 1) st o :=
    fun o ho => ho.mono (Nat.le_succ ins) (fun _ hl => hl) (fun _ _ => rfl)
  refine { h with ins_le := hlt, body := ?_, subst := ?_, inv_ops := ?_, first := ?_ }
  · intro q hq hlt
    obtain ⟨hk, h1, h2, hu1, hu2⟩ := h.body q hq hlt
    exact ⟨hk, h1, h2, huse _ hu1, huse _ hu2⟩
  · intro x hx hlt
    rcases Nat.lt_succ_iff_lt_or_eq.1 hlt with hlt' | rfl
    · have hx' := h.subst x hx hlt'
      exact ⟨huse _ hx'.use, hx'.phi, hx'.ref⟩
    · exact hs
  · intro x hx hlt he
    rcases Nat.lt_succ_iff_lt_or_eq.1 hlt with hlt' | rfl
    · exact (h.inv_ops x hx hlt' he).imp_right fun hu => ⟨huse _ hu.1, huse _ hu.2⟩
    · exact (hops he).imp_right fun hu => ⟨huse _ hu.1, huse _ hu.2⟩
  · intro x hx hlt
    rcases Nat.lt_succ_iff_lt_or_eq.1 hlt with hlt' | rfl
    · exact h.first x hx hlt'
    · exact hf

/-- Only PHI flags and candidates change. -/
structure PhiStep (st st' : LoopState) : Prop where
  subst : st'.subst = st.subst
  first : st'.first = st.first
  trace : st'.T = { st.T with core := st'.T.core }
  nins : st'.T.core.nins = st.T.core.nins
  nk : st'.T.core.nk = st.T.core.nk
  ir : ∀ q, erase (st'.T.core.ir q) = erase (st.T.core.ir q)
  phi : ∀ l ∈ st.phi, l ∈ st'.phi

theorem PhiStep.refl (st : LoopState) : PhiStep st st :=
  ⟨rfl, rfl, rfl, rfl, rfl, fun _ => rfl, fun _ hl => hl⟩

theorem PhiStep.trans {st₁ st₂ st₃ : LoopState} (h : PhiStep st₁ st₂) (h' : PhiStep st₂ st₃) :
    PhiStep st₁ st₃ where
  subst := h'.subst.trans h.subst
  first := h'.first.trans h.first
  trace := by rw [h'.trace, h.trace]
  nins := h'.nins.trans h.nins
  nk := h'.nk.trans h.nk
  ir q := (h'.ir q).trans (h.ir q)
  phi l hl := h'.phi l (h.phi l hl)

theorem CopyOk.addPhi' {T : Trace} {first last : SnapShot} {mid : List SnapShot} {ins p : ℕ}
    {st st' : LoopState} (hT : Recorded T first mid last) (h : CopyOk T ins st)
    (hp : refFirst ≤ p) (hlt : p < T.core.nins) (hflag : (st.T.core.ir p).t.isphi = false)
    (ha : Loop.addPhi st p = some st') : CopyOk T ins st' ∧ PhiStep st st' ∧ p ∈ st'.phi := by
  obtain ⟨hok, hphi, hs, hf, ht⟩ := h.addPhi hT hp hlt hflag ha
  refine ⟨hok, ⟨hs, hf, by rw [ht], by rw [ht]; rfl, by rw [ht]; rfl, ?_, ?_⟩, by rw [hphi]; simp⟩
  · intro q
    rw [ht]
    exact erase_setPhi st.T.core p true q
  · intro l hl
    rw [hphi]
    exact List.mem_append_left _ hl

/-- In a trace of integers the candidate for a PHI is all there is to do. -/
theorem copyRef_ok {T : Trace} {first last : SnapShot} {mid : List SnapShot} {fold : Fold}
    {ins ref : ℕ} {st st' : LoopState} {t : IRType} (hT : Recorded T first mid last)
    (h : CopyOk T ins st) (ht : isInteger t = true)
    (href : ref = refDrop ∨
      isInteger (st.T.core.ir ref).t.type = true ∧ (ref < refBias ∨ refFirst ≤ ref))
    (hbody : T.core.nins ≤ ref → ref ≠ refDrop → ref < st.T.core.nins)
    (hc : copyRef fold st T.core.nins ins ref t = some st') :
    CopyOk T ins st' ∧ PhiStep st st' ∧
      (refBias ≤ ref → ref < T.core.nins → ref = ins ∨ ref ∈ st'.phi) := by
  have hdrop : ¬ refDrop < T.core.nins := by
    have := hT.nins_lt
    omega
  simp only [copyRef] at hc
  split at hc
  next he =>
    simp only [Option.some.injEq] at hc
    subst hc
    exact ⟨h, PhiStep.refl _, fun _ _ => .inl he⟩
  next hne =>
  split at hc
  next hlt =>
    obtain ⟨hty, hrange⟩ := href.resolve_left (fun he => hdrop (he ▸ hlt))
    have hpri : isPri (st.T.core.ir ref).t.type = false := by
      cases hr : (st.T.core.ir ref).t.type <;> rw [hr] at hty <;> first | rfl | cases hty
    -- the type check does nothing, since both types are integers
    have hcheck : ∀ st₁ : LoopState, PhiStep st st₁ →
        checkType fold st₁ T.core.nins ins ref t = some st₁ := by
      intro st₁ h₁
      obtain ⟨-, -, -, hty₁, -⟩ := erase_eq (h₁.ir ref)
      simp only [checkType, hty₁, ht, hty, and_self, if_true]
      split <;> rfl
    split at hc
    next => cases hc
    next st₁ hst₁ =>
      split at hst₁
      next hcond =>
        obtain ⟨hk, hflag, -⟩ := hcond
        have hge : refFirst ≤ ref := hrange.resolve_left (by simpa [irrefIsk] using hk)
        obtain ⟨hok, hstep, hmem⟩ := h.addPhi' hT hge hlt hflag hst₁
        rw [hcheck st₁ hstep, Option.some.injEq] at hc
        subst hc
        exact ⟨hok, hstep, fun _ _ => .inr hmem⟩
      next hcond =>
        simp only [Option.some.injEq] at hst₁
        subst hst₁
        rw [hcheck st (PhiStep.refl st), Option.some.injEq] at hc
        subst hc
        refine ⟨h, PhiStep.refl _, fun hge _ => .inr ?_⟩
        have hk : irrefIsk ref = false := by simp [irrefIsk, hge]
        have hflag : (st.T.core.ir ref).t.isphi = true := by
          by_contra hf
          exact hcond ⟨hk, by simpa using hf, hpri⟩
        have hge' : refFirst ≤ ref := hrange.resolve_left (by omega)
        exact (h.isphi ref hge' (lt_trans hlt h.nins.1)).1 hflag
  next hge =>
  split at hc
  next hcond =>
    obtain ⟨hnd, -, hgt, hop⟩ := hcond
    simp only [phiconv] at hc
    split at hc
    next hp =>
      obtain ⟨-, hk, hflag⟩ := hp
      have hu := (h.body ref hgt (hbody (by omega) hnd)).2.2.2.1
      have hge' : refFirst ≤ (st.T.core.ir ref).op1 := by
        have hk' : refBias ≤ (st.T.core.ir ref).op1 := by simpa [irrefIsk] using hk
        rcases hu with hu | hu | hu | hu
        · omega
        · omega
        · exact (h.phi_range _ hu).1
        · exact hu.1
      obtain ⟨hok, hstep, -⟩ := h.addPhi' hT hge' hop hflag hc
      exact ⟨hok, hstep, fun _ hlt => absurd hlt hge⟩
    next =>
      simp only [Option.some.injEq] at hc
      subst hc
      exact ⟨h, PhiStep.refl _, fun _ hlt => absurd hlt hge⟩
  next =>
    simp only [Option.some.injEq] at hc
    subst hc
    exact ⟨h, PhiStep.refl _, fun _ hlt => absurd hlt hge⟩

/-- The end of copying an instruction, when its substitution is known. -/
theorem CopyOk.finish {T : Trace} {first last : SnapShot} {mid : List SnapShot} {fold : Fold}
    {ins ref : ℕ} {st st' : LoopState} {t : IRType} (hT : Recorded T first mid last)
    (h : CopyOk T ins st) (hins : refFirst ≤ ins) (hlt : ins < T.core.nins)
    (hs : st.subst ins = ref) (ht : isInteger t = true)
    (href : (ref = refDrop ∧ isCmp (st.T.core.ir ins).o = true) ∨
      (isInteger (st.T.core.ir ref).t.type = true ∧ ((st.T.core.nk ≤ ref ∧ ref < refBias) ∨
        (refFirst ≤ ref ∧ ref < st.T.core.nins ∧ (st.T.core.ir ref).o ≠ .loop ∧
          (isCmp (st.T.core.ir ins).o = false → isCmp (st.T.core.ir ref).o = false)))))
    (hops : ref = ins → ins ∈ st.phi ∨
      Use T.core.nins ins st (st.T.core.ir ins).op1 ∧ Use T.core.nins ins st (st.T.core.ir ins).op2)
    (hf : T.core.nins < st.first ins ∧ st.first ins ≤ st.T.core.nins)
    (hc : copyRef fold st T.core.nins ins ref t = some st') :
    CopyOk T (ins + 1) st' ∧ PhiStep st st' := by
  have hbias : refBias < T.core.nins := by
    have := hT.nins_le
    simp only [refFirst] at this
    omega
  obtain ⟨hok, hstep, hmem⟩ := copyRef_ok hT h ht
    (href.imp (·.1) fun hr => ⟨hr.1, hr.2.imp (·.2) (·.1)⟩)
    (fun hge hnd => by
      rcases href with hr | ⟨-, hr | hr⟩
      · exact absurd hr.1 hnd
      · omega
      · exact hr.2.1) hc
  have hir : ∀ q, (st'.T.core.ir q).o = (st.T.core.ir q).o ∧
      (st'.T.core.ir q).op1 = (st.T.core.ir q).op1 ∧ (st'.T.core.ir q).op2 = (st.T.core.ir q).op2 := by
    intro q
    obtain ⟨h1, h2, h3, -⟩ := erase_eq (hstep.ir q)
    exact ⟨h1, h2, h3⟩
  have hs' : st'.subst ins = ref := by rw [hstep.subst, hs]
  have huse : ∀ o, Use T.core.nins ins st o → Use T.core.nins ins st' o := fun o ho =>
    ho.mono le_rfl hstep.phi fun x _ => by rw [hstep.subst]
  refine ⟨hok.succ hins hlt ?_ ?_ ?_, hstep⟩
  · rw [hs']
    refine ⟨?_, hmem, ?_⟩
    · rcases lt_or_ge ref refBias with hlt | hge
      · exact .inl hlt
      · rcases lt_or_ge ref T.core.nins with hlt' | hge'
        · rcases hmem hge hlt' with he | hm
          · exact .inr (.inr (.inr ⟨he ▸ hins, by lia, by rw [he] at hs' ⊢; exact hs'⟩))
          · exact .inr (.inr (.inl hm))
        · exact .inr (.inl hge')
    · simp only [hir, hstep.nins, hstep.nk]
      exact href.imp_right (·.2)
  · intro he
    simp only [hir]
    exact (hops (hs'.symm.trans he)).imp (hstep.phi ins) fun hu => ⟨huse _ hu.1, huse _ hu.2⟩
  · rw [hstep.first, hstep.nins]
    exact hf

/-- The copy of a recorded instruction, as FOLD gets it. -/
def copyOf (st : LoopState) (ins : ℕ) : IRIns :=
  { o := (st.T.core.ir ins).o
    t := { (st.T.core.ir ins).t with isphi := false }
    op1 := substOp st.subst (st.T.core.ir ins).op1
    op2 := substOp st.subst (st.T.core.ir ins).op2 }

/-- There is a guard among the instructions that `J'` has more than `J`. -/
def newGuard (J J' : JitState) : Bool :=
  (List.range' J.nins (J'.nins - J.nins)).any fun r => (J'.ir r).t.isguard

/-- What copying `ins` does: the instruction is invariant, or an `SLOAD` that becomes the value in the
slot, or FOLD makes something of it. -/
inductive CopyStep (fold : Fold) (T : Trace) (ins : ℕ) (st st' : LoopState) : Prop
  | inv (hkind : irmKind (st.T.core.ir ins).o = .n)
      (h1 : substOp st.subst (st.T.core.ir ins).op1 = (st.T.core.ir ins).op1)
      (h2 : substOp st.subst (st.T.core.ir ins).op2 = (st.T.core.ir ins).op2)
      (hs : st'.subst = Function.update st.subst ins ins) (hcore : st'.T = st.T)
  | sload (ho : (st.T.core.ir ins).o = .sload)
      (hs : st'.subst = Function.update st.subst ins (T.slot (st.T.core.ir ins).op1))
      (hcore : st'.T = { st.T with core := st'.T.core }) (hnins : st'.T.core.nins = st.T.core.nins)
      (hnk : st'.T.core.nk = st.T.core.nk)
      (hir : ∀ q, erase (st'.T.core.ir q) = erase (st.T.core.ir q))
  | fold {r : ℕ} {core : JitState} (hkind : irmKind (st.T.core.ir ins).o = .n)
      (hpre : FoldPre { st.T.core with fins := copyOf st ins })
      (hf : fold { st.T.core with fins := copyOf st ins } = some (r, core))
      (hs : st'.subst = Function.update st.subst ins r)
      (hcore : st'.T = { st.T with
        core := st'.T.core, guardemit := st.T.guardemit || newGuard st.T.core core })
      (hnins : st'.T.core.nins = core.nins) (hnk : st'.T.core.nk = core.nk)
      (hir : ∀ q, erase (st'.T.core.ir q) = erase (core.ir q))

/-- **One instruction is copied.** -/
theorem copyIns_ok {Val : Type} {S : Sem Val} {fold : Fold} (hfold : FoldOk S fold) {T : Trace}
    {first last : SnapShot} {mid : List SnapShot} {ins : ℕ} {st st' : LoopState}
    (hT : Recorded T first mid last) (h : CopyOk T ins st) (hins : refFirst ≤ ins)
    (hlt : ins < T.core.nins) (hc : copyIns fold T.core.nins ins st = some st') :
    CopyOk T (ins + 1) st' ∧ CopyStep fold T ins st st' ∧
      st'.first = Function.update st.first ins st.T.core.nins := by
  obtain ⟨ho, hop1, hop2, hty, -⟩ := h.pre hT hins hlt
  have hr := hT.ins ins hins hlt
  have hlt' : ins < st.T.core.nins := lt_trans hlt h.nins.1
  have hfirst : T.core.nins < st.T.core.nins := h.nins.1
  -- the operands of the copy, for anything but an `SLOAD`
  have hops : irmKind (st.T.core.ir ins).o = .n →
      Operand T ins st (substOp st.subst (st.T.core.ir ins).op1) ∧
        Operand T ins st (substOp st.subst (st.T.core.ir ins).op2) := by
    intro hkind
    rw [ho] at hkind
    rw [hop1, hop2]
    exact ⟨h.substOp hT (hr.op1 hkind) h.ins_le, h.substOp hT (hr.op2 hkind) h.ins_le⟩
  simp only [copyIns] at hc
  split at hc
  next hinv =>
    obtain ⟨hkind, h1, h2⟩ := hinv
    simp only [Option.some.injEq] at hc
    subst hc
    obtain ⟨⟨hu1, -, -⟩, hu2, -, -⟩ := hops hkind
    rw [h1] at hu1
    rw [h2] at hu2
    refine ⟨(h.update ins st.T.core.nins).succ hins hlt ?_ ?_ ?_, .inv hkind h1 h2 rfl rfl, rfl⟩
    · have hsub : Function.update st.subst ins ins ins = ins := Function.update_self _ _ _
      show SubstOk T.core.nins (ins + 1) _ ins (Function.update st.subst ins ins ins)
      rw [hsub]
      refine ⟨.inr (.inr (.inr ⟨hins, Nat.lt_succ_self _, hsub⟩)),
        fun _ _ => .inl rfl, .inr (.inr ⟨hins, hlt', ?_, id⟩)⟩
      intro hl
      have hl' : (st.T.core.ir ins).o = .loop := hl
      rw [hl'] at hkind
      cases hkind
    · intro _
      exact .inr ⟨hu1.update _ _, hu2.update _ _⟩
    · simp only [Function.update_self]
      exact ⟨hfirst, le_rfl⟩
  next hinv =>
    by_cases hsl : (st.T.core.ir ins).o = .sload
    · obtain ⟨hl1, hl2, hframe, hslot, hne, hslty⟩ := hr.sload (ho ▸ hsl)
      simp only [Loop.emitir, hsl, true_and, substOp, irrefIsk, hop1, hop2, hl1, hl2, hframe, decide_true,
        if_true] at hc
      have hv := hT.slot _ hslot hne
      rw [h.slot.1] at hc
      have hvr : T.core.nk ≤ T.slot (T.core.ir ins).op1 ∧
          T.slot (T.core.ir ins).op1 < T.core.nins := by
        have := hT.nk_le
        have := hT.nins_le
        rcases hv with hv | hv <;> simp only [refFirst] at * <;> lia
      obtain ⟨hso, -, -, hsty, -⟩ := erase_eq (h.ext.same _ hvr.1 hvr.2)
      have htype : isInteger (st.T.core.ir ins).t.type = true := by
        rw [hty]
        exact hr.type (by rw [← ho, hsl]; decide)
      obtain ⟨hok, hstep⟩ := (h.update (T.slot (T.core.ir ins).op1) st.T.core.nins).finish hT hins hlt
        (Function.update_self _ _ _) htype (by
          refine .inr ⟨by rw [hsty]; exact hslty, ?_⟩
          rcases hv with hv | ⟨hv1, hv2, hv3⟩
          · exact .inl ⟨h.ext.nk_le.trans hv.1, hv.2⟩
          · refine .inr ⟨hv1, lt_trans hv2 h.nins.1, ?_, fun _ => by rw [hso]; exact hv3⟩
            rw [hso]
            intro hl
            rcases (hT.ins _ hv1 hv2).kind with hk | hk <;> rw [hl] at hk <;> cases hk)
        (fun _ => .inr ⟨.inl (by rw [hop1]; exact hl1), .inl (by rw [hop2]; exact hl2)⟩)
        (by simp only [Function.update_self]; exact ⟨hfirst, le_rfl⟩) hc
      refine ⟨hok, .sload hsl ?_ hstep.trace hstep.nins hstep.nk hstep.ir, hstep.first⟩
      rw [hstep.subst, hop1]
    · have hkind : irmKind (st.T.core.ir ins).o = .n := by
        rw [ho] at hsl ⊢
        exact hr.kind.resolve_left hsl
      have hkind' : irmKind (copyOf st ins).o = .n := hkind
      obtain ⟨hu1, hu2⟩ := hops hkind
      have htype : isInteger (st.T.core.ir ins).t.type = true := by
        rw [hty]
        refine hr.type fun hnop => hinv ⟨hkind, ?_, ?_⟩
        · rw [hop1]
          simp [substOp, irrefIsk, (hr.nop hnop).1]
        · rw [hop2]
          simp [substOp, irrefIsk, (hr.nop hnop).2]
      split at hc
      next => cases hc
      next ref T' hem =>
        obtain ⟨hok₁, hreach, hf⟩ := h.emitir hfold hT hkind' rfl hu1 hu2 hem
        have hpre := h.foldPre hT hkind' rfl hu1 hu2
        have hold : ∀ q, st.T.core.nk ≤ q → q < st.T.core.nins → T'.core.ir q = st.T.core.ir q :=
          fun q hk hq => (hfold.ext hpre hf).ir_eq ⟨hk, hq⟩
        have hnk : st.T.core.nk ≤ ins := (h.ext.nk_le.trans hT.nk_le).trans (by
          simp only [refFirst] at hins
          omega)
        have hrefok := hfold.ref_ok hpre hf
        obtain ⟨hok, hstep⟩ := (hok₁.update ref st.T.core.nins).finish hT hins hlt
          (Function.update_self _ _ _) htype (by
            rw [hold ins hnk hlt']
            exact hrefok.imp_right fun hx => ⟨hx.1 htype, hx.2⟩)
          (by
            intro he
            subst he
            rcases hreach hlt' with hu | hu
            · rcases hu with hu | hu | hu | hu
              · simp only [refFirst] at hins
                omega
              · omega
              · exact .inl hu
              · omega
            · exact .inr ⟨hu.1.mono le_rfl (fun _ hl => hl) fun _ hx => Function.update_of_ne (by omega) _ _,
                hu.2.mono le_rfl (fun _ hl => hl) fun _ hx => Function.update_of_ne (by omega) _ _⟩)
          (by
            simp only [Function.update_self]
            exact ⟨hfirst, (hfold.ext hpre hf).nins_le⟩) hc
        refine ⟨hok, .fold hkind hpre hf hstep.subst ?_ hstep.nins hstep.nk hstep.ir, hstep.first⟩
        rw [hstep.trace]
        simp only [Loop.emitir, hsl, false_and, if_false] at hem
        split at hem
        next => cases hem
        next ref' core' hf' =>
          simp only [Option.some.injEq, Prod.mk.injEq] at hem
          obtain ⟨rfl, rfl⟩ := hem
          rfl

/-- Snapshots do not matter. -/
theorem CopyOk.withSnap {T : Trace} {ins : ℕ} {st : LoopState} (h : CopyOk T ins st)
    (snap : List SnapShot) (guardemit : Bool) :
    CopyOk T ins { st with T := { st.T with snap := snap, guardemit := guardemit } } :=
  ⟨h.ins_le, h.ext, h.slot, h.nins, h.loop, h.body, h.body_val, h.phi_range, h.phi_nodup, h.isphi,
    fun x hx hlt => ⟨(h.subst x hx hlt).use, (h.subst x hx hlt).phi, (h.subst x hx hlt).ref⟩,
    h.inv_ops, h.first⟩

end Loop
