/-
**PHI elimination keeps what is needed.**

The passes of `loop_emit_phi` only ever clear marks, so a candidate whose mark is cleared once is
emitted.  Pass #2 clears the marks of everything the loop body and its snapshots use, pass #3 those of
the slots, and pass #4 goes on until the right operand of a PHI that is emitted has no mark.

Main definitions:

* `Loop.Kept` — a candidate that is neither invariant nor dropped;
* `Loop.PhiInv` — the invariant of the passes;
* `Loop.Emitted` — the candidates that get a PHI.

Main results:

* `Loop.phiPass4_closed` — no PHI that is emitted needs one that is not;
* `Loop.loopEmitPhi_ok` — what is used, in a snapshot, in a slot or needed by a PHI, is a constant, an
  instruction of the body, invariant, or gets a PHI.
-/

import LuaJit.LoopSnap

set_option relaxedAutoImplicit false
set_option autoImplicit false

namespace Loop

open Ir

/-! ### Marks -/

/-- `mark'` has no mark that `mark` does not have. -/
def MarkLe (mark' mark : ℕ → Bool) : Prop := ∀ m, mark' m = true → mark m = true

theorem MarkLe.refl (mark : ℕ → Bool) : MarkLe mark mark := fun _ h => h

theorem MarkLe.trans {m₁ m₂ m₃ : ℕ → Bool} (h : MarkLe m₁ m₂) (h' : MarkLe m₂ m₃) : MarkLe m₁ m₃ :=
  fun m hm => h' m (h m hm)

theorem MarkLe.false_of {mark' mark : ℕ → Bool} (h : MarkLe mark' mark) {m : ℕ}
    (hm : mark m = false) : mark' m = false := by
  by_contra hn
  rw [h m (by simpa using hn)] at hm
  cases hm

theorem markLe_update (mark : ℕ → Bool) (ref : ℕ) : MarkLe (Function.update mark ref false) mark := by
  intro m hm
  by_cases he : m = ref
  · subst he
    simp at hm
  · rwa [Function.update_of_ne he] at hm

theorem markLe_clearMark (mark : ℕ → Bool) (ref : ℕ) : MarkLe (clearMark mark ref) mark := by
  simp only [clearMark]
  split
  · exact MarkLe.refl _
  · exact markLe_update mark ref

theorem clearMark_self (mark : ℕ → Bool) {ref : ℕ} (h : refBias ≤ ref) :
    clearMark mark ref ref = false := by
  simp [clearMark, irrefIsk, not_lt.2 h]

/-- A fold of functions that only clear marks. -/
theorem markLe_foldl {α : Type} {f : (ℕ → Bool) → α → (ℕ → Bool)} (hf : ∀ mark a, MarkLe (f mark a) mark)
    (l : List α) (mark : ℕ → Bool) : MarkLe (l.foldl f mark) mark := by
  induction l generalizing mark with
  | nil => exact MarkLe.refl _
  | cons a l ih => exact (ih _).trans (hf mark a)

/-- What one of the functions clears is clear at the end. -/
theorem foldl_clear {α : Type} {f : (ℕ → Bool) → α → (ℕ → Bool)} (hf : ∀ mark a, MarkLe (f mark a) mark)
    {l : List α} {a : α} (ha : a ∈ l) {m : ℕ} (hm : ∀ mark, f mark a m = false) (mark : ℕ → Bool) :
    l.foldl f mark m = false := by
  induction l generalizing mark with
  | nil => cases ha
  | cons b l ih =>
      rcases List.mem_cons.1 ha with rfl | ha
      · exact (markLe_foldl hf l _).false_of (hm mark)
      · exact ih ha _

theorem markLe_clearCargs (J : JitState) (fuel ref : ℕ) (mark : ℕ → Bool) :
    MarkLe (clearCargs J fuel ref mark) mark := by
  induction fuel generalizing ref mark with
  | zero => exact MarkLe.refl _
  | succ fuel ih =>
      simp only [clearCargs]
      split
      · split
        · exact markLe_clearMark _ _
        · exact (ih _ _).trans ((markLe_clearMark _ _).trans (markLe_clearMark _ _))
      · exact MarkLe.refl _

theorem markLe_clearIns (J : JitState) (invar : ℕ) (mark : ℕ → Bool) (i : ℕ) :
    MarkLe (clearIns J invar mark i) mark := by
  simp only [clearIns]
  split
  · exact markLe_clearMark _ _
  · split
    · exact (markLe_clearCargs _ _ _ _).trans ((markLe_clearMark _ _).trans (markLe_clearMark _ _))
    · exact (markLe_clearMark _ _).trans (markLe_clearMark _ _)

theorem clearIns_op1 (J : JitState) (invar : ℕ) (mark : ℕ → Bool) (i : ℕ)
    (h : refBias ≤ (J.ir i).op1) : clearIns J invar mark i (J.ir i).op1 = false := by
  have hk : irrefIsk (J.ir i).op1 = false := by simp [irrefIsk, h]
  simp only [clearIns, hk, Bool.false_eq_true, if_false]
  split
  · exact (markLe_clearCargs _ _ _ _).false_of (clearMark_self _ h)
  · exact clearMark_self _ h

theorem clearIns_op2 (J : JitState) (invar : ℕ) (mark : ℕ → Bool) (i : ℕ)
    (h : refBias ≤ (J.ir i).op2) : clearIns J invar mark i (J.ir i).op2 = false := by
  have h2 := clearMark_self mark h
  simp only [clearIns]
  split
  · exact h2
  · split
    · exact ((markLe_clearCargs _ _ _ _).trans (markLe_clearMark _ _)).false_of h2
    · exact (markLe_clearMark _ _).false_of h2

theorem markLe_clearSnap (mark : ℕ → Bool) (snap : SnapShot) : MarkLe (clearSnap mark snap) mark :=
  markLe_foldl (fun mark (sn : SnapEntry) => markLe_clearMark mark sn.ref) snap.map mark

theorem clearSnap_ref {snap : SnapShot} {e : SnapEntry} (he : e ∈ snap.map) (h : refBias ≤ e.ref)
    (mark : ℕ → Bool) : clearSnap mark snap e.ref = false :=
  foldl_clear (fun mark (sn : SnapEntry) => markLe_clearMark mark sn.ref) he
    (fun mark => clearMark_self mark h) mark

/-! ### The passes -/

/-- A candidate that is neither invariant nor dropped. -/
def Kept (subst : ℕ → ℕ) (l : ℕ) : Prop := subst l ≠ l ∧ subst l ≠ refDrop

/-- The instruction is a PHI of the loop. -/
def IsPhi (subst : ℕ → ℕ) (J : JitState) (q : ℕ) : Prop :=
  (J.ir q).o = .phi ∧ (J.ir q).t.isguard = false ∧ (J.ir q).op2 = subst (J.ir q).op1

/-- The flags and candidates of the state while PHIs are eliminated.  `st₀` is the state after the
copy-substitution. -/
structure PhiInv (T : Trace) (st₀ st : LoopState) : Prop where
  step : PhiStep { st₀ with phi := [] } st
  range : ∀ l ∈ st.phi, refFirst ≤ l ∧ l < T.core.nins
  isphi : ∀ r, refFirst ≤ r → r < T.core.nins → ((st.T.core.ir r).t.isphi = true ↔ r ∈ st.phi)
  mark : ∀ m, st.mark m = true → m ∈ st.phi
  kept : ∀ l ∈ st₀.phi, Kept st₀.subst l → l ∈ st.phi

theorem CoreExt.addins (J : JitState) (ins : IRIns) : CoreExt J (J.addins ins).2 where
  nk_le := le_rfl
  nins_le := Nat.le_succ _
  same r _ hr := by
    show erase (Function.update J.ir J.nins _ r) = _
    rw [Function.update_of_ne (by omega)]

/-- Pass #1 removes the candidates that are invariant or dropped. -/
theorem phiPass1_step (l : List ℕ) (st : LoopState) :
    PhiStep st (phiPass1 l st) ∧
      (∀ m, m ∈ (phiPass1 l st).phi ↔ m ∈ st.phi ∨ m ∈ l ∧ Kept st.subst m) ∧
      (∀ m, (phiPass1 l st).mark m = true → st.mark m = true ∨ m ∈ (phiPass1 l st).phi) ∧
      ∀ m, ((phiPass1 l st).T.core.ir m).t.isphi = true ↔
        (st.T.core.ir m).t.isphi = true ∧ ¬ (m ∈ l ∧ ¬ Kept st.subst m) := by
  induction l generalizing st with
  | nil =>
      refine ⟨PhiStep.refl st, ?_, fun _ h => .inl h, ?_⟩ <;> simp [phiPass1]
  | cons lref l ih =>
      simp only [phiPass1]
      split
      next hinv =>
        have hk : ¬ Kept st.subst lref := by
          intro hk
          rcases hinv with h | h
          · exact hk.1 h.symm
          · exact hk.2 h
        obtain ⟨hs, hphi, hmark, hflag⟩ :=
          ih { st with T := { st.T with core := setPhi st.T.core lref false } }
        have hs₀ : PhiStep st { st with T := { st.T with core := setPhi st.T.core lref false } } :=
          ⟨rfl, rfl, rfl, rfl, rfl, erase_setPhi _ _ _, fun _ h => h⟩
        refine ⟨hs₀.trans hs, ?_, hmark, ?_⟩
        · intro m
          rw [hphi m, List.mem_cons]
          refine or_congr_right (and_congr_left fun hm => ?_)
          exact ⟨.inr, fun h => h.resolve_left fun he => hk (he ▸ hm)⟩
        · intro m
          rw [hflag m, setPhi_isphi, List.mem_cons]
          by_cases he : m = lref
          · simp [he, hk]
          · simp [he]
      next hinv =>
        have hk : Kept st.subst lref := by
          refine ⟨fun h => hinv (.inl h.symm), fun h => hinv (.inr h)⟩
        -- the mark only says that pass #2 has to look for uses
        have hrec : ∀ mark : ℕ → Bool, (∀ m, mark m = true → st.mark m = true ∨ m = lref) →
            PhiStep st (phiPass1 l { st with phi := st.phi ++ [lref], mark := mark }) ∧
            (∀ m, m ∈ (phiPass1 l { st with phi := st.phi ++ [lref], mark := mark }).phi ↔
              m ∈ st.phi ∨ m ∈ lref :: l ∧ Kept st.subst m) ∧
            (∀ m, (phiPass1 l { st with phi := st.phi ++ [lref], mark := mark }).mark m = true →
              st.mark m = true ∨
                m ∈ (phiPass1 l { st with phi := st.phi ++ [lref], mark := mark }).phi) ∧
            ∀ m, ((phiPass1 l { st with phi := st.phi ++ [lref], mark := mark }).T.core.ir m).t.isphi =
              true ↔ (st.T.core.ir m).t.isphi = true ∧ ¬ (m ∈ lref :: l ∧ ¬ Kept st.subst m) := by
          intro mark hm
          obtain ⟨hs, hphi, hmark, hflag⟩ := ih { st with phi := st.phi ++ [lref], mark := mark }
          have hs₀ : PhiStep st { st with phi := st.phi ++ [lref], mark := mark } :=
            ⟨rfl, rfl, rfl, rfl, rfl, fun _ => rfl, fun _ h => List.mem_append_left _ h⟩
          refine ⟨hs₀.trans hs, ?_, ?_, ?_⟩
          · intro m
            rw [hphi m, List.mem_append, List.mem_singleton, List.mem_cons, or_assoc]
            refine or_congr_right ?_
            constructor
            · rintro (rfl | ⟨h, h'⟩)
              · exact ⟨.inl rfl, hk⟩
              · exact ⟨.inr h, h'⟩
            · rintro ⟨rfl | h, h'⟩
              · exact .inl rfl
              · exact .inr ⟨h, h'⟩
          · intro m h
            rcases hmark m h with h | h
            · rcases hm m h with h | rfl
              · exact .inl h
              · exact .inr ((hphi _).2 (.inl (by simp)))
            · exact .inr h
          · intro m
            rw [hflag m, List.mem_cons]
            by_cases he : m = lref
            · simp [he, hk]
            · simp [he]
        split
        · exact hrec st.mark fun m h => .inl h
        · refine hrec _ fun m h => ?_
          by_cases he : m = lref
          · exact .inr he
          · rw [Function.update_of_ne he] at h
            exact .inl h

theorem phiPass1_ok {T : Trace} {st₀ : LoopState} (h : CopyOk T T.core.nins st₀) :
    PhiInv T st₀ (phiPass1 st₀.phi { st₀ with phi := [], mark := fun _ => false }) := by
  obtain ⟨hs, hphi, hmark, hflag⟩ :=
    phiPass1_step st₀.phi { st₀ with phi := [], mark := fun _ => false }
  have hmem : ∀ m, m ∈ (phiPass1 st₀.phi { st₀ with phi := [], mark := fun _ => false }).phi ↔
      m ∈ st₀.phi ∧ Kept st₀.subst m := by
    intro m
    rw [hphi m]
    simp
  refine ⟨⟨hs.subst, hs.first, hs.trace, hs.nins, hs.nk, hs.ir, hs.phi⟩, ?_, ?_, ?_, ?_⟩
  · intro l hl
    exact h.phi_range l ((hmem l).1 hl).1
  · intro r hr hlt
    rw [hflag r, hmem r, h.isphi r hr (hlt.trans h.nins.1)]
    refine and_congr_right fun hm => ?_
    simp [hm]
  · intro m hm
    exact (hmark m hm).resolve_left (by simp)
  · intro l hl hk
    exact (hmem l).2 ⟨hl, hk⟩

theorem PhiInv.of_markLe {T : Trace} {st₀ st : LoopState} (h : PhiInv T st₀ st) {mark : ℕ → Bool}
    (hle : MarkLe mark st.mark) : PhiInv T st₀ { st with mark := mark } :=
  ⟨⟨h.step.subst, h.step.first, h.step.trace, h.step.nins, h.step.nk, h.step.ir, h.step.phi⟩,
    h.range, h.isphi, fun m hm => h.mark m (hle m hm), h.kept⟩

/-- A reference to a value of the pre-roll, or to a constant. -/
def PreRef (T : Trace) (r : ℕ) : Prop :=
  refBias ≤ r → refFirst ≤ r ∧ r < T.core.nins ∧ isCmp (T.core.ir r).o = false

theorem ValRef.preRef {T : Trace} {lim r : ℕ} (h : ValRef T.core lim r) (hle : lim ≤ T.core.nins) :
    PreRef T r := by
  intro hr
  rcases h with h | ⟨h1, h2, h3⟩
  · omega
  · exact ⟨h1, by omega, h3⟩

/-- What a value of the pre-roll is substituted with. -/
theorem CopyOk.subst_value {T : Trace} {first last : SnapShot} {mid : List SnapShot} {st : LoopState}
    (hT : Recorded T first mid last) (h : CopyOk T T.core.nins st) {x : ℕ} (hx : refFirst ≤ x)
    (hlt : x < T.core.nins) (hv : isCmp (T.core.ir x).o = false) :
    (st.T.core.nk ≤ st.subst x ∧ st.subst x < refBias) ∨
      (T.core.nins < st.subst x ∧ st.subst x < st.T.core.nins) ∨
      (refFirst ≤ st.subst x ∧ st.subst x < T.core.nins ∧ isCmp (T.core.ir (st.subst x)).o = false ∧
        (st.subst x = x ∨ st.subst x ∈ st.phi)) := by
  have hs := h.subst x hx hlt
  have hv' : isCmp (st.T.core.ir x).o = false := by rw [(h.pre hT hx hlt).1]; exact hv
  rcases hs.ref with ⟨-, hr⟩ | hr | ⟨hr1, hr2, hr3, hr4⟩
  · rw [hv'] at hr
    cases hr
  · exact .inl hr
  · rcases lt_trichotomy (st.subst x) T.core.nins with hlt' | he | hgt
    · refine .inr (.inr ⟨hr1, hlt', ?_, hs.phi ?_ hlt'⟩)
      · rw [← (h.pre hT hr1 hlt').1]
        exact hr4 hv'
      · simp only [refFirst] at hr1
        omega
    · rw [he] at hr3
      exact absurd h.loop.1 hr3
    · exact .inr (.inl ⟨hgt, hr2⟩)

/-- There are no PHIs yet. -/
theorem CopyOk.ne_phi {T : Trace} {first last : SnapShot} {mid : List SnapShot} {st : LoopState}
    (hT : Recorded T first mid last) (h : CopyOk T T.core.nins st) {q : ℕ} (hq : refFirst ≤ q)
    (hlt : q < st.T.core.nins) : (st.T.core.ir q).o ≠ .phi := by
  intro ho
  rcases lt_trichotomy q T.core.nins with hlt' | rfl | hgt
  · rw [(h.pre hT hq hlt').1] at ho
    rcases (hT.ins q hq hlt').kind with hk | hk <;> rw [ho] at hk <;> cases hk
  · rw [h.loop.1] at ho
    cases ho
  · have hk := (h.body q hgt hlt).1
    rw [ho] at hk
    cases hk

/-- In a trace of integers no value has a primitive type. -/
theorem CopyOk.not_isPri {T : Trace} {first last : SnapShot} {mid : List SnapShot} {st : LoopState}
    (hT : Recorded T first mid last) (h : CopyOk T T.core.nins st) {x : ℕ} (hx : refFirst ≤ x)
    (hlt : x < T.core.nins) (hv : isCmp (T.core.ir x).o = false) :
    isPri (st.T.core.ir x).t.type = false := by
  have hnop : (T.core.ir x).o ≠ .nop := by
    intro ho
    rw [ho] at hv
    cases hv
  have hty := (hT.ins x hx hlt).type hnop
  rw [← (h.pre hT hx hlt).2.2.2.1] at hty
  cases hr : (st.T.core.ir x).t.type <;> rw [hr] at hty <;> first | rfl | cases hty

/-- Pass #2 clears the marks of what the loop body and its snapshots use. -/
theorem phiPass2_ok (invar onsnap : ℕ) (st : LoopState) :
    ∃ mark, phiPass2 invar onsnap st = { st with mark := mark } ∧ MarkLe mark st.mark ∧
      (∀ q, invar < q → q < st.T.core.nins → refBias ≤ (st.T.core.ir q).op1 →
        mark (st.T.core.ir q).op1 = false) ∧
      (∀ q, invar < q → q < st.T.core.nins → refBias ≤ (st.T.core.ir q).op2 →
        mark (st.T.core.ir q).op2 = false) ∧
      ∀ sn ∈ st.T.snap.drop onsnap, ∀ e ∈ sn.map, refBias ≤ e.ref → mark e.ref = false := by
  have hle := markLe_clearIns st.T.core invar
  have hsnaps : ∀ mark, MarkLe ((st.T.snap.drop onsnap).reverse.foldl clearSnap mark) mark :=
    markLe_foldl markLe_clearSnap _
  have hmem : ∀ q, invar < q → q < st.T.core.nins →
      q ∈ (List.range' (invar + 1) (st.T.core.nins - (invar + 1))).reverse := by
    intro q hq hlt
    rw [List.mem_reverse, List.mem_range'_1]
    lia
  refine ⟨_, rfl, (hsnaps _).trans (markLe_foldl hle _ _), ?_, ?_, ?_⟩
  · intro q hq hlt hge
    exact (hsnaps _).false_of
      (foldl_clear hle (hmem q hq hlt) (fun mark => clearIns_op1 _ _ mark q hge) _)
  · intro q hq hlt hge
    exact (hsnaps _).false_of
      (foldl_clear hle (hmem q hq hlt) (fun mark => clearIns_op2 _ _ mark q hge) _)
  · intro sn hsn e he hge
    exact foldl_clear markLe_clearSnap (List.mem_reverse.2 hsn)
      (fun mark => clearSnap_ref he hge mark) _

/-- A slot after pass #3: a constant, invariant, or a candidate without a mark. -/
def SlotDone (st : LoopState) (ref : ℕ) : Prop :=
  ref < refBias ∨ st.subst ref = ref ∨ ref ∈ st.phi ∧ st.mark ref = false

theorem SlotDone.mono {st st' : LoopState} {ref : ℕ} (h : SlotDone st ref)
    (hs : st'.subst = st.subst) (hphi : ∀ l ∈ st.phi, l ∈ st'.phi) (hle : MarkLe st'.mark st.mark) :
    SlotDone st' ref := by
  rcases h with h | h | ⟨h, hm⟩
  · exact .inl h
  · exact .inr (.inl (by rw [hs, h]))
  · exact .inr (.inr ⟨hphi ref h, hle.false_of hm⟩)

section

variable {T : Trace} {first last : SnapShot} {mid : List SnapShot} {st₀ : LoopState}

/-- Pass #3 stops at a candidate. -/
theorem PhiInv.flagged (hT : Recorded T first mid last) (hc : CopyOk T T.core.nins st₀) {ref : ℕ}
    {st : LoopState} (h : PhiInv T st₀ st) (href : PreRef T ref) (hk : refBias ≤ ref)
    (hflag : (st.T.core.ir ref).t.isphi = true ∨ isPri (st.T.core.ir ref).t.type = true) :
    ref ∈ st.phi := by
  obtain ⟨h1, h2, h3⟩ := href hk
  obtain ⟨-, -, -, hty, -⟩ := erase_eq (h.step.ir ref)
  rcases hflag with hflag | hpri
  · exact (h.isphi ref h1 h2).1 hflag
  · rw [hty, hc.not_isPri hT h1 h2 h3] at hpri
    cases hpri

/-- Pass #3 adds a candidate. -/
theorem PhiInv.add {ref : ℕ} {st : LoopState} (h : PhiInv T st₀ st) (href : PreRef T ref)
    (hk : refBias ≤ ref) :
    PhiInv T st₀ { st with
      T := { st.T with core := setPhi st.T.core ref true }, phi := st.phi ++ [ref] } := by
  obtain ⟨h1, h2, -⟩ := href hk
  have hs : PhiStep st { st with
      T := { st.T with core := setPhi st.T.core ref true }, phi := st.phi ++ [ref] } :=
    ⟨rfl, rfl, rfl, rfl, rfl, erase_setPhi _ _ _, fun _ hl => List.mem_append_left _ hl⟩
  refine ⟨h.step.trans hs, ?_, ?_, fun m hm => hs.phi m (h.mark m hm),
    fun l hl hkept => hs.phi l (h.kept l hl hkept)⟩
  · intro l hl
    rcases List.mem_append.1 hl with hl | hl
    · exact h.range l hl
    · rw [List.mem_singleton.1 hl]
      exact ⟨h1, h2⟩
  · intro r hr hlt
    rw [setPhi_isphi, List.mem_append, List.mem_singleton]
    split
    next he => simp [he]
    next hne =>
      rw [h.isphi r hr hlt]
      exact ⟨.inl, fun h => h.resolve_right hne⟩

/-- One slot in pass #3. -/
theorem phiSlot_ok (hT : Recorded T first mid last) (hc : CopyOk T T.core.nins st₀) {room ref : ℕ}
    {st st' : LoopState} (h : PhiInv T st₀ st) (href : PreRef T ref)
    (he : phiSlot T.core.nins room ref st = some st') :
    PhiInv T st₀ st' ∧ MarkLe st'.mark st.mark ∧ (∀ l ∈ st.phi, l ∈ st'.phi) ∧ SlotDone st' ref := by
  fun_induction phiSlot T.core.nins room ref st with
  | case1 room ref st hdone =>
      simp only [Option.some.injEq] at he
      subst he
      refine ⟨h, MarkLe.refl _, fun _ hl => hl, ?_⟩
      rcases hdone with hk | hs
      · exact .inl (by simpa [irrefIsk] using hk)
      · exact .inr (.inl hs.symm)
  | case2 room ref st hdone ir st₁ hflag =>
      simp only [Option.some.injEq] at he
      subst he
      have hk : refBias ≤ ref := by simpa [irrefIsk] using fun hk => hdone (.inl hk)
      exact ⟨h.of_markLe (markLe_update _ _), markLe_update _ _, fun _ hl => hl,
        .inr (.inr ⟨h.flagged hT hc href hk hflag, Function.update_self _ _ _⟩)⟩
  | case3 => cases he
  | case4 ref st hdone ir st₁ hflag room st₂ hbody =>
      simp only [Option.some.injEq] at he
      subst he
      have hk : refBias ≤ ref := by simpa [irrefIsk] using fun hk => hdone (.inl hk)
      exact ⟨(h.of_markLe (markLe_update _ ref)).add href hk, markLe_update _ _,
        fun _ hl => List.mem_append_left _ hl,
        .inr (.inr ⟨List.mem_append_right _ (List.mem_singleton_self _), Function.update_self _ _ _⟩)⟩
  | case5 ref st hdone ir st₁ hflag room st₂ hbody ih =>
      have hk : refBias ≤ ref := by simpa [irrefIsk] using fun hk => hdone (.inl hk)
      obtain ⟨h1, h2, h3⟩ := href hk
      have hinv₂ : PhiInv T st₀ st₂ := (h.of_markLe (markLe_update _ ref)).add href hk
      have hsub : st₂.subst = st₀.subst := hinv₂.step.subst
      obtain ⟨hinv, hle, hphi, hdone'⟩ := ih hinv₂ (by
        intro hr
        rw [hsub] at hr hbody ⊢
        rcases hc.subst_value hT h1 h2 h3 with hv | hv | ⟨hv1, hv2, hv3, -⟩
        · omega
        · omega
        · exact ⟨hv1, hv2, hv3⟩) he
      exact ⟨hinv, hle.trans (markLe_update _ _), fun l hl => hphi l (List.mem_append_left _ hl),
        .inr (.inr ⟨hphi ref (List.mem_append_right _ (List.mem_singleton_self _)),
          hle.false_of (Function.update_self _ _ _)⟩)⟩

/-- **Pass #3**: all slots are done. -/
theorem phiPass3_ok (hT : Recorded T first mid last) (hc : CopyOk T T.core.nins st₀) {l : List ℕ}
    {st st' : LoopState} (h : PhiInv T st₀ st) (hslot : ∀ s ∈ l, PreRef T (T.slot s))
    (he : phiPass3 T.core.nins l st = some st') :
    PhiInv T st₀ st' ∧ MarkLe st'.mark st.mark ∧ (∀ m ∈ st.phi, m ∈ st'.phi) ∧
      ∀ s ∈ l, SlotDone st' (T.slot s) := by
  induction l generalizing st with
  | nil =>
      simp only [phiPass3, Option.some.injEq] at he
      subst he
      exact ⟨h, MarkLe.refl _, fun _ hm => hm, by simp⟩
  | cons s l ih =>
      have hs : st.T.slot = T.slot := by
        rw [h.step.trace]
        exact hc.slot.1
      simp only [phiPass3, hs] at he
      split at he
      next => cases he
      next st₁ h₁ =>
        obtain ⟨hi, hle, hphi, hd⟩ := phiSlot_ok hT hc h (hslot s (by simp)) h₁
        obtain ⟨hi', hle', hphi', hd'⟩ := ih hi (fun s hs => hslot s (List.mem_cons_of_mem _ hs)) he
        refine ⟨hi', hle'.trans hle, fun m hm => hphi' m (hphi m hm), ?_⟩
        intro s' hs'
        rcases List.mem_cons.1 hs' with rfl | hs'
        · exact hd.mono (hi'.step.subst.trans hi.step.subst.symm) hphi' hle'
        · exact hd' s' hs'

end

/-- One round of pass #4. -/
theorem phiPass4Round_ok (subst : ℕ → ℕ) (l : List ℕ) (mark : ℕ → Bool) (passx : Bool) :
    MarkLe (phiPass4Round subst l mark passx).1 mark ∧
      ((phiPass4Round subst l mark passx).2 = false → passx = false ∧
        (phiPass4Round subst l mark passx).1 = mark ∧
        ∀ lref ∈ l, mark lref = false → mark (subst lref) = false) ∧
      ((phiPass4Round subst l mark passx).2 = true → passx = true ∨
        ∃ m, mark m = true ∧ (phiPass4Round subst l mark passx).1 m = false) := by
  induction l generalizing mark passx with
  | nil =>
      refine ⟨MarkLe.refl _, fun h => ⟨h, rfl, ?_⟩, fun h => .inl h⟩
      intro lref h
      cases h
  | cons lref l ih =>
      simp only [phiPass4Round]
      split
      next hcond =>
        obtain ⟨hle, hfalse, htrue⟩ := ih (Function.update mark (subst lref) false) true
        refine ⟨hle.trans (markLe_update _ _), ?_, ?_⟩
        · intro h
          cases (hfalse h).1
        · intro _
          exact .inr ⟨subst lref, hcond.2, hle.false_of (Function.update_self _ _ _)⟩
      next hcond =>
        obtain ⟨hle, hfalse, htrue⟩ := ih mark passx
        refine ⟨hle, ?_, htrue⟩
        intro h
        obtain ⟨hp, hm, hcl⟩ := hfalse h
        refine ⟨hp, hm, ?_⟩
        intro lref' hmem hl
        rcases List.mem_cons.1 hmem with rfl | hmem
        · by_contra hn
          exact hcond ⟨hl, by simpa using hn⟩
        · exact hcl lref' hmem hl

/-- **Pass #4**: no PHI without a mark has a right operand with a mark. -/
theorem phiPass4_closed {subst : ℕ → ℕ} {phi : List ℕ} {fuel : ℕ} {mark : ℕ → Bool}
    (hphi : ∀ m, mark m = true → m ∈ phi) (hfuel : (phi.filter mark).length < fuel) :
    MarkLe (phiPass4 subst phi fuel mark) mark ∧
      ∀ l ∈ phi, phiPass4 subst phi fuel mark l = false →
        phiPass4 subst phi fuel mark (subst l) = false := by
  induction fuel generalizing mark with
  | zero => omega
  | succ fuel ih =>
      obtain ⟨hle, hfalse, htrue⟩ := phiPass4Round_ok subst phi mark false
      simp only [phiPass4]
      split
      next h =>
        -- a round that changes something clears the mark of a candidate
        rcases htrue h with h' | ⟨m, hm, hm'⟩
        · cases h'
        · have hlt : (phi.filter (phiPass4Round subst phi mark false).1).length <
              (phi.filter mark).length := by
            rw [← List.countP_eq_length_filter, ← List.countP_eq_length_filter]
            refine lt_of_le_of_ne (List.countP_mono_left fun x _ hx => hle x hx) ?_
            intro he
            have hsub := List.Sublist.eq_of_length (List.monotone_filter_right phi fun x hx => hle x hx)
              (by rw [← List.countP_eq_length_filter, ← List.countP_eq_length_filter]; exact he)
            have : m ∈ phi.filter (phiPass4Round subst phi mark false).1 := by
              rw [hsub]
              exact List.mem_filter.2 ⟨hphi m hm, hm⟩
            rw [(List.mem_filter.1 this).2] at hm'
            cases hm'
          obtain ⟨hle', hcl⟩ := ih (fun m hm => hphi m (hle m hm)) (by omega)
          exact ⟨hle'.trans hle, hcl⟩
      next h =>
        obtain ⟨-, hm, hcl⟩ := hfalse (by simpa using h)
        rw [hm]
        exact ⟨MarkLe.refl _, hcl⟩

/-- **Pass #5** emits the PHIs of the candidates without a mark. -/
theorem phiPass5_ok {invar : ℕ} {subst : ℕ → ℕ} {mark : ℕ → Bool} (l : List ℕ) {J : JitState}
    (hnk : J.nk ≤ J.nins) :
    (phiPass5 invar subst mark l J).nk = J.nk ∧ CoreExt J (phiPass5 invar subst mark l J) ∧
      (∀ q, J.nins ≤ q → q < (phiPass5 invar subst mark l J).nins →
        IsPhi subst (phiPass5 invar subst mark l J) q ∧
          ((phiPass5 invar subst mark l J).ir q).op1 ∈ l ∧
          mark ((phiPass5 invar subst mark l J).ir q).op1 = false) ∧
      ∀ x ∈ l, mark x = false → ∃ q, J.nins ≤ q ∧ q < (phiPass5 invar subst mark l J).nins ∧
        ((phiPass5 invar subst mark l J).ir q).op1 = x := by
  induction l generalizing J with
  | nil => exact ⟨rfl, CoreExt.refl J, fun q h h' => absurd h' (not_lt.2 h), by simp⟩
  | cons lref l ih =>
      simp only [phiPass5]
      split
      next hm =>
        obtain ⟨hk, hext, hnew, hall⟩ := @ih (setPhi J lref false) hnk
        refine ⟨hk, (CoreExt.setPhi J lref false).trans hext, ?_, ?_⟩
        · intro q h h'
          obtain ⟨hq, hmem, hmk⟩ := hnew q h h'
          exact ⟨hq, List.mem_cons_of_mem _ hmem, hmk⟩
        · intro x hx hx'
          rcases List.mem_cons.1 hx with rfl | hx
          · rw [hm] at hx'
            cases hx'
          · exact hall x hx hx'
      next hm =>
        obtain ⟨J₁, hJ₁⟩ : ∃ J₁, J₁ = if invar < subst lref then setPhi J (subst lref) true else J :=
          ⟨_, rfl⟩
        have h₁ : CoreExt J J₁ ∧ J₁.nins = J.nins ∧ J₁.nk = J.nk := by
          rw [hJ₁]
          split
          · exact ⟨CoreExt.setPhi J _ _, rfl, rfl⟩
          · exact ⟨CoreExt.refl J, rfl, rfl⟩
        rw [← hJ₁]
        have hadd := CoreExt.addins J₁
          { o := .phi, t := { type := (J₁.ir lref).t.type }, op1 := lref, op2 := subst lref }
        obtain ⟨J₂, hJ₂⟩ : ∃ J₂, J₂ = (J₁.addins
          { o := .phi, t := { type := (J₁.ir lref).t.type }, op1 := lref, op2 := subst lref }).2 :=
          ⟨_, rfl⟩
        have hnins : J₂.nins = J.nins + 1 := by rw [hJ₂, ← h₁.2.1]; rfl
        have hnk₂ : J₂.nk = J.nk := by rw [hJ₂, ← h₁.2.2]; rfl
        have hir : J₂.ir J.nins =
            { o := .phi, t := { type := (J₁.ir lref).t.type }, op1 := lref, op2 := subst lref
              prev := J₁.chain .phi } := by
          rw [hJ₂, ← h₁.2.1]
          exact Function.update_self _ _ _
        rw [← hJ₂] at hadd ⊢
        obtain ⟨hk, hext, hnew, hall⟩ := @ih J₂ (by lia)
        -- the PHI that has just been emitted
        have hthis : IsPhi subst (phiPass5 invar subst mark l J₂) J.nins ∧
            ((phiPass5 invar subst mark l J₂).ir J.nins).op1 = lref := by
          obtain ⟨h1, h2, h3, -, h5⟩ := erase_eq (hext.same J.nins (by lia) (by lia))
          rw [hir] at h1 h2 h3 h5
          exact ⟨⟨h1, h5, by rw [h3, h2]⟩, h2⟩
        refine ⟨hk.trans hnk₂, (h₁.1.trans hadd).trans hext, ?_, ?_⟩
        · intro q h h'
          rcases Nat.eq_or_lt_of_le h with rfl | h
          · exact ⟨hthis.1, by rw [hthis.2]; simp, by rw [hthis.2]; simpa using hm⟩
          · obtain ⟨hq, hmem, hmk⟩ := hnew q (by lia) h'
            exact ⟨hq, List.mem_cons_of_mem _ hmem, hmk⟩
        · intro x hx hx'
          rcases List.mem_cons.1 hx with rfl | hx
          · have := hext.nins_le
            exact ⟨J.nins, le_rfl, by lia, hthis.2⟩
          · obtain ⟨q, h, h', hq⟩ := hall x hx hx'
            exact ⟨q, by lia, h', hq⟩

/-! ### Emitting PHIs -/

/-- `l` is the left operand of a PHI. -/
def Emitted (J : JitState) (l : ℕ) : Prop :=
  ∃ q, refFirst ≤ q ∧ q < J.nins ∧ (J.ir q).o = .phi ∧ (J.ir q).op1 = l

/-- The reference has its value in every iteration: it is a constant, an instruction of the body,
invariant, or the left operand of a PHI. -/
def Avail (T : Trace) (st : LoopState) (r : ℕ) : Prop :=
  r < refBias ∨ T.core.nins ≤ r ∨
    (refFirst ≤ r ∧ r < T.core.nins ∧ isCmp (T.core.ir r).o = false ∧
      (st.subst r = r ∨ Emitted st.T.core r))

/-- A reference in a snapshot of the body, before PHIs are eliminated. -/
def EntryRef (T : Trace) (st : LoopState) (r : ℕ) : Prop :=
  (PreRef T r ∧ Use T.core.nins T.core.nins st r) ∨ T.core.nins ≤ r ∨ ∃ s < T.nslots, r = T.slot s

/-- What `loop_emit_phi` does. -/
structure EmitOk (T : Trace) (onsnap : ℕ) (st₀ st : LoopState) : Prop where
  subst : st.subst = st₀.subst
  first : st.first = st₀.first
  trace : st.T = { st₀.T with core := st.T.core }
  nk : st.T.core.nk = st₀.T.core.nk
  ext : CoreExt st₀.T.core st.T.core
  phi : ∀ q, st₀.T.core.nins ≤ q → q < st.T.core.nins →
    IsPhi st.subst st.T.core q ∧ refFirst ≤ (st.T.core.ir q).op1 ∧ (st.T.core.ir q).op1 < T.core.nins
  ops : ∀ q, T.core.nins < q → q < st₀.T.core.nins →
    Avail T st (st₀.T.core.ir q).op1 ∧ Avail T st (st₀.T.core.ir q).op2
  slot : ∀ s < T.nslots, Avail T st (T.slot s)
  entry : ∀ sn ∈ st.T.snap.drop onsnap, ∀ e ∈ sn.map, Avail T st e.ref
  closed : ∀ l, refFirst ≤ l → l < T.core.nins → isCmp (T.core.ir l).o = false →
    Emitted st.T.core l → Avail T st (st.subst l)

section

variable {T : Trace} {first last : SnapShot} {mid : List SnapShot} {st₀ : LoopState}

/-- After the passes #1 and #2 nothing that is used has a mark. -/
theorem phiPass2_used (hc : CopyOk T T.core.nins st₀) {onsnap : ℕ} {st : LoopState}
    (hst : st = phiPass1 st₀.phi { st₀ with phi := [], mark := fun _ => false }) :
    ∃ mark, (if st.phi.any fun lref => st.mark lref then phiPass2 T.core.nins onsnap st else st) =
        { st with mark := mark } ∧ MarkLe mark st.mark ∧
      (∀ q, T.core.nins < q → q < st₀.T.core.nins →
        (refBias ≤ (st₀.T.core.ir q).op1 → mark (st₀.T.core.ir q).op1 = false) ∧
        (refBias ≤ (st₀.T.core.ir q).op2 → mark (st₀.T.core.ir q).op2 = false)) ∧
      ∀ sn ∈ st₀.T.snap.drop onsnap, ∀ e ∈ sn.map, refBias ≤ e.ref → mark e.ref = false := by
  have hinv := phiPass1_ok hc
  rw [← hst] at hinv
  split
  next =>
    obtain ⟨mark, he, hle, h1, h2, h3⟩ := phiPass2_ok T.core.nins onsnap st
    refine ⟨mark, he, hle, ?_, ?_⟩
    · intro q hq hlt
      obtain ⟨-, e1, e2, -⟩ := erase_eq (hinv.step.ir q)
      have hlt' : q < st.T.core.nins := by rw [hinv.step.nins]; exact hlt
      have h1 := h1 q hq hlt'
      have h2 := h2 q hq hlt'
      rw [e1] at h1
      rw [e2] at h2
      exact ⟨h1, h2⟩
    · intro sn hsn
      have hsn' : sn ∈ st.T.snap.drop onsnap := by rw [hinv.step.trace]; exact hsn
      exact h3 sn hsn'
  next hany =>
    -- there is no mark at all
    have hno : ∀ m, st.mark m = false := by
      intro m
      by_contra hm
      have hm : st.mark m = true := by simpa using hm
      exact hany (List.any_eq_true.2 ⟨m, hinv.mark m hm, hm⟩)
    exact ⟨st.mark, rfl, MarkLe.refl _, fun q _ _ => ⟨fun _ => hno _, fun _ => hno _⟩,
      fun sn _ e _ _ => hno _⟩

/-- **`loop_emit_phi` eliminates no PHI that is needed.** -/
theorem loopEmitPhi_ok (hT : Recorded T first mid last) (hc : CopyOk T T.core.nins st₀) {onsnap : ℕ}
    {st' : LoopState}
    (hentry : ∀ sn ∈ st₀.T.snap.drop onsnap, ∀ e ∈ sn.map, EntryRef T st₀ e.ref)
    (he : loopEmitPhi T.core.nins onsnap st₀ = some st') : EmitOk T onsnap st₀ st' := by
  simp only [loopEmitPhi] at he
  obtain ⟨st₁, hst₁⟩ : ∃ st₁, st₁ = phiPass1 st₀.phi { st₀ with phi := [], mark := fun _ => false } :=
    ⟨_, rfl⟩
  rw [← hst₁] at he
  have hinv₁ := phiPass1_ok hc
  rw [← hst₁] at hinv₁
  obtain ⟨mark₂, he₂, hle₂, hops, hsnap⟩ := @phiPass2_used T st₀ hc onsnap st₁ hst₁
  rw [he₂] at he
  split at he
  next => cases he
  next st₃ h₃ =>
    obtain ⟨hinv, hle, hphi, hslot⟩ := phiPass3_ok hT hc (hinv₁.of_markLe hle₂) (by
      intro s hs
      have hs' : s < T.nslots := by
        have hn : st₁.T.nslots = T.nslots := by
          rw [hinv₁.step.trace]
          exact hc.slot.2
        have := List.mem_range'_1.1 hs
        simp only [hn] at this
        lia
      intro hge
      exact (hT.slot s hs' (by simp only [refBias] at hge; omega)).preRef le_rfl hge) h₃
    obtain ⟨mark, hmark⟩ : ∃ mark, mark = phiPass4 st₃.subst st₃.phi (st₃.phi.length + 1) st₃.mark :=
      ⟨_, rfl⟩
    obtain ⟨hle₄, hcl⟩ := @phiPass4_closed st₃.subst st₃.phi (st₃.phi.length + 1) st₃.mark hinv.mark
      (Nat.lt_succ_of_le (List.length_filter_le _ _))
    rw [← hmark] at he hle₄ hcl
    have hnk : st₃.T.core.nk ≤ st₃.T.core.nins := by
      rw [hinv.step.nk, hinv.step.nins]
      have := hc.ext.nk_le.trans hT.nk_le
      have := hc.nins.1
      have := hT.nins_le
      simp only [refFirst] at *
      omega
    obtain ⟨h5k, h5ext, h5new, h5all⟩ :=
      @phiPass5_ok T.core.nins st₃.subst mark st₃.phi st₃.T.core hnk
    obtain ⟨J', hJ'⟩ : ∃ J', J' = phiPass5 T.core.nins st₃.subst mark st₃.phi st₃.T.core := ⟨_, rfl⟩
    rw [← hJ'] at he h5k h5ext h5new h5all
    simp only [Option.some.injEq] at he
    have hsub : st₃.subst = st₀.subst := hinv.step.subst
    have hnins : st₃.T.core.nins = st₀.T.core.nins := hinv.step.nins
    have hge : refFirst ≤ st₀.T.core.nins := hT.nins_le.trans hc.nins.1.le
    have hst : st'.subst = st₀.subst ∧ st'.T.core = J' := by
      rw [← he]
      exact ⟨hsub, rfl⟩
    have hemit : ∀ l ∈ st₃.phi, mark l = false → Emitted st'.T.core l := by
      intro l hl hm
      obtain ⟨q, hq, hlt, hop⟩ := h5all l hl hm
      rw [hst.2]
      exact ⟨q, by omega, hlt, (h5new q hq hlt).1.1, hop⟩
    -- a candidate without a mark is emitted, unless it is invariant
    have hcand : ∀ r, refFirst ≤ r → r < T.core.nins → isCmp (T.core.ir r).o = false → r ∈ st₀.phi →
        mark r = false → Avail T st' r := by
      intro r h1 h2 h3 hm hmk
      by_cases hk : Kept st₀.subst r
      · exact .inr (.inr ⟨h1, h2, h3, .inr (hemit r (hinv.kept r hm hk) hmk)⟩)
      · have hnd : st₀.subst r ≠ refDrop := by
          have := hc.nins
          have := hT.nins_lt
          rcases hc.subst_value hT h1 h2 h3 with hv | hv | hv <;> simp only [refBias, refDrop] at * <;>
            lia
        have hself : st₀.subst r = r := by
          by_contra hne
          exact hk ⟨hne, hnd⟩
        exact .inr (.inr ⟨h1, h2, h3, .inl (by rw [hst.1, hself])⟩)
    have hle' : MarkLe mark mark₂ := hle₄.trans hle
    have huse : ∀ r, PreRef T r → Use T.core.nins T.core.nins st₀ r →
        (refBias ≤ r → mark₂ r = false) → Avail T st' r := by
      intro r hpre hu hmk
      rcases hu with hu | hu | hu | ⟨hu1, hu2, hu3⟩
      · exact .inl hu
      · exact .inr (.inl hu)
      · have hr : refBias ≤ r := by
          have := (hc.phi_range r hu).1
          simp only [refFirst] at this
          omega
        obtain ⟨h1, h2, h3⟩ := hpre hr
        exact hcand r h1 h2 h3 hu (hle'.false_of (hmk hr))
      · have hr : refBias ≤ r := by
          simp only [refFirst] at hu1
          lia
        obtain ⟨h1, h2, h3⟩ := hpre hr
        exact .inr (.inr ⟨h1, h2, h3, .inl (by rw [hst.1, hu3])⟩)
    have hslot' : ∀ s < T.nslots, Avail T st' (T.slot s) := by
      intro s hs
      rcases Nat.eq_zero_or_pos s with rfl | hpos
      · exact .inl hT.slot_zero
      · by_cases hk : T.slot s < refBias
        · exact .inl hk
        · have hne : T.slot s ≠ 0 := by
            intro h0
            rw [h0] at hk
            exact hk (by decide)
          obtain ⟨h1, h2, h3⟩ := (hT.slot s hs hne).preRef le_rfl (by omega)
          have hn : st₁.T.nslots = T.nslots := by
            rw [hinv₁.step.trace]
            exact hc.slot.2
          rcases hslot s (List.mem_range'_1.2 (by simp only [hn]; lia)) with hd | hd | ⟨hd, hm⟩
          · exact .inl hd
          · exact .inr (.inr ⟨h1, h2, h3, .inl (by rw [hst.1, ← hsub, hd])⟩)
          · exact .inr (.inr ⟨h1, h2, h3, .inr (hemit _ hd (hle₄.false_of hm))⟩)
    have hext₃ : CoreExt st₀.T.core st₃.T.core :=
      ⟨hinv.step.nk.le, hinv.step.nins.ge, fun r _ _ => hinv.step.ir r⟩
    refine ⟨hst.1, ?_, ?_, ?_, ?_, ?_, ?_, hslot', ?_, ?_⟩
    · rw [← he]
      exact hinv.step.first
    · rw [← he]
      simp only
      rw [hinv.step.trace]
    · rw [hst.2, h5k]
      exact hinv.step.nk
    · rw [hst.2]
      exact hext₃.trans h5ext
    · intro q hq hlt
      rw [hst.2] at hlt ⊢
      rw [hst.1, ← hsub]
      obtain ⟨hphi', hmem, -⟩ := h5new q (by omega) hlt
      exact ⟨hphi', hinv.range _ hmem⟩
    · intro q hq hlt
      obtain ⟨-, hl1, hl2, hu1, hu2⟩ := hc.body q hq hlt
      obtain ⟨hv1, hv2⟩ := hc.body_val q hq hlt
      obtain ⟨hm1, hm2⟩ := hops q hq hlt
      have hpre : ∀ o, Use T.core.nins T.core.nins st₀ o →
          (refBias ≤ o → isCmp (st₀.T.core.ir o).o = false) → o < T.core.nins → PreRef T o := by
        intro o hu hv hlt' hr
        have hf : refFirst ≤ o := by
          rcases hu with hu | hu | hu | hu
          · omega
          · omega
          · exact (hc.phi_range o hu).1
          · exact hu.1
        exact ⟨hf, hlt', by rw [← (hc.pre hT hf hlt').1]; exact hv hr⟩
      have havail : ∀ o, Use T.core.nins T.core.nins st₀ o →
          (refBias ≤ o → isCmp (st₀.T.core.ir o).o = false) → (refBias ≤ o → mark₂ o = false) →
          Avail T st' o := by
        intro o hu hv hm
        rcases lt_or_ge o T.core.nins with hlt' | hge'
        · exact huse o (hpre o hu hv hlt') hu hm
        · exact .inr (.inl hge')
      exact ⟨havail _ hu1 hv1 hm1, havail _ hu2 hv2 hm2⟩
    · intro sn hsn e hmem
      have hsn' : sn ∈ st₀.T.snap.drop onsnap := by
        rw [← he] at hsn
        simp only at hsn
        rw [hinv.step.trace] at hsn
        exact hsn
      rcases hentry sn hsn' e hmem with ⟨hpre, hu⟩ | hge' | ⟨s, hs, hes⟩
      · exact huse _ hpre hu (hsnap sn hsn' e hmem)
      · exact .inr (.inl hge')
      · rw [hes]
        exact hslot' s hs
    · -- the right operand of a PHI
      rintro l h1 h2 h3 ⟨q, hqf, hq, ho, hop⟩
      rw [hst.2] at hq ho hop
      have hq' : st₃.T.core.nins ≤ q := by
        by_contra hlt
        obtain ⟨ho', -⟩ := erase_eq ((hext₃.trans h5ext).same q (by
          have := hc.ext.nk_le.trans hT.nk_le
          simp only [refFirst] at hqf
          lia) (by lia))
        rw [ho] at ho'
        exact hc.ne_phi hT hqf (by omega) ho'.symm
      obtain ⟨-, hmem, hmk⟩ := h5new q hq' hq
      rw [hop] at hmem hmk
      have hmk' := hcl l hmem hmk
      rw [hsub] at hmk'
      rw [hst.1]
      rcases hc.subst_value hT h1 h2 h3 with hv | hv | ⟨hv1, hv2, hv3, hself | hv4⟩
      · exact .inl hv.2
      · exact .inr (.inl hv.1.le)
      · rw [hself]
        exact .inr (.inr ⟨h1, h2, h3, .inl (by rw [hst.1, hself])⟩)
      · exact hcand _ hv1 hv2 hv3 hv4 hmk'

/-! ### Unrolling -/

/-- What `loop_unroll` does: `st₀` is the state after the copy-substitution. -/
structure Unrolled (T : Trace) (first last : SnapShot) (mid : List SnapShot) (st₀ st : LoopState) :
    Prop where
  copy : CopyOk T T.core.nins st₀
  emit : EmitOk T T.snap.length st₀ st
  snap : ∃ new, st.T.snap = T.snap ++ new ∧ ∀ sn ∈ new, T.core.nins < sn.ref
  guard : ∀ q, T.core.nins < q → q < st₀.T.core.nins → (st₀.T.core.ir q).t.isguard = true →
    ∃ x sn, InCopy st₀ T.core.nins x q ∧ snapAt st.T.snap q = some sn ∧
      Right T st₀.subst first last mid x sn

theorem loopInit_copyOk (hT : Recorded T first mid last) : CopyOk T refFirst (loopInit T) := by
  have hself : (loopInit T).T.core.ir T.core.nins =
      { o := .loop, t := { type := .nil, isguard := true }, prev := T.core.chain .loop } :=
    Function.update_self _ _ _
  have hne : ∀ r, r ≠ T.core.nins → (loopInit T).T.core.ir r = T.core.ir r := fun r hr =>
    Function.update_of_ne hr _ _
  have hempty : ∀ {p : Prop} {q : ℕ}, T.core.nins < q → q < (loopInit T).T.core.nins → p := by
    intro p q hq hlt
    have : (loopInit T).T.core.nins = T.core.nins + 1 := rfl
    omega
  refine ⟨hT.nins_le, CoreExt.addins _ _, ⟨rfl, rfl⟩, ⟨Nat.lt_succ_self _, hT.nins_lt⟩, ?_, ?_, ?_, ?_,
    ?_, ?_, ?_, ?_, ?_⟩
  · rw [hself]
    exact ⟨rfl, rfl, rfl⟩
  · intro q hq hlt
    exact hempty hq hlt
  · intro q hq hlt
    exact hempty hq hlt
  · intro l hl
    cases hl
  · exact List.nodup_nil
  · intro r hr hlt
    have hflag : ((loopInit T).T.core.ir r).t.isphi = false := by
      by_cases he : r = T.core.nins
      · rw [he, hself]
      · rw [hne r he]
        have : (loopInit T).T.core.nins = T.core.nins + 1 := rfl
        exact (hT.ins r hr (by lia)).isphi
    rw [hflag]
    simp [loopInit]
  · intro x hx hlt
    omega
  · intro x hx hlt
    omega
  · intro x hx hlt
    omega

theorem loopInit_snapInv (hT : Recorded T first mid last) :
    SnapInv T first last mid [] refFirst [] (loopInit T) := by
  refine ⟨(List.append_nil _).symm, fun _ => rfl, ?_, ?_, ?_, ?_, ?_⟩
  · intro o ho
    cases ho
  · intro sn hsn
    cases hsn
  · intro sn hsn
    cases hsn
  · intro hg
    cases hg
  · intro q hq hlt
    have : (loopInit T).T.core.nins = T.core.nins + 1 := rfl
    omega

/-- The references of a substituted snapshot. -/
theorem SnapInv.entryRef (hT : Recorded T first mid last) {new done : List SnapShot} {st : LoopState}
    (hc : CopyOk T T.core.nins st) (h : SnapInv T first last mid done T.core.nins new st) :
    ∀ sn ∈ new, ∀ e ∈ sn.map, EntryRef T st e.ref := by
  intro sn hsn e he
  rcases h.entry sn hsn e he with ⟨o, ho, hle, osn, hosn, heq⟩ | hl
  · have hv := (hT.mid_ok o ho).ref osn hosn
    rcases lt_or_ge osn.ref refBias with hk | hk
    · have href : e.ref = osn.ref := by simp [heq, substEntry, irrefIsk, hk]
      rw [href]
      exact .inl ⟨fun hr => absurd hk (not_lt.2 hr), .inl hk⟩
    · have href : e.ref = st.subst osn.ref := by simp [heq, substEntry, irrefIsk, not_lt.2 hk]
      obtain ⟨h1, h2, h3⟩ := hv.preRef hle hk
      rw [href]
      rcases hc.subst_value hT h1 h2 h3 with hs | hs | ⟨hs1, hs2, hs3, -⟩
      · exact .inl ⟨fun hr => absurd hs.2 (not_lt.2 hr), .inl hs.2⟩
      · exact .inr (.inl hs.1.le)
      · exact .inl ⟨fun _ => ⟨hs1, hs2, hs3⟩, (hc.subst _ h1 h2).use⟩
  · -- an entry of the loop snapshot is what is in a slot
    rw [hT.last_map, snapshotSlots, List.mem_filterMap] at hl
    obtain ⟨s, hs, hent⟩ := hl
    refine .inr (.inr ⟨s, List.mem_range.1 hs, ?_⟩)
    simp only [snapshotSlot] at hent
    split at hent
    · cases hent
    · split at hent
      · split at hent
        · cases hent
        · simp only [Option.some.injEq] at hent
          rw [← hent]
      · simp only [Option.some.injEq] at hent
        rw [← hent]

/-- A redundant snapshot at the end is dropped. -/
theorem SnapInv.dropSnap {new done : List SnapShot} {ins : ℕ} {st : LoopState}
    (h : SnapInv T first last mid done ins new st) :
    ∃ new', (∀ sn ∈ new', sn ∈ new) ∧ Loop.dropSnap st.T = { st.T with snap := T.snap ++ new' } ∧
      ∀ q, T.core.nins < q → q < st.T.core.nins → (st.T.core.ir q).t.isguard = true →
        snapAt (T.snap ++ new') q = snapAt (T.snap ++ new) q := by
  cases hg : st.T.guardemit with
  | true =>
      refine ⟨new, fun _ hsn => hsn, ?_, fun _ _ _ _ => rfl⟩
      rw [Loop.dropSnap, if_pos hg, ← h.snap]
  | false =>
      refine ⟨new.dropLast, fun _ hsn => List.dropLast_subset _ hsn, ?_, ?_⟩
      · simp only [Loop.dropSnap, hg, Bool.false_eq_true, if_false, h.snap,
          List.dropLast_append_of_ne_nil (h.new_ne_nil hg)]
      · intro q hq hlt hguard
        exact h.snapAt_dropLast hg hq hlt hguard

/-- **`loop_unroll`.**  A property `P` of the IR that every copied instruction keeps holds after the
copy-substitution. -/
theorem loopUnroll_ok {Val : Type} {S : Sem Val} {fold : Fold} (hfold : FoldOk S fold)
    (hT : Recorded T first mid last) (P : ℕ → LoopState → Prop)
    (hinit : P refFirst (loopInit T))
    (hcongr : ∀ ins st T', T'.core = st.T.core → P ins st → P ins { st with T := T' })
    (hstep : ∀ ins st st', refFirst ≤ ins → ins < T.core.nins → CopyOk T ins st →
      CopyOk T (ins + 1) st' → CopyStep fold T ins st st' →
      st'.first = Function.update st.first ins st.T.core.nins → P ins st → P (ins + 1) st')
    {st : LoopState} (he : loopUnroll fold T = some st) :
    ∃ st₀, Unrolled T first last mid st₀ st ∧ P T.core.nins st₀ := by
  have hmap : loopMap T = last.map := by
    have hlast : T.snap.getLast? = some last := by rw [hT.snap, List.getLast?_append]; rfl
    rw [loopMap, hlast]
  have htail : T.snap.tail = mid ++ [last] := by rw [hT.snap]; rfl
  have hsub : refFirst + (T.core.nins - refFirst) = T.core.nins := Nat.add_sub_cancel' hT.nins_le
  unfold loopUnroll at he
  rw [hmap, htail] at he
  obtain ⟨st₁, h₁, he⟩ := Option.bind_eq_some_iff.1 he
  have hmid : ∀ o ∈ mid, refFirst ≤ o.ref := by
    intro o ho
    have hp := hT.refs
    rw [List.cons_append, List.pairwise_cons] at hp
    have := hp.1 o (by simp [ho])
    have := hT.first_ref
    lia
  obtain ⟨hc, ⟨new, hs⟩, hP⟩ := copyAll_ok hfold hT P
    (fun ins st o h => hcongr ins st _ rfl h) hstep (loopInit_copyOk hT) (loopInit_snapInv hT)
    (List.nil_append mid).symm le_rfl hsub (fun o ho => (by cases ho)) hmid hinit h₁
  obtain ⟨new', hsub', hdrop, hat⟩ := hs.dropSnap
  have hc' : CopyOk T T.core.nins { st₁ with T := dropSnap st₁.T } := by
    rw [hdrop]
    exact hc.withSnap _ _
  have hsnap : (dropSnap st₁.T).snap = T.snap ++ new' := by rw [hdrop]
  have hcore : (dropSnap st₁.T).core = st₁.T.core := by rw [hdrop]
  have hentry : ∀ sn ∈ (dropSnap st₁.T).snap.drop T.snap.length, ∀ e ∈ sn.map,
      EntryRef T { st₁ with T := dropSnap st₁.T } e.ref := by
    intro sn hsn e hmem
    rw [hsnap, List.drop_left] at hsn
    exact hs.entryRef hT hc sn (hsub' sn hsn) e hmem
  have hem := loopEmitPhi_ok hT hc' hentry he
  have hst : st.T.snap = T.snap ++ new' := by
    rw [hem.trace]
    exact hsnap
  refine ⟨_, ⟨hc', hem, ⟨new', hst, fun sn hsn => (hs.refs sn (hsub' sn hsn)).1⟩, ?_⟩,
    hcongr _ _ _ hcore hP⟩
  intro q hq hlt hg
  simp only [hcore] at hlt hg
  obtain ⟨x, sn, hin, hsn, hright⟩ := hs.guard q hq hlt hg
  refine ⟨x, sn, hin, ?_, hright⟩
  rw [hst, hat q hq hlt hg, ← hs.snap]
  exact hsn

end

end Loop
