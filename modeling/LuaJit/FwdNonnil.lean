/-
**Previous values of table stores.**

Before a store to a table, `lj_opt_fwd_wasnonnil` of `lj_opt_mem.c` looks for an earlier store or load
through the same reference that shows the slot to hold a value other than nil.  It then saves the
check for a metatable.  The walk over the stores has to stop at a store of nil that may be to the same
slot, and it compares the keys of the references for that.

Main definitions:

* `Ir.optFwdWasnonnil` — the analysis;
* `Ir.slotOf`, `Ir.stepAh` — the slot of a reference and the effect of an instruction on the tables;
* `Ir.AhRuns` — an execution of a trace;
* `Ir.Clears`, `Ir.NilByKslot` — the instructions that the analysis misses.

Main results:

* `Ir.JitState.Chained.addins` — chains have all instructions of an opcode;
* `Ir.wasnonnilStores_spec` — what the walk over the stores has seen;
* `Ir.nilByKslot_of_passed` — a store of nil to the slot is passed over only for an `HREFK`;
* `Ir.wasnonnil_iff` — **where the analysis says so, the slot is not nil exactly if what the analysis
  misses is followed by another store to the slot**;
* `Ir.not_wasnonnil` — a store of nil through an `HREF` to the slot of an `HREFK`.
-/

import LuaJit.IrEnv

set_option relaxedAutoImplicit false
set_option autoImplicit false

namespace Ir

/-! ### Chains -/

namespace JitState

/-- The chains of the instructions: each has all instructions of its opcode, newest first. -/
structure Chained (J : JitState) : Prop where
  nk_le : J.nk ≤ refBias
  bias_le : refBias ≤ J.nins
  not_const : ∀ {ref : ℕ}, refBias ≤ ref → ref < J.nins → (J.ir ref).o.isConst = false
  chain_ge : ∀ {ref : ℕ}, refBias ≤ ref → ref < J.nins → ref ≤ J.chain (J.ir ref).o
  chain_ok : ∀ {o : IROp}, refBias ≤ J.chain o → J.chain o < J.nins ∧ (J.ir (J.chain o)).o = o
  prev_ge : ∀ {ref ref' : ℕ}, refBias ≤ ref' → ref' < ref → ref < J.nins →
    (J.ir ref').o = (J.ir ref).o → ref' ≤ (J.ir ref).prev
  prev_lt : ∀ {ref : ℕ}, refBias ≤ ref → ref < J.nins → (J.ir ref).prev < ref
  prev_ok : ∀ {ref : ℕ}, refBias ≤ ref → ref < J.nins → refBias ≤ (J.ir ref).prev →
    (J.ir (J.ir ref).prev).o = (J.ir ref).o

theorem Chained.empty : empty.Chained where
  nk_le := le_rfl
  bias_le := le_rfl
  not_const h h' := absurd h' (Nat.not_lt.2 h)
  chain_ge h h' := absurd h' (Nat.not_lt.2 h)
  chain_ok h := absurd h (Nat.not_le.2 (by decide : 0 < refBias))
  prev_ge h h' h'' := absurd (h.trans_lt (h'.trans h'')) (lt_irrefl _)
  prev_lt h h' := absurd h' (Nat.not_lt.2 h)
  prev_ok h h' := absurd h' (Nat.not_lt.2 h)

variable {J : JitState} {ins : IRIns}

/-- Constants do not change the chains of the instructions. -/
theorem Chained.addk (hJ : J.Chained) (hins : ins.o.isConst = true) : (J.addk ins).2.Chained := by
  have hnk := hJ.nk_le
  have hpos : 0 < refBias := by decide
  have hir {ref : ℕ} (h : refBias ≤ ref) : (J.addk ins).2.ir ref = J.ir ref :=
    Function.update_of_ne (by lia) _ _
  have hchain {o : IROp} (h : o.isConst = false) : (J.addk ins).2.chain o = J.chain o :=
    Function.update_of_ne (fun heq => by rw [heq, hins] at h; cases h) _ _
  refine
    { nk_le := (Nat.sub_le _ _).trans hnk, bias_le := hJ.bias_le, not_const := ?_, chain_ge := ?_,
      chain_ok := ?_, prev_ge := ?_, prev_lt := ?_, prev_ok := ?_ }
  · intro ref h h'
    rw [hir h]
    exact hJ.not_const h h'
  · intro ref h h'
    rw [hir h, hchain (hJ.not_const h h')]
    exact hJ.chain_ge h h'
  · intro o h
    by_cases ho : o = ins.o
    · subst ho
      rw [show (J.addk ins).2.chain ins.o = J.nk - 1 from Function.update_self _ _ _] at h
      lia
    · rw [show (J.addk ins).2.chain o = J.chain o from Function.update_of_ne ho _ _] at h ⊢
      rw [hir h]
      exact hJ.chain_ok h
  · intro ref ref' h h' h'' heq
    rw [hir h, hir (h.trans h'.le)] at heq
    rw [hir (h.trans h'.le)]
    exact hJ.prev_ge h h' h'' heq
  · intro ref h h'
    rw [hir h]
    exact hJ.prev_lt h h'
  · intro ref h h' hprev
    rw [hir h] at hprev ⊢
    rw [hir hprev]
    exact hJ.prev_ok h h' hprev

/-- An instruction is added to its chain. -/
theorem Chained.addins (hJ : J.Chained) (hins : ins.o.isConst = false) :
    (J.addins ins).2.Chained := by
  have hbias := hJ.bias_le
  have hpos : 0 < refBias := by decide
  have hnew : (J.addins ins).2.ir J.nins = { ins with prev := J.chain ins.o } :=
    Function.update_self _ _ _
  have hir {ref : ℕ} (h : ref < J.nins) : (J.addins ins).2.ir ref = J.ir ref :=
    Function.update_of_ne (by omega) _ _
  have hchain : (J.addins ins).2.chain ins.o = J.nins := Function.update_self _ _ _
  have hchain' {o : IROp} (h : o ≠ ins.o) : (J.addins ins).2.chain o = J.chain o :=
    Function.update_of_ne h _ _
  have hlt : J.chain ins.o < J.nins := by
    by_cases h : refBias ≤ J.chain ins.o
    · exact (hJ.chain_ok h).1
    · omega
  have hcases {ref : ℕ} (h : ref < (J.addins ins).2.nins) : ref < J.nins ∨ ref = J.nins :=
    Nat.lt_succ_iff_lt_or_eq.1 h
  refine
    { nk_le := hJ.nk_le, bias_le := hbias.trans (Nat.le_succ _), not_const := ?_, chain_ge := ?_,
      chain_ok := ?_, prev_ge := ?_, prev_lt := ?_, prev_ok := ?_ }
  · intro ref h h'
    rcases hcases h' with h' | rfl
    · rw [hir h']
      exact hJ.not_const h h'
    · rw [hnew]
      exact hins
  · intro ref h h'
    rcases hcases h' with h' | rfl
    · rw [hir h']
      by_cases ho : (J.ir ref).o = ins.o
      · rw [ho, hchain]
        exact h'.le
      · rw [hchain' ho]
        exact hJ.chain_ge h h'
    · rw [hnew, hchain]
  · intro o h
    by_cases ho : o = ins.o
    · subst ho
      rw [hchain, hnew]
      exact ⟨Nat.lt_succ_self _, rfl⟩
    · rw [hchain' ho] at h ⊢
      obtain ⟨h', heq⟩ := hJ.chain_ok h
      rw [hir h']
      exact ⟨h'.trans (Nat.lt_succ_self _), heq⟩
  · intro ref ref' h h' h'' heq
    rcases hcases h'' with h'' | rfl
    · rw [hir (h'.trans h''), hir h''] at heq
      rw [hir h'']
      exact hJ.prev_ge h h' h'' heq
    · rw [hir h', hnew] at heq
      rw [hnew]
      exact (hJ.chain_ge h h').trans_eq (congrArg J.chain heq)
  · intro ref h h'
    rcases hcases h' with h' | rfl
    · rw [hir h']
      exact hJ.prev_lt h h'
    · rw [hnew]
      exact hlt
  · intro ref h h' hprev
    rcases hcases h' with h' | rfl
    · rw [hir h'] at hprev ⊢
      rw [hir ((hJ.prev_lt h h').trans h')]
      exact hJ.prev_ok h h' hprev
    · rw [hnew] at hprev ⊢
      rw [hir hlt]
      exact (hJ.chain_ok hprev).2

/-- A trace that is built from constants and instructions in turn. -/
theorem chained_ofCode {ks code : List IRIns} (fins : IRIns) (hks : ∀ ins ∈ ks, ins.o.isConst = true)
    (hcode : ∀ ins ∈ code, ins.o.isConst = false) : (ofCode ks code fins).Chained := by
  have hk : ∀ {J : JitState}, J.Chained → (ks.foldl (fun J ins => (J.addk ins).2) J).Chained := by
    induction ks with
    | nil => exact id
    | cons ins ks ih =>
        intro J hJ
        rw [List.forall_mem_cons] at hks
        exact ih hks.2 (hJ.addk hks.1)
  have hc : ∀ {J : JitState}, J.Chained → (code.foldl (fun J ins => (J.addins ins).2) J).Chained := by
    induction code with
    | nil => exact id
    | cons ins code ih =>
        intro J hJ
        rw [List.forall_mem_cons] at hcode
        exact ih hcode.2 (hJ.addins hcode.1)
  obtain ⟨h₁, h₂, h₃, h₄, h₅, h₆, h₇, h₈⟩ := hc (hk Chained.empty)
  exact ⟨h₁, h₂, h₃, h₄, h₅, h₆, h₇, h₈⟩

end JitState

/-! ### The analysis -/

/-- `IRDELTA_L2S`: the store for a load. -/
def IROp.l2s : IROp → IROp
  | .aload => .astore
  | .hload => .hstore
  | .uload => .ustore
  | .fload => .fstore
  | .xload => .xstore
  | o => o

/-- A store of nil may be to the slot of `xref`: the test on the keys. -/
def keyMayAlias (J : JitState) (loadop : IROp) (xref store : ℕ) : Bool :=
  let skref := (J.ir (J.ir store).op1).op2
  let xkref := (J.ir xref).op2
  (decide (loadop = .aload) || decide ((J.ir skref).t.type = (J.ir xkref).t.type)) &&
    (decide (skref = xkref) || !irrefIsk skref || !irrefIsk xkref)

/-- The walk over the stores from `ref` on, which may derive nothing.  The number of links is bounded
by the first argument. -/
def wasnonnilStores (J : JitState) (loadop : IROp) (xref : ℕ) : ℕ → ℕ → Option Bool
  | 0, _ => none
  | fuel + 1, ref =>
      if ref ≤ xref then none
      else
        let store := J.ir ref
        if store.op1 = xref then some (!decide (store.t.type = .nil))
        else if store.t.type = .nil ∧ keyMayAlias J loadop xref ref = true then some false
        else wasnonnilStores J loadop xref fuel store.prev

/-- `lj_opt_fwd_wasnonnil`: the stores first, and the loads if nothing is derived from them. -/
def optFwdWasnonnil (J : JitState) (loadop : IROp) (xref : ℕ) : Bool :=
  match wasnonnilStores J loadop xref J.nins (J.chain loadop.l2s) with
  | some b => b
  | none =>
      match J.findins (fun load => load.op1 = xref) xref J.nins (J.chain loadop) with
      | some ref => !decide ((J.ir ref).t.type = .nil)
      | none => false

/-! ### Executions -/

/-- `IRCALL_lj_tab_clear`. -/
def ircallTabClear : ℕ := 28

/-- A slot of a table, in its array part or in its hash part. -/
inductive Slot (T K : Type)
  | array (t : T) (i : BitVec 32)
  | hash (t : T) (k : K)
  deriving DecidableEq

/-- The table of a slot. -/
def Slot.tab {T K : Type} : Slot T K → T
  | .array t _ => t
  | .hash t _ => t

/-- The values of the references in an execution: tables, array indexes and hash keys. -/
structure AhEnv (T K : Type) where
  tab : ℕ → T
  idx : ℕ → BitVec 32
  key : ℕ → K

section Run

variable {T K : Type}

/-- The slot that a reference stands for.  An `AREF` has the field load of the array for its table, an
`HREFK` that of the nodes, and its key is in a `KSLOT`. -/
def slotOf (J : JitState) (ρ : AhEnv T K) (xref : ℕ) : Slot T K :=
  let ir := J.ir xref
  match ir.o with
  | .aref => .array (ρ.tab (J.ir ir.op1).op1) (ρ.idx ir.op2)
  | .hrefk => .hash (ρ.tab (J.ir ir.op1).op1) (ρ.key (J.ir ir.op2).op1)
  | _ => .hash (ρ.tab ir.op1) (ρ.key ir.op2)

variable [DecidableEq T] [DecidableEq K]

/-- The effect of an instruction on the types of the values in the tables.  Every load checks the type
that it finds. -/
def stepAh (J : JitState) (ρ : AhEnv T K) (h : Slot T K → IRType) (ref : ℕ) :
    Option (Slot T K → IRType) :=
  let ir := J.ir ref
  match ir.o with
  | .aload | .hload => if h (slotOf J ρ ir.op1) = ir.t.type then some h else none
  | .astore | .hstore => some (Function.update h (slotOf J ρ ir.op1) ir.t.type)
  | .calls =>
      if ir.op2 = ircallTabClear then
        some fun s => if s.tab = ρ.tab ir.op1 then .nil else h s
      else some h
  | _ => some h

/-- An execution of the trace, with the tables before each instruction. -/
def AhRuns (J : JitState) (ρ : AhEnv T K) (σ : ℕ → Slot T K → IRType) : Prop :=
  ∀ ref, refBias ≤ ref → ref < J.nins → stepAh J ρ (σ ref) ref = some (σ (ref + 1))

/-- A `table.clear` of the table of the slot. -/
def Clears (J : JitState) (ρ : AhEnv T K) (s : Slot T K) (ref : ℕ) : Prop :=
  (J.ir ref).o = .calls ∧ (J.ir ref).op2 = ircallTabClear ∧ s.tab = ρ.tab (J.ir ref).op1

/-- A store of nil to the slot of `xref`, where one of both references is an `HREFK`. -/
def NilByKslot (J : JitState) (ρ : AhEnv T K) (xref ref : ℕ) : Prop :=
  (J.ir ref).o = .hstore ∧ (J.ir ref).t.type = .nil ∧ slotOf J ρ (J.ir ref).op1 = slotOf J ρ xref ∧
    ((J.ir (J.ir ref).op1).o = .hrefk ∨ (J.ir xref).o = .hrefk)

/-- A store to the slot of a value other than nil. -/
def Refills (J : JitState) (ρ : AhEnv T K) (s : Slot T K) (ref : ℕ) : Prop :=
  ((J.ir ref).o = .astore ∨ (J.ir ref).o = .hstore) ∧ (J.ir ref).t.type ≠ .nil ∧
    slotOf J ρ (J.ir ref).op1 = s

end Run

/-! ### The references of a trace -/

/-- The references to the hash part. -/
def IROp.IsHref (o : IROp) : Prop := o = .href ∨ o = .hrefk ∨ o = .newref

instance (o : IROp) : Decidable o.IsHref := inferInstanceAs (Decidable (_ ∨ _))

/-- What a load is from. -/
def RefFor (J : JitState) (loadop : IROp) (xref : ℕ) : Prop :=
  (loadop = .aload ∧ (J.ir xref).o = .aref) ∨ (loadop = .hload ∧ (J.ir xref).o.IsHref)

/-- The accesses to tables as they are recorded: loads and stores have their references, and these
have valid keys, which are in a `KSLOT` for an `HREFK` only. -/
structure AhShapes (J : JitState) : Prop where
  aref : ∀ {ref : ℕ}, refBias ≤ ref → ref < J.nins →
    (J.ir ref).o = .aload ∨ (J.ir ref).o = .astore → (J.ir (J.ir ref).op1).o = .aref ∧
      refBias ≤ (J.ir ref).op1 ∧ (J.ir ref).op1 < J.nins
  href : ∀ {ref : ℕ}, refBias ≤ ref → ref < J.nins →
    (J.ir ref).o = .hload ∨ (J.ir ref).o = .hstore → (J.ir (J.ir ref).op1).o.IsHref ∧
      refBias ≤ (J.ir ref).op1 ∧ (J.ir ref).op1 < J.nins
  idx : ∀ {ref : ℕ}, refBias ≤ ref → ref < J.nins → (J.ir ref).o = .aref →
    irrefIsk (J.ir ref).op2 = true → J.nk ≤ (J.ir ref).op2 ∧ (J.ir (J.ir ref).op2).o = .kint
  key : ∀ {ref : ℕ}, refBias ≤ ref → ref < J.nins → (J.ir ref).o = .href ∨ (J.ir ref).o = .newref →
    J.Valid (J.ir ref).op2 ∧ (J.ir (J.ir ref).op2).o ≠ .kslot

/-- The values of the keys: they have the types of their references, and equal constants are the same
constant. -/
structure KeysOk {T K : Type} (J : JitState) (ρ : AhEnv T K) (keyType : K → IRType) : Prop where
  typed : ∀ {ref : ℕ}, J.Valid ref → (J.ir ref).o ≠ .kslot →
    keyType (ρ.key ref) = (J.ir ref).t.type
  interned : ∀ {r r' : ℕ}, J.Valid r → J.Valid r' → irrefIsk r = true → irrefIsk r' = true →
    (J.ir r).o ≠ .kslot → (J.ir r').o ≠ .kslot → ρ.key r = ρ.key r' → r = r'
  idx_interned : ∀ {r r' : ℕ}, J.nk ≤ r → J.nk ≤ r' → (J.ir r).o = .kint → (J.ir r').o = .kint →
    irrefIsk r = true → irrefIsk r' = true → ρ.idx r = ρ.idx r' → r = r'

section Walk

variable {J : JitState} {loadop : IROp} {xref : ℕ}

/-- The walk has gone past a store: it is through another reference, and if it stores nil, the keys
tell that it is to another slot. -/
def Passed (J : JitState) (loadop : IROp) (xref ref : ℕ) : Prop :=
  (J.ir ref).op1 ≠ xref ∧ ((J.ir ref).t.type = .nil → keyMayAlias J loadop xref ref = false)

/-- All stores above a reference have been passed. -/
def PassedAbove (J : JitState) (loadop : IROp) (xref lim : ℕ) : Prop :=
  ∀ ref, lim < ref → ref < J.nins → (J.ir ref).o = loadop.l2s → Passed J loadop xref ref

/-- What the walk over the stores has seen. -/
theorem wasnonnilStores_spec (hJ : J.Chained) (hx : refBias ≤ xref) {fuel : ℕ} :
    ∀ {ref : ℕ}, ref < fuel → (xref < ref → ref < J.nins ∧ (J.ir ref).o = loadop.l2s) →
      PassedAbove J loadop xref (max xref ref) →
      (wasnonnilStores J loadop xref fuel ref = some true →
        ∃ store, xref < store ∧ store < J.nins ∧ (J.ir store).o = loadop.l2s ∧
          (J.ir store).op1 = xref ∧ (J.ir store).t.type ≠ .nil ∧ PassedAbove J loadop xref store) ∧
      (wasnonnilStores J loadop xref fuel ref = none → PassedAbove J loadop xref xref) := by
  induction fuel with
  | zero => exact fun h => absurd h (Nat.not_lt_zero _)
  | succ fuel ih =>
      intro ref hfuel hin habove
      rw [wasnonnilStores]
      by_cases hle : ref ≤ xref
      · rw [if_pos hle]
        rw [max_eq_left hle] at habove
        exact ⟨nofun, fun _ => habove⟩
      rw [if_neg hle]
      obtain ⟨hlt, hop⟩ := hin (by omega)
      rw [max_eq_right (by omega)] at habove
      dsimp only
      by_cases hsame : (J.ir ref).op1 = xref
      · rw [if_pos hsame]
        refine ⟨fun h => ⟨ref, by omega, hlt, hop, hsame, ?_, habove⟩, nofun⟩
        simpa using h
      rw [if_neg hsame]
      by_cases halias : (J.ir ref).t.type = .nil ∧ keyMayAlias J loadop xref ref = true
      · rw [if_pos halias]
        exact ⟨nofun, nofun⟩
      rw [if_neg halias]
      have hbias : refBias ≤ ref := hx.trans (by omega)
      have hprev := hJ.prev_lt hbias hlt
      refine ih (by omega) (fun h => ?_) fun s hs hs' hso => ?_
      · exact ⟨hprev.trans hlt, (hJ.prev_ok hbias hlt (hx.trans h.le)).trans hop⟩
      · -- the next store of the chain is the next one below
        rcases lt_trichotomy s ref with h | rfl | h
        · have := hJ.prev_ge (by lia) h hlt (hso.trans hop.symm)
          lia
        · exact ⟨hsame, fun hnil => Bool.eq_false_of_not_eq_true fun hkey => halias ⟨hnil, hkey⟩⟩
        · exact habove s h hs' hso

/-- What a walk over the loads finds. -/
theorem findins_of_chained (hJ : J.Chained) {p : IRIns → Bool} (hx : refBias ≤ xref) {o : IROp} {r : ℕ}
    {fuel : ℕ} :
    ∀ {ref : ℕ}, (xref < ref → ref < J.nins ∧ (J.ir ref).o = o) →
      J.findins p xref fuel ref = some r →
      xref < r ∧ r < J.nins ∧ (J.ir r).o = o ∧ p (J.ir r) = true := by
  induction fuel with
  | zero => exact fun _ h => absurd h.symm (Option.some_ne_none r)
  | succ fuel ih =>
      intro ref hin h
      rw [JitState.findins] at h
      split at h
      · cases h
      · next hle =>
          obtain ⟨hlt, hop⟩ := hin (by omega)
          split at h
          · next hp =>
              cases h
              exact ⟨by omega, hlt, hop, hp⟩
          · have hbias : refBias ≤ ref := hx.trans (by omega)
            refine ih (fun hgt => ⟨(hJ.prev_lt hbias hlt).trans hlt, ?_⟩) h
            exact (hJ.prev_ok hbias hlt (hx.trans hgt.le)).trans hop

/-- The access that decides, and the stores that have been passed after it. -/
theorem optFwdWasnonnil_spec (hJ : J.Chained) (hx : refBias ≤ xref)
    (h : optFwdWasnonnil J loadop xref = true) :
    ∃ ref, xref < ref ∧ ref < J.nins ∧ ((J.ir ref).o = loadop.l2s ∨ (J.ir ref).o = loadop) ∧
      (J.ir ref).op1 = xref ∧ (J.ir ref).t.type ≠ .nil ∧ PassedAbove J loadop xref ref := by
  have hchain (o : IROp) (hgt : xref < J.chain o) : J.chain o < J.nins ∧ (J.ir (J.chain o)).o = o :=
    hJ.chain_ok (hx.trans hgt.le)
  have hlt : J.chain loadop.l2s < J.nins := by
    by_cases hb : refBias ≤ J.chain loadop.l2s
    · exact (hJ.chain_ok hb).1
    · have := hJ.bias_le
      omega
  have habove : PassedAbove J loadop xref (max xref (J.chain loadop.l2s)) := by
    intro s hs hs' hso
    have := hJ.chain_ge (by lia) hs'
    rw [hso] at this
    lia
  obtain ⟨hsome, hnone⟩ := wasnonnilStores_spec hJ hx hlt (hchain _) habove
  unfold optFwdWasnonnil at h
  split at h
  · next b hb =>
      subst h
      obtain ⟨store, h₁, h₂, h₃, h₄⟩ := hsome hb
      exact ⟨store, h₁, h₂, .inl h₃, h₄⟩
  · next hb =>
      split at h
      · next ref hload =>
          obtain ⟨h₁, h₂, h₃, h₄⟩ := findins_of_chained hJ hx (hchain _) hload
          refine ⟨ref, h₁, h₂, .inr h₃, by simpa using h₄, by simpa using h, ?_⟩
          exact fun s hs => hnone hb s (h₁.trans hs)
      · cases h

theorem slotOf_aref {T K : Type} {ρ : AhEnv T K} (h : (J.ir xref).o = .aref) :
    slotOf J ρ xref = .array (ρ.tab (J.ir (J.ir xref).op1).op1) (ρ.idx (J.ir xref).op2) := by
  rw [slotOf, h]

theorem slotOf_href {T K : Type} {ρ : AhEnv T K} (h : (J.ir xref).o.IsHref) :
    ∃ t k, slotOf J ρ xref = .hash t k := by
  rcases h with h | h | h
  all_goals
    rw [slotOf, h]
    exact ⟨_, _, rfl⟩

/-- A store to the slot is one for the load. -/
theorem store_of_slot {T K : Type} {ρ : AhEnv T K} (hs : AhShapes J) (hxref : RefFor J loadop xref)
    {ref : ℕ} (hr : refBias ≤ ref) (hr' : ref < J.nins)
    (ho : (J.ir ref).o = .astore ∨ (J.ir ref).o = .hstore)
    (hslot : slotOf J ρ (J.ir ref).op1 = slotOf J ρ xref) : (J.ir ref).o = loadop.l2s := by
  rcases hxref with ⟨rfl, hop⟩ | ⟨rfl, hop⟩
  · refine ho.resolve_right fun ho => ?_
    obtain ⟨t, k, heq⟩ := slotOf_href (ρ := ρ) (hs.href hr hr' (.inr ho)).1
    rw [heq, slotOf_aref hop] at hslot
    exact nomatch hslot
  · refine ho.resolve_left fun ho => ?_
    obtain ⟨t, k, heq⟩ := slotOf_href (ρ := ρ) hop
    rw [heq, slotOf_aref (hs.aref hr hr' (.inr ho)).1] at hslot
    exact nomatch hslot

/-- A store of nil to the slot is passed over only for an `HREFK`. -/
theorem nilByKslot_of_passed {T K : Type} {ρ : AhEnv T K} {keyType : K → IRType} (hs : AhShapes J)
    (hk : KeysOk J ρ keyType) (hx : refBias ≤ xref) (hx' : xref < J.nins) (hxref : RefFor J loadop xref)
    {ref : ℕ} (hr : refBias ≤ ref) (hr' : ref < J.nins) (ho : (J.ir ref).o = loadop.l2s)
    (hnil : (J.ir ref).t.type = .nil) (hpass : keyMayAlias J loadop xref ref = false)
    (hslot : slotOf J ρ (J.ir ref).op1 = slotOf J ρ xref) : NilByKslot J ρ xref ref := by
  rcases hxref with ⟨rfl, hop⟩ | ⟨rfl, hop⟩
  · -- array references: both keys are constants
    obtain ⟨hop', hb, hb'⟩ := hs.aref hr hr' (.inr ho)
    simp only [slotOf, hop, hop', Slot.array.injEq] at hslot
    simp only [keyMayAlias, decide_true, Bool.true_or, Bool.true_and, Bool.or_eq_false_iff,
      decide_eq_false_iff_not, Bool.not_eq_false'] at hpass
    obtain ⟨⟨hne, hk₁⟩, hk₂⟩ := hpass
    obtain ⟨h₁, h₂⟩ := hs.idx hb hb' hop' hk₁
    obtain ⟨h₃, h₄⟩ := hs.idx hx hx' hop hk₂
    exact absurd (hk.idx_interned h₁ h₃ h₂ h₄ hk₁ hk₂ hslot.2) hne
  · obtain ⟨hop', hb, hb'⟩ := hs.href hr hr' (.inr ho)
    refine ⟨ho, hnil, hslot, ?_⟩
    by_contra hhref
    rw [not_or] at hhref
    have hplain (r : ℕ) (hr : (J.ir r).o.IsHref) (hne : (J.ir r).o ≠ .hrefk) :
        ((J.ir r).o = .href ∨ (J.ir r).o = .newref) ∧
          slotOf J ρ r = .hash (ρ.tab (J.ir r).op1) (ρ.key (J.ir r).op2) := by
      rcases hr with hr | hr | hr
      · exact ⟨.inl hr, by simp [slotOf, hr]⟩
      · exact absurd hr hne
      · exact ⟨.inr hr, by simp [slotOf, hr]⟩
    obtain ⟨ho₁, hs₁⟩ := hplain _ hop' hhref.1
    obtain ⟨ho₂, hs₂⟩ := hplain _ hop hhref.2
    obtain ⟨hv₁, hne₁⟩ := hs.key hb hb' ho₁
    obtain ⟨hv₂, hne₂⟩ := hs.key hx hx' ho₂
    rw [hs₁, hs₂, Slot.hash.injEq] at hslot
    -- so that the same key has the same type and is no other constant
    have htype : (J.ir (J.ir (J.ir ref).op1).op2).t.type = (J.ir (J.ir xref).op2).t.type := by
      rw [← hk.typed hv₁ hne₁, ← hk.typed hv₂ hne₂, hslot.2]
    simp only [keyMayAlias, htype, decide_true, Bool.or_true, Bool.true_and, Bool.or_eq_false_iff,
      decide_eq_false_iff_not, Bool.not_eq_false'] at hpass
    obtain ⟨⟨hne, hk₁⟩, hk₂⟩ := hpass
    exact hne (hk.interned hv₁ hv₂ hk₁ hk₂ hne₁ hne₂ hslot.2)

end Walk

section Sound

variable {T K : Type} [DecidableEq T] [DecidableEq K] {J : JitState} {ρ : AhEnv T K}
  {σ : ℕ → Slot T K → IRType} {s : Slot T K} {ref : ℕ}

/-- What an instruction can do to the tables. -/
theorem stepAh_cases {h h' : Slot T K → IRType} (hstep : stepAh J ρ h ref = some h') :
    (((J.ir ref).o ≠ .astore ∧ (J.ir ref).o ≠ .hstore) ∧ h' = h) ∨
    (((J.ir ref).o = .astore ∨ (J.ir ref).o = .hstore) ∧
      h' = Function.update h (slotOf J ρ (J.ir ref).op1) (J.ir ref).t.type) ∨
    (((J.ir ref).o = .calls ∧ (J.ir ref).op2 = ircallTabClear) ∧
      h' = fun s => if s.tab = ρ.tab (J.ir ref).op1 then .nil else h s) := by
  unfold stepAh at hstep
  dsimp only at hstep
  split at hstep
  · next ho => exact .inl ⟨by simp [ho], (Option.some.inj (Option.ite_none_right_eq_some.1 hstep).2).symm⟩
  · next ho => exact .inl ⟨by simp [ho], (Option.some.inj (Option.ite_none_right_eq_some.1 hstep).2).symm⟩
  · next ho => exact .inr (.inl ⟨.inl ho, (Option.some.inj hstep).symm⟩)
  · next ho => exact .inr (.inl ⟨.inr ho, (Option.some.inj hstep).symm⟩)
  · next ho =>
      split at hstep
      · next hop => exact .inr (.inr ⟨⟨ho, hop⟩, (Option.some.inj hstep).symm⟩)
      · exact .inl ⟨by simp [ho], (Option.some.inj hstep).symm⟩
  · next h₁ h₂ _ => exact .inl ⟨⟨h₁, h₂⟩, (Option.some.inj hstep).symm⟩

/-- A load has found a value of its type. -/
theorem stepAh_load {h h' : Slot T K → IRType} (ho : (J.ir ref).o = .aload ∨ (J.ir ref).o = .hload)
    (hstep : stepAh J ρ h ref = some h') :
    h' = h ∧ h (slotOf J ρ (J.ir ref).op1) = (J.ir ref).t.type := by
  rcases ho with ho | ho
  · simp only [stepAh, ho, Option.ite_none_right_eq_some, Option.some.injEq] at hstep
    exact ⟨hstep.2.symm, hstep.1⟩
  · simp only [stepAh, ho, Option.ite_none_right_eq_some, Option.some.injEq] at hstep
    exact ⟨hstep.2.symm, hstep.1⟩

/-- The instruction stores nil to the slot, or it clears the table. -/
def Empties (J : JitState) (ρ : AhEnv T K) (s : Slot T K) (ref : ℕ) : Prop :=
  Clears J ρ s ref ∨ (((J.ir ref).o = .astore ∨ (J.ir ref).o = .hstore) ∧
    (J.ir ref).t.type = .nil ∧ slotOf J ρ (J.ir ref).op1 = s)

/-- A slot that becomes nil. -/
theorem stepAh_empties {h h' : Slot T K → IRType} (hstep : stepAh J ρ h ref = some h')
    (hne : h s ≠ .nil) (hnil : h' s = .nil) : Empties J ρ s ref := by
  rcases stepAh_cases hstep with ⟨-, rfl⟩ | ⟨ho, rfl⟩ | ⟨⟨ho, hop⟩, rfl⟩
  · exact absurd hnil hne
  · by_cases hs : s = slotOf J ρ (J.ir ref).op1
    · subst hs
      rw [Function.update_self] at hnil
      exact .inr ⟨ho, hnil, rfl⟩
    · rw [Function.update_of_ne hs] at hnil
      exact absurd hnil hne
  · dsimp only at hnil
    split at hnil
    · next htab => exact .inl ⟨ho, hop, htab⟩
    · exact absurd hnil hne

theorem eq_nil_of_empties {h h' : Slot T K → IRType} (hstep : stepAh J ρ h ref = some h')
    (hempty : Empties J ρ s ref) : h' s = .nil := by
  rcases hempty with ⟨ho, hop, htab⟩ | ⟨ho, hnil, rfl⟩
  · rcases stepAh_cases hstep with ⟨-, -⟩ | ⟨ho', -⟩ | ⟨-, rfl⟩
    · simp only [stepAh, ho, hop, if_true, Option.some.injEq] at hstep
      rw [← hstep]
      exact if_pos htab
    · rw [ho] at ho'
      exact ho'.elim nofun nofun
    · exact if_pos htab
  · rcases stepAh_cases hstep with ⟨⟨h₁, h₂⟩, -⟩ | ⟨-, rfl⟩ | ⟨⟨ho', -⟩, -⟩
    · exact absurd ho (not_or.2 ⟨h₁, h₂⟩)
    · rw [Function.update_self, hnil]
    · rw [ho'] at ho
      exact ho.elim nofun nofun

/-- A slot that is not nil any more. -/
theorem stepAh_refills {h h' : Slot T K → IRType} (hstep : stepAh J ρ h ref = some h')
    (hnil : h s = .nil) (hne : h' s ≠ .nil) : Refills J ρ s ref := by
  rcases stepAh_cases hstep with ⟨-, rfl⟩ | ⟨ho, rfl⟩ | ⟨-, rfl⟩
  · exact absurd hnil hne
  · by_cases hs : s = slotOf J ρ (J.ir ref).op1
    · subst hs
      rw [Function.update_self] at hne
      exact ⟨ho, hne, rfl⟩
    · rw [Function.update_of_ne hs] at hne
      exact absurd hnil hne
  · dsimp only at hne
    split at hne
    · exact absurd rfl hne
    · exact absurd hnil hne

/-- A slot that is nil after an instruction was not stored to. -/
theorem not_refills {h h' : Slot T K → IRType} (hstep : stepAh J ρ h ref = some h')
    (hnil : h' s = .nil) : ¬ Refills J ρ s ref := by
  rintro ⟨ho, hne, rfl⟩
  rcases stepAh_cases hstep with ⟨⟨h₁, h₂⟩, -⟩ | ⟨-, rfl⟩ | ⟨⟨ho', -⟩, -⟩
  · exact ho.elim h₁ h₂
  · rw [Function.update_self] at hnil
    exact hne hnil
  · rw [ho'] at ho
    exact ho.elim nofun nofun

/-- Between two instructions, a slot gets a value only from a store. -/
theorem exists_refills (hrun : AhRuns J ρ σ) {a b : ℕ} (ha : refBias ≤ a) (hab : a ≤ b) (hb : b ≤ J.nins)
    (hnil : σ a s = .nil) (hne : σ b s ≠ .nil) : ∃ ref, a ≤ ref ∧ ref < b ∧ Refills J ρ s ref := by
  induction b, hab using Nat.le_induction with
  | base => exact absurd hnil hne
  | succ b hab ih =>
      by_cases h : σ b s = .nil
      · exact ⟨b, hab, Nat.lt_succ_self b, stepAh_refills (hrun b (ha.trans hab) hb) h hne⟩
      · obtain ⟨ref, h₁, h₂, h₃⟩ := ih (by omega) h
        exact ⟨ref, h₁, by omega, h₃⟩

/-- Between two instructions, a slot becomes nil for the last time. -/
theorem exists_empties (hrun : AhRuns J ρ σ) {a b : ℕ} (ha : refBias ≤ a) (hab : a ≤ b) (hb : b ≤ J.nins)
    (hne : σ a s ≠ .nil) (hnil : σ b s = .nil) :
    ∃ ref, a ≤ ref ∧ ref < b ∧ Empties J ρ s ref ∧
      ∀ ref', ref < ref' → ref' < b → ¬ Refills J ρ s ref' := by
  induction b, hab using Nat.le_induction with
  | base => exact absurd hnil hne
  | succ b hab ih =>
      have hstep := hrun b (ha.trans hab) hb
      by_cases h : σ b s = .nil
      · obtain ⟨ref, h₁, h₂, h₃, h₄⟩ := ih (by omega) h
        refine ⟨ref, h₁, by omega, h₃, fun ref' hgt hlt => ?_⟩
        rcases Nat.lt_succ_iff_lt_or_eq.1 hlt with hlt | rfl
        · exact h₄ ref' hgt hlt
        · exact not_refills hstep hnil
      · refine ⟨b, hab, Nat.lt_succ_self b, stepAh_empties hstep h hnil, fun ref' hgt hlt => ?_⟩
        omega

/-- After the access that decides, the slot is not nil. -/
theorem ne_nil_of_access (hrun : AhRuns J ρ σ) {xref : ℕ} (hr : refBias ≤ ref) (hr' : ref < J.nins)
    (ho : ((J.ir ref).o = .astore ∨ (J.ir ref).o = .hstore) ∨
      ((J.ir ref).o = .aload ∨ (J.ir ref).o = .hload))
    (hop : (J.ir ref).op1 = xref) (hne : (J.ir ref).t.type ≠ .nil) :
    σ (ref + 1) (slotOf J ρ xref) ≠ .nil := by
  have hstep := hrun ref hr hr'
  rcases ho with ho | ho
  · intro hnil
    exact not_refills hstep hnil ⟨ho, hne, by rw [hop]⟩
  · obtain ⟨heq, hval⟩ := stepAh_load ho hstep
    rw [heq, ← hop, hval]
    exact hne

end Sound

/-- Where the analysis derives that the previous value is not nil, this is so in an execution exactly if
every `table.clear` of the table and every store of nil to the slot with an `HREFK` on one side is
followed by a store of another value to the slot. -/
theorem wasnonnil_iff {T K : Type} [DecidableEq T] [DecidableEq K] (J : JitState) (ρ : AhEnv T K)
    (keyType : K → IRType) (σ : ℕ → Slot T K → IRType) (loadop : IROp) (xref : ℕ) (hJ : J.Chained)
    (hs : AhShapes J) (hk : KeysOk J ρ keyType) (hx : refBias ≤ xref) (hx' : xref < J.nins)
    (hxref : RefFor J loadop xref) (hrun : AhRuns J ρ σ) (hret : optFwdWasnonnil J loadop xref = true) :
    σ J.nins (slotOf J ρ xref) ≠ .nil ↔
      ∀ ref, xref < ref → ref < J.nins → Clears J ρ (slotOf J ρ xref) ref ∨ NilByKslot J ρ xref ref →
        ∃ ref', ref < ref' ∧ ref' < J.nins ∧ Refills J ρ (slotOf J ρ xref) ref' := by
  constructor
  · intro hne ref hgt hlt hmiss
    have hb : refBias ≤ ref := hx.trans hgt.le
    -- the slot is nil after the instruction
    have hnil : σ (ref + 1) (slotOf J ρ xref) = .nil :=
      eq_nil_of_empties (hrun ref hb hlt) (hmiss.imp id fun h => ⟨.inr h.1, h.2.1, h.2.2.1⟩)
    obtain ⟨ref', h₁, h₂, h₃⟩ := exists_refills hrun (by omega) hlt le_rfl hnil hne
    exact ⟨ref', h₁, h₂, h₃⟩
  · intro hmiss hnil
    obtain ⟨d, hgt, hlt, ho, hop, hne, hpass⟩ := optFwdWasnonnil_spec hJ hx hret
    have hb : refBias ≤ d := hx.trans hgt.le
    have hne' : σ (d + 1) (slotOf J ρ xref) ≠ .nil := by
      refine ne_nil_of_access hrun hb hlt ?_ hop hne
      rcases hxref with ⟨rfl, -⟩ | ⟨rfl, -⟩
      · exact ho.imp .inl .inl
      · exact ho.imp .inr .inr
    obtain ⟨ref, h₁, h₂, hempty, hlast⟩ := exists_empties hrun (by omega) hlt le_rfl hne' hnil
    have hrb : refBias ≤ ref := by omega
    have hmiss' : Clears J ρ (slotOf J ρ xref) ref ∨ NilByKslot J ρ xref ref := by
      refine hempty.imp id fun ⟨ho, hnil, hslot⟩ => ?_
      have ho' : (J.ir ref).o = loadop.l2s := store_of_slot hs hxref hrb h₂ ho hslot
      exact nilByKslot_of_passed hs hk hx hx' hxref hrb h₂ ho' hnil ((hpass ref h₁ h₂ ho').2 hnil) hslot
    obtain ⟨ref', h₃, h₄, hrefill⟩ := hmiss ref (by lia) h₂ hmiss'
    exact hlast ref' h₃ h₄ hrefill

/-- `t.x = 1; t[k] = nil` in front of another store to `t.x`: with a constant key in a `KSLOT`, and with
a variable string. -/
def kslotTrace : JitState :=
  JitState.ofCode
    [{ o := .kgc, t := { type := .str } },
     { o := .kslot, t := { type := .p32 }, op1 := 0x7fff }]
    [{ o := .base, t := { type := .nil } },
     { o := .sload, t := { type := .tab, isguard := true } },
     { o := .sload, t := { type := .str, isguard := true }, op1 := 1 },
     { o := .fload, t := { type := .p32 }, op1 := 0x8001 },
     { o := .hrefk, t := { type := .p32, isguard := true }, op1 := 0x8003, op2 := 0x7ffe },
     { o := .hstore, t := { type := .num }, op1 := 0x8004 },
     { o := .href, t := { type := .p32 }, op1 := 0x8001, op2 := 0x8002 },
     { o := .hstore, t := { type := .nil }, op1 := 0x8006 }]
    default

/-- The tables of an execution in which `k` is `v`, where 0 stands for the constant key. -/
def kslotEnv (v : ℕ) : AhEnv Unit (IRType × ℕ) where
  tab _ := ()
  idx _ := 0
  key ref := (if ref = 0x8002 then (.str, v) else ((kslotTrace.ir ref).t.type, ref - 0x7fff))

theorem chained_kslotTrace : kslotTrace.Chained := JitState.chained_ofCode _ (by decide) (by decide)

/-- A property of the instructions of the trace. -/
theorem forall_kslotTrace {P : ℕ → Prop} (h : ∀ d < 8, P (refBias + d)) {ref : ℕ} (hb : refBias ≤ ref)
    (hlt : ref < kslotTrace.nins) : P ref := by
  obtain ⟨d, rfl⟩ := Nat.exists_eq_add_of_le hb
  exact h d (Nat.add_lt_add_iff_left.1 (hlt.trans_eq rfl))

theorem ahShapes_kslotTrace : AhShapes kslotTrace where
  aref hb hlt := forall_kslotTrace (P := fun ref => (kslotTrace.ir ref).o = .aload ∨
    (kslotTrace.ir ref).o = .astore → (kslotTrace.ir (kslotTrace.ir ref).op1).o = .aref ∧
      refBias ≤ (kslotTrace.ir ref).op1 ∧ (kslotTrace.ir ref).op1 < kslotTrace.nins) (by decide) hb hlt
  href hb hlt := forall_kslotTrace (P := fun ref => (kslotTrace.ir ref).o = .hload ∨
    (kslotTrace.ir ref).o = .hstore → (kslotTrace.ir (kslotTrace.ir ref).op1).o.IsHref ∧
      refBias ≤ (kslotTrace.ir ref).op1 ∧ (kslotTrace.ir ref).op1 < kslotTrace.nins) (by decide) hb hlt
  idx hb hlt := forall_kslotTrace (P := fun ref => (kslotTrace.ir ref).o = .aref →
    irrefIsk (kslotTrace.ir ref).op2 = true → kslotTrace.nk ≤ (kslotTrace.ir ref).op2 ∧
      (kslotTrace.ir (kslotTrace.ir ref).op2).o = .kint) (by decide) hb hlt
  key hb hlt := forall_kslotTrace (P := fun ref => (kslotTrace.ir ref).o = .href ∨
    (kslotTrace.ir ref).o = .newref → kslotTrace.Valid (kslotTrace.ir ref).op2 ∧
      (kslotTrace.ir (kslotTrace.ir ref).op2).o ≠ .kslot) (by unfold JitState.Valid; decide) hb hlt

theorem keysOk_kslotTrace (v : ℕ) : KeysOk kslotTrace (kslotEnv v) Prod.fst where
  typed {ref} _ _ := by
    by_cases h : ref = 0x8002
    · subst h
      rfl
    · exact congrArg Prod.fst (if_neg h)
  interned {r r'} hv hv' hr hr' hne hne' _ := by
    have hone {r : ℕ} (hv : kslotTrace.Valid r) (hr : irrefIsk r = true)
        (hne : (kslotTrace.ir r).o ≠ .kslot) : r = 0x7fff := by
      have h₁ : 0x7ffe ≤ r := hv.1
      have h₂ : r < 0x8000 := of_decide_eq_true hr
      have h₃ : r ≠ 0x7ffe := fun h => hne (h ▸ rfl)
      lia
    rw [hone hv hr hne, hone hv' hr' hne']
  idx_interned {r r'} hv _ hop _ hr _ _ := by
    have h₁ : 0x7ffe ≤ r := hv
    have h₂ : r < 0x8000 := of_decide_eq_true hr
    have h₃ : r = 0x7ffe ∨ r = 0x7fff := by lia
    rcases h₃ with rfl | rfl
    · exact absurd hop (by decide)
    · exact absurd hop (by decide)

/-- The tables before each instruction. -/
def kslotTabs (v : ℕ) (ref : ℕ) (s : Slot Unit (IRType × ℕ)) : IRType :=
  if 0x8007 < ref ∧ s = .hash () (.str, v) then .nil
  else if 0x8005 < ref ∧ s = .hash () (.str, 0) then .num
  else .str

theorem kslotTabs_succ (v : ℕ) {ref : ℕ} (h : ref ≠ 0x8005) (h' : ref ≠ 0x8007) :
    kslotTabs v (ref + 1) = kslotTabs v ref := by
  funext s
  have h₁ : 0x8007 < ref + 1 ↔ 0x8007 < ref := by lia
  have h₂ : 0x8005 < ref + 1 ↔ 0x8005 < ref := by lia
  simp only [kslotTabs, h₁, h₂]

theorem ahRuns_kslotTrace (v : ℕ) : AhRuns kslotTrace (kslotEnv v) (kslotTabs v) := by
  intro ref hb hlt
  refine forall_kslotTrace (P := fun ref => stepAh kslotTrace (kslotEnv v) (kslotTabs v ref) ref =
    some (kslotTabs v (ref + 1))) (fun d hd => ?_) hb hlt
  by_cases h : refBias + d = 0x8005
  · rw [h]
    refine congrArg some (funext fun s => ?_)
    have hslot : slotOf kslotTrace (kslotEnv v) (kslotTrace.ir 0x8005).op1 = .hash () (.str, 0) := rfl
    rw [hslot, Function.update_apply]
    simp only [kslotTabs, show ¬ 0x8007 < 0x8005 by omega, show ¬ 0x8007 < 0x8005 + 1 by omega,
      show 0x8005 < 0x8005 + 1 by omega, lt_irrefl, false_and, true_and, if_false]
    rfl
  by_cases h' : refBias + d = 0x8007
  · rw [h']
    refine congrArg some (funext fun s => ?_)
    have hslot : slotOf kslotTrace (kslotEnv v) (kslotTrace.ir 0x8007).op1 = .hash () (.str, v) := rfl
    rw [hslot, Function.update_apply]
    simp only [kslotTabs, show 0x8007 < 0x8007 + 1 by omega, show 0x8005 < 0x8007 + 1 by omega,
      show 0x8005 < 0x8007 by omega, lt_irrefl, false_and, true_and, if_false]
    rfl
  · rw [kslotTabs_succ v h h']
    interval_cases d
    case «5» => exact absurd rfl h
    case «7» => exact absurd rfl h'
    all_goals rfl

/-- The store to `t[k]` is through an `HREF` with a string, the next one to `t.x` through an `HREFK` with a
`KSLOT`, which has another type. -/
theorem not_wasnonnil :
    ¬ ∀ (J : JitState) (ρ : AhEnv Unit (IRType × ℕ)) (keyType : IRType × ℕ → IRType)
      (σ : ℕ → Slot Unit (IRType × ℕ) → IRType) (loadop : IROp) (xref : ℕ), J.Chained → AhShapes J →
      KeysOk J ρ keyType → refBias ≤ xref → xref < J.nins → RefFor J loadop xref → AhRuns J ρ σ →
      optFwdWasnonnil J loadop xref = true → σ J.nins (slotOf J ρ xref) ≠ .nil := by
  intro h
  refine h kslotTrace (kslotEnv 0) Prod.fst (kslotTabs 0) .hload 0x8004 chained_kslotTrace
    ahShapes_kslotTrace (keysOk_kslotTrace 0) (by decide) (by decide) (.inr ⟨rfl, by decide⟩)
    (ahRuns_kslotTrace 0) (by decide) (by decide)

/-- The same trace where `k` is another string. -/
theorem wasnonnil_iff_kslot :
    kslotTabs 1 kslotTrace.nins (slotOf kslotTrace (kslotEnv 1) 0x8004) ≠ .nil ↔
      ∀ ref, 0x8004 < ref → ref < kslotTrace.nins →
        Clears kslotTrace (kslotEnv 1) (slotOf kslotTrace (kslotEnv 1) 0x8004) ref ∨
          NilByKslot kslotTrace (kslotEnv 1) 0x8004 ref →
        ∃ ref', ref < ref' ∧ ref' < kslotTrace.nins ∧
          Refills kslotTrace (kslotEnv 1) (slotOf kslotTrace (kslotEnv 1) 0x8004) ref' :=
  wasnonnil_iff kslotTrace (kslotEnv 1) Prod.fst (kslotTabs 1) .hload 0x8004 chained_kslotTrace
    ahShapes_kslotTrace (keysOk_kslotTrace 1) (by decide) (by decide) (.inr ⟨rfl, by decide⟩)
    (ahRuns_kslotTrace 1) (by decide)

end Ir
