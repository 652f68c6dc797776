/-
**Loop unrolling preserves meaning.**

The recorded trace is executed over and over; the unrolled loop executes the pre-roll once and then its
body.  One iteration is compared with one execution of the recorded trace: if the body starts with the
values of execution `n`, the copy of every instruction has the value of that instruction in execution
`n + 1`, and its guards hold iff the recorded guard does (`Loop.Sim`).  Not all values of execution `n`
are there: the back edge only sets the left operands of PHIs.  What is there is enough for the body, its
snapshots, the slots, and the next back edge (`Loop.Avail`).

Main definitions:

* `Loop.Iter` — the values of an execution and of the iteration before it;
* `Loop.Sim` — the invariant of the copy-substitution about values;
* `Loop.Needed` — what is needed in the next iteration.

Main results:

* `Loop.sim_step` — copying an instruction keeps `Loop.Sim`;
* `Loop.agree_succ` — the back edge provides the values of the next execution;
* `Loop.loop_unroll_refines` — loop unrolling preserves meaning.
-/

import LuaJit.LoopPhi

set_option relaxedAutoImplicit false
set_option autoImplicit false

namespace Loop

open Ir

/-! ### Execution -/

section

variable {Val : Type} {S : Sem Val} {J J' : JitState} {σ : ℕ → Val} {lo : ℕ}

theorem exec_of_lt {r : ℕ} (h : r < lo) (n : ℕ) (ρ : ℕ → Val) : exec S J σ lo n ρ r = ρ r := by
  induction n with
  | zero => rfl
  | succ n ih => rw [exec, Function.update_of_ne (by omega), ih]

/-- Later instructions do not change a value. -/
theorem exec_mono {r m n : ℕ} (hr : r < lo + m) (hmn : m ≤ n) (ρ : ℕ → Val) :
    exec S J σ lo n ρ r = exec S J σ lo m ρ r := by
  induction n, hmn using Nat.le_induction with
  | base => rfl
  | succ n hmn ih => rw [exec, Function.update_of_ne (by omega), ih]

theorem exec_of_ge {r n : ℕ} (h : lo + n ≤ r) (ρ : ℕ → Val) : exec S J σ lo n ρ r = ρ r := by
  induction n with
  | zero => rfl
  | succ n ih => rw [exec, Function.update_of_ne (by omega), ih (by omega)]

theorem value_congr {ins ins' : IRIns} (he : erase ins = erase ins') {ρ ρ' : ℕ → Val}
    (h1 : ins.o ≠ .sload → ρ ins.op1 = ρ' ins.op1) (h2 : ins.o ≠ .sload → ρ ins.op2 = ρ' ins.op2) :
    value S σ ins ρ = value S σ ins' ρ' := by
  obtain ⟨ho, ho1, ho2, ht, -⟩ := erase_eq he
  by_cases hs : ins.o = .sload
  · simp only [value, ← ho, hs, if_true, ho1]
  · simp only [value, ← ho, hs, if_false, ← ho1, ← ho2, ← ht, h1 hs, h2 hs]

/-- The value of an instruction whose operands come before it. -/
theorem exec_value {r n : ℕ} (hlo : lo ≤ r) (hr : r < lo + n) (ρ : ℕ → Val)
    (h1 : (J.ir r).o ≠ .sload → (J.ir r).op1 < r) (h2 : (J.ir r).o ≠ .sload → (J.ir r).op2 < r) :
    exec S J σ lo n ρ r = value S σ (J.ir r) (exec S J σ lo n ρ) := by
  obtain ⟨m, rfl⟩ := Nat.exists_eq_add_of_le hlo
  rw [@exec_mono _ _ _ _ _ _ (m + 1) n (by omega) (by omega), exec, Function.update_self]
  refine value_congr rfl ?_ ?_
  · intro hs
    exact (exec_mono (h1 hs) (by omega) ρ).symm
  · intro hs
    exact (exec_mono (h2 hs) (by omega) ρ).symm

/-- Execution only depends on the values that are used, and not on PHI flags. -/
theorem exec_agree {A : ℕ → Prop} {n : ℕ} {ρ ρ' : ℕ → Val}
    (hir : ∀ q, lo ≤ q → q < lo + n → erase (J.ir q) = erase (J'.ir q))
    (hops : ∀ q, lo ≤ q → q < lo + n → (J.ir q).o ≠ .sload →
      (A (J.ir q).op1 ∧ (J.ir q).op1 < q) ∧ A (J.ir q).op2 ∧ (J.ir q).op2 < q)
    (hρ : ∀ r, A r → r < lo → ρ r = ρ' r) {r : ℕ} (hA : A r) (hr : r < lo + n) :
    exec S J σ lo n ρ r = exec S J' σ lo n ρ' r := by
  induction n generalizing r with
  | zero => exact hρ r hA hr
  | succ n ih =>
      have ih' : ∀ r, A r → r < lo + n → exec S J σ lo n ρ r = exec S J' σ lo n ρ' r :=
        fun r hA hr => ih (fun q h h' => hir q h (by omega)) (fun q h h' => hops q h (by omega)) hA hr
      by_cases he : r = lo + n
      · subst he
        rw [exec, exec, Function.update_self, Function.update_self]
        refine value_congr (hir _ (by omega) (by omega)) ?_ ?_
        · intro hs
          obtain ⟨⟨h1, h1'⟩, -⟩ := hops _ (by omega) (by omega) hs
          exact ih' _ h1 h1'
        · intro hs
          obtain ⟨-, h2, h2'⟩ := hops _ (by omega) (by omega) hs
          exact ih' _ h2 h2'
      · rw [exec, exec, Function.update_of_ne he, Function.update_of_ne he]
        exact ih' r hA (by lia)

theorem holds_congr {r : ℕ} (he : erase (J.ir r) = erase (J'.ir r)) {ρ ρ' : ℕ → Val}
    (hs : (J.ir r).o = .sload → ρ r = ρ' r)
    (h1 : (J.ir r).o ≠ .sload → ρ (J.ir r).op1 = ρ' (J.ir r).op1)
    (h2 : (J.ir r).o ≠ .sload → ρ (J.ir r).op2 = ρ' (J.ir r).op2) :
    Holds S J ρ r ↔ Holds S J' ρ' r := by
  obtain ⟨ho, ho1, ho2, ht, hg⟩ := erase_eq he
  by_cases hsl : (J.ir r).o = .sload
  · simp only [Holds, ← ho, ← hg, hsl, if_true, hs hsl]
  · simp only [Holds, ← ho, ← hg, hsl, if_false, ← ho1, ← ho2, ← ht, h1 hsl, h2 hsl]

end

/-! ### One iteration -/

/-- `W` are the values of an execution of the recorded trace, `β` those of the iteration that is to do
the same: in the pre-roll it has the values of the execution before. -/
structure Iter {Val : Type} (S : Sem Val) (T : Trace) (J : JitState) (W β : ℕ → Val) : Prop where
  low : ∀ k < refBias, β k = W k
  models : Models S J β
  pre : ∀ r, refFirst ≤ r → r < T.core.nins → Holds S T.core β r
  ins : ∀ r, refFirst ≤ r → r < T.core.nins → irmKind (T.core.ir r).o = .n →
    W r = S.val (T.core.ir r).o (T.core.ir r).t.type (W (T.core.ir r).op1) (W (T.core.ir r).op2)
  sload : ∀ r, refFirst ≤ r → r < T.core.nins → (T.core.ir r).o = .sload →
    W r = β (T.slot (T.core.ir r).op1) ∧ S.isInt (W r) = true

/-- When the instructions below `ins` have been copied: the copies have the right values as long as the
guards of the recorded trace hold, and their guards hold iff the recorded ones do. -/
structure Sim {Val : Type} (S : Sem Val) (T : Trace) (J : JitState) (W β : ℕ → Val) (ins : ℕ)
    (st : LoopState) : Prop where
  body : Passes S T.core W refFirst ins → ∀ q, T.core.nins < q → q < st.T.core.nins → Holds S J β q
  value : ∀ x, refFirst ≤ x → x < ins → Passes S T.core W refFirst (x + 1) →
    isCmp (T.core.ir x).o = false → β (st.subst x) = W x
  guard : ∀ x, refFirst ≤ x → x < ins → Passes S T.core W refFirst x →
    (Holds S T.core W x ↔ ∀ q, InCopy st ins x q → q < st.T.core.nins → Holds S J β q)

section

variable {Val : Type} {S : Sem Val} {T : Trace} {first last : SnapShot} {mid : List SnapShot}
  {J : JitState} {W β : ℕ → Val}

theorem Models.of_ext {J' : JitState} {ρ : ℕ → Val} (h : Models S J' ρ) (hext : CoreExt J J')
    (hnk : J.nk ≤ refBias) (hle : refFirst ≤ J.nins) : Models S J ρ := by
  have hk : ∀ r, refFirst ≤ r → J.nk ≤ r := by
    intro r hr
    simp only [refFirst] at hr
    omega
  refine ⟨?_, ?_⟩
  · intro r hr hlt
    have hlt' : r < J.nins := by
      simp only [refFirst] at hle
      omega
    rw [h.konst r (hext.nk_le.trans hr) hlt, hext.same r hr hlt']
  · intro r hr hlt hkind
    obtain ⟨ho, h1, h2, ht, -⟩ := erase_eq (hext.same r (hk r hr) hlt)
    have := h.ins r hr (lt_of_lt_of_le hlt hext.nins_le) (by rw [ho]; exact hkind)
    rw [ho, h1, h2, ht] at this
    exact this

theorem Passes.mono {lo hi hi' : ℕ} (h : Passes S J W lo hi') (hle : hi ≤ hi') :
    Passes S J W lo hi :=
  fun r hr hlt => h r hr (lt_of_lt_of_le hlt hle)

/-- An operand of a recorded instruction and its substitution. -/
theorem Sim.op {ins op : ℕ} {st : LoopState} (h : Sim S T J W β ins st) (hi : Iter S T J W β)
    (hp : Passes S T.core W refFirst ins) (hop : refBias ≤ op → ValRef T.core ins op) :
    β (substOp st.subst op) = W op := by
  by_cases hk : op < refBias
  · simp only [substOp, irrefIsk, hk, decide_true, if_true]
    exact hi.low op hk
  · simp only [substOp, irrefIsk, hk, decide_false, Bool.false_eq_true, if_false]
    rcases hop (by omega) with hv | ⟨h1, h2, h3⟩
    · omega
    · exact h.value op h1 h2 (hp.mono h2) h3

/-- What has to be shown about the copy of `ins`. -/
theorem Sim.step {ins : ℕ} {st st' : LoopState} (h : Sim S T J W β ins st)
    (hsub : ∀ x < ins, st'.subst x = st.subst x)
    (hfirst : st'.first = Function.update st.first ins st.T.core.nins)
    (hnins : st.T.core.nins ≤ st'.T.core.nins) (hins : refFirst ≤ ins)
    (hv : Passes S T.core W refFirst (ins + 1) → isCmp (T.core.ir ins).o = false →
      β (st'.subst ins) = W ins)
    (hg : Passes S T.core W refFirst ins → (Holds S T.core W ins ↔
      ∀ q, st.T.core.nins ≤ q → q < st'.T.core.nins → Holds S J β q)) :
    Sim S T J W β (ins + 1) st' := by
  have hself : st'.first ins = st.T.core.nins := by rw [hfirst, Function.update_self]
  have hother : ∀ x < ins, st'.first x = st.first x := by
    intro x hx
    rw [hfirst, Function.update_of_ne (by omega)]
  refine ⟨?_, ?_, ?_⟩
  · intro hp q hq hlt
    have hp' := hp.mono (Nat.le_succ ins)
    rcases lt_or_ge q st.T.core.nins with hold | hnew
    · exact h.body hp' q hq hold
    · exact (hg hp').1 (hp ins hins (Nat.lt_succ_self _)) q hnew hlt
  · intro x hx hlt hp hval
    rcases Nat.lt_succ_iff_lt_or_eq.1 hlt with hlt | rfl
    · rw [hsub x hlt]
      exact h.value x hx hlt hp hval
    · exact hv hp hval
  · intro x hx hlt hp
    rcases Nat.lt_succ_iff_lt_or_eq.1 hlt with hlt | rfl
    · -- the copy of an earlier instruction ends where that of `ins` starts
      rw [h.guard x hx hlt hp]
      constructor
      · intro hall q ⟨_, _, h3, h4⟩ _
        have hq : q < st.T.core.nins := by
          have := h4 ins hlt (Nat.lt_succ_self _)
          rwa [hself] at this
        refine hall q ⟨hx, hlt, by rw [← hother x hlt]; exact h3, ?_⟩ hq
        intro y hy hy'
        rw [← hother y hy']
        exact h4 y hy (by omega)
      · intro hall q ⟨_, _, h3, h4⟩ hq
        refine hall q ⟨hx, by omega, by rw [hother x hlt]; exact h3, ?_⟩ (by lia)
        intro y hy hy'
        rcases Nat.lt_succ_iff_lt_or_eq.1 hy' with hy' | rfl
        · rw [hother y hy']
          exact h4 y hy hy'
        · rw [hself]
          exact hq
    · rw [hg hp]
      constructor
      · intro hall q ⟨_, _, h3, _⟩ hq
        exact hall q (by rw [← hself]; exact h3) hq
      · intro hall q hq hlt'
        exact hall q ⟨hx, hlt, by rw [hself]; exact hq, fun y hy hy' => absurd hy (by omega)⟩ hlt'

/-- An instruction whose copy has no new instructions has a guard that holds anyway. -/
theorem holds_iff_vacuous {ins n n' : ℕ} (hn : n' = n) {p : ℕ → Prop} (h : Holds S T.core W ins) :
    Holds S T.core W ins ↔ ∀ q, n ≤ q → q < n' → p q := by
  constructor
  · intro _ q hq hlt
    omega
  · intro _
    exact h

/-- FOLD is sound for the copy. -/
theorem sim_fold {fold : Fold} (hfold : FoldOk S fold) (hT : Recorded T first mid last)
    (hi : Iter S T J W β) {ins r : ℕ} {st : LoopState} {core : JitState} (hins : refFirst ≤ ins)
    (hlt : ins < T.core.nins) (hc : CopyOk T ins st) (hkind : irmKind (st.T.core.ir ins).o = .n)
    (hpre : FoldPre { st.T.core with fins := copyOf st ins })
    (hf : fold { st.T.core with fins := copyOf st ins } = some (r, core)) (hJ : CoreExt core J)
    (h : Sim S T J W β ins st) (hp : Passes S T.core W refFirst ins) :
    (Holds S T.core W ins ↔ ∀ q, st.T.core.nins ≤ q → q < core.nins → Holds S J β q) ∧
      (Holds S T.core W ins → isCmp (T.core.ir ins).o = false → β r = W ins) := by
  obtain ⟨ho, hop1, hop2, hty, hgd⟩ := hc.pre hT hins hlt
  have hr := hT.ins ins hins hlt
  have hkind' : irmKind (T.core.ir ins).o = .n := by rw [← ho]; exact hkind
  have hns : (T.core.ir ins).o ≠ .sload := by
    intro hs
    rw [hs] at hkind'
    cases hkind'
  have hext := hfold.ext hpre hf
  have hnk : st.T.core.nk ≤ refBias := hc.ext.nk_le.trans hT.nk_le
  have hk : ∀ q, refFirst ≤ q → refBias ≤ q := by
    intro q hq
    simp only [refFirst] at hq
    omega
  have hstcore : CoreExt st.T.core core :=
    ⟨hext.nk_le, hext.nins_le, fun q hk hq => by rw [hext.ir_eq ⟨hk, hq⟩]⟩
  have hstJ := hstcore.trans hJ
  -- the operands of the copy
  have e1 : β (copyOf st ins).op1 = W (T.core.ir ins).op1 := by
    rw [← h.op hi hp (hr.op1 hkind'), ← hop1]
    rfl
  have e2 : β (copyOf st ins).op2 = W (T.core.ir ins).op2 := by
    rw [← h.op hi hp (hr.op2 hkind'), ← hop2]
    rfl
  have hfins : FinsHolds S (copyOf st ins) β ↔ Holds S T.core W ins := by
    simp only [FinsHolds, Holds, e1, e2, hns, if_false]
    simp only [copyOf, ho, hty, hgd]
  -- the guards so far
  have hall : ∀ q, refFirst ≤ q → q < st.T.core.nins → (st.T.core.ir q).o ≠ .loop →
      Holds S st.T.core β q := by
    intro q hq hlt' hne
    rcases lt_trichotomy q T.core.nins with hlt'' | rfl | hgt
    · have he := hc.ext.same q (hT.nk_le.trans (hk q hq)) hlt''
      exact (holds_congr he (fun _ => rfl) (fun _ => rfl) fun _ => rfl).2 (hi.pre q hq hlt'')
    · exact absurd hc.loop.1 hne
    · have he := hstJ.same q (hnk.trans (hk q hq)) hlt'
      exact (holds_congr he (fun _ => rfl) (fun _ => rfl) fun _ => rfl).1 (h.body hp q hgt hlt')
  obtain ⟨hguard, hval⟩ := hfold.sound hpre hf β
    (hi.models.of_ext hJ (hext.nk_le.trans hnk) (hpre.nins_le.trans hext.nins_le)) hall
  constructor
  · rw [← hfins, ← hguard]
    refine forall_congr' fun q => forall_congr' fun hq => forall_congr' fun hlt' => ?_
    have hq' : refFirst ≤ q := hpre.nins_le.trans hq
    have he := hJ.same q ((hext.nk_le.trans hnk).trans (hk q hq')) hlt'
    exact (holds_congr he (fun _ => rfl) (fun _ => rfl) fun _ => rfl).symm
  · intro hh hv
    rw [hval (hfins.2 hh) (by show isCmp (st.T.core.ir ins).o = false; rw [ho]; exact hv),
      hi.ins ins hins hlt hkind']
    simp only [e1, e2]
    simp only [copyOf, ho, hty]

/-- **Copying an instruction keeps the values right.** -/
theorem sim_step {fold : Fold} (hfold : FoldOk S fold) (hT : Recorded T first mid last)
    (hi : Iter S T J W β) {ins : ℕ} {st st' : LoopState} (hins : refFirst ≤ ins)
    (hlt : ins < T.core.nins) (hc : CopyOk T ins st) (hc' : CopyOk T (ins + 1) st')
    (hs : CopyStep fold T ins st st')
    (hf : st'.first = Function.update st.first ins st.T.core.nins) (hJ : CoreExt st'.T.core J)
    (h : Sim S T J W β ins st) : Sim S T J W β (ins + 1) st' := by
  obtain ⟨ho, hop1, hop2, hty, hgd⟩ := hc.pre hT hins hlt
  have hr := hT.ins ins hins hlt
  have hframe := hs.frame hfold hT hc hf
  cases hs with
  | inv hkind h1 h2 hsub hcore =>
      have hkind' : irmKind (T.core.ir ins).o = .n := by rw [← ho]; exact hkind
      have e1 : Passes S T.core W refFirst ins → β (T.core.ir ins).op1 = W (T.core.ir ins).op1 := by
        intro hp
        rw [← h.op hi hp (hr.op1 hkind'), ← hop1, h1]
      have e2 : Passes S T.core W refFirst ins → β (T.core.ir ins).op2 = W (T.core.ir ins).op2 := by
        intro hp
        rw [← h.op hi hp (hr.op2 hkind'), ← hop2, h2]
      refine h.step hframe.subst hf hframe.nins hins ?_ ?_
      · intro hp _
        have hp' := hp.mono (Nat.le_succ ins)
        have hmod := hi.models.of_ext (hc'.ext.trans hJ) hT.nk_le hT.nins_le
        rw [hsub, Function.update_self, hmod.ins ins hins hlt hkind', hi.ins ins hins hlt hkind',
          e1 hp', e2 hp']
      · intro hp
        refine holds_iff_vacuous (by rw [hcore]) ?_
        refine (holds_congr rfl ?_ (fun _ => e1 hp) fun _ => e2 hp).1 (hi.pre ins hins hlt)
        intro hsl
        rw [hsl] at hkind'
        cases hkind'
  | sload hsl hsub hcore hnins hnk hir =>
      have hsl' : (T.core.ir ins).o = .sload := by rw [← ho]; exact hsl
      obtain ⟨hw, hint⟩ := hi.sload ins hins hlt hsl'
      refine h.step hframe.subst hf hframe.nins hins ?_ ?_
      · intro _ _
        rw [hsub, Function.update_self, hop1, hw]
      · intro _
        refine holds_iff_vacuous hnins ?_
        intro _
        rw [if_pos hsl']
        exact hint
  | @fold r core hkind hpre hfo hsub hcore hnins hnk hir =>
      have hcoreJ : CoreExt core J :=
        CoreExt.trans ⟨hnk.le, hnins.ge, fun q _ _ => hir q⟩ hJ
      have hfold' := sim_fold hfold hT hi hins hlt hc hkind hpre hfo hcoreJ h
      refine h.step hframe.subst hf hframe.nins hins ?_ ?_
      · intro hp hv
        rw [hsub, Function.update_self]
        exact (hfold' (hp.mono (Nat.le_succ ins))).2 (hp ins hins (Nat.lt_succ_self _)) hv
      · intro hp
        rw [hnins]
        exact (hfold' hp).1

end

/-! ### The recorded trace -/

theorem snapshotSlot_slot {J : JitState} {s ref : ℕ} {e : SnapEntry} (h : snapshotSlot J s ref = some e) :
    e.slot = s ∧ e.ref = ref := by
  simp only [snapshotSlot] at h
  split at h
  · cases h
  · split at h
    · split at h
      · cases h
      · simp only [Option.some.injEq] at h
        subst h
        exact ⟨rfl, rfl⟩
    · simp only [Option.some.injEq] at h
      subst h
      exact ⟨rfl, rfl⟩

/-- The entry for a slot. -/
theorem find_snapshotSlots (J : JitState) (slot : ℕ → ℕ) (n s : ℕ) :
    (snapshotSlots J slot n).find? (fun e => e.slot = s) =
      if s < n then snapshotSlot J s (slot s) else none := by
  induction n with
  | zero => rfl
  | succ n ih =>
      have hsucc : snapshotSlots J slot (n + 1) =
          snapshotSlots J slot n ++ (snapshotSlot J n (slot n)).toList := by
        simp only [snapshotSlots, List.range_succ, List.filterMap_append]
        cases h : snapshotSlot J n (slot n) <;> simp [h]
      rw [hsucc, List.find?_append, ih]
      rcases lt_trichotomy s n with hlt | rfl | hgt
      · rw [if_pos hlt, if_pos (by omega)]
        cases h : snapshotSlot J s (slot s) with
        | some e => rfl
        | none =>
            rw [Option.none_or]
            cases h' : snapshotSlot J n (slot n) with
            | none => rfl
            | some e =>
                have hne : e.slot ≠ s := by
                  rw [(snapshotSlot_slot h').1]
                  omega
                simp [hne]
      · rw [if_neg (lt_irrefl s), if_pos (Nat.lt_succ_self s), Option.none_or]
        cases h : snapshotSlot J s (slot s) with
        | none => rfl
        | some e => simp [(snapshotSlot_slot h).1]
      · rw [if_neg (by omega), if_neg (by omega), Option.none_or]
        cases h : snapshotSlot J n (slot n) with
        | none => rfl
        | some e =>
            have hne : e.slot ≠ s := by
              rw [(snapshotSlot_slot h).1]
              omega
            simp [hne]

/-- Slots that unguarded `SLOAD`s read hold integers. -/
def TypedStack {Val : Type} (S : Sem Val) (T : Trace) (σ : ℕ → Val) : Prop :=
  ∀ r, refFirst ≤ r → r < T.core.nins → (T.core.ir r).o = .sload → (T.core.ir r).t.isguard = false →
    S.isInt (σ (T.core.ir r).op1) = true

section

variable {Val : Type} {S : Sem Val} {T : Trace} {first last : SnapShot} {mid : List SnapShot}
  {ρ σ : ℕ → Val}

theorem recEnv_low {k : ℕ} (h : k < refFirst) (n : ℕ) : recEnv S T ρ σ n k = ρ k := by
  rw [recEnv, recExec, exec_of_lt h]

theorem Recorded.add_sub (hT : Recorded T first mid last) :
    refFirst + (T.core.nins - refFirst) = T.core.nins := Nat.add_sub_cancel' hT.nins_le

theorem recEnv_value (hT : Recorded T first mid last) {r : ℕ} (hr : refFirst ≤ r)
    (hlt : r < T.core.nins) (n : ℕ) : recEnv S T ρ σ n r =
      value S (recStack S T ρ σ n) (T.core.ir r) (recEnv S T ρ σ n) := by
  have hi := hT.ins r hr hlt
  rw [recEnv, recExec]
  exact exec_value hr (by rw [hT.add_sub]; exact hlt) ρ (fun _ => hi.op1_lt) (fun _ => hi.op2_lt)

theorem recEnv_ins (hT : Recorded T first mid last) {r : ℕ} (hr : refFirst ≤ r)
    (hlt : r < T.core.nins) (hkind : irmKind (T.core.ir r).o = .n) (n : ℕ) : recEnv S T ρ σ n r =
      S.val (T.core.ir r).o (T.core.ir r).t.type (recEnv S T ρ σ n (T.core.ir r).op1)
        (recEnv S T ρ σ n (T.core.ir r).op2) := by
  have hns : (T.core.ir r).o ≠ .sload := by
    intro hs
    rw [hs] at hkind
    cases hkind
  conv_lhs => rw [recEnv_value hT hr hlt, value, if_neg hns]

theorem recEnv_sload (hT : Recorded T first mid last) {r : ℕ} (hr : refFirst ≤ r)
    (hlt : r < T.core.nins) (hs : (T.core.ir r).o = .sload) (n : ℕ) :
    recEnv S T ρ σ n r = recStack S T ρ σ n (T.core.ir r).op1 := by
  rw [recEnv_value hT hr hlt, value, if_pos hs]

theorem recStack_succ (hT : Recorded T first mid last) (n : ℕ) :
    recStack S T ρ σ (n + 1) = restore last (recEnv S T ρ σ n) (recStack S T ρ σ n) := by
  have hlast : T.snap.getLast? = some last := by rw [hT.snap, List.getLast?_append]; rfl
  rw [recStack, restoreLoop, hlast]
  rfl

/-- The entry of the loop snapshot for a slot. -/
theorem find_last (hT : Recorded T first mid last) (s : ℕ) :
    last.map.find? (fun e => e.slot = s) =
      if s < T.nslots then snapshotSlot T.core s (T.slot s) else none := by
  rw [hT.last_map, find_snapshotSlots]

/-- A slot without an entry, or with one that is not restored, has the value it had before. -/
theorem untouched (hT : Recorded T first mid last) {s : ℕ} (hs : s < T.nslots) (hne : T.slot s ≠ 0)
    (h : ∀ e, snapshotSlot T.core s (T.slot s) = some e → e.norestore = true) :
    refFirst ≤ T.slot s ∧ T.slot s < T.core.nins ∧ (T.core.ir (T.slot s)).o = .sload ∧
      (T.core.ir (T.slot s)).op1 = s := by
  simp only [snapshotSlot, hne, if_false] at h
  split at h
  next hc =>
    rcases hT.slot s hs hne with hk | hk
    · exact absurd hc.1 (hT.konst _ hk.1 hk.2)
    · exact ⟨hk.1, hk.2.1, hc.1, hc.2.1⟩
  next =>
    have := h _ rfl
    cases this

/-- A slot after an execution has the value of its reference. -/
theorem recStack_slot (hT : Recorded T first mid last) {s : ℕ} (hs : s < T.nslots)
    (hne : T.slot s ≠ 0) (n : ℕ) :
    recStack S T ρ σ (n + 1) s = recEnv S T ρ σ n (T.slot s) := by
  have hfind := find_last hT s
  rw [if_pos hs] at hfind
  -- what is not restored is what the `SLOAD` in the slot has read
  have hold : (∀ e, snapshotSlot T.core s (T.slot s) = some e → e.norestore = true) →
      recStack S T ρ σ n s = recEnv S T ρ σ n (T.slot s) := by
    intro h
    obtain ⟨h1, h2, h3, h4⟩ := untouched hT hs hne h
    rw [recEnv_sload hT h1 h2 h3, h4]
  rw [recStack_succ hT, restore, hfind]
  cases he : snapshotSlot T.core s (T.slot s) with
  | none =>
      refine hold fun e h => ?_
      rw [he] at h
      cases h
  | some e =>
      simp only [(snapshotSlot_slot he).2]
      split
      next hnr =>
        refine hold fun e' h => ?_
        rw [he, Option.some.injEq] at h
        rw [← h]
        exact hnr
      next => rfl

/-- The slots that are not restored never change. -/
theorem recStack_untouched (hT : Recorded T first mid last) {s : ℕ}
    (h : ∀ e, last.map.find? (fun e => e.slot = s) = some e → e.norestore = true) (n : ℕ) :
    recStack S T ρ σ n s = σ s := by
  induction n with
  | zero => rfl
  | succ n ih =>
      rw [recStack_succ hT, restore, ← ih]
      split
      next e he => rw [if_pos (h e he)]
      next => rfl

/-- **The slots of the loop snapshot**, restored from the values of any environment that has the values
in the slots. -/
theorem restore_last (hT : Recorded T first mid last) {n : ℕ} {R : ℕ → Val}
    (hR : ∀ s < T.nslots, R (T.slot s) = recEnv S T ρ σ n (T.slot s)) (s : ℕ) :
    restore last R σ s = recStack S T ρ σ (n + 1) s := by
  cases hfind : last.map.find? (fun e => e.slot = s) with
  | none =>
      rw [recStack_untouched hT (fun e he => by rw [hfind] at he; cases he), restore, hfind]
  | some e =>
      by_cases hnr : e.norestore = true
      · have hall : ∀ e', last.map.find? (fun e => e.slot = s) = some e' → e'.norestore = true := by
          intro e' he'
          rw [hfind, Option.some.injEq] at he'
          rw [← he']
          exact hnr
        rw [recStack_untouched hT hall, restore, hfind]
        simp only [hnr, if_true]
      · have hs := find_last hT s
        rw [hfind] at hs
        split at hs
        next hlt =>
          obtain ⟨-, href⟩ := snapshotSlot_slot hs.symm
          rw [recStack_succ hT, restore, restore, hfind]
          simp only [hnr, Bool.false_eq_true, if_false, href]
          exact hR s hlt
        next => cases hs

/-- The loaded values are integers. -/
theorem recEnv_isInt (hT : Recorded T first mid last) (hρ : Consts S T.core ρ)
    (hσ : TypedStack S T σ) (h0 : RecPasses S T ρ σ 0) (n : ℕ) {r : ℕ} (hr : refFirst ≤ r)
    (hlt : r < T.core.nins) (hs : (T.core.ir r).o = .sload) :
    S.isInt (recEnv S T ρ σ n r) = true := by
  induction n generalizing r with
  | zero =>
      cases hg : (T.core.ir r).t.isguard with
      | true =>
          have := h0 r hr hlt hg
          rwa [if_pos hs] at this
      | false =>
          rw [recEnv_sload hT hr hlt hs]
          exact hσ r hr hlt hs hg
  | succ n ih =>
      obtain ⟨-, -, -, hslot, hne, hty⟩ := (hT.ins r hr hlt).sload hs
      rw [recEnv_sload hT hr hlt hs, recStack_slot hT hslot hne]
      rcases hT.slot _ hslot hne with ⟨hk1, hk2⟩ | ⟨h1, h2, h3⟩
      · rw [recEnv_low (by simp only [refFirst]; omega), hρ _ hk1 hk2]
        exact S.konst_isInt _ hty
      · rcases (hT.ins _ h1 h2).kind with hsl | hkind
        · exact ih h1 h2 hsl
        · rw [recEnv_ins hT h1 h2 hkind]
          exact S.val_isInt _ _ _ _ hty

end

/-! ### The unrolled loop -/

section

variable {Val : Type} {S : Sem Val} {T : Trace} {first last : SnapShot} {mid : List SnapShot}
  {st₀ st : LoopState} {ρ σ : ℕ → Val}

/-- The pre-roll and the body are in the final IR, up to flags. -/
theorem Unrolled.ir (hT : Recorded T first mid last) (hu : Unrolled T first last mid st₀ st) {q : ℕ}
    (hq : refFirst ≤ q) (hlt : q < st₀.T.core.nins) :
    erase (st.T.core.ir q) = erase (st₀.T.core.ir q) := by
  refine hu.emit.ext.same q (hu.copy.ext.nk_le.trans (hT.nk_le.trans ?_)) hlt
  simp only [refFirst] at hq
  omega

theorem Unrolled.ir_pre (hT : Recorded T first mid last) (hu : Unrolled T first last mid st₀ st)
    {q : ℕ} (hq : refFirst ≤ q) (hlt : q < T.core.nins) :
    erase (st.T.core.ir q) = erase (T.core.ir q) := by
  refine (hu.copy.ext.trans hu.emit.ext).same q (hT.nk_le.trans ?_) hlt
  simp only [refFirst] at hq
  omega

theorem Unrolled.nins_lt (hu : Unrolled T first last mid st₀ st) :
    T.core.nins < st₀.T.core.nins ∧ st₀.T.core.nins ≤ st.T.core.nins :=
  ⟨hu.copy.nins.1, hu.emit.ext.nins_le⟩

/-- The body in the final IR. -/
theorem Unrolled.body (hT : Recorded T first mid last) (hu : Unrolled T first last mid st₀ st)
    {q : ℕ} (hq : T.core.nins < q) (hlt : q < st₀.T.core.nins) :
    (st.T.core.ir q).o ≠ .sload ∧ (Avail T st (st.T.core.ir q).op1 ∧ (st.T.core.ir q).op1 < q) ∧
      Avail T st (st.T.core.ir q).op2 ∧ (st.T.core.ir q).op2 < q := by
  have hq' : refFirst ≤ q := hT.nins_le.trans hq.le
  obtain ⟨ho, h1, h2, -⟩ := erase_eq (hu.ir hT hq' hlt)
  obtain ⟨hkind, hl1, hl2, -⟩ := hu.copy.body q hq hlt
  obtain ⟨ha1, ha2⟩ := hu.emit.ops q hq hlt
  rw [ho, h1, h2]
  refine ⟨?_, ⟨ha1, hl1⟩, ha2, hl2⟩
  intro hs
  rw [hs] at hkind
  cases hkind

theorem bodyExec_pre {J : JitState} {invar r : ℕ} (hr : r ≤ invar) (R : ℕ → Val) :
    bodyExec S J invar σ R r = R r := exec_of_lt (Nat.lt_succ_of_le hr) _ R

/-- The values of execution number `n`, with the body behind them. -/
theorem iter_ok (hT : Recorded T first mid last) (hu : Unrolled T first last mid st₀ st)
    (hρ : Consts S st.T.core ρ) (hσ : TypedStack S T σ) (h0 : RecPasses S T ρ σ 0) {n : ℕ}
    (hn : RecPasses S T ρ σ n) :
    Iter S T st.T.core (recEnv S T ρ σ (n + 1))
      (bodyExec S st.T.core T.core.nins σ (recEnv S T ρ σ n)) := by
  have hρT : Consts S T.core ρ := by
    intro r hr hlt
    have hext := hu.copy.ext.trans hu.emit.ext
    rw [hρ r (hext.nk_le.trans hr) hlt, hext.same r hr (by
      have := hT.nins_le
      simp only [refFirst] at this
      omega)]
  have hlow : ∀ k, k < refBias → k < refFirst := fun k hk => by simp only [refFirst]; omega
  have hbase : refBias ≤ T.core.nins := by
    have := hT.nins_le
    simp only [refFirst] at this
    omega
  refine ⟨?_, ⟨?_, ?_⟩, ?_, fun r hr hlt hk => recEnv_ins hT hr hlt hk _, ?_⟩
  · intro k hk
    rw [bodyExec_pre (by omega), recEnv_low (hlow k hk), recEnv_low (hlow k hk)]
  · intro k hk hlt
    rw [bodyExec_pre (by omega), recEnv_low (hlow k hlt), hρ k hk hlt]
  · intro r hr hlt hkind
    rcases lt_trichotomy r T.core.nins with hpre | rfl | hgt
    · obtain ⟨ho, h1, h2, ht, -⟩ := erase_eq (hu.ir_pre hT hr hpre)
      have hi := hT.ins r hr hpre
      rw [ho] at hkind
      have hl1 := hi.op1_lt
      have hl2 := hi.op2_lt
      rw [bodyExec_pre hpre.le, recEnv_ins hT hr hpre hkind, ho, h1, h2, ht, bodyExec_pre (by omega),
        bodyExec_pre (by lia)]
    · obtain ⟨ho, -⟩ := erase_eq (hu.ir hT hr hu.nins_lt.1)
      rw [ho, hu.copy.loop.1] at hkind
      cases hkind
    · rcases lt_or_ge r st₀.T.core.nins with hb | hphi
      · obtain ⟨hs, ⟨-, hl1⟩, -, hl2⟩ := hu.body hT hgt hb
        have hval := @exec_value _ S st.T.core σ (T.core.nins + 1) r
          (st.T.core.nins - (T.core.nins + 1)) hgt (by lia) (recEnv S T ρ σ n) (fun _ => hl1)
          (fun _ => hl2)
        rw [value, if_neg hs] at hval
        exact hval
      · have hp := (hu.emit.phi r hphi hlt).1.1
        rw [hp] at hkind
        cases hkind
  · intro r hr hlt
    have hi := hT.ins r hr hlt
    have hl1 := hi.op1_lt
    have hl2 := hi.op2_lt
    exact (holds_congr rfl (fun _ => bodyExec_pre hlt.le _) (fun _ => bodyExec_pre (by omega) _)
      fun _ => bodyExec_pre (by omega) _).2 (hn r hr hlt)
  · intro r hr hlt hs
    obtain ⟨-, -, -, hslot, hne, -⟩ := (hT.ins r hr hlt).sload hs
    refine ⟨?_, recEnv_isInt hT hρT hσ h0 (n + 1) hr hlt hs⟩
    have hle : T.slot (T.core.ir r).op1 ≤ T.core.nins := by
      rcases hT.slot _ hslot hne with h | h <;> lia
    rw [recEnv_sload hT hr hlt hs, recStack_slot hT hslot hne, bodyExec_pre hle]

/-- What is there before iteration number `n + 1` has the values of execution number `n`. -/
def Agree (S : Sem Val) (T : Trace) (st : LoopState) (ρ σ : ℕ → Val) (n : ℕ) : Prop :=
  ∀ r, Avail T st r → r ≤ T.core.nins →
    loopStart S st.T.core T.core.nins ρ σ (n + 1) r = recEnv S T ρ σ n r

/-- After the pre-roll all values of execution 0 are there. -/
theorem loopStart_one (hT : Recorded T first mid last) (hu : Unrolled T first last mid st₀ st) {r : ℕ}
    (hr : r ≤ T.core.nins) :
    loopStart S st.T.core T.core.nins ρ σ 1 r = recEnv S T ρ σ 0 r := by
  have hn := hT.add_sub
  rw [loopStart, recEnv, recExec, recStack]
  rcases Nat.eq_or_lt_of_le hr with rfl | hlt
  · rw [exec_of_ge hn.le, exec_of_ge hn.le]
  · refine exec_agree (A := fun _ => True) ?_ ?_ (fun _ _ _ => rfl) trivial (by rw [hn]; exact hlt)
    · intro q hq hlt
      exact hu.ir_pre hT hq (by omega)
    · intro q hq hlt hs
      obtain ⟨-, h1, h2, -⟩ := erase_eq (hu.ir_pre hT hq (by omega))
      have hi := hT.ins q hq (by omega)
      rw [h1, h2]
      exact ⟨⟨trivial, hi.op1_lt⟩, trivial, hi.op2_lt⟩

/-- The body only uses what is there. -/
theorem loopEnv_eq (hT : Recorded T first mid last) (hu : Unrolled T first last mid st₀ st) {n : ℕ}
    (h : Agree S T st ρ σ n) {r : ℕ} (hr : Avail T st r) (hlt : r < st₀.T.core.nins) :
    loopEnv S st.T.core T.core.nins ρ σ n r =
      bodyExec S st.T.core T.core.nins σ (recEnv S T ρ σ n) r := by
  have hle := hu.nins_lt
  have hlen : T.core.nins + 1 + (st₀.T.core.nins - (T.core.nins + 1)) = st₀.T.core.nins := by lia
  -- the PHIs come later
  have hmono : ∀ R, bodyExec S st.T.core T.core.nins σ R r =
      exec S st.T.core σ (T.core.nins + 1) (st₀.T.core.nins - (T.core.nins + 1)) R r := by
    intro R
    exact exec_mono (by omega) (by lia) R
  rw [loopEnv, hmono, hmono]
  refine exec_agree (A := Avail T st) (fun _ _ _ => rfl) ?_ ?_ hr (by omega)
  · intro q hq hlt _
    exact (hu.body hT (by omega) (by lia)).2
  · intro r hr hlt
    exact h r hr (by omega)

theorem backEdge_emitted {J : JitState} {subst : ℕ → ℕ} {R : ℕ → Val} {l : ℕ} (h : Emitted J l)
    (hphi : ∀ q, refFirst ≤ q → q < J.nins → (J.ir q).o = .phi → (J.ir q).op2 = subst (J.ir q).op1) :
    backEdge J R l = R (subst l) := by
  obtain ⟨q, hq, hlt, ho, hop⟩ := h
  rw [backEdge]
  split
  next q' hfind =>
    have hp := List.find?_some hfind
    have hm := List.mem_of_find?_eq_some hfind
    simp only [decide_eq_true_eq] at hp
    rw [hphi q' hp.1 (List.mem_range.1 hm) hp.2.1, hp.2.2]
  next hfind =>
    rw [List.find?_eq_none] at hfind
    have := hfind q (List.mem_range.2 hlt)
    simp [hq, ho, hop] at this

theorem backEdge_other {J : JitState} {R : ℕ → Val} {r : ℕ} (h : ¬ Emitted J r) :
    backEdge J R r = R r := by
  rw [backEdge]
  split
  next q hfind =>
    have hp := List.find?_some hfind
    have hm := List.mem_of_find?_eq_some hfind
    simp only [decide_eq_true_eq] at hp
    exact absurd ⟨q, hp.1, List.mem_range.1 hm, hp.2.1, hp.2.2⟩ h
  next => rfl

/-- All PHIs are those of `loop_emit_phi`. -/
theorem Unrolled.phi (hT : Recorded T first mid last) (hu : Unrolled T first last mid st₀ st) {q : ℕ}
    (hq : refFirst ≤ q) (ho : (st.T.core.ir q).o = .phi) :
    st₀.T.core.nins ≤ q := by
  by_contra hn
  have hlt' : q < st₀.T.core.nins := by omega
  obtain ⟨ho', -⟩ := erase_eq (hu.ir hT hq hlt')
  rw [ho'] at ho
  exact hu.copy.ne_phi hT hq hlt' ho

/-- The left operand of a PHI is in the pre-roll. -/
theorem Unrolled.emitted (hT : Recorded T first mid last) (hu : Unrolled T first last mid st₀ st)
    {l : ℕ} (h : Emitted st.T.core l) : refFirst ≤ l ∧ l < T.core.nins := by
  obtain ⟨q, hq, hlt, ho, rfl⟩ := h
  exact (hu.emit.phi q (hu.phi hT hq ho) hlt).2

/-- **The back edge** provides the values of the next execution. -/
theorem agree_succ (hT : Recorded T first mid last) (hu : Unrolled T first last mid st₀ st) {n : ℕ}
    (h : Agree S T st ρ σ n)
    (hsim : Sim S T st.T.core (recEnv S T ρ σ (n + 1))
      (bodyExec S st.T.core T.core.nins σ (recEnv S T ρ σ n)) T.core.nins st₀)
    (hp : RecPasses S T ρ σ (n + 1)) : Agree S T st ρ σ (n + 1) := by
  intro r hr hle
  have hlt₀ := hu.nins_lt.1
  show backEdge st.T.core (loopEnv S st.T.core T.core.nins ρ σ n) r = _
  by_cases hem : Emitted st.T.core r
  · obtain ⟨h1, h2⟩ := hu.emitted hT hem
    have hv : isCmp (T.core.ir r).o = false := by
      rcases hr with hr | hr | hr
      · simp only [refFirst] at h1
        omega
      · omega
      · exact hr.2.2.1
    have hsub : st.subst r < st₀.T.core.nins := by
      rw [hu.emit.subst]
      have := hT.nins_le
      rcases hu.copy.subst_value hT h1 h2 hv with hs | hs | hs <;> simp only [refFirst] at * <;> lia
    rw [backEdge_emitted hem fun q hq hlt ho => (hu.emit.phi q (hu.phi hT hq ho) hlt).1.2.2,
      loopEnv_eq hT hu h (hu.emit.closed r h1 h2 hv hem) hsub, hu.emit.subst]
    exact hsim.value r h1 h2 (hp.mono h2) hv
  · rw [backEdge_other hem, loopEnv_eq hT hu h hr (by omega)]
    rcases hr with hr | hr | ⟨h1, h2, hv, hs⟩
    · have hlow : r < refFirst := by
        simp only [refFirst]
        omega
      rw [bodyExec_pre hle, recEnv_low hlow, recEnv_low hlow]
    · have hge : refFirst + (T.core.nins - refFirst) ≤ r := by
        rw [hT.add_sub]
        exact hr
      rw [bodyExec_pre hle, recEnv, recExec, recEnv, recExec, exec_of_ge hge, exec_of_ge hge]
    · have hself : st₀.subst r = r := by
        rw [← hu.emit.subst]
        exact hs.resolve_right hem
      have := hsim.value r h1 h2 (hp.mono h2) hv
      rwa [hself] at this

/-- The guards of the body. -/
theorem holds_body (hT : Recorded T first mid last) (hu : Unrolled T first last mid st₀ st) {n : ℕ}
    (h : Agree S T st ρ σ n) {q : ℕ} (hq : T.core.nins < q) (hlt : q < st₀.T.core.nins) :
    Holds S st.T.core (loopEnv S st.T.core T.core.nins ρ σ n) q ↔
      Holds S st.T.core (bodyExec S st.T.core T.core.nins σ (recEnv S T ρ σ n)) q := by
  obtain ⟨hs, ⟨ha1, hl1⟩, ha2, hl2⟩ := hu.body hT hq hlt
  exact holds_congr rfl (fun h => absurd h hs) (fun _ => loopEnv_eq hT hu h ha1 (by omega))
    fun _ => loopEnv_eq hT hu h ha2 (by omega)

/-- A PHI is no guard. -/
theorem Unrolled.holds_phi (hu : Unrolled T first last mid st₀ st) {R : ℕ → Val} {q : ℕ}
    (hq : st₀.T.core.nins ≤ q) (hlt : q < st.T.core.nins) : Holds S st.T.core R q := by
  intro hg
  rw [(hu.emit.phi q hq hlt).1.2.1] at hg
  cases hg

/-- **One iteration**: the body leaves iff the recorded trace does, and at a copy of the same guard. -/
theorem iter_guards (hT : Recorded T first mid last) (hu : Unrolled T first last mid st₀ st) {n : ℕ}
    (h : Agree S T st ρ σ n)
    (hsim : Sim S T st.T.core (recEnv S T ρ σ (n + 1))
      (bodyExec S st.T.core T.core.nins σ (recEnv S T ρ σ n)) T.core.nins st₀) :
    (RecPasses S T ρ σ (n + 1) → BodyPasses S st.T.core T.core.nins ρ σ n) ∧
      ∀ g, RecExitsAt S T ρ σ (n + 1) g → ∃ g', BodyExitsAt S st.T.core T.core.nins ρ σ n g' ∧
        g' < st₀.T.core.nins ∧ InCopy st₀ T.core.nins g g' := by
  constructor
  · intro hp q hq hlt
    rcases lt_or_ge q st₀.T.core.nins with hb | hphi
    · exact (holds_body hT hu h hq hb).2 (hsim.body hp q hq hb)
    · exact hu.holds_phi hphi hlt
  · intro g ⟨hg, hlt, hfail, hpass⟩
    -- a guard of the copy of `g` fails, so there is a first guard that does
    have hex : ∃ q, T.core.nins < q ∧ q < st₀.T.core.nins ∧
        ¬ Holds S st.T.core (loopEnv S st.T.core T.core.nins ρ σ n) q := by
      by_contra hno
      refine hfail ((hsim.guard g hg hlt hpass).2 ?_)
      intro q ⟨_, _, h3, _⟩ hq
      have hq' : T.core.nins < q := lt_of_lt_of_le (hu.copy.first g hg hlt).1 h3
      by_contra hn
      exact hno ⟨q, hq', hq, fun hh => hn ((holds_body hT hu h hq' hq).1 hh)⟩
    classical
    obtain ⟨hq1, hq2, hq3⟩ := Nat.find_spec hex
    obtain ⟨q, hq⟩ : ∃ q, q = Nat.find hex := ⟨_, rfl⟩
    have hmin : ∀ q', T.core.nins < q' → q' < q →
        Holds S st.T.core (loopEnv S st.T.core T.core.nins ρ σ n) q' := by
      intro q' h1 h2
      by_contra hn
      exact Nat.find_min hex (hq ▸ h2) ⟨h1, by lia, hn⟩
    rw [← hq] at hq1 hq2 hq3
    have hguard : (st₀.T.core.ir q).t.isguard = true := by
      obtain ⟨-, -, -, -, hgd⟩ := erase_eq (hu.ir hT (hT.nins_le.trans hq1.le) hq2)
      by_contra hn
      refine hq3 fun hg' => ?_
      rw [hgd] at hg'
      exact absurd hg' hn
    obtain ⟨x, sn, hin, -⟩ := hu.guard q hq1 hq2 hguard
    have hq3' : ¬ Holds S st.T.core (bodyExec S st.T.core T.core.nins σ (recEnv S T ρ σ n)) q :=
      fun hh => hq3 ((holds_body hT hu h hq1 hq2).2 hh)
    have hxg : x = g := by
      rcases lt_trichotomy x g with hlt' | he | hgt
      · -- the guards of the copies of earlier instructions hold
        have hx := hin.1
        have := (hsim.guard x hx hin.2.1 (hpass.mono hlt'.le)).1 (hpass x hx hlt') q hin hq2
        exact absurd this hq3'
      · exact he
      · -- the guards before the copy of a later instruction hold, and with them all of the copy of `g`
        refine absurd ((hsim.guard g hg hlt hpass).2 ?_) hfail
        intro q' ⟨_, _, h3, h4⟩ hq'
        have h5 : q' < q := lt_of_lt_of_le (h4 x hgt hin.2.1) hin.2.2.1
        have h6 : T.core.nins < q' := lt_of_lt_of_le (hu.copy.first g hg hlt).1 h3
        exact (holds_body hT hu h h6 hq').1 (hmin q' h6 h5)
    subst hxg
    refine ⟨q, ⟨hq1, lt_of_lt_of_le hq2 hu.nins_lt.2, hq3, ?_⟩, hq2, hin⟩
    intro q' h1 h2
    exact hmin q' h1 h2

/-- There is a first guard that fails. -/
theorem exists_exitsAt {J : JitState} {R : ℕ → Val} {lo hi : ℕ} (h : ¬ Passes S J R lo hi) :
    ∃ g, ExitsAt S J R lo hi g := by
  have hex : ∃ g, lo ≤ g ∧ g < hi ∧ ¬ Holds S J R g := by
    by_contra hno
    refine h fun r hr hlt => ?_
    by_contra hn
    exact hno ⟨r, hr, hlt, hn⟩
  classical
  obtain ⟨h1, h2, h3⟩ := Nat.find_spec hex
  refine ⟨Nat.find hex, h1, h2, h3, fun r hr hlt => ?_⟩
  by_contra hn
  exact Nat.find_min hex hlt ⟨hr, by omega, hn⟩

theorem ExitsAt.unique {J : JitState} {R : ℕ → Val} {lo hi g g' : ℕ} (h : ExitsAt S J R lo hi g)
    (h' : ExitsAt S J R lo hi g') : g = g' := by
  rcases lt_trichotomy g g' with hlt | he | hgt
  · exact absurd (h'.2.2.2 g h.1 hlt) h.2.2.1
  · exact he
  · exact absurd (h.2.2.2 g' h'.1 hgt) h'.2.2.1

theorem ExitsAt.not_passes {J : JitState} {R : ℕ → Val} {lo hi g : ℕ} (h : ExitsAt S J R lo hi g) :
    ¬ Passes S J R lo hi := fun hp => h.2.2.1 (hp g h.1 h.2.1)

/-! ### Snapshots -/

theorem sorted_snapshotSlots (J : JitState) (slot : ℕ → ℕ) (n : ℕ) : Sorted (snapshotSlots J slot n) := by
  refine List.Pairwise.filterMap _ ?_ List.pairwise_lt_range
  intro a b hlt e he e' he'
  rw [(snapshotSlot_slot he).1, (snapshotSlot_slot he').1]
  exact hlt

/-- The snapshot of a guard of the body is a copy or the loop snapshot. -/
theorem Unrolled.snapAt (hT : Recorded T first mid last) (hu : Unrolled T first last mid st₀ st)
    {q : ℕ} (hq : T.core.nins < q) {sn : SnapShot} (h : snapAt st.T.snap q = some sn) :
    sn = last ∨ sn ∈ st.T.snap.drop T.snap.length := by
  obtain ⟨new, hsnap, -⟩ := hu.snap
  have hall : T.snap.filter (fun sn => sn.ref ≤ q) = T.snap := by
    rw [List.filter_eq_self]
    intro sn hsn
    have := hT.ref_le sn hsn
    simp only [decide_eq_true_eq]
    omega
  have hlast : T.snap.getLast? = some last := by rw [hT.snap, List.getLast?_append]; rfl
  rw [Loop.snapAt, hsnap, List.filter_append, hall, List.getLast?_append, hlast] at h
  rw [hsnap, List.drop_left]
  cases hf : (new.filter fun sn => sn.ref ≤ q).getLast? with
  | none =>
      rw [hf, Option.none_or, Option.some.injEq] at h
      exact .inl h.symm
  | some sn' =>
      rw [hf, Option.some_or, Option.some.injEq] at h
      rw [← h]
      exact .inr (List.mem_of_mem_filter (List.mem_of_getLast? hf))

/-- The references of the snapshot of a guard of the body are there. -/
theorem Unrolled.avail_entry (hT : Recorded T first mid last) (hu : Unrolled T first last mid st₀ st)
    {q : ℕ} (hq : T.core.nins < q) {sn : SnapShot} (h : Loop.snapAt st.T.snap q = some sn) :
    ∀ e ∈ sn.map, Avail T st e.ref := by
  intro e he
  rcases hu.snapAt hT hq h with rfl | hm
  · rw [hT.last_map, snapshotSlots, List.mem_filterMap] at he
    obtain ⟨s, hs, hent⟩ := he
    rw [(snapshotSlot_slot hent).2]
    exact hu.emit.slot s (List.mem_range.1 hs)
  · exact hu.emit.entry sn hm e he

theorem InCopy.unique {ins x y q : ℕ} (h : InCopy st ins x q) (h' : InCopy st ins y q) : x = y := by
  rcases lt_trichotomy x y with hlt | he | hgt
  · exact absurd h'.2.2.1 (not_le.2 (h.2.2.2 y hlt h'.2.1))
  · exact he
  · exact absurd h.2.2.1 (not_le.2 (h'.2.2.2 x hgt h.2.1))

/-- The slots after iteration number `n`. -/
theorem slots_eq (hT : Recorded T first mid last) (hu : Unrolled T first last mid st₀ st) {n : ℕ}
    (h : Agree S T st ρ σ n) {s : ℕ} (hs : s < T.nslots) :
    loopStart S st.T.core T.core.nins ρ σ (n + 1) (T.slot s) = recEnv S T ρ σ n (T.slot s) ∧
      loopEnv S st.T.core T.core.nins ρ σ n (T.slot s) = recEnv S T ρ σ n (T.slot s) := by
  have ha := hu.emit.slot s hs
  have hle : T.slot s ≤ T.core.nins := by
    by_cases h0 : T.slot s = 0
    · omega
    · rcases hT.slot s hs h0 with hk | hk
      · have := hT.nins_le
        simp only [refFirst] at this
        omega
      · omega
  have hlt := hu.nins_lt.1
  refine ⟨h _ ha hle, ?_⟩
  rw [loopEnv_eq hT hu h ha (by omega), bodyExec_pre hle]

/-- The snapshots `o` and `sn` say the same: the PC and frame links, and the slots that are there. -/
def SameSlots (o sn : SnapShot) (ρ σ ρ' σ' : ℕ → Val) : Prop :=
  sn.links = o.links ∧ ∀ s < o.nslots, restore sn ρ' σ' s = restore o ρ σ s

/-- **The snapshots**: a guard of the body restores the slots that the recorded guard restores. -/
theorem exit_slots (hT : Recorded T first mid last) (hu : Unrolled T first last mid st₀ st) {n : ℕ}
    (h : Agree S T st ρ σ n)
    (hi : Iter S T st.T.core (recEnv S T ρ σ (n + 1))
      (bodyExec S st.T.core T.core.nins σ (recEnv S T ρ σ n)))
    (hsim : Sim S T st.T.core (recEnv S T ρ σ (n + 1))
      (bodyExec S st.T.core T.core.nins σ (recEnv S T ρ σ n)) T.core.nins st₀) {g g' : ℕ}
    (hg : RecExitsAt S T ρ σ (n + 1) g) (hg' : BodyExitsAt S st.T.core T.core.nins ρ σ n g')
    (hlt : g' < st₀.T.core.nins) (hin : InCopy st₀ T.core.nins g g') :
    ∃ o sn, snapAt T.snap g = some o ∧ snapAt st.T.snap g' = some sn ∧
      SameSlots o sn (recEnv S T ρ σ (n + 1)) (recStack S T ρ σ (n + 1))
        (loopEnv S st.T.core T.core.nins ρ σ n) σ := by
  have hguard : (st₀.T.core.ir g').t.isguard = true := by
    obtain ⟨-, -, -, -, hgd⟩ := erase_eq (hu.ir hT (hT.nins_le.trans (Nat.le_of_lt hg'.1)) hlt)
    by_contra hn
    refine hg'.2.2.1 fun hgt => ?_
    rw [hgd] at hgt
    exact absurd hgt hn
  obtain ⟨x, sn, hin', hat, hright⟩ := hu.guard g' hg'.1 hlt hguard
  rw [hin'.unique hin] at hright
  have hlast : ∀ s, restore last (loopEnv S st.T.core T.core.nins ρ σ n) σ s =
      recStack S T ρ σ (n + 1) s := restore_last hT fun s hs => (slots_eq hT hu h hs).2
  rcases hright with ⟨hfirst, rfl⟩ | ⟨o, ho, hat', hle, hmap, -, hlinks⟩
  · refine ⟨first, sn, hfirst, hat, hT.pc.symm, fun s _ => ?_⟩
    rw [hlast, restore, hT.first_map]
    rfl
  · refine ⟨o, sn, hat', hat, hlinks, fun s hs => ?_⟩
    have hso := hT.mid_ok o ho
    have hsorted : Sorted last.map := by
      rw [hT.last_map]
      exact sorted_snapshotSlots T.core T.slot T.nslots
    have hfind := @find_substMap st₀.subst o.nslots s hs o.map last.map hso.sorted hsorted
    rw [← hmap] at hfind
    cases hf : o.map.find? (fun e => e.slot = s) with
    | none =>
        -- the slot is not modified since the start of the iteration
        rw [hf] at hfind
        rw [restore, hfind]
        have := hlast s
        rw [restore] at this
        rw [this, restore, hf]
    | some osn =>
        rw [hf] at hfind
        simp only at hfind
        have hmem := List.mem_of_find?_eq_some hf
        have hslot : osn.slot = s := by simpa using List.find?_some hf
        have hrec : restore o (recEnv S T ρ σ (n + 1)) (recStack S T ρ σ (n + 1)) s =
            recEnv S T ρ σ (n + 1) osn.ref := by
          rw [restore, hf]
          simp only
          split
          next hnr =>
            obtain ⟨h1, h2, h3⟩ := hso.norestore osn hmem hnr
            rcases hso.ref osn hmem with hr | hr
            · simp only [refFirst] at h1
              omega
            · rw [recEnv_sload hT h1 (by have := hg.2.1; lia) h2, h3, hslot]
          next => rfl
        have havail := hu.avail_entry hT hg'.1 hat (substEntry st₀.subst osn)
          (List.mem_of_find?_eq_some hfind)
        have hlt₀ := hu.nins_lt.1
        rw [restore, hfind, hrec]
        rcases lt_or_ge osn.ref refBias with hk | hk
        · have hse : substEntry st₀.subst osn = osn := by simp [substEntry, irrefIsk, hk]
          have hnr : osn.norestore = false := by
            by_contra hn
            have := (hso.norestore osn hmem (by simpa using hn)).1
            simp only [refFirst] at this
            omega
          have hbase : refBias < st₀.T.core.nins := by
            have := hT.nins_le
            simp only [refFirst] at this
            lia
          simp only [hse, hnr, Bool.false_eq_true, if_false]
          rw [loopEnv_eq hT hu h (.inl hk) (by lia)]
          exact hi.low _ hk
        · have hse : substEntry st₀.subst osn =
              { osn with ref := st₀.subst osn.ref, norestore := false } := by
            simp [substEntry, irrefIsk, not_lt.2 hk]
          have hg2 := hg.2.1
          rcases hso.ref osn hmem with hr | ⟨h1, h2, h3⟩
          · omega
          · have hsub : st₀.subst osn.ref < st₀.T.core.nins := by
              have := hT.nins_le
              rcases hu.copy.subst_value hT h1 (by lia) h3 with hs | hs | hs <;>
                simp only [refFirst] at * <;> lia
            rw [hse] at havail
            simp only [hse, Bool.false_eq_true, if_false]
            rw [loopEnv_eq hT hu h havail hsub]
            exact hsim.value _ h1 (by lia) (hg.2.2.2.mono (by lia)) h3

/-! ### Runs -/

/-- The recorded trace is executed `k + 1` times without leaving it. -/
def RecRuns (S : Sem Val) (T : Trace) (ρ σ : ℕ → Val) (k : ℕ) : Prop :=
  ∀ n ≤ k, RecPasses S T ρ σ n

/-- The pre-roll leaves at the guard `g`. -/
def PreExitsAt (S : Sem Val) (J : JitState) (invar : ℕ) (ρ σ : ℕ → Val) (g : ℕ) : Prop :=
  ExitsAt S J (loopStart S J invar ρ σ 1) refFirst invar g

/-- The pre-roll and `k` iterations of the body are executed without leaving the loop. -/
def LoopRuns (S : Sem Val) (J : JitState) (invar : ℕ) (ρ σ : ℕ → Val) (k : ℕ) : Prop :=
  Passes S J (loopStart S J invar ρ σ 1) refFirst invar ∧ ∀ n < k, BodyPasses S J invar ρ σ n

/-- What is needed in the next iteration: the operands of the body, its snapshots, what is in the slots,
and the right operands of PHIs that are needed. -/
inductive Needed (T : Trace) (J : JitState) (snaps : List SnapShot) : ℕ → Prop
  | op1 {q : ℕ} : T.core.nins < q → q < J.nins → (J.ir q).o ≠ .phi → Needed T J snaps (J.ir q).op1
  | op2 {q : ℕ} : T.core.nins < q → q < J.nins → (J.ir q).o ≠ .phi → Needed T J snaps (J.ir q).op2
  | snap {sn : SnapShot} {e : SnapEntry} : sn ∈ snaps → e ∈ sn.map → Needed T J snaps e.ref
  | slot {s : ℕ} : s < T.nslots → Needed T J snaps (T.slot s)
  | phi {q : ℕ} : refFirst ≤ q → q < J.nins → (J.ir q).o = .phi → Needed T J snaps (J.ir q).op1 →
      Needed T J snaps (J.ir q).op2

/-- What is needed is there. -/
theorem needed_avail (hT : Recorded T first mid last) (hu : Unrolled T first last mid st₀ st) {r : ℕ}
    (h : Needed T st.T.core (st.T.snap.drop T.snap.length) r) : Avail T st r := by
  have hbody : ∀ q, q < st.T.core.nins → (st.T.core.ir q).o ≠ .phi → q < st₀.T.core.nins := by
    intro q hlt ho
    by_contra hn
    exact ho (hu.emit.phi q (by omega) hlt).1.1
  induction h with
  | op1 hq hlt ho => exact (hu.body hT hq (hbody _ hlt ho)).2.1.1
  | op2 hq hlt ho => exact (hu.body hT hq (hbody _ hlt ho)).2.2.1
  | snap hsn he => exact hu.emit.entry _ hsn _ he
  | slot hs => exact hu.emit.slot _ hs
  | @phi q hq hlt ho _ ih =>
      obtain ⟨⟨-, -, hop⟩, h1, h2⟩ := hu.emit.phi q (hu.phi hT hq ho) hlt
      rw [hop]
      rcases ih with hr | hr | hr
      · simp only [refFirst] at h1
        omega
      · omega
      · exact hu.emit.closed _ h1 h2 hr.2.2.1 ⟨q, hq, hlt, ho, rfl⟩

/-- The values and guards of every copy. -/
theorem loopUnroll_sim {fold : Fold} (hfold : FoldOk S fold) (hT : Recorded T first mid last)
    (he : loopUnroll fold T = some st) :
    ∃ st₀, Unrolled T first last mid st₀ st ∧ ∀ W β, Iter S T st.T.core W β →
      Sim S T st.T.core W β T.core.nins st₀ := by
  let P : ℕ → LoopState → Prop := fun ins st₁ => CoreExt st₁.T.core st.T.core → ∀ W β,
    Iter S T st.T.core W β → Sim S T st.T.core W β ins st₁
  have hinit : P refFirst (loopInit T) := by
    intro _ W β _
    refine ⟨?_, fun x hx hlt => absurd hlt (by omega), fun x hx hlt => absurd hlt (by omega)⟩
    intro _ q hq hlt
    have : (loopInit T).T.core.nins = T.core.nins + 1 := rfl
    omega
  have hcongr : ∀ ins st₁ T', T'.core = st₁.T.core → P ins st₁ → P ins { st₁ with T := T' } := by
    intro ins st₁ T' hcore hP hext W β hi
    have hsim := hP (hcore ▸ hext) W β hi
    refine ⟨fun hp q hq hlt => hsim.body hp q hq (by rw [← hcore]; exact hlt), hsim.value, ?_⟩
    intro x hx hlt hp
    have hg := hsim.guard x hx hlt hp
    rw [← hcore] at hg
    exact hg
  have hstep : ∀ ins st₁ st₂, refFirst ≤ ins → ins < T.core.nins → CopyOk T ins st₁ →
      CopyOk T (ins + 1) st₂ → CopyStep fold T ins st₁ st₂ →
      st₂.first = Function.update st₁.first ins st₁.T.core.nins → P ins st₁ → P (ins + 1) st₂ := by
    intro ins st₁ st₂ hins hlt hc hc' hs hf hP hext W β hi
    exact sim_step hfold hT hi hins hlt hc hc' hs hf hext
      (hP ((hs.coreExt hfold).trans hext) W β hi)
  obtain ⟨st₀, hu, hP⟩ := loopUnroll_ok hfold hT P hinit hcongr hstep he
  exact ⟨st₀, hu, hP hu.emit.ext⟩

/-- **A run**: as long as the recorded trace is executed without leaving it, its values are there. -/
theorem agree_run (hT : Recorded T first mid last) (hu : Unrolled T first last mid st₀ st)
    (hsim : ∀ W β, Iter S T st.T.core W β → Sim S T st.T.core W β T.core.nins st₀)
    (hρ : Consts S st.T.core ρ) (hσ : TypedStack S T σ) {k : ℕ} (h : RecRuns S T ρ σ k) :
    Agree S T st ρ σ k := by
  induction k with
  | zero => exact fun r _ hr => loopStart_one hT hu hr
  | succ k ih =>
      have hk : RecRuns S T ρ σ k := fun n hn => h n (hn.trans (Nat.le_succ k))
      have hi := iter_ok hT hu hρ hσ (h 0 (Nat.zero_le _)) (hk k le_rfl)
      exact agree_succ hT hu (ih hk) (hsim _ _ hi) (h (k + 1) le_rfl)

/-- The pre-roll is execution 0. -/
theorem pre_holds (hT : Recorded T first mid last) (hu : Unrolled T first last mid st₀ st) {r : ℕ}
    (hr : refFirst ≤ r) (hlt : r < T.core.nins) :
    Holds S st.T.core (loopStart S st.T.core T.core.nins ρ σ 1) r ↔
      Holds S T.core (recEnv S T ρ σ 0) r := by
  obtain ⟨ho, h1, h2, -⟩ := erase_eq (hu.ir_pre hT hr hlt)
  have hi := hT.ins r hr hlt
  have hl1 := hi.op1_lt
  have hl2 := hi.op2_lt
  refine holds_congr (hu.ir_pre hT hr hlt) (fun _ => loopStart_one hT hu hlt.le) (fun _ => ?_)
    fun _ => ?_
  · rw [h1]
    exact loopStart_one hT hu (by omega)
  · rw [h2]
    exact loopStart_one hT hu (by omega)

theorem pre_exits (hT : Recorded T first mid last) (hu : Unrolled T first last mid st₀ st) (g : ℕ) :
    PreExitsAt S st.T.core T.core.nins ρ σ g ↔ RecExitsAt S T ρ σ 0 g := by
  constructor
  · intro ⟨h1, h2, h3, h4⟩
    exact ⟨h1, h2, fun h => h3 ((pre_holds hT hu h1 h2).2 h),
      fun r hr hlt => (pre_holds hT hu hr (by omega)).1 (h4 r hr hlt)⟩
  · intro ⟨h1, h2, h3, h4⟩
    exact ⟨h1, h2, fun h => h3 ((pre_holds hT hu h1 h2).1 h),
      fun r hr hlt => (pre_holds hT hu hr (by omega)).2 (h4 r hr hlt)⟩

/-- The guards of the pre-roll keep their snapshots. -/
theorem pre_slots (hT : Recorded T first mid last) (hu : Unrolled T first last mid st₀ st) {g : ℕ}
    (hg : refFirst ≤ g) (hlt : g < T.core.nins) :
    ∃ o, snapAt T.snap g = some o ∧ snapAt st.T.snap g = some o ∧
      SameSlots o o (recEnv S T ρ σ 0) σ (loopStart S st.T.core T.core.nins ρ σ 1) σ := by
  obtain ⟨new, hsnap, hnew⟩ := hu.snap
  have hsame : snapAt st.T.snap g = snapAt T.snap g := by
    rw [hsnap]
    exact snapAt_append_of_lt fun sn hsn => hlt.trans (hnew sn hsn)
  have hfirst : first ∈ T.snap.filter fun sn => sn.ref ≤ g := by
    rw [List.mem_filter, hT.snap]
    refine ⟨by simp, ?_⟩
    rw [hT.first_ref]
    simpa using hg
  cases ho : snapAt T.snap g with
  | none =>
      rw [snapAt, List.getLast?_eq_none_iff] at ho
      rw [ho] at hfirst
      cases hfirst
  | some o =>
      refine ⟨o, rfl, by rw [hsame, ho], rfl, fun s _ => ?_⟩
      have hmem := List.mem_of_getLast? ho
      rw [List.mem_filter, hT.snap] at hmem
      obtain ⟨hm, hle⟩ := hmem
      simp only [decide_eq_true_eq] at hle
      -- the references of the snapshot are in the pre-roll
      have href : ∀ e ∈ o.map, e.ref ≤ T.core.nins := by
        intro e he
        rcases List.mem_append.1 hm with hm | hm
        · rcases List.mem_cons.1 hm with rfl | hm
          · rw [hT.first_map] at he
            cases he
          · have := hT.nins_le
            rcases (hT.mid_ok o hm).ref e he with hr | hr <;> simp only [refFirst] at * <;> lia
        · rw [List.mem_singleton.1 hm, hT.last_ref] at hle
          omega
      rw [restore, restore]
      split
      next e he => rw [loopStart_one hT hu (href e (List.mem_of_find?_eq_some he))]
      next => rfl

/-- The body leaves iff the recorded trace does. -/
theorem runs_iff (hT : Recorded T first mid last) (hu : Unrolled T first last mid st₀ st)
    (hsim : ∀ W β, Iter S T st.T.core W β → Sim S T st.T.core W β T.core.nins st₀)
    (hρ : Consts S st.T.core ρ) (hσ : TypedStack S T σ) (k : ℕ) :
    LoopRuns S st.T.core T.core.nins ρ σ k ↔ RecRuns S T ρ σ k := by
  induction k with
  | zero =>
      constructor
      · intro ⟨h, _⟩ n hn
        rw [Nat.le_zero.1 hn]
        exact fun r hr hlt => (pre_holds hT hu hr hlt).1 (h r hr hlt)
      · intro h
        exact ⟨fun r hr hlt => (pre_holds hT hu hr hlt).2 (h 0 le_rfl r hr hlt),
          fun n hn => absurd hn (Nat.not_lt_zero n)⟩
  | succ k ih =>
      constructor
      · intro ⟨hpre, hbody⟩ n hn
        have hk := ih.1 ⟨hpre, fun n hn => hbody n (by omega)⟩
        rcases Nat.lt_or_eq_of_le hn with hlt | rfl
        · exact hk n (by omega)
        · have hi := iter_ok hT hu hρ hσ (hk 0 (Nat.zero_le _)) (hk k le_rfl)
          by_contra hno
          obtain ⟨g, hg⟩ := exists_exitsAt hno
          obtain ⟨g', hg', -⟩ :=
            (iter_guards hT hu (agree_run hT hu hsim hρ hσ hk) (hsim _ _ hi)).2 g hg
          exact hg'.not_passes (hbody k (Nat.lt_succ_self k))
      · intro h
        have hk : RecRuns S T ρ σ k := fun n hn => h n (hn.trans (Nat.le_succ k))
        obtain ⟨hpre, hbody⟩ := ih.2 hk
        refine ⟨hpre, fun n hn => ?_⟩
        rcases Nat.lt_succ_iff_lt_or_eq.1 hn with hlt | rfl
        · exact hbody n hlt
        · have hi := iter_ok hT hu hρ hσ (hk 0 (Nat.zero_le _)) (hk n le_rfl)
          exact (iter_guards hT hu (agree_run hT hu hsim hρ hσ hk) (hsim _ _ hi)).1 (h (n + 1) le_rfl)

end

/-- The unrolled loop does what the recorded trace does when it is executed over and over. -/
structure Refines {Val : Type} (S : Sem Val) (T : Trace) (st : LoopState) (ρ σ : ℕ → Val) : Prop where
  /-- The pre-roll and `k` iterations run iff `k + 1` executions do. -/
  runs : ∀ k, LoopRuns S st.T.core T.core.nins ρ σ k ↔ RecRuns S T ρ σ k
  /-- Then the slots have the same values. -/
  slots : ∀ k, RecRuns S T ρ σ k → ∀ s,
    restoreLoop T (loopStart S st.T.core T.core.nins ρ σ (k + 1)) σ s = recStack S T ρ σ (k + 1) s
  /-- The pre-roll leaves where execution 0 does, with the same slots. -/
  pre : ∀ g, PreExitsAt S st.T.core T.core.nins ρ σ g ↔ RecExitsAt S T ρ σ 0 g
  pre_slots : ∀ g, RecExitsAt S T ρ σ 0 g → ∃ o, snapAt T.snap g = some o ∧
    snapAt st.T.snap g = some o ∧
    SameSlots o o (recEnv S T ρ σ 0) σ (loopStart S st.T.core T.core.nins ρ σ 1) σ
  /-- An iteration leaves at a copy of the guard where the next execution does, with the same slots. -/
  exit : ∀ k, RecRuns S T ρ σ k → ∀ g, RecExitsAt S T ρ σ (k + 1) g →
    ∃ g' o sn, BodyExitsAt S st.T.core T.core.nins ρ σ k g' ∧ InCopy st T.core.nins g g' ∧
      snapAt T.snap g = some o ∧ snapAt st.T.snap g' = some sn ∧
      SameSlots o sn (recEnv S T ρ σ (k + 1)) (recStack S T ρ σ (k + 1))
        (loopEnv S st.T.core T.core.nins ρ σ k) σ
  /-- It leaves nowhere else. -/
  exit_of : ∀ k, RecRuns S T ρ σ k → ∀ g', BodyExitsAt S st.T.core T.core.nins ρ σ k g' →
    ∃ g, RecExitsAt S T ρ σ (k + 1) g ∧ InCopy st T.core.nins g g'

/-- **Loop unrolling by copy-substitution preserves meaning**, and no PHI that is needed is
eliminated: what is needed and not invariant is the left operand of a PHI. -/
theorem loop_unroll_refines {Val : Type} {S : Sem Val} {fold : Fold} (hfold : FoldOk S fold)
    {T : Trace} {first last : SnapShot} {mid : List SnapShot} (hT : Recorded T first mid last)
    {st : LoopState} (he : loopUnroll fold T = some st) {ρ σ : ℕ → Val}
    (hρ : Consts S st.T.core ρ) (hσ : TypedStack S T σ) :
    Refines S T st ρ σ ∧
      ∀ l, Needed T st.T.core (st.T.snap.drop T.snap.length) l → refFirst ≤ l → l < T.core.nins →
        st.subst l = l ∨ Emitted st.T.core l := by
  obtain ⟨st₀, hu, hsim⟩ := loopUnroll_sim hfold hT he
  have hruns := runs_iff hT hu hsim hρ hσ
  have hcopy : ∀ g g', InCopy st₀ T.core.nins g g' → InCopy st T.core.nins g g' := by
    intro g g' h
    simp only [InCopy, hu.emit.first]
    exact h
  refine ⟨⟨hruns, ?_, pre_exits hT hu, fun g hg => pre_slots hT hu hg.1 hg.2.1, ?_, ?_⟩, ?_⟩
  · intro k hk s
    have hlast : T.snap.getLast? = some last := by rw [hT.snap, List.getLast?_append]; rfl
    rw [restoreLoop, hlast]
    exact restore_last hT
      (fun s hs => (slots_eq hT hu (agree_run hT hu hsim hρ hσ hk) hs).1) s
  · intro k hk g hg
    have hag := agree_run hT hu hsim hρ hσ hk
    have hi := iter_ok hT hu hρ hσ (hk 0 (Nat.zero_le _)) (hk k le_rfl)
    obtain ⟨g', hg', hlt, hin⟩ := (iter_guards hT hu hag (hsim _ _ hi)).2 g hg
    obtain ⟨o, sn, ho, hsn, hsame⟩ := exit_slots hT hu hag hi (hsim _ _ hi) hg hg' hlt hin
    exact ⟨g', o, sn, hg', hcopy g g' hin, ho, hsn, hsame⟩
  · intro k hk g' hg'
    have hag := agree_run hT hu hsim hρ hσ hk
    have hi := iter_ok hT hu hρ hσ (hk 0 (Nat.zero_le _)) (hk k le_rfl)
    have hno : ¬ RecPasses S T ρ σ (k + 1) := fun hp =>
      hg'.not_passes ((iter_guards hT hu hag (hsim _ _ hi)).1 hp)
    obtain ⟨g, hg⟩ := exists_exitsAt hno
    obtain ⟨g'', hg'', -, hin⟩ := (iter_guards hT hu hag (hsim _ _ hi)).2 g hg
    rw [hg''.unique hg'] at hin
    exact ⟨g, hg, hcopy g g' hin⟩
  · intro l hl hge hlt
    rcases needed_avail hT hu hl with h | h | h
    · simp only [refFirst] at hge
      omega
    · omega
    · exact h.2.2.2

/-! ### A loop -/

/-- FOLD when there is nothing to fold and no common subexpression. -/
def emitFold : Fold := fun J => if J.nins + 1 < refDrop then some (J.addins J.fins) else none

theorem emitFold_ok {Val : Type} (S : Sem Val) : FoldOk S emitFold := by
  have hinv : ∀ {J r J'}, emitFold J = some (r, J') →
      J.nins + 1 < refDrop ∧ r = J.nins ∧ J' = (J.addins J.fins).2 := by
    intro J r J' h
    simp only [emitFold] at h
    split at h
    next hlt =>
      have heq := Option.some.inj h
      exact ⟨hlt, (congrArg Prod.fst heq).symm, (congrArg Prod.snd heq).symm⟩
    next => cases h
  have hself : ∀ J : JitState, (J.addins J.fins).2.ir J.nins =
      { J.fins with prev := J.chain J.fins.o } := fun J => JitState.addins_ir
  have hold : ∀ (J : JitState) {q : ℕ}, q < J.nins → (J.addins J.fins).2.ir q = J.ir q :=
    fun J q hq => Function.update_of_ne (by omega) _ _
  have hnins : ∀ J : JitState, (J.addins J.fins).2.nins = J.nins + 1 := fun _ => rfl
  refine ⟨?_, ?_, ?_, ?_, ?_, ?_⟩
  · intro J r J' _ h
    obtain ⟨-, -, rfl⟩ := hinv h
    exact JitState.addins_ext
  · intro J r J' _ h
    obtain ⟨hlt, -, rfl⟩ := hinv h
    exact hlt
  · intro J r J' hpre h q hq hlt
    obtain ⟨-, -, rfl⟩ := hinv h
    rw [hnins] at hlt
    obtain rfl : q = J.nins := by lia
    rw [hself]
    refine ⟨hpre.kind, hpre.op1, hpre.op2, hpre.isphi, ?_, ?_⟩
    · intro hge
      rw [hold J hpre.op1]
      exact hpre.val1 hge
    · intro hge
      rw [hold J hpre.op2]
      exact hpre.val2 hge
  · intro J r J' hpre h
    obtain ⟨-, rfl, rfl⟩ := hinv h
    rw [hself]
    refine .inr ⟨id, .inr ⟨hpre.nins_le, Nat.lt_succ_self _, ?_, id⟩⟩
    intro ho
    have hkind := hpre.kind
    rw [show J.fins.o = .loop from ho] at hkind
    cases hkind
  · intro J r J' hpre h ρ hm _
    obtain ⟨-, rfl, rfl⟩ := hinv h
    have hns : J.fins.o ≠ .sload := by
      intro hs
      have hkind := hpre.kind
      rw [hs] at hkind
      cases hkind
    have hiff : Holds S (J.addins J.fins).2 ρ J.nins ↔ FinsHolds S J.fins ρ := by
      simp only [Holds, hself, FinsHolds, hns, if_false]
    refine ⟨⟨fun h => hiff.1 (h _ le_rfl (Nat.lt_succ_self _)), ?_⟩, ?_⟩
    · intro h q hq hlt
      rw [hnins] at hlt
      obtain rfl : q = J.nins := by lia
      exact hiff.2 h
    · intro _ _
      have := hm.ins J.nins hpre.nins_le (Nat.lt_succ_self _) (by rw [hself]; exact hpre.kind)
      rw [hself] at this
      exact this
  · intro J r J' hpre h P _ _ _ h1 h2
    obtain ⟨-, rfl, rfl⟩ := hinv h
    refine ⟨?_, fun hlt => absurd hlt (lt_irrefl _)⟩
    intro q hq hlt
    rw [hnins] at hlt
    obtain rfl : q = J.nins := by lia
    rw [hself]
    exact ⟨h1, h2⟩

/-- 32 bit integers, and values that are none. -/
def intSem : Sem (Option (BitVec 32)) where
  konst ins := some ins.i
  val o _ a b :=
    match o with
    | .add => some (a.getD 0 + b.getD 0)
    | _ => some 0
  ok o _ a b :=
    match o with
    | .le => (a.getD 0).sle (b.getD 0)
    | _ => true
  isInt := Option.isSome
  val_isInt o _ _ _ _ := by cases o <;> rfl
  konst_isInt _ _ := rfl

/-- The instructions of `repeat s = s + i; i = i + 1 until i > 100`. -/
def sumIns : ℕ → IRIns
  | 0x7ffe => { o := .kint, t := { type := .int }, i := 100 }
  | 0x7fff => { o := .kint, t := { type := .int }, i := 1 }
  | 0x8001 => { o := .sload, t := { type := .int, isguard := true }, op1 := 1, op2 := 4 }
  | 0x8002 => { o := .sload, t := { type := .int, isguard := true }, op1 := 2, op2 := 4 }
  | 0x8003 => { o := .add, t := { type := .int }, op1 := 0x8002, op2 := 0x8001 }
  | 0x8004 => { o := .add, t := { type := .int }, op1 := 0x8001, op2 := 0x7fff }
  | 0x8005 => { o := .le, t := { type := .int, isguard := true }, op1 := 0x8004, op2 := 0x7ffe }
  | _ => { o := .nop, t := { type := .nil } }

def sumSlot : ℕ → ℕ
  | 1 => 0x8004
  | 2 => 0x8003
  | _ => 0

def sumFirst : SnapShot := { ref := 0x8001, nslots := 3, topslot := 3, map := [], links := [0] }

def sumMid : SnapShot :=
  { ref := 0x8005, nslots := 3, topslot := 3
    map := [{ slot := 1, ref := 0x8004 }, { slot := 2, ref := 0x8003 }], links := [7] }

def sumLast : SnapShot :=
  { ref := 0x8006, nslots := 3, topslot := 3
    map := [{ slot := 1, ref := 0x8004 }, { slot := 2, ref := 0x8003 }], links := [0] }

def sumTrace : Trace where
  core :=
    { ir := sumIns, nk := 0x7ffe, nins := 0x8006, chain := fun _ => 0, fins := sumIns 0
      fleft := sumIns 0, fright := sumIns 0 }
  guardemit := true
  snap := [sumFirst, sumMid, sumLast]
  slot := sumSlot
  nslots := 3

theorem sumTrace_recorded : Recorded sumTrace sumFirst [sumMid] sumLast where
  nk_le := by decide
  nins_le := by decide
  nins_lt := by decide
  konst r h1 h2 := by
    have h : r = 0x7ffe ∨ r = 0x7fff := by
      have h1 : 0x7ffe ≤ r := h1
      have h2 : r < 0x8000 := h2
      lia
    rcases h with rfl | rfl <;> decide
  ins r h1 h2 := by
    have h : r = 0x8001 ∨ r = 0x8002 ∨ r = 0x8003 ∨ r = 0x8004 ∨ r = 0x8005 := by
      have h1 : 0x8001 ≤ r := h1
      have h2 : r < 0x8006 := h2
      lia
    rcases h with rfl | rfl | rfl | rfl | rfl <;> constructor <;> decide
  slot s h1 h2 := by
    have h1 : s < 3 := h1
    interval_cases s
    · exact absurd rfl h2
    · decide
    · decide
  slot_zero := by decide
  snap := rfl
  refs := by decide
  first_ref := rfl
  first_map := rfl
  mid_ok := by
    intro snap hsnap
    rw [List.mem_singleton.1 hsnap]
    constructor <;> decide
  pc := rfl
  last_ref := rfl
  last_nslots := rfl
  last_map := by decide

theorem sumTrace_unrolls : (loopUnroll emitFold sumTrace).isSome = true := by
  decide +kernel

/-- Both variables get a PHI. -/
example : (loopUnroll emitFold sumTrace).map (fun st =>
    (List.range' 0x8007 5).map fun r => (st.T.core.ir r).o) = some [.add, .add, .le, .phi, .phi] := by
  decide +kernel

theorem sum_refines : ∃ st, loopUnroll emitFold sumTrace = some st ∧
    Refines intSem sumTrace st (fun r => intSem.konst (erase (st.T.core.ir r))) (fun _ => some 1) ∧
    ∀ l, Needed sumTrace st.T.core (st.T.snap.drop sumTrace.snap.length) l →
      refFirst ≤ l → l < sumTrace.core.nins → st.subst l = l ∨ Emitted st.T.core l := by
  obtain ⟨st, hst⟩ := Option.isSome_iff_exists.1 sumTrace_unrolls
  exact ⟨st, hst, loop_unroll_refines (emitFold_ok intSem) sumTrace_recorded hst (fun _ _ _ => rfl)
    fun _ _ _ _ _ => rfl⟩

end Loop
