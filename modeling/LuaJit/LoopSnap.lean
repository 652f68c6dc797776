/-
**Snapshots of the unrolled loop.**

Every guard of the loop body belongs to the copy of a recorded instruction.  Its snapshot is the
substituted snapshot of that instruction, with the slots of the loop snapshot as a fallback; guards of
copies that have no snapshot of their own but the first one use the loop snapshot.

Main definitions:

* `Loop.Right` — the snapshot that a copy of a recorded instruction has to use;
* `Loop.SnapInv` — the invariant of the snapshots while instructions are copied.

Main results:

* `Loop.find_substMap` — which slots a substituted snapshot has;
* `Loop.copyAll_ok` — both invariants hold after all instructions have been copied.
-/

import LuaJit.LoopCopy

set_option relaxedAutoImplicit false
set_option autoImplicit false

namespace Loop

open Ir

/-! ### Substituted snapshots -/

theorem substEntry_slot (subst : ℕ → ℕ) (osn : SnapEntry) : (substEntry subst osn).slot = osn.slot := by
  simp only [substEntry]
  split <;> rfl

/-- Slots are in ascending order. -/
def Sorted (map : List SnapEntry) : Prop := map.Pairwise fun a b => a.slot < b.slot

theorem Sorted.find_none {sn : SnapEntry} {map : List SnapEntry} (h : Sorted (sn :: map)) {s : ℕ}
    (hs : s ≤ sn.slot) : map.find? (fun e => e.slot = s) = none := by
  rw [List.find?_eq_none]
  intro e he
  have := (List.pairwise_cons.1 h).1 e he
  simp only [decide_eq_true_eq]
  omega

theorem Sorted.tail {sn : SnapEntry} {map : List SnapEntry} (h : Sorted (sn :: map)) : Sorted map :=
  (List.pairwise_cons.1 h).2

theorem find_takeWhile {map : List SnapEntry} (h : Sorted map) {s n : ℕ} (hs : s < n) :
    (map.takeWhile fun e => e.slot < n).find? (fun e => e.slot = s) =
      map.find? (fun e => e.slot = s) := by
  induction map with
  | nil => rfl
  | cons e map ih =>
      rw [List.takeWhile_cons]
      split
      next hlt => rw [List.find?_cons, List.find?_cons, ih h.tail]
      next hge =>
        simp only [decide_eq_true_eq] at hge
        rw [List.find?_cons, h.find_none (by omega)]
        have hne : (decide (e.slot = s)) = false := by simp; omega
        rw [hne]
        rfl

theorem unshadowed_sublist (slot : ℕ) (map : List SnapEntry) :
    (unshadowed slot map).Sublist map := by
  cases map with
  | nil => exact List.Sublist.refl _
  | cons e map =>
      simp only [unshadowed]
      split
      · exact List.sublist_cons_self e map
      · exact List.Sublist.refl _

theorem Sorted.sublist {map map' : List SnapEntry} (h : Sorted map) (hs : map'.Sublist map) :
    Sorted map' := List.Pairwise.sublist hs h

theorem find_unshadowed {slot s : ℕ} (h : slot ≠ s) (map : List SnapEntry) :
    (unshadowed slot map).find? (fun e => e.slot = s) = map.find? (fun e => e.slot = s) := by
  cases map with
  | nil => rfl
  | cons e map =>
      simp only [unshadowed]
      split
      next he =>
        have hne : e.slot ≠ s := by lia
        simp [hne]
      next => rfl

theorem find_takeWhile_none {s n : ℕ} (h : n ≤ s) (map : List SnapEntry) :
    (map.takeWhile fun e => e.slot < n).find? (fun e => e.slot = s) = none := by
  rw [List.find?_eq_none]
  intro e he
  have hp := List.mem_takeWhile_imp he
  simp only [decide_eq_true_eq] at hp ⊢
  omega

/-- A slot is before or behind `n`. -/
theorem find_takeWhile_dropWhile {map : List SnapEntry} (h : Sorted map) (s n : ℕ) :
    map.find? (fun e => e.slot = s) =
      if s < n then (map.takeWhile fun e => e.slot < n).find? (fun e => e.slot = s)
      else (map.dropWhile fun e => e.slot < n).find? (fun e => e.slot = s) := by
  split
  next hs => exact (find_takeWhile h hs).symm
  next hs =>
    conv_lhs => rw [← @List.takeWhile_append_dropWhile _ (fun e : SnapEntry => decide (e.slot < n)) map]
    rw [List.find?_append, find_takeWhile_none (by omega), Option.none_or]

/-- The slots of a substituted snapshot: those of the snapshot, then those of the loop snapshot. -/
theorem find_substMap {subst : ℕ → ℕ} {nslots s : ℕ} (hs : s < nslots) {omap lmap : List SnapEntry}
    (ho : Sorted omap) (hl : Sorted lmap) :
    (substMap subst nslots omap lmap).find? (fun e => e.slot = s) =
      match omap.find? (fun e => e.slot = s) with
      | some osn => some (substEntry subst osn)
      | none => lmap.find? (fun e => e.slot = s) := by
  induction omap generalizing lmap with
  | nil => simpa [substMap] using find_takeWhile hl hs
  | cons osn omap ih =>
      have hl' : Sorted (unshadowed osn.slot (lmap.dropWhile fun lsn => lsn.slot < osn.slot)) :=
        hl.sublist ((unshadowed_sublist _ _).trans (List.dropWhile_sublist _))
      rw [substMap, List.find?_append, List.find?_cons, substEntry_slot, ih ho.tail hl',
        find_takeWhile_dropWhile hl s osn.slot]
      rcases lt_trichotomy s osn.slot with hlt | rfl | hgt
      · -- before the slot of the snapshot only loop slots are left
        have hne : osn.slot ≠ s := by omega
        simp only [hlt, if_true, List.find?_cons, hne, decide_false, ho.find_none hlt.le]
        cases hf : (lmap.takeWhile fun e => e.slot < osn.slot).find? (fun e => e.slot = s) with
        | some e => rfl
        | none =>
            rw [find_unshadowed hne, Option.none_or, List.find?_eq_none]
            intro e he
            have hsub := hl.sublist (List.dropWhile_sublist fun e : SnapEntry => decide (e.slot < osn.slot))
            have hhead : ∀ e ∈ lmap.dropWhile (fun e => e.slot < osn.slot), osn.slot ≤ e.slot := by
              intro e he
              cases hd : lmap.dropWhile (fun e => e.slot < osn.slot) with
              | nil => rw [hd] at he; cases he
              | cons e' rest =>
                  have hne' := List.head_dropWhile_not (fun e : SnapEntry => decide (e.slot < osn.slot))
                    (by rw [hd]; simp)
                  simp only [hd, List.head_cons, decide_eq_false_iff_not, not_lt] at hne'
                  rw [hd] at he hsub
                  rcases List.mem_cons.1 he with rfl | he
                  · exact hne'
                  · exact hne'.trans ((List.pairwise_cons.1 hsub).1 e he).le
            have := hhead e he
            simp only [decide_eq_true_eq]
            omega
      · simp only [lt_irrefl, if_false, List.find?_cons, decide_true]
        rw [find_takeWhile_none le_rfl, Option.none_or]
      · have hne : osn.slot ≠ s := by omega
        simp only [List.find?_cons, hne, decide_false, find_takeWhile_none hgt.le, Option.none_or,
          find_unshadowed hne, not_lt.2 hgt.le, if_false]

theorem mem_substMap {subst : ℕ → ℕ} {nslots : ℕ} {omap lmap : List SnapEntry} {e : SnapEntry}
    (h : e ∈ substMap subst nslots omap lmap) :
    (∃ osn ∈ omap, e = substEntry subst osn) ∨ e ∈ lmap := by
  induction omap generalizing lmap with
  | nil => exact .inr (List.takeWhile_subset _ h)
  | cons osn omap ih =>
      rw [substMap] at h
      rcases List.mem_append.1 h with h | h
      · exact .inr (List.takeWhile_subset _ h)
      · rcases List.mem_cons.1 h with rfl | h
        · exact .inl ⟨osn, List.mem_cons_self, rfl⟩
        · rcases ih h with ⟨o, ho, he⟩ | he
          · exact .inl ⟨o, List.mem_cons_of_mem _ ho, he⟩
          · exact .inr (((unshadowed_sublist _ _).trans (List.dropWhile_sublist _)).subset he)

theorem substMap_congr {subst subst' : ℕ → ℕ} {nslots : ℕ} {omap lmap : List SnapEntry}
    (h : ∀ osn ∈ omap, refBias ≤ osn.ref → subst' osn.ref = subst osn.ref) :
    substMap subst' nslots omap lmap = substMap subst nslots omap lmap := by
  induction omap generalizing lmap with
  | nil => rfl
  | cons osn omap ih =>
      have he : substEntry subst' osn = substEntry subst osn := by
        simp only [substEntry, irrefIsk]
        by_cases hk : osn.ref < refBias
        · simp [hk]
        · simp [hk, h osn List.mem_cons_self (by omega)]
      rw [substMap, substMap, he, ih fun o ho => h o (List.mem_cons_of_mem _ ho)]

/-! ### The snapshot of a guard -/

theorem snapAt_append_of_lt {snaps new : List SnapShot} {q : ℕ} (h : ∀ sn ∈ new, q < sn.ref) :
    snapAt (snaps ++ new) q = snapAt snaps q := by
  have hf : new.filter (fun sn => sn.ref ≤ q) = [] := by
    rw [List.filter_eq_nil_iff]
    intro sn hsn
    have := h sn hsn
    simp only [decide_eq_true_eq]
    omega
  rw [snapAt, snapAt, List.filter_append, hf, List.append_nil]

theorem snapAt_of_le {snaps : List SnapShot} {q : ℕ} (h : ∀ sn ∈ snaps, sn.ref ≤ q) :
    snapAt snaps q = snaps.getLast? := by
  have hf : snaps.filter (fun sn => sn.ref ≤ q) = snaps := by
    rw [List.filter_eq_self]
    intro sn hsn
    simpa using h sn hsn
  rw [snapAt, hf]

/-- The guard `q` belongs to the copy of `x`. -/
def InCopy (st : LoopState) (ins x q : ℕ) : Prop :=
  refFirst ≤ x ∧ x < ins ∧ st.first x ≤ q ∧ ∀ y, x < y → y < ins → q < st.first y

/-- `sn` is the snapshot `o` after substitution. -/
def Substituted (subst : ℕ → ℕ) (last o sn : SnapShot) : Prop :=
  sn.map = substMap subst o.nslots o.map last.map ∧ sn.nslots = o.nslots ∧ sn.links = o.links

/-- The snapshot for the copy of `x`: the loop snapshot if `x` has the first one, else the
substituted snapshot of `x`. -/
def Right (T : Trace) (subst : ℕ → ℕ) (first last : SnapShot) (mid : List SnapShot) (x : ℕ)
    (sn : SnapShot) : Prop :=
  (snapAt T.snap x = some first ∧ sn = last) ∨
    ∃ o ∈ mid, snapAt T.snap x = some o ∧ o.ref ≤ x ∧ Substituted subst last o sn

/-- The invariant of the snapshots: the snapshots `done` have been copied, `new` are the copies. -/
structure SnapInv (T : Trace) (first last : SnapShot) (mid done : List SnapShot) (ins : ℕ)
    (new : List SnapShot) (st : LoopState) : Prop where
  snap : st.T.snap = T.snap ++ new
  nil : done = [] → new = []
  cur : ∀ o, done.getLast? = some o → ∃ sn, new.getLast? = some sn ∧ Substituted st.subst last o sn
  refs : ∀ sn ∈ new, T.core.nins < sn.ref ∧ sn.ref ≤ st.T.core.nins
  entry : ∀ sn ∈ new, ∀ e ∈ sn.map, (∃ o ∈ mid, o.ref ≤ ins ∧ ∃ osn ∈ o.map,
    e = substEntry st.subst osn) ∨ e ∈ last.map
  emit : st.T.guardemit = false → ∃ sn, new.getLast? = some sn ∧
    ∀ q, T.core.nins < q → q < st.T.core.nins → (st.T.core.ir q).t.isguard = true → q < sn.ref
  guard : ∀ q, T.core.nins < q → q < st.T.core.nins → (st.T.core.ir q).t.isguard = true →
    ∃ x sn, InCopy st ins x q ∧ snapAt st.T.snap q = some sn ∧ Right T st.subst first last mid x sn

section

variable {T : Trace} {first last : SnapShot} {mid : List SnapShot}

theorem Recorded.ref_le (hT : Recorded T first mid last) : ∀ sn ∈ T.snap, sn.ref ≤ T.core.nins := by
  intro sn hsn
  rw [hT.snap] at hsn
  have hp := hT.refs
  rw [List.pairwise_append] at hp
  rcases List.mem_append.1 hsn with hsn | hsn
  · exact (hp.2.2 sn hsn last (by simp)).le.trans hT.last_ref.le
  · rw [List.mem_singleton.1 hsn]
    exact hT.last_ref.le

/-- The snapshot of a recorded instruction. -/
theorem Recorded.snapAt_eq (hT : Recorded T first mid last) {done rest : List SnapShot}
    (hmid : mid = done ++ rest) {x : ℕ} (hx : refFirst ≤ x) (hlt : x < T.core.nins)
    (hdone : ∀ o ∈ done, o.ref ≤ x) (hrest : ∀ o ∈ rest, x < o.ref) :
    snapAt T.snap x = (first :: done).getLast? := by
  have hsplit : T.snap = (first :: done) ++ (rest ++ [last]) := by
    rw [hT.snap, hmid]
    simp
  rw [hsplit, snapAt_append_of_lt, snapAt_of_le]
  · intro sn hsn
    rcases List.mem_cons.1 hsn with rfl | hsn
    · rw [hT.first_ref]
      exact hx
    · exact hdone sn hsn
  · intro sn hsn
    rcases List.mem_append.1 hsn with hsn | hsn
    · exact hrest sn hsn
    · rw [List.mem_singleton.1 hsn, hT.last_ref]
      exact hlt

/-- A substituted snapshot does not depend on later substitutions. -/
theorem Substituted.congr (hT : Recorded T first mid last) {subst subst' : ℕ → ℕ} {o sn : SnapShot}
    (ho : o ∈ mid) (h : Substituted subst last o sn) {ins : ℕ} (hlt : o.ref ≤ ins)
    (hs : ∀ x < ins, subst' x = subst x) : Substituted subst' last o sn := by
  refine ⟨?_, h.2⟩
  rw [h.1]
  apply (substMap_congr _).symm
  intro osn hosn hge
  rcases (hT.mid_ok o ho).ref osn hosn with hr | hr
  · omega
  · exact hs _ (by omega)

theorem Right.congr (hT : Recorded T first mid last) {subst subst' : ℕ → ℕ} {x ins : ℕ} {sn : SnapShot}
    (h : Right T subst first last mid x sn) (hlt : x < ins)
    (hs : ∀ x < ins, subst' x = subst x) : Right T subst' first last mid x sn := by
  rcases h with h | ⟨o, ho, hat, hle, hsub⟩
  · exact .inl h
  · exact .inr ⟨o, ho, hat, hle, hsub.congr hT ho (by omega) hs⟩

/-- Without a guard since then there is a last copy, -/
theorem SnapInv.new_ne_nil {done new : List SnapShot} {ins : ℕ} {st : LoopState}
    (h : SnapInv T first last mid done ins new st) (hg : st.T.guardemit = false) : new ≠ [] := by
  obtain ⟨sn, hl, -⟩ := h.emit hg
  intro he
  rw [he] at hl
  cases hl

/-- and it is not the snapshot of any guard. -/
theorem SnapInv.snapAt_dropLast {done new : List SnapShot} {ins : ℕ} {st : LoopState}
    (h : SnapInv T first last mid done ins new st) (hg : st.T.guardemit = false) {q : ℕ}
    (hq : T.core.nins < q) (hlt : q < st.T.core.nins) (hguard : (st.T.core.ir q).t.isguard = true) :
    snapAt (T.snap ++ new.dropLast) q = snapAt (T.snap ++ new) q := by
  obtain ⟨sn, hl, hbound⟩ := h.emit hg
  have hne := h.new_ne_nil hg
  have hnew : new = new.dropLast ++ [sn] := by
    rw [List.getLast?_eq_some_getLast hne, Option.some.injEq] at hl
    rw [← hl, List.dropLast_append_getLast hne]
  conv_rhs => rw [hnew, ← List.append_assoc]
  refine (snapAt_append_of_lt ?_).symm
  intro sn' hm
  rw [List.mem_singleton.1 hm]
  exact hbound q hq hlt hguard

/-- A snapshot is copied. -/
theorem SnapInv.substSnap {done new : List SnapShot} {ins : ℕ}
    {st : LoopState} (hc : CopyOk T ins st) (h : SnapInv T first last mid done ins new st)
    {o : SnapShot} (ho : o ∈ mid) (href : o.ref = ins) :
    ∃ new', SnapInv T first last mid (done ++ [o]) ins new' (loopSubstSnap st o last.map) := by
  obtain ⟨sn, hsn⟩ : ∃ sn : SnapShot, sn =
    { ref := st.T.core.nins, nslots := o.nslots, topslot := o.topslot
      map := substMap st.subst o.nslots o.map last.map, links := o.links } := ⟨_, rfl⟩
  have hsnap : (loopSubstSnap st o last.map).T.snap =
      T.snap ++ ((if st.T.guardemit then new else new.dropLast) ++ [sn]) := by
    simp only [loopSubstSnap, ← hsn]
    cases hg : st.T.guardemit with
    | true => simp [h.snap]
    | false =>
        simp [h.snap, List.dropLast_append_of_ne_nil (h.new_ne_nil hg)]
  have hsub : ∀ sn' ∈ (if st.T.guardemit then new else new.dropLast), sn' ∈ new := by
    intro sn' hm
    split at hm
    · exact hm
    · exact List.dropLast_subset _ hm
  refine ⟨_, hsnap, by simp, ?_, ?_, ?_, ?_, ?_⟩
  · intro o' ho'
    simp only [List.getLast?_append, List.getLast?_singleton, Option.some_or, Option.some.injEq] at ho'
    subst ho'
    refine ⟨sn, by simp, ?_⟩
    rw [hsn]
    exact ⟨rfl, rfl, rfl⟩
  · intro sn' hm
    rcases List.mem_append.1 hm with hm | hm
    · exact h.refs sn' (hsub sn' hm)
    · rw [List.mem_singleton.1 hm, hsn]
      exact ⟨hc.nins.1, le_rfl⟩
  · intro sn' hm e he
    rcases List.mem_append.1 hm with hm | hm
    · exact h.entry sn' (hsub sn' hm) e he
    · rw [List.mem_singleton.1 hm, hsn] at he
      rcases mem_substMap he with ⟨osn, hosn, he⟩ | he
      · exact .inl ⟨o, ho, href.le, osn, hosn, he⟩
      · exact .inr he
  · intro _
    refine ⟨sn, by simp, ?_⟩
    intro q _ hlt _
    rw [hsn]
    exact hlt
  · -- the snapshot of a guard is not the one that is overwritten
    intro q hq hlt hguard
    obtain ⟨x, sn', hin, hat, hright⟩ := h.guard q hq hlt hguard
    refine ⟨x, sn', hin, ?_, hright⟩
    rw [hsnap, ← List.append_assoc, snapAt_append_of_lt, ← hat, h.snap]
    · cases hg : st.T.guardemit with
      | true => simp
      | false =>
          exact h.snapAt_dropLast hg hq hlt hguard
    · intro sn₂ hm
      rw [List.mem_singleton.1 hm, hsn]
      exact hlt

/-- What copying an instruction means for the snapshots. -/
structure CopyFrame (T : Trace) (ins : ℕ) (st st' : LoopState) : Prop where
  subst : ∀ x < ins, st'.subst x = st.subst x
  first : st'.first = Function.update st.first ins st.T.core.nins
  snap : st'.T.snap = st.T.snap
  nins : st.T.core.nins ≤ st'.T.core.nins
  isguard : ∀ q, refFirst ≤ q → q < st.T.core.nins →
    (st'.T.core.ir q).t.isguard = (st.T.core.ir q).t.isguard
  emit : st'.T.guardemit = false → st.T.guardemit = false ∧
    ∀ q, st.T.core.nins ≤ q → q < st'.T.core.nins → (st'.T.core.ir q).t.isguard = false

/-- The IR only grows. -/
theorem CopyStep.coreExt {Val : Type} {S : Sem Val} {fold : Fold} (hfold : FoldOk S fold) {ins : ℕ}
    {st st' : LoopState} (hs : CopyStep fold T ins st st') : CoreExt st.T.core st'.T.core := by
  cases hs with
  | inv hkind h1 h2 hs hcore =>
      rw [hcore]
      exact CoreExt.refl _
  | sload ho hs hcore hnins hnk hir => exact ⟨hnk.le, hnins.ge, fun q _ _ => hir q⟩
  | @fold r core hkind hpre hfo hs hcore hnins hnk hir =>
      have hext := hfold.ext hpre hfo
      refine ⟨hnk.le.trans hext.nk_le, hext.nins_le.trans hnins.ge, fun q hk hq => ?_⟩
      rw [hir q, hext.ir_eq ⟨hk, hq⟩]

theorem CopyStep.frame {Val : Type} {S : Sem Val} {fold : Fold} (hfold : FoldOk S fold) {ins : ℕ}
    {st st' : LoopState} (hT : Recorded T first mid last) (h : CopyOk T ins st)
    (hf : st'.first = Function.update st.first ins st.T.core.nins)
    (hs : CopyStep fold T ins st st') : CopyFrame T ins st st' := by
  have hupd : ∀ r, ∀ x < ins, Function.update st.subst ins r x = st.subst x := fun r x hx =>
    Function.update_of_ne (by omega) _ _
  cases hs with
  | inv hkind h1 h2 hs hcore =>
      exact ⟨by rw [hs]; exact hupd ins, hf, by rw [hcore], by rw [hcore], by
        intro q _ _
        rw [hcore], by
        rw [hcore]
        exact fun hg => ⟨hg, fun q hq hlt => absurd hlt (by omega)⟩⟩
  | sload ho hs hcore hnins hnk hir =>
      refine ⟨by rw [hs]; exact hupd _, hf, by rw [hcore], hnins.ge, ?_, ?_⟩
      · intro q _ _
        obtain ⟨-, -, -, -, hg⟩ := erase_eq (hir q)
        exact hg
      · rw [hcore]
        simp only [hnins]
        exact fun hg => ⟨hg, fun q hq hlt => absurd hlt (by omega)⟩
  | @fold r core hkind hpre hfo hs hcore hnins hnk hir =>
      have hext := hfold.ext hpre hfo
      refine ⟨by rw [hs]; exact hupd _, hf, by rw [hcore], by rw [hnins]; exact hext.nins_le, ?_, ?_⟩
      · intro q hq hlt
        obtain ⟨-, -, -, -, hg⟩ := erase_eq (hir q)
        have hk : st.T.core.nk ≤ q := (h.ext.nk_le.trans hT.nk_le).trans (by
          simp only [refFirst] at hq
          omega)
        rw [hg, hext.ir_eq ⟨hk, hlt⟩]
      · intro hemit
        rw [hcore] at hemit
        simp only [Bool.or_eq_false_iff, newGuard, List.any_eq_false, List.mem_range'_1,
          Bool.not_eq_true] at hemit
        refine ⟨hemit.1, fun q hq hlt => ?_⟩
        obtain ⟨-, -, -, -, hg⟩ := erase_eq (hir q)
        rw [hg]
        exact hemit.2 q ⟨hq, by lia⟩

/-- An instruction is copied. -/
theorem SnapInv.copyIns {done rest new : List SnapShot} {ins : ℕ} {st st' : LoopState}
    (hT : Recorded T first mid last) (h : SnapInv T first last mid done ins new st) (hmid : mid = done ++ rest)
    (hins : refFirst ≤ ins) (hinv : ins < T.core.nins) (hdone : ∀ o ∈ done, o.ref ≤ ins)
    (hrest : ∀ o ∈ rest, ins < o.ref) (hf : CopyFrame T ins st st') :
    SnapInv T first last mid done (ins + 1) new st' := by
  have hdm : ∀ o ∈ done, o ∈ mid := by
    intro o ho
    rw [hmid]
    exact List.mem_append_left _ ho
  have hfirst : ∀ x < ins, st'.first x = st.first x := by
    intro x hx
    rw [hf.first]
    exact Function.update_of_ne (by omega) _ _
  have hguard : ∀ q, T.core.nins < q → q < st.T.core.nins → (st'.T.core.ir q).t.isguard = true →
      (st.T.core.ir q).t.isguard = true := by
    intro q hq hlt hg
    rw [← hf.isguard q (by have := hT.nins_le; omega) hlt]
    exact hg
  refine ⟨by rw [hf.snap, h.snap], h.nil, ?_, ?_, ?_, ?_, ?_⟩
  · intro o ho
    obtain ⟨sn, hsn, hsub⟩ := h.cur o ho
    have hm : o ∈ done := List.mem_of_getLast? ho
    exact ⟨sn, hsn, hsub.congr hT (hdm o hm) (hdone o hm) hf.subst⟩
  · intro sn hsn
    exact ⟨(h.refs sn hsn).1, (h.refs sn hsn).2.trans hf.nins⟩
  · intro sn hsn e he
    rcases h.entry sn hsn e he with ⟨o, ho, hle, osn, hosn, heq⟩ | hl
    · refine .inl ⟨o, ho, by omega, osn, hosn, ?_⟩
      rw [heq]
      simp only [substEntry]
      split
      next => rfl
      next hk =>
        have hlt' : osn.ref < ins := by
          rcases (hT.mid_ok o ho).ref osn hosn with hr | hr
          · simp [irrefIsk] at hk
            omega
          · omega
        rw [hf.subst _ hlt']
    · exact .inr hl
  · intro hg
    obtain ⟨hg', hnew⟩ := hf.emit hg
    obtain ⟨sn, hsn, hbound⟩ := h.emit hg'
    refine ⟨sn, hsn, ?_⟩
    intro q hq hlt hgd
    by_cases hold : q < st.T.core.nins
    · exact hbound q hq hold (hguard q hq hold hgd)
    · rw [hnew q (by omega) hlt] at hgd
      cases hgd
  · intro q hq hlt hgd
    by_cases hold : q < st.T.core.nins
    · obtain ⟨x, sn, ⟨hx1, hx2, hx3, hx4⟩, hat, hright⟩ := h.guard q hq hold (hguard q hq hold hgd)
      refine ⟨x, sn, ⟨hx1, by omega, by rw [hfirst x hx2]; exact hx3, ?_⟩, by rw [hf.snap]; exact hat,
        hright.congr hT hx2 hf.subst⟩
      intro y hy hylt
      rcases Nat.lt_succ_iff_lt_or_eq.1 hylt with hy' | rfl
      · rw [hfirst y hy']
        exact hx4 y hy hy'
      · rw [hf.first, Function.update_self]
        exact hold
    · -- a new guard has the current snapshot
      have hle : ∀ sn ∈ T.snap ++ new, sn.ref ≤ q := by
        intro sn hsn
        rcases List.mem_append.1 hsn with hsn | hsn
        · have := hT.ref_le sn hsn
          omega
        · have := (h.refs sn hsn).2
          omega
      have hat : snapAt st'.T.snap q = (T.snap ++ new).getLast? := by
        rw [hf.snap, h.snap, snapAt_of_le hle]
      have hcur := hT.snapAt_eq hmid hins hinv hdone hrest
      have hin : InCopy st' (ins + 1) ins q := by
        refine ⟨hins, Nat.lt_succ_self _, ?_, fun y hy hy' => absurd hy (by omega)⟩
        rw [hf.first, Function.update_self]
        omega
      cases hd : done.getLast? with
      | none =>
          have hnil : done = [] := List.getLast?_eq_none_iff.1 hd
          refine ⟨ins, last, hin, ?_, .inl ⟨?_, rfl⟩⟩
          · rw [hat, h.nil hnil, hT.snap, List.append_nil, List.getLast?_append]
            rfl
          · rw [hcur, hnil]
            rfl
      | some o =>
          obtain ⟨sn, hsn, hsub⟩ := h.cur o hd
          have hm : o ∈ done := List.mem_of_getLast? hd
          refine ⟨ins, sn, hin, ?_, .inr ⟨o, hdm o hm, ?_, hdone o hm,
            hsub.congr hT (hdm o hm) (hdone o hm) hf.subst⟩⟩
          · rw [hat, List.getLast?_append, hsn]
            rfl
          · rw [hcur, List.getLast?_cons, hd]
            rfl

/-- One instruction with its snapshot is copied. -/
theorem copy_step {Val : Type} {S : Sem Val} {fold : Fold} (hfold : FoldOk S fold)
    {done rest new : List SnapShot} {ins : ℕ} {st st' : LoopState} (hT : Recorded T first mid last)
    (hc : CopyOk T ins st) (h : SnapInv T first last mid done ins new st) (hmid : mid = done ++ rest)
    (hins : refFirst ≤ ins) (hlt : ins < T.core.nins) (hdone : ∀ o ∈ done, o.ref ≤ ins)
    (hrest : ∀ o ∈ rest, ins < o.ref) (he : copyIns fold T.core.nins ins st = some st') :
    CopyOk T (ins + 1) st' ∧ CopyStep fold T ins st st' ∧
      st'.first = Function.update st.first ins st.T.core.nins ∧
      SnapInv T first last mid done (ins + 1) new st' := by
  obtain ⟨hc', hs, hf⟩ := copyIns_ok hfold hT hc hins hlt he
  exact ⟨hc', hs, hf, h.copyIns hT hmid hins hlt hdone hrest (hs.frame hfold hT hc hf)⟩

/-- **All instructions are copied.**  A property `P` that every copied instruction keeps holds at the
end. -/
theorem copyAll_ok {Val : Type} {S : Sem Val} {fold : Fold} (hfold : FoldOk S fold)
    (hT : Recorded T first mid last) (P : ℕ → LoopState → Prop)
    (hsnap : ∀ ins st o, P ins st → P ins (loopSubstSnap st o last.map))
    (hstep : ∀ ins st st', refFirst ≤ ins → ins < T.core.nins → CopyOk T ins st →
      CopyOk T (ins + 1) st' → CopyStep fold T ins st st' →
      st'.first = Function.update st.first ins st.T.core.nins → P ins st → P (ins + 1) st') :
    ∀ {n ins : ℕ} {done rest new : List SnapShot} {st st' : LoopState}, CopyOk T ins st →
      SnapInv T first last mid done ins new st → mid = done ++ rest → refFirst ≤ ins →
      ins + n = T.core.nins → (∀ o ∈ done, o.ref < ins) → (∀ o ∈ rest, ins ≤ o.ref) → P ins st →
      copyAll fold T.core.nins last.map n ins (rest ++ [last]) st = some st' →
      CopyOk T T.core.nins st' ∧ (∃ new', SnapInv T first last mid mid T.core.nins new' st') ∧
        P T.core.nins st' := by
  intro n
  induction n with
  | zero =>
      intro ins done rest new st st' hc h hmid hins hn hdone hrest hP he
      simp only [copyAll, Option.some.injEq] at he
      subst he
      have hi : ins = T.core.nins := by omega
      -- no snapshot is left, since all of them are below the loop snapshot
      have hnil : rest = [] := by
        cases rest with
        | nil => rfl
        | cons o rest =>
            have hp := hT.refs
            rw [List.pairwise_append] at hp
            have := hp.2.2 o (by rw [hmid]; simp) last (by simp)
            have := hT.last_ref
            have := hrest o (by simp)
            omega
      rw [hnil, List.append_nil] at hmid
      subst hmid
      rw [hi] at hc h hP
      exact ⟨hc, ⟨new, h⟩, hP⟩
  | succ n ih =>
      intro ins done rest new st st' hc h hmid hins hn hdone hrest hP he
      have hlt : ins < T.core.nins := by omega
      -- no snapshot is due
      have hnext : (∀ o ∈ rest, ins < o.ref) → ∀ st₁, copyIns fold T.core.nins ins st = some st₁ →
          copyAll fold T.core.nins last.map n (ins + 1) (rest ++ [last]) st₁ = some st' →
          CopyOk T T.core.nins st' ∧ (∃ new', SnapInv T first last mid mid T.core.nins new' st') ∧
            P T.core.nins st' := by
        intro hrest' st₁ h₁ h₂
        obtain ⟨hc', hs, hf, h'⟩ := copy_step hfold hT hc h hmid hins hlt
          (fun o ho => (hdone o ho).le) hrest' h₁
        exact ih hc' h' hmid (by omega) (by lia) (fun o ho => (hdone o ho).trans (Nat.lt_succ_self _))
          hrest' (hstep ins st st₁ hins hlt hc hc' hs hf hP) h₂
      cases rest with
      | nil =>
          have hnot : ¬ last.ref ≤ ins := by
            rw [hT.last_ref]
            omega
          simp only [List.nil_append, copyAll, hnot, if_false] at he
          split at he
          next => cases he
          next st₁ h₁ => exact hnext (by simp) st₁ h₁ he
      | cons o rest =>
          have ho : o ∈ mid := by rw [hmid]; simp
          have hrest' : ∀ o' ∈ rest, o.ref < o'.ref := by
            intro o' ho'
            have hp := hT.refs
            rw [hmid, List.pairwise_append] at hp
            have hp₁ := (List.pairwise_cons.1 hp.1).2
            rw [List.pairwise_append] at hp₁
            exact (List.pairwise_cons.1 hp₁.2.1).1 o' ho'
          simp only [List.cons_append, copyAll] at he
          split at he
          next hle =>
            have href : o.ref = ins := le_antisymm hle (hrest o (by simp))
            split at he
            next => cases he
            next st₁ h₁ =>
              obtain ⟨new', h'⟩ := h.substSnap hc ho href
              have hc₀ : CopyOk T ins (loopSubstSnap st o last.map) := hc.withSnap _ _
              have hmid' : mid = (done ++ [o]) ++ rest := by rw [hmid]; simp
              have hdone' : ∀ o' ∈ done ++ [o], o'.ref ≤ ins := by
                intro o' ho'
                rcases List.mem_append.1 ho' with ho' | ho'
                · exact (hdone o' ho').le
                · rw [List.mem_singleton.1 ho']
                  exact hle
              have hrest₁ : ∀ o' ∈ rest, ins < o'.ref := fun o' ho' => href ▸ hrest' o' ho'
              obtain ⟨hc', hs, hf, h''⟩ := copy_step hfold hT hc₀ h' hmid' hins hlt hdone' hrest₁ h₁
              exact ih hc' h'' hmid' (by lia) (by lia)
                (fun o' ho' => Nat.lt_succ_of_le (hdone' o' ho')) hrest₁
                (hstep ins _ st₁ hins hlt hc₀ hc' hs hf (hsnap ins st o hP)) he
          next hgt =>
            split at he
            next => cases he
            next st₁ h₁ =>
              refine hnext ?_ st₁ h₁ he
              intro o' ho'
              rcases List.mem_cons.1 ho' with rfl | ho'
              · lia
              · have := hrest' o' ho'
                lia

end

end Loop
