/-
**The snapshots of a recording.**

The recorder's operations on snapshots, without the limits of the fields, work on the end of a list of
snapshots.  While the loop is unrolled the list is the recorded snapshots and the copies of some of them
behind it, and the number of copied entries is bounded by the estimate `loop_unroll` makes in front.

Main definitions:

* `Snap.AState`, `Snap.astep`, `Snap.arun` — the list of snapshots, the operations on it, and runs of them;
* `Snap.AInv`, `Snap.LoopOk` — what holds of the list, and of it while the loop is unrolled.

Main results:

* `Snap.AInv.step`, `Snap.arun_inv` — one operation, and a run.
-/

import LuaJit.SnapInv

set_option relaxedAutoImplicit false
set_option autoImplicit false

namespace Snap

open Ir

/-! ### The list of snapshots -/

/-- `JIT_P_maxsnap`, by default. -/
def paramMaxsnap : ℕ := 500

/-- The state of loop unrolling. -/
structure ALoop where
  invar : ℕ
  /-- The number of the recorded snapshots. -/
  onsnap : ℕ
  /-- The last of them. -/
  last : ASnap
  /-- The next one to copy. -/
  osnap : ℕ

/-- The snapshots that have been recorded, and the state of the recorder. -/
structure AState where
  snaps : List ASnap
  nins : ℕ
  guardemit : Bool
  mergesnap : Bool
  loop : Option ALoop

/-- A new snapshot. -/
def Stack.snap (cfg : Target) (S : Stack) (nins : ℕ) : ASnap where
  ref := nins
  nslots := S.baseslot + S.maxslot
  ents := (List.range' 0 (S.baseslot + S.maxslot)).filterMap (snapEntry cfg S)
  links := S.links

/-- A snapshot is added. -/
def AState.push (a : AState) (s : ASnap) : Option AState :=
  if a.snaps.length < paramMaxsnap then
    some { a with snaps := a.snaps ++ [s], mergesnap := false, guardemit := false }
  else none

/-- `lj_snap_add`.  There is always a snapshot when merging is requested. -/
def AState.add (cfg : Target) (a : AState) (S : Stack) : Option AState :=
  if S.baseslot + S.maxslot ≤ maxJslots ∧ S.links.length = 1 + S.framedepth then
    match a.snaps.getLast? with
    | none => if a.mergesnap && !a.guardemit then none else a.push (S.snap cfg a.nins)
    | some last =>
        if if a.mergesnap then !a.guardemit else decide (last.ref = a.nins) then
          if a.snaps.length = 1 then
            if a.nins + 1 < 2 ^ 16 then { a with nins := a.nins + 1 }.push (S.snap cfg (a.nins + 1)) else none
          else
            some { a with snaps := a.snaps.dropLast ++ [S.snap cfg a.nins], mergesnap := false, guardemit := false }
        else a.push (S.snap cfg a.nins)
  else none

/-- A snapshot without dead slots. -/
def ASnap.shrink (s : ASnap) (baseslot maxslot : ℕ) (u : UseDef) : ASnap :=
  { s with nslots := maxslot + baseslot, ents := s.ents.filter (u.keeps baseslot maxslot) }

/-- `lj_snap_shrink`. -/
def AState.shrink (a : AState) (baseslot maxslot : ℕ) (u : UseDef) : Option AState :=
  if maxslot + baseslot ≤ maxJslots then
    a.snaps.getLast?.map fun last => { a with snaps := a.snaps.dropLast ++ [last.shrink baseslot maxslot u] }
  else none

/-- The start of `loop_unroll`: the last snapshot is the loop snapshot, taken behind the last instruction and
with the PC of the first one. -/
def AState.loopBegin (a : AState) : Option AState :=
  match a.snaps.head?, a.snaps.getLast? with
  | some first, some last =>
      if 2 ≤ a.snaps.length ∧ last.ref = a.nins ∧ first.links.head? = last.links.head? ∧ a.nins + 1 < 2 ^ 16 ∧
          2 * a.snaps.length - 2 ≤ paramMaxsnap then
        some { a with
          nins := a.nins + 1
          guardemit := true
          loop := some { invar := a.nins, onsnap := a.snaps.length, last := last, osnap := 1 } }
      else none
  | _, _ => none

/-- The copy of a snapshot. -/
def ASnap.copy (os loop : ASnap) (nins : ℕ) (subst : ℕ → ℕ) : ASnap where
  ref := nins
  nslots := os.nslots
  ents := mergeEnts subst os.nslots loop.ents os.ents
  links := os.links

/-- The snapshots in front of a copy: one without a guard behind it is overwritten. -/
def AState.kept (a : AState) : List ASnap := if a.guardemit then a.snaps else a.snaps.dropLast

/-- `loop_unroll` at an instruction in front of the loop. -/
def AState.subst (a : AState) (C : ALoop) (ins : ℕ) (subst : ℕ → ℕ) : Option AState :=
  if ins < C.invar then
    a.snaps[C.osnap]?.bind fun os =>
      if os.ref ≤ ins then
        some { a with
          snaps := a.kept ++ [os.copy C.last a.nins subst]
          guardemit := false
          loop := some { C with osnap := C.osnap + 1 } }
      else some a
  else none

/-- One operation. -/
def astep (cfg : Target) (a : AState) (op : Op) : Option AState :=
  match op, a.loop with
  | .emit n guard, _ =>
      if a.nins + n < 2 ^ 16 then some { a with nins := a.nins + n, guardemit := a.guardemit || guard } else none
  | .mergesnap, none => some { a with mergesnap := true }
  | .add S, none => a.add cfg S
  | .shrink baseslot maxslot u, none => a.shrink baseslot maxslot u
  | .loopBegin, none => a.loopBegin
  | .subst ins subst, some C => a.subst C ins subst
  | .loopEnd, some _ => some { a with snaps := a.kept, loop := none }
  | _, _ => none

/-- No snapshots. -/
def astart : AState := { snaps := [], nins := refBias + 1, guardemit := false, mergesnap := false, loop := none }

/-- The snapshots after operations in turn.  There is no result if the limits do not admit the run. -/
def arun (cfg : Target) (ops : List Op) : Option AState := ops.foldlM (astep cfg) astart

/-! ### The invariant of the list -/

/-- A snapshot of the recorder. -/
structure SnapOk (s : ASnap) : Prop where
  slots : Slots s.ents
  bound : ∀ sn ∈ s.ents, snapSlot sn < maxJslots
  nslots : s.nslots ≤ maxJslots
  links : s.links ≠ []

theorem SnapOk.length_le {s : ASnap} (h : SnapOk s) : s.ents.length ≤ maxJslots := h.slots.length_le h.bound

/-- The snapshots of a trace that has `nins` instructions. -/
structure SnapsOk (snaps : List ASnap) (nins : ℕ) : Prop where
  snap : ∀ s ∈ snaps, SnapOk s
  refs : snaps.Pairwise fun s t => s.ref ≤ t.ref
  refs_le : ∀ s ∈ snaps, s.ref ≤ nins

/-- The snapshots while the loop is unrolled: `onsnap` of them are recorded, the others are copies. -/
structure LoopOk (a : AState) (C : ALoop) : Prop where
  two : 2 ≤ C.onsnap
  recorded : C.onsnap ≤ a.snaps.length
  osnap : 1 ≤ C.osnap
  osnap_lt : C.osnap < C.onsnap
  copies : a.snaps.length + 1 ≤ C.onsnap + C.osnap
  fresh : a.guardemit = false → C.onsnap < a.snaps.length
  room : 2 * C.onsnap - 2 ≤ paramMaxsnap
  last : a.snaps[C.onsnap - 1]? = some C.last
  lastref : C.last.ref = C.invar
  pc : ∃ first, a.snaps[0]? = some first ∧ first.links.head? = C.last.links.head?
  size : (content a.snaps).length + ofs a.snaps 1 ≤
    ofs a.snaps C.onsnap + ofs a.snaps C.osnap + (C.osnap - 1) * C.last.ents.length

/-- What holds of the snapshots. -/
structure AInv (a : AState) : Prop extends SnapsOk a.snaps a.nins where
  nins : a.nins < 2 ^ 16
  length : a.snaps.length ≤ paramMaxsnap
  loop : ∀ C, a.loop = some C → LoopOk a C

theorem snapOk_stack {cfg : Target} {S : Stack} {nins : ℕ} (h : S.baseslot + S.maxslot ≤ maxJslots) :
    SnapOk (S.snap cfg nins) := by
  have hle : maxJslots ≤ 2 ^ 8 := by decide
  obtain ⟨hslots, hbound⟩ := @slots_filterMap cfg S 0 (S.baseslot + S.maxslot) (by omega)
  refine ⟨hslots, fun sn hsn => ?_, h, List.cons_ne_nil _ _⟩
  have := hbound sn hsn
  omega

theorem SnapOk.shrink {s : ASnap} (h : SnapOk s) {baseslot maxslot : ℕ} (hle : maxslot + baseslot ≤ maxJslots)
    (u : UseDef) : SnapOk (s.shrink baseslot maxslot u) where
  slots := List.Pairwise.sublist List.filter_sublist h.slots
  bound := fun sn hsn => h.bound sn (List.mem_of_mem_filter hsn)
  nslots := hle
  links := h.links

theorem SnapOk.copy {os loop : ASnap} (ho : SnapOk os) (hl : SnapOk loop) (nins : ℕ) (subst : ℕ → ℕ) :
    SnapOk (os.copy loop nins subst) where
  slots := slots_mergeEnts hl.slots ho.slots
  bound := by
    intro sn hsn
    rcases slot_mergeEnts hsn with ⟨l, hmem, heq⟩ | ⟨o, hmem, heq⟩
    · rw [heq]
      exact hl.bound l hmem
    · rw [heq]
      exact ho.bound o hmem
  nslots := ho.nslots
  links := ho.links

theorem SnapsOk.push {init : List ASnap} {s : ASnap} {nins : ℕ} (h : SnapsOk init nins) (hs : SnapOk s)
    (hle : ∀ t ∈ init, t.ref ≤ s.ref) (hnins : s.ref ≤ nins) : SnapsOk (init ++ [s]) nins where
  snap := by
    intro t ht
    rcases List.mem_append.1 ht with ht | ht
    · exact h.snap t ht
    · rw [List.mem_singleton.1 ht]
      exact hs
  refs := by
    rw [List.pairwise_append]
    refine ⟨h.refs, List.pairwise_singleton _ _, fun t ht t' ht' => ?_⟩
    rw [List.mem_singleton.1 ht']
    exact hle t ht
  refs_le := by
    intro t ht
    rcases List.mem_append.1 ht with ht | ht
    · exact h.refs_le t ht
    · rw [List.mem_singleton.1 ht]
      exact hnins

theorem SnapsOk.sublist {s t : List ASnap} {nins : ℕ} (h : SnapsOk t nins) (hst : s.Sublist t) : SnapsOk s nins where
  snap := fun x hx => h.snap x (hst.subset hx)
  refs := List.Pairwise.sublist hst h.refs
  refs_le := fun x hx => h.refs_le x (hst.subset hx)

theorem SnapsOk.mono {snaps : List ASnap} {nins nins' : ℕ} (h : SnapsOk snaps nins) (hle : nins ≤ nins') :
    SnapsOk snaps nins' := ⟨h.snap, h.refs, fun s hs => (h.refs_le s hs).trans hle⟩

theorem AInv.push {a a' : AState} {s : ASnap} (h : AInv a) (hloop : a.loop = none) (hs : SnapOk s) (href : s.ref = a.nins)
    (ha : a.push s = some a') : AInv a' := by
  rw [AState.push] at ha
  split_ifs at ha with hlen
  cases ha
  exact
    { toSnapsOk := h.toSnapsOk.push hs (fun t ht => href ▸ h.refs_le t ht) href.le
      nins := h.nins
      length := by rw [List.length_append, List.length_singleton]; exact hlen
      loop := fun C hC => absurd (hloop.symm.trans hC) nofun }

theorem length_dropLast_concat {l : List ASnap} (s : ASnap) (h : l ≠ []) : (l.dropLast ++ [s]).length = l.length := by
  have := List.length_pos_of_ne_nil h
  rw [List.length_append, List.length_dropLast, List.length_singleton]
  lia

theorem AInv.add {cfg : Target} {a a' : AState} {S : Stack} (h : AInv a) (hloop : a.loop = none)
    (ha : a.add cfg S = some a') : AInv a' := by
  rw [AState.add] at ha
  by_cases hlim : S.baseslot + S.maxslot ≤ maxJslots ∧ S.links.length = 1 + S.framedepth
  case neg => rw [if_neg hlim] at ha; cases ha
  rw [if_pos hlim] at ha
  cases hlast : a.snaps.getLast? with
  | none =>
    rw [hlast] at ha
    dsimp only at ha
    split_ifs at ha
    exact h.push hloop (snapOk_stack hlim.1) rfl ha
  | some last =>
    rw [hlast] at ha
    dsimp only at ha
    have hne : a.snaps ≠ [] := by
      rintro hnil
      rw [hnil] at hlast
      cases hlast
    by_cases hm : (if a.mergesnap then !a.guardemit else decide (last.ref = a.nins)) = true
    · rw [if_pos hm] at ha
      by_cases h1 : a.snaps.length = 1
      · rw [if_pos h1] at ha
        split_ifs at ha with hn
        have h' : AInv { a with nins := a.nins + 1 } :=
          { toSnapsOk := h.toSnapsOk.mono (Nat.le_succ _)
            nins := hn
            length := h.length
            loop := fun C hC => absurd (hloop.symm.trans hC) nofun }
        exact h'.push hloop (snapOk_stack hlim.1) rfl ha
      · rw [if_neg h1] at ha
        cases ha
        have hdrop := h.toSnapsOk.sublist (List.dropLast_sublist _)
        exact
          { toSnapsOk := hdrop.push (snapOk_stack hlim.1) (fun t ht => hdrop.refs_le t ht) le_rfl
            nins := h.nins
            length := by rw [length_dropLast_concat _ hne]; exact h.length
            loop := fun C hC => absurd (hloop.symm.trans hC) nofun }
    · rw [if_neg hm] at ha
      exact h.push hloop (snapOk_stack hlim.1) rfl ha

theorem AInv.shrink {a a' : AState} {baseslot maxslot : ℕ} {u : UseDef} (h : AInv a) (hloop : a.loop = none)
    (ha : a.shrink baseslot maxslot u = some a') : AInv a' := by
  rw [AState.shrink] at ha
  split_ifs at ha with hlim
  obtain ⟨last, hlast, rfl⟩ := Option.map_eq_some_iff.1 ha
  have hsplit := List.dropLast_append_getLast? last hlast
  have hmem : last ∈ a.snaps := List.mem_of_getLast? hlast
  have hrefs := h.refs
  rw [← hsplit, List.pairwise_append] at hrefs
  exact
    { toSnapsOk := (h.toSnapsOk.sublist (List.dropLast_sublist _)).push ((h.snap last hmem).shrink hlim u)
        (fun t ht => hrefs.2.2 t ht last List.mem_cons_self) (h.refs_le last hmem)
      nins := h.nins
      length := by rw [length_dropLast_concat _ (List.ne_nil_of_mem hmem)]; exact h.length
      loop := fun C hC => absurd (hloop.symm.trans hC) nofun }

theorem AInv.loopBegin {a a' : AState} (h : AInv a) (ha : a.loopBegin = some a') : AInv a' := by
  rw [AState.loopBegin.eq_def] at ha
  split at ha
  case h_2 => cases ha
  case h_1 first last hfirst hlast =>
    split_ifs at ha with hlim
    cases ha
    obtain ⟨htwo, href, hpc, hnins, hroom⟩ := hlim
    refine
      { toSnapsOk := h.toSnapsOk.mono (Nat.le_succ _)
        nins := hnins
        length := h.length
        loop := fun C hC => ?_ }
    cases hC
    exact
      { two := htwo
        recorded := le_rfl
        osnap := le_rfl
        osnap_lt := htwo
        copies := le_rfl
        fresh := nofun
        room := hroom
        last := by rw [← List.getLast?_eq_getElem?]; exact hlast
        lastref := href
        pc := ⟨first, by rw [← List.head?_eq_getElem?]; exact hfirst, hpc⟩
        size := by
          show (content a.snaps).length + ofs a.snaps 1 ≤ ofs a.snaps a.snaps.length + ofs a.snaps 1 + (1 - 1) * _
          rw [ofs_length]
          omega }

/-! ### Unrolling -/

theorem ofs_initial {s t : List ASnap} (h : s <+: t) {i : ℕ} (hi : i ≤ s.length) : ofs t i = ofs s i := by
  obtain ⟨r, rfl⟩ := h
  exact ofs_append hi

theorem length_content_prefix {s t : List ASnap} (h : s <+: t) : (content s).length ≤ (content t).length := by
  obtain ⟨r, rfl⟩ := h
  rw [content_append, List.length_append]
  exact Nat.le_add_right _ _

theorem AState.kept_prefix (a : AState) : a.kept <+: a.snaps := by
  rw [AState.kept]
  split_ifs
  · exact List.prefix_rfl
  · exact List.dropLast_prefix _

section
variable {a : AState} {C : ALoop}

/-- The recorded snapshots are not overwritten. -/
theorem LoopOk.recorded_kept (h : LoopOk a C) : C.onsnap ≤ a.kept.length := by
  rw [AState.kept]
  split_ifs with hg
  · exact h.recorded
  · have := h.fresh (by simpa using hg)
    rw [List.length_dropLast]
    lia

theorem LoopOk.kept_copies (h : LoopOk a C) : a.kept.length + 1 ≤ C.onsnap + C.osnap :=
  (Nat.add_le_add_right a.kept_prefix.length_le 1).trans h.copies

/-- A recorded snapshot is still there. -/
theorem LoopOk.kept_get (h : LoopOk a C) {i : ℕ} (hi : i < C.onsnap) (t : List ASnap) :
    (a.kept ++ t)[i]? = a.snaps[i]? := by
  have hlt := hi.trans_le h.recorded_kept
  rw [List.getElem?_append_left hlt]
  exact (List.prefix_iff_getElem?.1 a.kept_prefix i hlt).symm ▸ List.getElem?_eq_getElem hlt

theorem LoopOk.kept_ofs (h : LoopOk a C) {i : ℕ} (hi : i ≤ C.onsnap) (t : List ASnap) :
    ofs (a.kept ++ t) i = ofs a.snaps i := by
  have hle := hi.trans h.recorded_kept
  rw [ofs_append hle, ofs_initial a.kept_prefix hle]

/-- The loop snapshot is not copied: its instructions are those behind the loop. -/
theorem LoopOk.osnap_succ_lt (h : LoopOk a C) {ins : ℕ} {os : ASnap} (hos : a.snaps[C.osnap]? = some os)
    (hins : ins < C.invar) (href : os.ref ≤ ins) : C.osnap + 1 < C.onsnap := by
  have hlt := h.osnap_lt
  by_contra hge
  obtain hlast : C.osnap = C.onsnap - 1 := by lia
  rw [hlast, h.last] at hos
  have := h.lastref
  cases hos
  omega

/-- The next snapshot is copied. -/
theorem LoopOk.copy (h : LoopOk a C) {os : ASnap} {ins nins : ℕ} {subst : ℕ → ℕ} (hos : a.snaps[C.osnap]? = some os)
    (hins : ins < C.invar) (href : os.ref ≤ ins) (m : Bool) :
    LoopOk
      { snaps := a.kept ++ [os.copy C.last nins subst]
        nins := nins
        guardemit := false
        mergesnap := m
        loop := some { C with osnap := C.osnap + 1 } }
      { C with osnap := C.osnap + 1 } := by
  have hsucc := h.osnap_succ_lt hos hins href
  have hrec := h.recorded_kept
  have hcop := h.kept_copies
  have hosnap := h.osnap
  have hlen : (a.kept ++ [os.copy C.last nins subst]).length = a.kept.length + 1 := by
    rw [List.length_append, List.length_singleton]
  exact
    { two := h.two
      recorded := by rw [hlen]; show C.onsnap ≤ a.kept.length + 1; lia
      osnap := Nat.le_add_left 1 _
      osnap_lt := hsucc
      copies := by rw [hlen]; show a.kept.length + 1 + 1 ≤ C.onsnap + (C.osnap + 1); lia
      fresh := fun _ => by rw [hlen]; show C.onsnap < a.kept.length + 1; lia
      room := h.room
      last := by
        show (a.kept ++ _)[C.onsnap - 1]? = _
        rw [h.kept_get (by lia)]
        exact h.last
      lastref := h.lastref
      pc := by
        show ∃ first, (a.kept ++ _)[0]? = some first ∧ _
        rw [h.kept_get (by omega)]
        exact h.pc
      size := by
        show (content (a.kept ++ [os.copy C.last nins subst])).length + ofs (a.kept ++ _) 1 ≤
          ofs (a.kept ++ _) C.onsnap + ofs (a.kept ++ _) (C.osnap + 1) + (C.osnap + 1 - 1) * C.last.ents.length
        rw [h.kept_ofs le_rfl, h.kept_ofs (by omega), h.kept_ofs (by omega), content_append, List.length_append,
          content_singleton, ASnap.all, List.length_append]
        obtain ⟨hlt, hget⟩ := List.getElem?_eq_some_iff.1 hos
        rw [ofs_succ hlt, hget]
        have hmerge := length_mergeEnts_le subst os.nslots C.last.ents os.ents
        have hsize := h.size
        have hpre := length_content_prefix a.kept_prefix
        have hmul : (C.osnap + 1 - 1) * C.last.ents.length = (C.osnap - 1) * C.last.ents.length + C.last.ents.length := by
          rw [Nat.add_sub_cancel, ← Nat.succ_mul, Nat.succ_eq_add_one, Nat.sub_add_cancel hosnap]
        rw [hmul]
        show _ + ((mergeEnts subst os.nslots C.last.ents os.ents).length + os.links.length) + _ ≤ _
        lia }

end

theorem AInv.subst {a a' : AState} {C : ALoop} {ins : ℕ} {f : ℕ → ℕ} (h : AInv a) (hC : a.loop = some C)
    (ha : a.subst C ins f = some a') : AInv a' := by
  have hloop := h.loop C hC
  rw [AState.subst] at ha
  split_ifs at ha with hins
  obtain ⟨os, hos, ha⟩ := Option.bind_eq_some_iff.1 ha
  split_ifs at ha with href
  · cases ha
    have hkept := h.toSnapsOk.sublist a.kept_prefix.sublist
    have hcopy : SnapOk (os.copy C.last a.nins f) :=
      (h.snap os (List.mem_of_getElem? hos)).copy (h.snap C.last (List.mem_of_getElem? hloop.last)) _ _
    have hnew := @LoopOk.copy _ _ hloop _ _ a.nins f hos hins href a.mergesnap
    have hroom := hloop.room
    have hlt := hnew.osnap_lt
    have hcop := hnew.copies
    exact
      { toSnapsOk := hkept.push hcopy (fun t ht => hkept.refs_le t ht) le_rfl
        nins := h.nins
        length := by dsimp only at hcop hlt ⊢; lia
        loop := fun C' hC' => by cases hC'; exact hnew }
  · cases ha
    exact h

/-- **One operation keeps the invariant.** -/
theorem AInv.step {cfg : Target} {a a' : AState} {op : Op} (h : AInv a) (ha : astep cfg a op = some a') : AInv a' := by
  cases op with
  | emit n guard =>
    rw [astep.eq_def] at ha
    dsimp only at ha
    split_ifs at ha with hn
    cases ha
    exact
      { toSnapsOk := h.toSnapsOk.mono (Nat.le_add_right _ _)
        nins := hn
        length := h.length
        loop := fun C hC =>
          have hl := h.loop C hC
          { hl with fresh := fun hg => hl.fresh (Bool.or_eq_false_iff.1 hg).1 } }
  | mergesnap =>
    cases hloop : a.loop with
    | none =>
      rw [astep.eq_def, hloop] at ha
      cases ha
      exact
        { toSnapsOk := h.toSnapsOk
          nins := h.nins
          length := h.length
          loop := nofun }
    | some C => rw [astep.eq_def, hloop] at ha; cases ha
  | add S =>
    cases hloop : a.loop with
    | none => rw [astep.eq_def, hloop] at ha; exact h.add hloop ha
    | some C => rw [astep.eq_def, hloop] at ha; cases ha
  | shrink baseslot maxslot u =>
    cases hloop : a.loop with
    | none => rw [astep.eq_def, hloop] at ha; exact h.shrink hloop ha
    | some C => rw [astep.eq_def, hloop] at ha; cases ha
  | loopBegin =>
    cases hloop : a.loop with
    | none => rw [astep.eq_def, hloop] at ha; exact h.loopBegin ha
    | some C => rw [astep.eq_def, hloop] at ha; cases ha
  | subst ins f =>
    cases hloop : a.loop with
    | none => rw [astep.eq_def, hloop] at ha; cases ha
    | some C => rw [astep.eq_def, hloop] at ha; exact h.subst hloop ha
  | loopEnd =>
    cases hloop : a.loop with
    | none => rw [astep.eq_def, hloop] at ha; cases ha
    | some C =>
      rw [astep.eq_def, hloop] at ha
      cases ha
      exact
        { toSnapsOk := h.toSnapsOk.sublist a.kept_prefix.sublist
          nins := h.nins
          length := a.kept_prefix.length_le.trans h.length
          loop := nofun }

theorem astart_inv : AInv astart where
  snap := nofun
  refs := List.Pairwise.nil
  refs_le := nofun
  nins := by decide
  length := Nat.zero_le _
  loop := nofun

theorem foldlM_concat {σ α : Type} (f : σ → α → Option σ) (s : σ) (l : List α) (x : α) :
    (l ++ [x]).foldlM f s = (l.foldlM f s).bind fun s => f s x := by
  rw [List.foldlM_append]
  exact congrArg _ (funext fun s => bind_pure _)

/-- **The invariant holds throughout a run.** -/
theorem arun_inv {cfg : Target} {ops : List Op} {a : AState} (h : arun cfg ops = some a) : AInv a := by
  induction ops using List.reverseRecOn generalizing a with
  | nil => cases h; exact astart_inv
  | append_singleton ops op ih =>
    rw [arun, foldlM_concat] at h
    obtain ⟨a₁, h₁, hop⟩ := Option.bind_eq_some_iff.1 h
    exact (ih h₁).step hop

end Snap
