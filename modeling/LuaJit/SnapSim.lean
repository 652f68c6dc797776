/-
**Snapshot map bookkeeping.**

The buffers hold the list of snapshots as long as the map stays below `2 ^ 16` entries.  The numbers of
snapshots and of slots have limits, and so have the entries of one snapshot, but nothing bounds the map: its
length is cut to 16 bits, and the next snapshot overwrites the first ones.

Main definitions:

* `Snap.State.restored` — the buffers with the PC of the loop snapshot put back;
* `Snap.Sim` — the buffers hold the list of snapshots;
* `Snap.Exact` — the fields are the exact numbers, and the snapshots can be read back.

Main results:

* `Snap.step_sim`, `Snap.run_sim` — one operation and a run;
* `Snap.snap_exact_iff` — **the bookkeeping is exact throughout a run exactly if the map always fits**.
-/

import LuaJit.SnapRun

set_option relaxedAutoImplicit false
set_option autoImplicit false

namespace Snap

open Ir

/-! ### Growing -/

theorem growMap_eq (need : ℕ) (B : SnapBuf) :
    ∃ n, growMap need B = { B with sizesnapmap := n } ∧ need ≤ n ∧ B.sizesnapmap ≤ n := by
  rw [growMap]
  by_cases h : need ≤ B.sizesnapmap
  · rw [if_pos h]
    exact ⟨B.sizesnapmap, rfl, h, le_rfl⟩
  · rw [if_neg h]
    refine ⟨_, rfl, ?_, ?_⟩ <;> split_ifs <;> lia

theorem growBuf_eq {maxsnap need : ℕ} {B : SnapBuf} (hmax : need ≤ maxsnap)
    (hneed : need ≤ max (B.sizesnap + 1) (2 * B.sizesnap)) :
    ∃ n, growBuf maxsnap need B = some { B with sizesnap := n } ∧ need ≤ n ∧ B.sizesnap ≤ n := by
  rw [growBuf]
  by_cases h : need ≤ B.sizesnap
  · rw [if_pos h]
    exact ⟨B.sizesnap, rfl, h, le_rfl⟩
  · rw [if_neg h, if_neg (by omega)]
    exact ⟨_, rfl, by lia, by lia⟩

/-! ### The simulation -/

/-- The buffers with the PC of the loop snapshot put back. -/
def State.restored (st : State) : SnapBuf :=
  match st.loop with
  | none => st.buf
  | some C => { st.buf with map := Function.update st.buf.map C.psentinel (st.buf.map (st.buf.snap 0).nent) }

/-- What `loop_unroll` keeps is about the loop snapshot, and the estimate is enough for all copies. -/
structure LoopSim (B : SnapBuf) (snaps : List ASnap) (C : LoopCtx) (A : ALoop) : Prop where
  osnap : C.osnap = A.osnap
  loopmap : C.loopmap = ofs snaps (A.onsnap - 1)
  psentinel : C.psentinel = C.loopmap + A.last.ents.length
  sentinel : B.map C.psentinel = sentinel
  sizesnapmap : 2 * ofs snaps A.onsnap + (A.onsnap - 2) * A.last.ents.length ≤ B.sizesnapmap
  sizesnap : 2 * A.onsnap - 2 ≤ B.sizesnap

/-- Loop unrolling is in the same state. -/
inductive LoopsSim (B : SnapBuf) (snaps : List ASnap) : Option LoopCtx → Option ALoop → Prop
  | none : LoopsSim B snaps none none
  | some {C : LoopCtx} {A : ALoop} (h : LoopSim B snaps C A) : LoopsSim B snaps (some C) (some A)

/-- The buffers hold the list of snapshots. -/
structure Sim (st : State) (a : AState) : Prop where
  repr : Repr st.restored a.snaps
  sizesnap : st.buf.nsnap ≤ st.buf.sizesnap
  nins : st.buf.nins = a.nins
  guardemit : st.buf.guardemit = a.guardemit
  mergesnap : st.buf.mergesnap = a.mergesnap
  loop : LoopsSim st.buf a.snaps st.loop a.loop

/-- `snapshot_stack` behind other snapshots. -/
theorem snapshotStack_sim {cfg : Target} {S : Stack} {B : SnapBuf} {init : List ASnap} (h : Holds B init)
    (hnsnap : B.nsnap = init.length + 1) (hsize : B.nsnap ≤ B.sizesnap) (hnins : B.nins < 2 ^ 16)
    (hlim : S.baseslot + S.maxslot ≤ maxJslots) (hlinks : S.links.length = 1 + S.framedepth)
    (hfit : (content (init ++ [S.snap cfg B.nins])).length < 2 ^ 16) :
    Sim { buf := snapshotStack cfg S init.length (content init).length B, loop := none }
      { snaps := init ++ [S.snap cfg B.nins]
        nins := B.nins
        guardemit := B.guardemit
        mergesnap := B.mergesnap
        loop := none } := by
  have hjslots : maxJslots < 2 ^ 8 := by decide
  obtain ⟨n, hgrow, hn, -⟩ := growMap_eq ((content init).length + (S.baseslot + S.maxslot) + (S.framedepth + 1)) B
  have hents : (S.snap cfg B.nins).ents.length ≤ S.baseslot + S.maxslot :=
    (List.length_filterMap_le _ _).trans_eq List.length_range'
  have hlen : (content (init ++ [S.snap cfg B.nins])).length =
      (content init).length + (S.snap cfg B.nins).ents.length + S.links.length := by
    rw [content_append, List.length_append, content_singleton, ASnap.all, List.length_append, ← Nat.add_assoc]
    rfl
  have heq : snapshotStack cfg S init.length (content init).length B =
      { B with
        sizesnapmap := n
        map := write B.map (content init).length (S.snap cfg B.nins).all
        snap := Function.update B.snap init.length
          { mapofs := (content init).length, ref := B.nins, nslots := S.baseslot + S.maxslot
            topslot := S.frames.foldl Frame.ftop S.top % 2 ^ 8, nent := (S.snap cfg B.nins).ents.length, count := 0 }
        nsnapmap := (content (init ++ [S.snap cfg B.nins])).length } := by
    rw [snapshotStack, hgrow]
    dsimp only
    rw [snapshotSlots_eq]
    dsimp only [framelinks]
    rw [Nat.zero_add, Nat.add_zero, ← write_append, Nat.mod_eq_of_lt (by lia : (content init).length < 2 ^ 16),
      Nat.mod_eq_of_lt hnins, Nat.mod_eq_of_lt (hlim.trans_lt hjslots)]
    rw [hlen, hlinks]
    congr 1
    · congr 2
      exact Nat.mod_eq_of_lt ((hents.trans hlim).trans_lt hjslots)
    · show ((content init).length + (S.snap cfg B.nins).ents.length + 1 + S.framedepth) % 2 ^ 16 = _
      rw [Nat.mod_eq_of_lt (by lia)]
      lia
  rw [heq]
  refine ⟨⟨h.push rfl ⟨rfl, rfl, rfl, rfl⟩ (fun k hk => write_of_lt hk) (seg_write _ _ _), ?_, rfl, ?_⟩, hsize, rfl, rfl,
    rfl, .none⟩
  · rw [List.length_append, List.length_singleton]
    exact hnsnap
  · show (content (init ++ [S.snap cfg B.nins])).length ≤ n
    lia

/-- The last snapshot is behind the others. -/
theorem Repr.dropLast {B : SnapBuf} {snaps : List ASnap} (h : Repr B snaps) {last : ASnap}
    (hlast : snaps.getLast? = some last) :
    Holds B snaps.dropLast ∧ snaps.length = snaps.dropLast.length + 1 ∧
      Header (B.snap snaps.dropLast.length) (content snaps.dropLast).length last ∧
      Seg B.map (content snaps.dropLast).length last.all := by
  have hsplit := List.dropLast_append_getLast? last hlast
  have hh := h.toHolds
  rw [← hsplit] at hh
  have hlen : snaps.length = snaps.dropLast.length + 1 := by
    have := congrArg List.length hsplit
    rw [List.length_append, List.length_singleton] at this
    exact this.symm
  have hlt : snaps.dropLast.length < (snaps.dropLast ++ [last]).length := by
    rw [List.length_append, List.length_singleton]
    exact Nat.lt_succ_self _
  have hhdr := hh.header _ hlt
  rw [ofs_append le_rfl, ofs_length, List.getElem_concat_length rfl] at hhdr
  have hmap := hh.map
  rw [content_append, content_singleton, seg_append, Nat.zero_add] at hmap
  exact ⟨hh.init, hlen, hhdr, hmap.2⟩

section
variable {cfg : Target} {st : State} {a a' : AState}

theorem Sim.loop_none (h : Sim st a) (ha : a.loop = none) : st.loop = none := by
  have hl := h.loop
  rw [ha] at hl
  generalize st.loop = l at hl ⊢
  cases hl
  rfl

theorem Sim.repr_none (h : Sim st a) (ha : a.loop = none) : Repr st.buf a.snaps := by
  have hr := h.repr
  rw [State.restored, h.loop_none ha] at hr
  exact hr

/-- A snapshot is added. -/
theorem push_sim {S : Stack} {B : SnapBuf} (hB : Repr B a.snaps) (hsize : B.nsnap ≤ B.sizesnap) (hnins : B.nins = a.nins)
    (hlt : a.nins < 2 ^ 16) (hloop : a.loop = none) (hlim : S.baseslot + S.maxslot ≤ maxJslots)
    (hlinks : S.links.length = 1 + S.framedepth) (ha : a.push (S.snap cfg a.nins) = some a')
    (hfit : (content a'.snaps).length < 2 ^ 16) :
    ∃ B', growBuf paramMaxsnap (B.nsnap + 1) B = some B' ∧
      Sim { buf := snapshotStack cfg S B'.nsnap B'.nsnapmap
              { B' with nsnap := (B'.nsnap + 1) % 2 ^ 16, mergesnap := false, guardemit := false }
            loop := none } a' := by
  rw [AState.push] at ha
  split_ifs at ha with hlen
  cases ha
  have hmax : paramMaxsnap < 2 ^ 16 := by decide
  have hns := hB.nsnap
  obtain ⟨n, hgrow, hn, -⟩ := @growBuf_eq paramMaxsnap (B.nsnap + 1) B (by lia) (by lia)
  refine ⟨_, hgrow, ?_⟩
  have hsucc : (B.nsnap + 1) % 2 ^ 16 = a.snaps.length + 1 := by
    rw [hns]
    exact Nat.mod_eq_of_lt (by lia)
  dsimp only
  rw [hsucc, hB.nsnapmap, hns, ← hnins, hloop]
  rw [← hnins] at hfit hlt
  exact snapshotStack_sim (B := { B with
      sizesnap := n, nsnap := a.snaps.length + 1, nsnapmap := (content a.snaps).length, mergesnap := false
      guardemit := false })
    ⟨hB.header, hB.map⟩ rfl (by dsimp only; lia) hlt hlim hlinks hfit

/-- `lj_snap_add`. -/
theorem add_sim {S : Stack} (h : Sim st a) (hi : AInv a) (hloop : a.loop = none) (ha : a.add cfg S = some a')
    (hfit : (content a'.snaps).length < 2 ^ 16) :
    ∃ B, snapAdd cfg paramMaxsnap S st.buf = some B ∧ Sim { buf := B, loop := none } a' := by
  have hr := h.repr_none hloop
  rw [AState.add] at ha
  by_cases hlim : S.baseslot + S.maxslot ≤ maxJslots ∧ S.links.length = 1 + S.framedepth
  case neg => rw [if_neg hlim] at ha; cases ha
  rw [if_pos hlim] at ha
  rw [snapAdd]
  dsimp only
  cases hlast : a.snaps.getLast? with
  | none =>
    rw [hlast] at ha
    dsimp only at ha
    have hnil : a.snaps = [] := List.getLast?_eq_none_iff.1 hlast
    have hns : st.buf.nsnap = 0 := by rw [hr.nsnap, hnil]; rfl
    have hm : ¬(if st.buf.mergesnap then !st.buf.guardemit
        else decide (0 < st.buf.nsnap ∧ (st.buf.snap (st.buf.nsnap - 1)).ref = st.buf.nins)) = true := by
      rw [hns, h.mergesnap, h.guardemit]
      intro hm
      rw [if_pos (by simpa using hm)] at ha
      cases ha
    rw [if_neg hm]
    rw [if_neg (by
      intro hm'
      rw [if_pos hm'] at ha
      cases ha)] at ha
    obtain ⟨B, hgrow, hsim⟩ := push_sim hr h.sizesnap h.nins hi.nins hloop hlim.1 hlim.2 ha hfit
    rw [hgrow]
    exact ⟨_, rfl, hsim⟩
  | some last =>
    rw [hlast] at ha
    dsimp only at ha
    obtain ⟨hinit, hlen, hhdr, -⟩ := hr.dropLast hlast
    have hidx : st.buf.nsnap - 1 = a.snaps.dropLast.length := by rw [hr.nsnap, hlen, Nat.add_sub_cancel]
    have hm : (if st.buf.mergesnap then !st.buf.guardemit
        else decide (0 < st.buf.nsnap ∧ (st.buf.snap (st.buf.nsnap - 1)).ref = st.buf.nins)) =
        if a.mergesnap then !a.guardemit else decide (last.ref = a.nins) := by
      have hpos : 0 < st.buf.nsnap := by rw [hr.nsnap, hlen]; exact Nat.succ_pos _
      rw [h.mergesnap, h.guardemit, h.nins, hidx, hhdr.ref]
      simp only [hpos, true_and]
    rw [hm]
    by_cases hmerge : (if a.mergesnap then !a.guardemit else decide (last.ref = a.nins)) = true
    · rw [if_pos hmerge] at ha ⊢
      by_cases h1 : a.snaps.length = 1
      · rw [if_pos h1] at ha
        rw [if_pos (hr.nsnap.trans h1)]
        split_ifs at ha with hn
        obtain ⟨B, hgrow, hsim⟩ := push_sim (B := { st.buf with nins := st.buf.nins + 1 })
          (a := { a with nins := a.nins + 1 }) ⟨⟨hr.header, hr.map⟩, hr.nsnap, hr.nsnapmap, hr.inside⟩ h.sizesnap
          (congrArg (· + 1) h.nins) hn hloop hlim.1 hlim.2 ha hfit
        rw [hgrow]
        exact ⟨_, rfl, hsim⟩
      · rw [if_neg h1] at ha
        rw [if_neg (fun h' => h1 (hr.nsnap.symm.trans h'))]
        cases ha
        refine ⟨_, rfl, ?_⟩
        have hlt := hi.nins
        rw [← h.nins] at hfit hlt ⊢
        rw [hidx, hhdr.mapofs, hloop]
        exact snapshotStack_sim (B := { st.buf with mergesnap := false, guardemit := false }) ⟨hinit.header, hinit.map⟩
          (hr.nsnap.trans hlen) h.sizesnap hlt hlim.1 hlim.2 hfit
    · rw [if_neg hmerge] at ha ⊢
      obtain ⟨B, hgrow, hsim⟩ := push_sim hr h.sizesnap h.nins hi.nins hloop hlim.1 hlim.2 ha hfit
      rw [hgrow]
      exact ⟨_, rfl, hsim⟩

/-- `lj_snap_shrink`. -/
theorem shrink_sim {baseslot maxslot : ℕ} {u : UseDef} (h : Sim st a) (hi : AInv a) (hloop : a.loop = none)
    (ha : a.shrink baseslot maxslot u = some a') (hfit : (content a.snaps).length < 2 ^ 16) :
    Sim { buf := snapShrink baseslot maxslot u st.buf, loop := none } a' := by
  have hjslots : maxJslots < 2 ^ 8 := by decide
  have hr := h.repr_none hloop
  rw [AState.shrink] at ha
  split_ifs at ha with hlim
  obtain ⟨last, hlast, rfl⟩ := Option.map_eq_some_iff.1 ha
  obtain ⟨hinit, hlen, hhdr, hseg⟩ := hr.dropLast hlast
  obtain ⟨hents, hlinks⟩ := seg_append.1 hseg
  have hidx : st.buf.nsnap - 1 = a.snaps.dropLast.length := by rw [hr.nsnap, hlen, Nat.add_sub_cancel]
  have hcontent : st.buf.nsnapmap = (content a.snaps.dropLast).length + last.ents.length + last.links.length := by
    have hsplit := List.dropLast_append_getLast? last hlast
    rw [hr.nsnapmap, ← hsplit, List.dropLast_concat, content_append, content_singleton, ASnap.all, List.length_append,
      List.length_append, Nat.add_assoc]
  have hok := (hi.snap last (List.mem_of_getLast? hlast)).length_le
  have hfilter : (last.ents.filter (u.keeps baseslot maxslot)).length ≤ last.ents.length := List.length_filter_le _ _
  rw [snapShrink, hidx, hhdr.mapofs, hhdr.nent]
  dsimp only
  -- the entries that are kept
  obtain ⟨hm, hkeep, hrest⟩ := compact_eq (u.keeps baseslot maxslot) (content a.snaps.dropLast).length le_rfl
    (n := 0) (m := 0) hents
  generalize compact (u.keeps baseslot maxslot) (content a.snaps.dropLast).length last.ents.length 0 0 st.buf.map = r₁
    at hm hkeep hrest ⊢
  obtain ⟨m, map₁⟩ := r₁
  dsimp only at hm hkeep hrest ⊢
  rw [Nat.zero_add] at hm
  -- the PC and the frame links
  have hcnt : st.buf.nsnapmap - (content a.snaps.dropLast).length - last.ents.length = last.links.length := by lia
  have hlinks₁ : Seg map₁ ((content a.snaps.dropLast).length + last.ents.length) last.links :=
    hlinks.congr fun k hk _ => hrest k (by lia)
  obtain ⟨hm', hkeep', hrest'⟩ := compact_eq (fun _ => true) (content a.snaps.dropLast).length
    (show m ≤ last.ents.length by lia) hlinks₁
  rw [hcnt]
  generalize compact (fun _ => true) (content a.snaps.dropLast).length last.links.length last.ents.length m map₁ = r₂
    at hm' hkeep' hrest' ⊢
  obtain ⟨m', map₂⟩ := r₂
  dsimp only at hm' hkeep' hrest' ⊢
  rw [List.filter_true] at hm' hkeep'
  have hnew : (content (a.snaps.dropLast ++ [last.shrink baseslot maxslot u])).length =
      (content a.snaps.dropLast).length + m' := by
    rw [content_append, List.length_append, content_singleton, ASnap.all, List.length_append, hm', hm]
    rfl
  have hold := hr.nsnapmap
  rw [hloop]
  refine ⟨⟨hinit.push rfl ⟨rfl, hhdr.ref, ?_, ?_⟩ (fun k hk => ?_) (seg_append.2 ⟨?_, ?_⟩), ?_, ?_, ?_⟩, h.sizesnap,
    h.nins, h.guardemit, h.mergesnap, .none⟩
  · exact Nat.mod_eq_of_lt (hlim.trans_lt hjslots)
  · show m % 2 ^ 8 = _
    rw [Nat.mod_eq_of_lt (by lia)]
    exact hm
  · show map₂ k = st.buf.map k
    rw [hrest' k (by lia), hrest k (by lia)]
  · exact hkeep.congr fun k _ hk => hrest' k (.inl (by rw [hm]; exact hk))
  · show Seg map₂ (_ + (last.ents.filter (u.keeps baseslot maxslot)).length) last.links
    rw [← hm]
    exact hkeep'
  · show st.buf.nsnap = _
    rw [hr.nsnap, hlen, List.length_append, List.length_singleton]
  · show ((content a.snaps.dropLast).length + m') % 2 ^ 16 = _
    rw [hnew]
    exact Nat.mod_eq_of_lt (by lia)
  · show (content (a.snaps.dropLast ++ [last.shrink baseslot maxslot u])).length ≤ st.buf.sizesnapmap
    have := hr.inside
    lia

/-! ### Loop unrolling -/

/-- The PC of a snapshot is in the map behind its entries. -/
theorem Holds.pc {B : SnapBuf} {snaps : List ASnap} (h : Holds B snaps) {i : ℕ} {s : ASnap} (hs : snaps[i]? = some s)
    (hok : SnapOk s) : s.links.head? = some (B.map (ofs snaps i + s.ents.length)) := by
  obtain ⟨hi, rfl⟩ := List.getElem?_eq_some_iff.1 hs
  have hseg := (h.seg hi).2
  cases hl : snaps[i].links with
  | nil => exact absurd hl hok.links
  | cons pc links =>
    rw [hl, seg_cons] at hseg
    rw [hseg.1]
    rfl

/-- The PC of the loop snapshot is behind that of snapshot #0. -/
theorem pc_lt {snaps : List ASnap} {first : ASnap} (hfirst : snaps[0]? = some first) (hok : SnapOk first) {i : ℕ}
    (hi : 1 ≤ i) : first.ents.length < ofs snaps i := by
  obtain ⟨h0, rfl⟩ := List.getElem?_eq_some_iff.1 hfirst
  have hmono := ofs_mono snaps hi
  rw [show (1 : ℕ) = 0 + 1 from rfl, ofs_succ h0] at hmono
  have hpos := List.length_pos_of_ne_nil hok.links
  lia

theorem nextofs_eq {B : SnapBuf} {snaps : List ASnap} (h : Repr B snaps) {i : ℕ} (hi : i < snaps.length) :
    nextofs B i = ofs snaps (i + 1) := by
  rw [nextofs, h.nsnap]
  by_cases he : i + 1 = snaps.length
  · rw [if_pos he, he, ofs_length]
    exact h.nsnapmap
  · rw [if_neg he]
    exact (h.header (i + 1) (by lia)).mapofs

/-- The start of `loop_unroll`. -/
theorem loopBegin_sim (h : Sim st a) (hi : AInv a) (hloop : a.loop = none) (ha : a.loopBegin = some a') :
    ∃ C B, loopBegin paramMaxsnap st.buf = some (C, B) ∧ Sim { buf := B, loop := some C } a' := by
  have hr := h.repr_none hloop
  rw [AState.loopBegin.eq_def] at ha
  split at ha
  case h_2 => cases ha
  case h_1 first last hfirst hlast =>
    split_ifs at ha with hlim
    cases ha
    obtain ⟨htwo, -, hpc, -, hroom⟩ := hlim
    rw [List.head?_eq_getElem?] at hfirst
    rw [List.getLast?_eq_getElem?] at hlast
    obtain ⟨h0, hf⟩ := List.getElem?_eq_some_iff.1 hfirst
    obtain ⟨hn, hl⟩ := List.getElem?_eq_some_iff.1 hlast
    have hokf := hi.snap first (List.mem_of_getElem? hfirst)
    have hokl := hi.snap last (List.mem_of_getElem? hlast)
    have hhdr0 := hr.header 0 h0
    have hhdrl : Header (st.buf.snap (st.buf.nsnap - 1)) (ofs a.snaps (a.snaps.length - 1)) last := by
      rw [hr.nsnap, ← hl]
      exact hr.header _ hn
    rw [hf] at hhdr0
    have hlt := pc_lt hfirst hokf (show 1 ≤ a.snaps.length - 1 by lia)
    -- the same PC is in both places
    have hsame : st.buf.map first.ents.length = st.buf.map (ofs a.snaps (a.snaps.length - 1) + last.ents.length) := by
      have hpf := hr.pc hfirst hokf
      have hpl := hr.pc hlast hokl
      rw [← hpc, hpf, show ofs a.snaps 0 = 0 from rfl, Nat.zero_add] at hpl
      exact Option.some.inj hpl
    have hsize := h.sizesnap
    rw [hr.nsnap] at hsize
    obtain ⟨n, hgrow, hn1, hn2⟩ := @growBuf_eq paramMaxsnap (2 * st.buf.nsnap - 2)
      { st.buf with nins := st.buf.nins + 1, guardemit := true } (by rw [hr.nsnap]; exact hroom)
      (by rw [hr.nsnap]; dsimp only; lia)
    obtain ⟨m, hgrowm, hm1, hm2⟩ := growMap_eq (st.buf.nsnapmap * 2 + (st.buf.nsnap - 2) * last.ents.length)
      { st.buf with nins := st.buf.nins + 1, guardemit := true, sizesnap := n }
    rw [loopBegin]
    dsimp only
    rw [hgrow]
    dsimp only [Option.map_some]
    rw [hhdrl.nent, hhdrl.mapofs, hgrowm]
    rw [hr.nsnap] at hn1 hm1
    refine ⟨_, _, rfl, ?_⟩
    have hrestored : State.restored
        { buf := { st.buf with
            nins := st.buf.nins + 1, guardemit := true, sizesnap := n, sizesnapmap := m
            map := Function.update st.buf.map (ofs a.snaps (a.snaps.length - 1) + last.ents.length) sentinel }
          loop := some { invar := st.buf.nins, onsnap := st.buf.nsnap, loopmap := ofs a.snaps (a.snaps.length - 1)
                         psentinel := ofs a.snaps (a.snaps.length - 1) + last.ents.length, osnap := 1 } } =
        { st.buf with nins := st.buf.nins + 1, guardemit := true, sizesnap := n, sizesnapmap := m } := by
      rw [State.restored]
      dsimp only
      rw [hhdr0.nent, Function.update_idem, Function.update_of_ne (by lia), hsame, Function.update_eq_self]
    refine ⟨?_, ?_, ?_, rfl, h.mergesnap, .some ⟨rfl, rfl, rfl, Function.update_self _ _ _, ?_, hn1⟩⟩
    · have hrepr : Repr { st.buf with nins := st.buf.nins + 1, guardemit := true, sizesnap := n, sizesnapmap := m }
          a.snaps := ⟨⟨hr.header, hr.map⟩, hr.nsnap, hr.nsnapmap, hr.inside.trans hm2⟩
      rw [← hrestored] at hrepr
      exact hrepr
    · show st.buf.nsnap ≤ n
      rw [hr.nsnap]
      exact hsize.trans hn2
    · exact congrArg (· + 1) h.nins
    · show 2 * ofs a.snaps a.snaps.length + (a.snaps.length - 2) * last.ents.length ≤ m
      rw [ofs_length, ← hr.nsnapmap]
      lia

theorem Sim.loop_some (h : Sim st a) {A : ALoop} (ha : a.loop = some A) :
    ∃ C, st.loop = some C ∧ LoopSim st.buf a.snaps C A := by
  have hl := h.loop
  rw [ha] at hl
  generalize st.loop = l at hl ⊢
  cases hl with
  | some hl => exact ⟨_, rfl, hl⟩

@[simp] theorem State.restored_none (B : SnapBuf) : State.restored { buf := B, loop := none } = B := rfl

@[simp] theorem State.restored_some (B : SnapBuf) (C : LoopCtx) :
    State.restored { buf := B, loop := some C } =
      { B with map := Function.update B.map C.psentinel (B.map (B.snap 0).nent) } := rfl

/-- Where the next copy goes: behind the snapshots that are kept. -/
theorem kept_repr {B : SnapBuf} (h : Repr B a.snaps) (hne : a.snaps ≠ []) :
    Holds B a.kept ∧ (if a.guardemit then B.nsnap else B.nsnap - 1) = a.kept.length ∧
      (if a.guardemit then B.nsnap + 1 else B.nsnap) = a.kept.length + 1 ∧
      (if a.guardemit then B.nsnapmap else (B.snap (B.nsnap - 1)).mapofs) = (content a.kept).length := by
  rw [AState.kept]
  by_cases hg : a.guardemit = true
  · simp only [if_pos hg]
    exact ⟨h.toHolds, h.nsnap, congrArg (· + 1) h.nsnap, h.nsnapmap⟩
  · simp only [if_neg hg]
    obtain ⟨last, hlast⟩ : ∃ last, a.snaps.getLast? = some last := ⟨_, List.getLast?_eq_some_getLast hne⟩
    obtain ⟨hinit, hlen, hhdr, -⟩ := h.dropLast hlast
    have hidx : B.nsnap - 1 = a.snaps.dropLast.length := by rw [h.nsnap, hlen, Nat.add_sub_cancel]
    exact ⟨hinit, hidx, h.nsnap.trans hlen, by rw [hidx]; exact hhdr.mapofs⟩

/-- The offsets that `loop_subst_snap` uses. -/
theorem LoopSim.bounds {C : LoopCtx} {A : ALoop} (hA : LoopOk a A) (hC : LoopSim st.buf a.snaps C A)
    (hlast : SnapOk A.last) : C.psentinel + 1 ≤ ofs a.snaps A.onsnap ∧
      ofs a.snaps A.onsnap ≤ (content a.kept).length := by
  have htwo := hA.two
  have hrec := hA.recorded_kept
  obtain ⟨hlt, hget⟩ := List.getElem?_eq_some_iff.1 hA.last
  refine ⟨?_, ?_⟩
  · have hsucc := ofs_succ hlt
    rw [hget, Nat.sub_add_cancel (by omega : 1 ≤ A.onsnap)] at hsucc
    have hpos := List.length_pos_of_ne_nil hlast.links
    rw [hC.psentinel, hC.loopmap, hsucc]
    omega
  · rw [ofs_initial a.kept_prefix hrec, ← ofs_length]
    exact ofs_mono _ hrec

/-- **A copy** goes behind the snapshots that are kept. -/
theorem loopSubstSnap_sim {A : ALoop} {C : LoopCtx} {os : ASnap} {ins : ℕ} {f : ℕ → ℕ} (h : Sim st a) (hi : AInv a)
    (hloop : a.loop = some A) (hst : st.loop = some C) (hC : LoopSim st.buf a.snaps C A)
    (hos : a.snaps[A.osnap]? = some os) (hins : ins < A.invar) (href : os.ref ≤ ins)
    (hfit : (content (a.kept ++ [os.copy A.last a.nins f])).length < 2 ^ 16) :
    ∃ B, loopSubstSnap f C.osnap C.loopmap st.buf = some B ∧
      Sim { buf := B, loop := some { C with osnap := C.osnap + 1 } }
        { a with
          snaps := a.kept ++ [os.copy A.last a.nins f]
          guardemit := false
          loop := some { A with osnap := A.osnap + 1 } } := by
  have hjslots : maxJslots = 250 := rfl
  have hA := hi.loop A hloop
  have hnew := @LoopOk.copy _ _ hA _ _ a.nins f hos hins href a.mergesnap
  have hsucc : A.osnap + 1 < A.onsnap := hnew.osnap_lt
  have hokos := hi.snap os (List.mem_of_getElem? hos)
  have hoklast := hi.snap A.last (List.mem_of_getElem? hA.last)
  have hokcopy := hokos.copy hoklast a.nins f
  obtain ⟨hoslt, hosget⟩ := List.getElem?_eq_some_iff.1 hos
  have hnins := hi.nins
  have hkeptlen : (a.kept ++ [os.copy A.last a.nins f]).length = a.kept.length + 1 := by
    rw [List.length_append, List.length_singleton]
  have hcount : a.kept.length + 2 ≤ A.onsnap + (A.osnap + 1) := by
    have hcop := hnew.copies
    dsimp only at hcop
    rwa [hkeptlen] at hcop
  have hcount16 : a.kept.length + 1 < 2 ^ 16 := by
    have hroom : 2 * A.onsnap - 2 ≤ paramMaxsnap := hnew.room
    have hmax : paramMaxsnap < 2 ^ 16 := by decide
    lia
  -- the offsets
  obtain ⟨hps, hkept⟩ := hC.bounds hA hoklast
  obtain ⟨first, hfirst, -⟩ := hA.pc
  have hpc := pc_lt hfirst (hi.snap first (List.mem_of_getElem? hfirst)) (show 1 ≤ A.onsnap - 1 by lia)
  have hosofs : ofs a.snaps A.osnap + os.ents.length + os.links.length ≤ ofs a.snaps (A.onsnap - 1) := by
    have hs := ofs_succ hoslt
    rw [hosget] at hs
    rw [← hs]
    exact ofs_mono _ (Nat.le_sub_one_of_lt hsucc)
  have hmid : ofs a.snaps (A.onsnap - 1) ≤ (content a.kept).length := (ofs_mono _ (Nat.sub_le _ _)).trans hkept
  have hps' : C.psentinel < (content a.kept).length := hps.trans hkept
  have hloopmap := hC.loopmap
  have hpsent := hC.psentinel
  -- the buffers with the PC
  have hr := h.repr
  have hrestored : st.restored =
      { st.buf with map := Function.update st.buf.map C.psentinel (st.buf.map (st.buf.snap 0).nent) } := by
    rw [State.restored, hst]
  rw [hrestored] at hr
  have hhdr0 := hr.header 0 (by lia)
  rw [(List.getElem?_eq_some_iff.1 hfirst).2] at hhdr0
  have hhdr := hr.header _ hoslt
  rw [hosget] at hhdr
  have hread : ∀ k, k ≠ C.psentinel → st.buf.map k =
      Function.update st.buf.map C.psentinel (st.buf.map (st.buf.snap 0).nent) k :=
    fun k hk => (Function.update_of_ne hk _ _).symm
  -- what is read
  obtain ⟨hosents, hoslinks⟩ := hr.seg hoslt
  rw [hosget] at hosents hoslinks
  obtain ⟨hlastents, -⟩ := hr.seg (List.getElem?_eq_some_iff.1 hA.last).1
  rw [(List.getElem?_eq_some_iff.1 hA.last).2] at hlastents
  have hosents' : Seg st.buf.map (ofs a.snaps A.osnap) os.ents :=
    hosents.congr fun k _ hk => hread k (by lia)
  have hoslinks' : Seg st.buf.map (ofs a.snaps A.osnap + os.ents.length) os.links :=
    hoslinks.congr fun k _ hk => hread k (by lia)
  have hls : Seg st.buf.map (C.loopmap + 0) (A.last.ents ++ [sentinel]) := by
    rw [Nat.add_zero, hloopmap, seg_append]
    refine ⟨hlastents.congr fun k _ hk => hread k (by lia), seg_cons.2 ⟨?_, Seg.nil _ _⟩⟩
    rw [← hloopmap, ← hpsent]
    exact hC.sentinel
  -- what is written
  obtain ⟨hholds, hidx, hns, hofs⟩ := kept_repr hr (List.ne_nil_of_mem (List.mem_of_getElem? hos))
  have hmergelen := length_mergeEnts_le f os.nslots A.last.ents os.ents
  have hl1 := hoklast.length_le
  have hl2 := hokos.length_le
  have hmerge := @substMerge_eq f (ofs a.snaps A.osnap) os.ents.length C.loopmap (content a.kept).length os.nslots
    (show os.nslots < 255 by have := hokos.nslots; lia) _ _ (2 ^ 9) 0 0 0 _ hls hosents' (Nat.zero_add _)
    (fun o ho => (hokos.bound o ho).trans (by decide)) (hpsent ▸ hps' : C.loopmap + A.last.ents.length < _)
    ((Nat.le_add_right _ _).trans (hosofs.trans hmid)) (hmergelen.trans_lt (by lia))
  rw [Nat.zero_add, Nat.add_zero] at hmerge
  have hcopy : copy (ofs a.snaps A.osnap + os.ents.length)
      ((content a.kept).length + (mergeEnts f os.nslots A.last.ents os.ents).length) os.links.length
      (write st.buf.map (content a.kept).length (mergeEnts f os.nslots A.last.ents os.ents)) =
      write st.buf.map (content a.kept).length (os.copy A.last a.nins f).all := by
    rw [copy_eq (hoslinks'.congr fun k _ hk => write_of_lt (hk.trans_le (hosofs.trans hmid)))
      ((hosofs.trans hmid).trans (Nat.le_add_right _ _)), ← write_append]
    rfl
  have hcnt : nextofs st.buf A.osnap - (ofs a.snaps A.osnap + os.ents.length) = os.links.length := by
    have hn := nextofs_eq hr hoslt
    rw [ofs_succ hoslt, hosget] at hn
    have hn' : nextofs st.buf A.osnap = ofs a.snaps A.osnap + os.ents.length + os.links.length := hn
    rw [hn', Nat.add_sub_cancel_left]
  have hlen : (content (a.kept ++ [os.copy A.last a.nins f])).length = (content a.kept).length +
      (mergeEnts f os.nslots A.last.ents os.ents).length + os.links.length := by
    rw [content_append, List.length_append, content_singleton, ASnap.all, List.length_append, ← Nat.add_assoc]
    rfl
  have hlen16 : (content a.kept).length < 2 ^ 16 := by
    refine lt_of_le_of_lt ?_ hfit
    rw [hlen, Nat.add_assoc]
    exact Nat.le_add_right _ _
  have hsub : loopSubstSnap f C.osnap C.loopmap st.buf = some
      { st.buf with
        guardemit := false
        nsnap := a.kept.length + 1
        map := write st.buf.map (content a.kept).length (os.copy A.last a.nins f).all
        snap := Function.update st.buf.snap a.kept.length
          { mapofs := (content a.kept).length, ref := a.nins, nslots := os.nslots
            topslot := (st.buf.snap A.osnap).topslot, nent := (mergeEnts f os.nslots A.last.ents os.ents).length
            count := 0 }
        nsnapmap := (content (a.kept ++ [os.copy A.last a.nins f])).length } := by
    have hns' : (if a.guardemit then (st.buf.nsnap + 1) % 2 ^ 16 else st.buf.nsnap) = a.kept.length + 1 := by
      dsimp only at hns
      split_ifs at hns ⊢
      · rw [hns]
        exact Nat.mod_eq_of_lt hcount16
      · exact hns
    have hidx' : (if a.guardemit then st.buf.nsnap else st.buf.nsnap - 1) = a.kept.length := hidx
    have hofs' : (if a.guardemit then st.buf.nsnapmap else (st.buf.snap (st.buf.nsnap - 1)).mapofs) =
        (content a.kept).length := hofs
    have hmapofs : (st.buf.snap A.osnap).mapofs = ofs a.snaps A.osnap := hhdr.mapofs
    have hnent : (st.buf.snap A.osnap).nent = os.ents.length := hhdr.nent
    have hnslots : (st.buf.snap A.osnap).nslots = os.nslots := hhdr.nslots
    rw [loopSubstSnap, hC.osnap]
    dsimp only
    rw [h.guardemit, hns', hidx', hofs', hmapofs, hnent, hnslots, hmerge]
    dsimp only [Option.map_some]
    have hnn : (mergeEnts f os.nslots A.last.ents os.ents).length < 2 ^ 8 := hokcopy.length_le.trans_lt (by decide)
    rw [hcnt, hcopy, h.nins, Nat.mod_eq_of_lt hnins, Nat.mod_eq_of_lt hlen16, Nat.mod_eq_of_lt hnn, ← hlen, Nat.mod_eq_of_lt hfit]
  refine ⟨_, hsub, ?_⟩
  refine ⟨⟨?_, ?_, rfl, ?_⟩, ?_, h.nins, rfl, h.mergesnap, .some ⟨?_, ?_, ?_, ?_, ?_, ?_⟩⟩
  · refine Holds.push hholds rfl ⟨rfl, rfl, rfl, rfl⟩ (fun k hk => ?_)
      ((seg_write _ _ _).congr fun k hk _ => Function.update_of_ne (hps'.trans_le hk).ne' _ _)
    have hfirstlen : (st.buf.snap 0).nent = first.ents.length := hhdr0.nent
    have hrec := hA.recorded_kept
    rw [State.restored_some]
    dsimp only
    have hpos : 0 < a.kept.length := (Nat.zero_lt_of_lt hsucc).trans_le hrec
    have hlt : (st.buf.snap 0).nent < (content a.kept).length := by
      rw [hfirstlen]
      exact hpc.trans_le hmid
    rw [Function.update_of_ne hpos.ne, write_of_lt hlt]
    by_cases hk' : k = C.psentinel
    · rw [hk', Function.update_self, Function.update_self]
    · rw [Function.update_of_ne hk', Function.update_of_ne hk', write_of_lt hk]
  · exact hkeptlen.symm
  · show (content (a.kept ++ [os.copy A.last a.nins f])).length ≤ st.buf.sizesnapmap
    have hmono : ofs a.snaps (A.osnap + 1) ≤ ofs a.snaps A.onsnap := ofs_mono _ hsucc.le
    have hmul : (A.osnap + 1 - 1) * A.last.ents.length ≤ (A.onsnap - 2) * A.last.ents.length :=
      Nat.mul_le_mul_right _ (by lia)
    have hest := hC.sizesnapmap
    have hnewinv := hnew.size
    dsimp only at hnewinv
    rw [hA.kept_ofs (by lia), hA.kept_ofs le_rfl, hA.kept_ofs hsucc.le] at hnewinv
    lia
  · show a.kept.length + 1 ≤ st.buf.sizesnap
    have := hC.sizesnap
    lia
  · exact congrArg (· + 1) hC.osnap
  · exact hloopmap.trans (hA.kept_ofs (by lia) _).symm
  · exact hC.psentinel
  · exact (write_of_lt hps').trans hC.sentinel
  · show 2 * ofs (a.kept ++ [os.copy A.last a.nins f]) A.onsnap + _ ≤ _
    rw [hA.kept_ofs le_rfl]
    exact hC.sizesnapmap
  · exact hC.sizesnap

/-- `loop_unroll` at an instruction. -/
theorem subst_sim {A : ALoop} {ins maxsnap : ℕ} {f : ℕ → ℕ} (h : Sim st a) (hi : AInv a) (hloop : a.loop = some A)
    (ha : a.subst A ins f = some a') (hfit : (content a'.snaps).length < 2 ^ 16) :
    ∃ st', step cfg maxsnap st (.subst ins f) = some st' ∧ Sim st' a' := by
  obtain ⟨C, hst, hC⟩ := h.loop_some hloop
  rw [AState.subst] at ha
  split_ifs at ha with hins
  obtain ⟨os, hos, ha⟩ := Option.bind_eq_some_iff.1 ha
  have href : (st.buf.snap C.osnap).ref = os.ref := by
    have hr := h.repr
    rw [State.restored, hst] at hr
    obtain ⟨hlt, hget⟩ := List.getElem?_eq_some_iff.1 hos
    have hhdr := (hr.header _ hlt).ref
    rw [hget] at hhdr
    rw [hC.osnap]
    exact hhdr
  rw [step.eq_def, hst]
  dsimp only
  rw [href]
  by_cases hle : os.ref ≤ ins
  · rw [if_pos hle] at ha ⊢
    cases ha
    obtain ⟨B, hB, hsim⟩ := loopSubstSnap_sim h hi hloop hst hC hos hins hle hfit
    rw [hB]
    exact ⟨_, rfl, hsim⟩
  · rw [if_neg hle] at ha ⊢
    cases ha
    exact ⟨_, rfl, h⟩

/-- The end of `loop_unroll`. -/
theorem loopEnd_sim {A : ALoop} (h : Sim st a) (hi : AInv a) (hloop : a.loop = some A)
    (hfit : (content a.snaps).length < 2 ^ 16) :
    ∃ C, st.loop = some C ∧ Sim { buf := loopEnd C st.buf, loop := none } { a with snaps := a.kept, loop := none } := by
  obtain ⟨C, hst, hC⟩ := h.loop_some hloop
  refine ⟨C, hst, ?_⟩
  have hA := hi.loop A hloop
  have hr := h.repr
  rw [State.restored, hst] at hr
  have htwo := hA.two
  have hrec := hA.recorded
  obtain ⟨hholds, hidx, -, hofs⟩ := kept_repr hr (List.ne_nil_of_length_pos (by omega))
  have hpre := length_content_prefix a.kept_prefix
  have hinside := hr.inside
  rw [loopEnd]
  by_cases hg : a.guardemit = true
  · rw [if_pos hg] at hidx hofs
    rw [if_pos (h.guardemit.trans hg)]
    exact ⟨⟨hholds, hidx, hofs, hpre.trans hinside⟩, h.sizesnap, h.nins, h.guardemit, h.mergesnap, .none⟩
  · rw [if_neg hg] at hidx hofs
    rw [if_neg (fun h' => hg (h.guardemit.symm.trans h'))]
    refine ⟨⟨⟨hholds.header, hholds.map⟩, hidx, ?_, hpre.trans hinside⟩, ?_, h.nins, h.guardemit, h.mergesnap, .none⟩
    · show (st.buf.snap (st.buf.nsnap - 1)).mapofs % 2 ^ 16 = _
      rw [Nat.mod_eq_of_lt]
      · exact hofs
      · exact hofs.trans_lt (hpre.trans_lt hfit)
    · exact (Nat.sub_le _ _).trans h.sizesnap

/-- **One operation**, if the map fits before and after it. -/
theorem step_sim {op : Op} (h : Sim st a) (hi : AInv a) (ha : astep cfg a op = some a')
    (hfit : (content a.snaps).length < 2 ^ 16) (hfit' : (content a'.snaps).length < 2 ^ 16) :
    ∃ st', step cfg paramMaxsnap st op = some st' ∧ Sim st' a' := by
  cases op with
  | emit n guard =>
    rw [astep.eq_def] at ha
    dsimp only at ha
    split_ifs at ha
    cases ha
    refine ⟨_, rfl, ?_, h.sizesnap, congrArg (· + n) h.nins, congrArg (· || guard) h.guardemit, h.mergesnap, ?_⟩
    · have hr := h.repr
      rw [State.restored.eq_def] at hr ⊢
      cases hst : st.loop with
      | none => rw [hst] at hr; exact ⟨⟨hr.header, hr.map⟩, hr.nsnap, hr.nsnapmap, hr.inside⟩
      | some C => rw [hst] at hr; exact ⟨⟨hr.header, hr.map⟩, hr.nsnap, hr.nsnapmap, hr.inside⟩
    · have hl := h.loop
      show LoopsSim _ _ st.loop a.loop
      generalize st.loop = l, a.loop = l' at hl
      cases hl with
      | none => exact .none
      | some hC => exact .some { hC with }
  | mergesnap =>
    cases hloop : a.loop with
    | none =>
      rw [astep.eq_def, hloop] at ha
      cases ha
      have hst := h.loop_none hloop
      have hr := h.repr_none hloop
      rw [step.eq_def, hst]
      exact ⟨_, rfl, ⟨⟨hr.header, hr.map⟩, hr.nsnap, hr.nsnapmap, hr.inside⟩, h.sizesnap, h.nins, h.guardemit, rfl, .none⟩
    | some C => rw [astep.eq_def, hloop] at ha; cases ha
  | add S =>
    cases hloop : a.loop with
    | none =>
      rw [astep.eq_def, hloop] at ha
      obtain ⟨B, hB, hsim⟩ := add_sim h hi hloop ha hfit'
      rw [step.eq_def, h.loop_none hloop]
      dsimp only
      rw [hB]
      exact ⟨_, rfl, hsim⟩
    | some C => rw [astep.eq_def, hloop] at ha; cases ha
  | shrink baseslot maxslot u =>
    cases hloop : a.loop with
    | none =>
      rw [astep.eq_def, hloop] at ha
      rw [step.eq_def, h.loop_none hloop]
      exact ⟨_, rfl, shrink_sim h hi hloop ha hfit⟩
    | some C => rw [astep.eq_def, hloop] at ha; cases ha
  | loopBegin =>
    cases hloop : a.loop with
    | none =>
      rw [astep.eq_def, hloop] at ha
      obtain ⟨C, B, hB, hsim⟩ := loopBegin_sim h hi hloop ha
      rw [step.eq_def, h.loop_none hloop]
      dsimp only
      rw [hB]
      exact ⟨_, rfl, hsim⟩
    | some C => rw [astep.eq_def, hloop] at ha; cases ha
  | subst ins f =>
    cases hloop : a.loop with
    | none => rw [astep.eq_def, hloop] at ha; cases ha
    | some A => rw [astep.eq_def, hloop] at ha; exact subst_sim h hi hloop ha hfit'
  | loopEnd =>
    cases hloop : a.loop with
    | none => rw [astep.eq_def, hloop] at ha; cases ha
    | some A =>
      rw [astep.eq_def, hloop] at ha
      cases ha
      obtain ⟨C, hst, hsim⟩ := loopEnd_sim h hi hloop hfit
      rw [step.eq_def, hst]
      exact ⟨_, rfl, hsim⟩

end

/-! ### Runs -/

/-- Buffers without snapshots. -/
theorem start_sim (B : SnapBuf) : Sim (start B) astart where
  repr := ⟨⟨nofun, Seg.nil _ _⟩, rfl, rfl, Nat.zero_le _⟩
  sizesnap := Nat.zero_le _
  nins := rfl
  guardemit := rfl
  mergesnap := rfl
  loop := .none

/-- The map fits after every operation. -/
def Fits (cfg : Target) (ops : List Op) : Prop :=
  ∀ p, p <+: ops → ∀ a, arun cfg p = some a → (content a.snaps).length < 2 ^ 16

/-- **A run**, if the map fits after every operation. -/
theorem run_sim {cfg : Target} (B : SnapBuf) {ops : List Op} {a : AState} (ha : arun cfg ops = some a)
    (hfit : Fits cfg ops) : ∃ st, run cfg paramMaxsnap B ops = some st ∧ Sim st a := by
  induction ops using List.reverseRecOn generalizing a with
  | nil => cases ha; exact ⟨_, rfl, start_sim B⟩
  | append_singleton ops op ih =>
    have hfit₁ : Fits cfg ops := fun p hp => hfit p (hp.trans (List.prefix_append _ _))
    have hlast := hfit _ List.prefix_rfl a ha
    rw [arun, foldlM_concat] at ha
    obtain ⟨a₁, ha₁, hop⟩ := Option.bind_eq_some_iff.1 ha
    obtain ⟨st₁, hst₁, hsim₁⟩ := ih ha₁ hfit₁
    obtain ⟨st, hst, hsim⟩ := step_sim hsim₁ (arun_inv ha₁) hop (hfit₁ _ List.prefix_rfl _ ha₁) hlast
    refine ⟨st, ?_, hsim⟩
    rw [run] at hst₁ ⊢
    rw [foldlM_concat, hst₁]
    exact hst

theorem snapStack_nsnapmap_lt (cfg : Target) (S : Stack) (idx p : ℕ) (B : SnapBuf) :
    (snapshotStack cfg S idx p B).nsnapmap < 2 ^ 16 := Nat.mod_lt _ (by decide)

theorem snapAdd_nsnapmap_lt {cfg : Target} {maxsnap : ℕ} {S : Stack} {B B' : SnapBuf}
    (h : snapAdd cfg maxsnap S B = some B') : B'.nsnapmap < 2 ^ 16 := by
  rw [snapAdd] at h
  dsimp only at h
  generalize (if B.mergesnap then !B.guardemit
    else decide (0 < B.nsnap ∧ (B.snap (B.nsnap - 1)).ref = B.nins)) = merge at h
  split at h
  · split at h
    · obtain ⟨B₁, -, rfl⟩ := Option.map_eq_some_iff.1 h
      exact snapStack_nsnapmap_lt _ _ _ _ _
    · cases h
      exact snapStack_nsnapmap_lt _ _ _ _ _
  · obtain ⟨B₁, -, rfl⟩ := Option.map_eq_some_iff.1 h
    exact snapStack_nsnapmap_lt _ _ _ _ _

theorem loopBegin_nsnapmap {maxsnap : ℕ} {B B' : SnapBuf} {C : LoopCtx} (h : loopBegin maxsnap B = some (C, B')) :
    B'.nsnapmap = B.nsnapmap := by
  rw [loopBegin] at h
  obtain ⟨B₁, hB₁, heq⟩ := Option.map_eq_some_iff.1 h
  cases heq
  dsimp only
  obtain ⟨n, hgrow, -⟩ := growMap_eq (B₁.nsnapmap * 2 + (B.nsnap - 2) * (B₁.snap (B.nsnap - 1)).nent) B₁
  rw [hgrow]
  rw [growBuf] at hB₁
  split_ifs at hB₁ <;> cases hB₁ <;> rfl

/-- The length of the map in the buffers has 16 bits. -/
theorem step_nsnapmap_lt {cfg : Target} {maxsnap : ℕ} {st st' : State} {op : Op} (h : st.buf.nsnapmap < 2 ^ 16)
    (hs : step cfg maxsnap st op = some st') : st'.buf.nsnapmap < 2 ^ 16 := by
  rw [step.eq_def] at hs
  split at hs
  case h_1 => cases hs; exact h
  case h_2 => cases hs; exact h
  case h_3 =>
    obtain ⟨B, hB, rfl⟩ := Option.map_eq_some_iff.1 hs
    exact snapAdd_nsnapmap_lt hB
  case h_4 => cases hs; exact Nat.mod_lt _ (by decide)
  case h_5 =>
    obtain ⟨⟨C, B⟩, hB, rfl⟩ := Option.map_eq_some_iff.1 hs
    exact (loopBegin_nsnapmap hB).trans_lt h
  case h_6 ins f C hC =>
    split_ifs at hs
    · obtain ⟨B, hB, rfl⟩ := Option.map_eq_some_iff.1 hs
      obtain ⟨r, -, rfl⟩ := Option.map_eq_some_iff.1 hB
      exact Nat.mod_lt _ (by decide)
    · cases hs
      exact h
  case h_7 C hC =>
    cases hs
    rw [loopEnd]
    dsimp only
    split_ifs
    · exact h
    · exact Nat.mod_lt _ (by decide)
  case h_8 => cases hs

theorem run_nsnapmap_lt {cfg : Target} {maxsnap : ℕ} {B : SnapBuf} {ops : List Op} {st : State}
    (h : run cfg maxsnap B ops = some st) : st.buf.nsnapmap < 2 ^ 16 := by
  induction ops using List.reverseRecOn generalizing st with
  | nil => cases h; exact (by decide : 0 < 2 ^ 16)
  | append_singleton ops op ih =>
    rw [run, foldlM_concat] at h
    obtain ⟨st₁, h₁, hop⟩ := Option.bind_eq_some_iff.1 h
    exact step_nsnapmap_lt (ih h₁) hop

/-- **The bookkeeping is exact**: the headers have the exact offsets and numbers, and each snapshot is read back
from its range.  While the loop is unrolled the PC of the loop snapshot is that of snapshot #0. -/
structure Exact (st : State) (a : AState) : Prop where
  nsnap : st.buf.nsnap = a.snaps.length
  array : st.buf.nsnap ≤ st.buf.sizesnap
  nsnapmap : st.buf.nsnapmap = (content a.snaps).length
  inside : st.buf.nsnapmap ≤ st.buf.sizesnapmap
  header : ∀ i (h : i < a.snaps.length), Header (st.buf.snap i) (ofs a.snaps i) a.snaps[i]
  nextofs : ∀ i (h : i < a.snaps.length),
    nextofs st.buf i = (st.buf.snap i).mapofs + (st.buf.snap i).nent + a.snaps[i].links.length
  read : ∀ i (h : i < a.snaps.length),
    (List.range (Snap.nextofs st.buf i - (st.buf.snap i).mapofs)).map
      (fun k => st.restored.map ((st.buf.snap i).mapofs + k)) = a.snaps[i].ents ++ a.snaps[i].links
  refs : ∀ i, i + 1 < a.snaps.length → (st.buf.snap i).ref ≤ (st.buf.snap (i + 1)).ref

theorem Sim.exact {st : State} {a : AState} (h : Sim st a) (hi : AInv a) : Exact st a := by
  have hfields : st.restored.nsnap = st.buf.nsnap ∧ st.restored.nsnapmap = st.buf.nsnapmap ∧
      st.restored.sizesnapmap = st.buf.sizesnapmap ∧ st.restored.snap = st.buf.snap := by
    rw [State.restored.eq_def]
    cases st.loop <;> exact ⟨rfl, rfl, rfl, rfl⟩
  obtain ⟨hnsnap, hnsnapmap, hsize, hsnap⟩ := hfields
  have hr := h.repr
  have hheader := hr.header
  rw [hsnap] at hheader
  have hnext : ∀ i (hi : i < a.snaps.length), nextofs st.buf i = ofs a.snaps (i + 1) := by
    intro i hi
    rw [← nextofs_eq hr hi, nextofs, nextofs, hnsnap, hnsnapmap, hsnap]
  have hrange : ∀ i (hi : i < a.snaps.length), nextofs st.buf i =
      (st.buf.snap i).mapofs + (st.buf.snap i).nent + a.snaps[i].links.length := by
    intro i hi
    rw [hnext i hi, ofs_succ hi, (hheader i hi).mapofs, (hheader i hi).nent]
  exact
    { nsnap := hnsnap.symm.trans hr.nsnap
      array := h.sizesnap
      nsnapmap := hnsnapmap.symm.trans hr.nsnapmap
      inside := by
        rw [← hnsnapmap, ← hsize, hr.nsnapmap]
        exact hr.inside
      header := hheader
      nextofs := hrange
      read := by
        intro i hi
        obtain ⟨hents, hlinks⟩ := hr.seg hi
        have hall := (seg_append.2 ⟨hents, hlinks⟩).read
        rw [List.length_append] at hall
        rw [hrange i hi, Nat.add_assoc, Nat.add_sub_cancel_left, (hheader i hi).nent, (hheader i hi).mapofs]
        exact hall
      refs := by
        intro i hi'
        rw [(hheader i (by omega)).ref, (hheader (i + 1) hi').ref]
        exact List.pairwise_iff_getElem.1 hi.refs i (i + 1) _ hi' (Nat.lt_succ_self i) }

/-- **The bookkeeping is exact throughout a run exactly if the map always fits.** -/
theorem snap_exact_iff (cfg : Target) (B : SnapBuf) (ops : List Op) (hlim : (arun cfg ops).isSome) :
    (∀ p, p <+: ops → ∃ st a, run cfg paramMaxsnap B p = some st ∧ arun cfg p = some a ∧ Exact st a) ↔
      ∀ p, p <+: ops → ∀ a, arun cfg p = some a → (content a.snaps).length < 2 ^ 16 := by
  constructor
  · intro h p hp a ha
    obtain ⟨st, a', hst, ha', hexact⟩ := h p hp
    obtain rfl : a' = a := Option.some.inj (ha'.symm.trans ha)
    rw [← hexact.nsnapmap]
    exact run_nsnapmap_lt hst
  · intro h p hp
    obtain ⟨a, ha⟩ : ∃ a, arun cfg p = some a := by
      obtain ⟨r, rfl⟩ := hp
      obtain ⟨a', ha'⟩ := Option.isSome_iff_exists.1 hlim
      rw [arun, List.foldlM_append] at ha'
      obtain ⟨a, ha, -⟩ := Option.bind_eq_some_iff.1 ha'
      exact ⟨a, ha⟩
    obtain ⟨st, hst, hsim⟩ := run_sim B ha fun q hq => h q (hq.trans hp)
    exact ⟨st, a, hst, ha, hsim.exact (arun_inv ha)⟩

/-! ### Locals with constants -/

/-- A frame with 200 locals, which are all `nil`. -/
def nilLocals : Stack where
  slot s := if s = 0 then 0 else BitVec.ofNat 32 (refBias - 1)
  ir _ := { o := .kpri, t := { type := .nil } }
  retf := 0
  baseslot := 1
  maxslot := 200
  pc := 0
  top := 201
  frames := []
  framedepth := 0

/-- Guards, each with a snapshot in front of it. -/
def nilGuards : ℕ → List Op
  | 0 => []
  | n + 1 => nilGuards n ++ [.add nilLocals, .emit 1 true]

theorem snap_exact_iff_two :
    (∀ p, p <+: nilGuards 2 → ∃ st a,
      run ⟨false, false⟩ paramMaxsnap (start ⟨default, 0, 0, default, 0, 0, 0, false, false⟩).buf p = some st ∧
        arun ⟨false, false⟩ p = some a ∧ Exact st a) ↔
      ∀ p, p <+: nilGuards 2 → ∀ a, arun ⟨false, false⟩ p = some a → (content a.snaps).length < 2 ^ 16 :=
  snap_exact_iff _ _ _ (by decide)

/-- A slot with another reference than a load of this slot has an entry. -/
theorem snapEntry_isSome {cfg : Target} {S : Stack} {s : ℕ} (href : (S.slot s &&& 0xffff#32).toNat ≠ 0)
    (hir : (S.ir (S.slot s &&& 0xffff#32).toNat).o ≠ .sload) : (snapEntry cfg S s).isSome := by
  rw [snapEntry]
  dsimp only
  rw [if_neg href]
  simp only [hir, false_and, and_false, decide_false, Bool.false_and, Bool.false_eq_true, if_false, Option.isSome_some]

/-- All 200 locals are in the snapshot. -/
theorem nilLocals_length (nins : ℕ) : (nilLocals.snap ⟨false, false⟩ nins).all.length = 201 := by
  have hnone : snapEntry ⟨false, false⟩ nilLocals 0 = none := rfl
  have hsome : ∀ s ∈ List.range' 1 200, (snapEntry ⟨false, false⟩ nilLocals s).isSome := by
    intro s hs
    obtain ⟨h1, -⟩ := List.mem_range'_1.1 hs
    have hslot : nilLocals.slot s = BitVec.ofNat 32 (refBias - 1) := if_neg (by omega)
    exact snapEntry_isSome (by rw [hslot]; decide) nofun
  have hents : (nilLocals.snap ⟨false, false⟩ nins).ents =
      (List.range' 1 200).filterMap (snapEntry ⟨false, false⟩ nilLocals) := by
    show (List.range' 0 (200 + 1)).filterMap (snapEntry ⟨false, false⟩ nilLocals) = _
    rw [List.range'_succ, List.filterMap_cons_none hnone]
  rw [ASnap.all, List.length_append, hents, List.length_filterMap_eq_countP, List.countP_eq_length.2 hsome,
    List.length_range']
  rfl

/-- The map grows with every guard, and no limit is reached. -/
theorem arun_nilGuards {n : ℕ} (hn : n ≤ paramMaxsnap) : ∃ a, arun ⟨false, false⟩ (nilGuards n) = some a ∧
    a.snaps.length = n ∧ (content a.snaps).length = 201 * n ∧ a.nins = refBias + 1 + n ∧ a.mergesnap = false ∧
    a.loop = none ∧ ∀ s ∈ a.snaps, s.ref < a.nins := by
  induction n with
  | zero => exact ⟨astart, rfl, rfl, rfl, rfl, rfl, rfl, nofun⟩
  | succ n ih =>
    obtain ⟨a, ha, hlen, hcontent, hnins, hm, hloop, hrefs⟩ := ih (by omega)
    have hmax : paramMaxsnap = 500 := rfl
    have hbias : refBias = 0x8000 := rfl
    have hadd : a.add ⟨false, false⟩ nilLocals =
        some { a with
          snaps := a.snaps ++ [nilLocals.snap ⟨false, false⟩ a.nins], mergesnap := false, guardemit := false } := by
      have hpush : a.push (nilLocals.snap ⟨false, false⟩ a.nins) =
          some { a with
            snaps := a.snaps ++ [nilLocals.snap ⟨false, false⟩ a.nins], mergesnap := false, guardemit := false } :=
        if_pos (by lia)
      rw [AState.add, if_pos (by decide)]
      cases hlast : a.snaps.getLast? with
      | none => dsimp only; rw [hm]; exact hpush
      | some last =>
        have hlt := hrefs last (List.mem_of_getLast? hlast)
        dsimp only
        rw [hm, if_neg (by simpa using hlt.ne)]
        exact hpush
    refine ⟨{ a with
      snaps := a.snaps ++ [nilLocals.snap ⟨false, false⟩ a.nins], mergesnap := false, guardemit := true
      nins := a.nins + 1 }, ?_, ?_, ?_, ?_, rfl, hloop, ?_⟩
    · rw [arun] at ha ⊢
      rw [nilGuards, List.foldlM_append, ha]
      show (astep _ a (.add nilLocals)).bind _ = _
      rw [astep.eq_def, hloop]
      dsimp only
      rw [hadd]
      show (if a.nins + 1 < 2 ^ 16 then _ else none) >>= pure = _
      rw [if_pos (by lia)]
      simp only [hloop, Bool.or_true]
      rfl
    · show (a.snaps ++ _).length = n + 1
      rw [List.length_append, hlen, List.length_singleton]
    · show (content (a.snaps ++ _)).length = 201 * (n + 1)
      rw [content_append, List.length_append, hcontent, content_singleton, nilLocals_length]
      lia
    · show a.nins + 1 = _
      lia
    · intro s hs
      rcases List.mem_append.1 hs with hs | hs
      · exact (hrefs s hs).trans (Nat.lt_succ_self _)
      · rw [List.mem_singleton.1 hs]
        exact Nat.lt_succ_self _

/-- 327 guards in a frame with 200 locals. -/
theorem snap_exact_nilGuards : (arun ⟨false, false⟩ (nilGuards 327)).isSome ∧
    ∀ B : SnapBuf, ¬∀ p, p <+: nilGuards 327 → ∃ st a,
      run ⟨false, false⟩ paramMaxsnap B p = some st ∧ arun ⟨false, false⟩ p = some a ∧ Exact st a := by
  obtain ⟨a, ha, -, hcontent, -⟩ := arun_nilGuards (n := 327) (by decide)
  refine ⟨by rw [ha]; rfl, fun B h => ?_⟩
  obtain ⟨st, a', hst, ha', hexact⟩ := h _ List.prefix_rfl
  obtain rfl : a' = a := Option.some.inj (ha'.symm.trans ha)
  have hlt := run_nsnapmap_lt hst
  rw [hexact.nsnapmap, hcontent] at hlt
  exact absurd hlt (by decide)

end Snap
