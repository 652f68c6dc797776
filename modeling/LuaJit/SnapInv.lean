/-
**The snapshot map as a list of snapshots.**

Without limits on the fields the buffers are a list of snapshots, each with its entries and its links, and the
map is their concatenation.  The operations on the buffers are operations on the end of that list.

Main definitions:

* `Snap.ASnap`, `Snap.content` — snapshots as lists, and the map they make;
* `Snap.mergeEnts` — the entries of a copied snapshot;
* `Snap.Repr` — the buffers hold a list of snapshots.

Main results:

* `Snap.snapshotSlots_eq`, `Snap.compact_eq`, `Snap.substMerge_eq` — what the loops write;
* `Snap.Repr.push` — a snapshot behind others.
-/

import LuaJit.SnapBuf

set_option relaxedAutoImplicit false
set_option autoImplicit false

namespace Snap

/-! ### Segments of the map -/

/-- The entries from an offset on. -/
def Seg (map : ℕ → SnapEntry) (p : ℕ) (L : List SnapEntry) : Prop := ∀ k (h : k < L.length), map (p + k) = L[k]

theorem Seg.nil (map : ℕ → SnapEntry) (p : ℕ) : Seg map p [] := fun _ h => absurd h (Nat.not_lt_zero _)

theorem seg_cons {map : ℕ → SnapEntry} {p : ℕ} {sn : SnapEntry} {L : List SnapEntry} :
    Seg map p (sn :: L) ↔ map p = sn ∧ Seg map (p + 1) L := by
  refine ⟨fun h => ⟨h 0 (Nat.succ_pos _), fun k hk => ?_⟩, fun ⟨h0, h⟩ k hk => ?_⟩
  · rw [Nat.add_assoc, Nat.add_comm 1 k]
    exact h (k + 1) (Nat.succ_lt_succ hk)
  · cases k with
    | zero => exact h0
    | succ k =>
      have hk' := h k (Nat.lt_of_succ_lt_succ hk)
      rw [Nat.add_assoc, Nat.add_comm 1 k] at hk'
      exact hk'

theorem seg_append {map : ℕ → SnapEntry} {p : ℕ} {L M : List SnapEntry} :
    Seg map p (L ++ M) ↔ Seg map p L ∧ Seg map (p + L.length) M := by
  induction L generalizing p with
  | nil => exact ⟨fun h => ⟨Seg.nil _ _, h⟩, And.right⟩
  | cons sn L ih =>
    rw [List.cons_append, seg_cons, ih, seg_cons, List.length_cons, Nat.add_right_comm, Nat.add_assoc p, and_assoc]

/-- A segment does not see other entries. -/
theorem Seg.congr {map map' : ℕ → SnapEntry} {p : ℕ} {L : List SnapEntry} (h : Seg map p L)
    (heq : ∀ k, p ≤ k → k < p + L.length → map' k = map k) : Seg map' p L := by
  intro k hk
  rw [heq (p + k) (Nat.le_add_right _ _) (Nat.add_lt_add_left hk p)]
  exact h k hk

/-- The entries that are read. -/
theorem Seg.read {map : ℕ → SnapEntry} {p : ℕ} {L : List SnapEntry} (h : Seg map p L) :
    (List.range L.length).map (fun k => map (p + k)) = L := by
  apply List.ext_getElem
  · simp
  · intro k hk hk'
    rw [List.getElem_map, List.getElem_range]
    exact h k hk'

/-! ### Writing -/

theorem write_of_lt {map : ℕ → SnapEntry} {p k : ℕ} {L : List SnapEntry} (h : k < p) : write map p L k = map k := by
  induction L generalizing map p with
  | nil => rfl
  | cons sn L ih => rw [write, ih (by omega), Function.update_of_ne (by omega)]

theorem seg_write (map : ℕ → SnapEntry) (p : ℕ) (L : List SnapEntry) : Seg (write map p L) p L := by
  induction L generalizing map p with
  | nil => exact Seg.nil _ _
  | cons sn L ih =>
    rw [seg_cons]
    exact ⟨by rw [write, write_of_lt (by omega), Function.update_self], ih _ _⟩

theorem write_append (map : ℕ → SnapEntry) (p : ℕ) (L M : List SnapEntry) :
    write map p (L ++ M) = write (write map p L) (p + L.length) M := by
  induction L generalizing map p with
  | nil => rfl
  | cons sn L ih =>
    rw [List.cons_append, write, ih, write, List.length_cons, Nat.add_right_comm, Nat.add_assoc p]

/-- **Generation** writes the entries of the slots in ascending order. -/
theorem snapshotSlots_eq (cfg : Target) (S : Stack) (p cnt s n : ℕ) (map : ℕ → SnapEntry) :
    snapshotSlots cfg S p cnt s n map =
      (n + ((List.range' s cnt).filterMap (snapEntry cfg S)).length,
        write map (p + n) ((List.range' s cnt).filterMap (snapEntry cfg S))) := by
  induction cnt generalizing s n map with
  | zero => rfl
  | succ cnt ih =>
    rw [snapshotSlots, List.range'_succ]
    cases hsn : snapEntry cfg S s with
    | none => rw [List.filterMap_cons_none hsn]; exact ih _ _ _
    | some sn =>
      rw [List.filterMap_cons_some hsn, List.length_cons, write]
      dsimp only
      rw [ih, Nat.add_right_comm n, Nat.add_assoc p]
      rfl

/-- **Shrinking** keeps entries in place. -/
theorem compact_eq (keep : SnapEntry → Bool) (p : ℕ) {n m : ℕ} (hmn : m ≤ n) {map : ℕ → SnapEntry} {L : List SnapEntry}
    (h : Seg map (p + n) L) :
    (compact keep p L.length n m map).1 = m + (L.filter keep).length ∧
    Seg (compact keep p L.length n m map).2 (p + m) (L.filter keep) ∧
    ∀ k, k < p + m ∨ p + n + L.length ≤ k → (compact keep p L.length n m map).2 k = map k := by
  induction L generalizing n m map with
  | nil => exact ⟨rfl, Seg.nil _ _, fun _ _ => rfl⟩
  | cons sn L ih =>
    obtain ⟨hsn, hL⟩ := seg_cons.1 h
    rw [List.length_cons, compact, hsn]
    by_cases hk : keep sn = true
    · rw [if_pos hk, List.filter_cons_of_pos hk, List.length_cons]
      have hL' : Seg (Function.update map (p + m) sn) (p + (n + 1)) L :=
        hL.congr fun k hk _ => Function.update_of_ne (by omega) _ _
      obtain ⟨hlen, hseg, hrest⟩ := ih (show m + 1 ≤ n + 1 by omega) hL'
      refine ⟨by rw [hlen]; omega, seg_cons.2 ⟨?_, hseg⟩, fun k hk' => ?_⟩
      · rw [hrest _ (by omega), Function.update_self]
      · rw [hrest k (by lia), Function.update_of_ne (by lia)]
    · rw [if_neg hk, List.filter_cons_of_neg hk]
      obtain ⟨hlen, hseg, hrest⟩ := ih (show m ≤ n + 1 by omega) hL
      exact ⟨hlen, hseg, fun k hk' => hrest k (by lia)⟩

theorem copy_eq {map : ℕ → SnapEntry} {src dst : ℕ} {L : List SnapEntry} (h : Seg map src L)
    (hd : src + L.length ≤ dst) : copy src dst L.length map = write map dst L := by
  induction L generalizing map src dst with
  | nil => rfl
  | cons sn L ih =>
    obtain ⟨hsn, hL⟩ := seg_cons.1 h
    rw [List.length_cons] at hd
    rw [List.length_cons, copy, write, hsn, ih]
    · exact hL.congr fun k hk hk' => Function.update_of_ne (by omega) _ _
    · omega

/-! ### Slots -/

/-- The slots of the entries are ascending. -/
def Slots (L : List SnapEntry) : Prop := L.Pairwise fun a b => snapSlot a < snapSlot b

theorem snapSlot_eq (sn : SnapEntry) : snapSlot sn = (sn >>> 24).toNat := by
  rw [snapSlot, BitVec.toNat_ushiftRight, Nat.shiftRight_eq_div_pow]

theorem snapSlot_or {sn f : SnapEntry} (h : f >>> 24 = 0#32) : snapSlot (sn ||| f) = snapSlot sn := by
  rw [snapSlot_eq, snapSlot_eq, BitVec.ushiftRight_or_distrib, h, BitVec.or_zero]

theorem snapSlot_snapSetref (sn : SnapEntry) (ref : ℕ) : snapSlot (snapSetref sn ref) = snapSlot sn := by
  have hlow : BitVec.ofNat 32 (ref % 2 ^ 16) >>> 24 = 0#32 := by
    apply BitVec.eq_of_toNat_eq
    rw [BitVec.toNat_ushiftRight, BitVec.toNat_ofNat, Nat.shiftRight_eq_div_pow]
    show ref % 2 ^ 16 % 2 ^ 32 / 2 ^ 24 = 0
    lia
  have hmask : (0xffff0000#32 &&& ~~~snapNorestore) >>> 24 = 0xff#32 := by decide
  rw [snapSetref, snapSlot_or hlow, snapSlot_eq, snapSlot_eq, BitVec.ushiftRight_and_distrib, hmask]
  have hlt : (sn >>> 24).toNat < 2 ^ 8 := by
    rw [BitVec.toNat_ushiftRight, Nat.shiftRight_eq_div_pow]
    have := sn.isLt
    omega
  rw [BitVec.toNat_and]
  exact Nat.and_two_pow_sub_one_of_lt_two_pow hlt

@[simp] theorem snapSlot_substEntry (subst : ℕ → ℕ) (sn : SnapEntry) : snapSlot (substEntry subst sn) = snapSlot sn := by
  rw [substEntry]
  split_ifs
  · rfl
  · exact snapSlot_snapSetref _ _

theorem snapSlot_snapTr {s : ℕ} (hs : s < 2 ^ 8) (tr : BitVec 32) : snapSlot (snapTr s tr) = s := by
  have htr : (tr &&& 0x3ffff#32).toNat < 2 ^ 24 := by
    rw [BitVec.toNat_and]
    exact Nat.and_lt_two_pow _ (by decide)
  rw [snapSlot, snapTr, BitVec.toNat_ofNat]
  lia

/-- The entry of a slot is for that slot. -/
theorem snapSlot_snapEntry {cfg : Target} {S : Stack} {s : ℕ} (hs : s < 2 ^ 8) {sn : SnapEntry}
    (h : snapEntry cfg S s = some sn) : snapSlot sn = s := by
  have hnorestore : snapNorestore >>> 24 = 0#32 := by decide
  have hsoft : snapSoftfpnum >>> 24 = 0#32 := by decide
  rw [snapEntry] at h
  dsimp only at h
  split_ifs at h <;> cases h
  · rw [snapSlot_or hsoft, snapSlot_or hnorestore, snapSlot_snapTr hs]
  · rw [snapSlot_or hsoft, snapSlot_snapTr hs]
  · rw [snapSlot_or hnorestore, snapSlot_snapTr hs]
  · rw [snapSlot_snapTr hs]

/-- The entries of slots in ascending order. -/
theorem slots_filterMap (cfg : Target) (S : Stack) {s cnt : ℕ} (h : s + cnt ≤ 2 ^ 8) :
    Slots ((List.range' s cnt).filterMap (snapEntry cfg S)) ∧
      ∀ sn ∈ (List.range' s cnt).filterMap (snapEntry cfg S), snapSlot sn < s + cnt := by
  have hslot : ∀ sn ∈ (List.range' s cnt).filterMap (snapEntry cfg S), s ≤ snapSlot sn ∧ snapSlot sn < s + cnt := by
    intro sn hsn
    obtain ⟨i, hi, hsome⟩ := List.mem_filterMap.1 hsn
    obtain ⟨h1, h2⟩ := List.mem_range'_1.1 hi
    rw [snapSlot_snapEntry (by omega) hsome]
    exact ⟨h1, h2⟩
  refine ⟨?_, fun sn hsn => (hslot sn hsn).2⟩
  rw [Slots, List.pairwise_filterMap]
  refine List.Pairwise.imp_of_mem ?_ (List.pairwise_lt_range' (s := s) (n := cnt))
  intro i j hi hj hlt a ha b hb
  obtain ⟨-, hi⟩ := List.mem_range'_1.1 hi
  obtain ⟨-, hj⟩ := List.mem_range'_1.1 hj
  rw [snapSlot_snapEntry (by omega) ha, snapSlot_snapEntry (by omega) hb]
  exact hlt

/-- Ascending slots below a bound are at most as many. -/
theorem Slots.length_le {L : List SnapEntry} (h : Slots L) {b : ℕ} (hb : ∀ sn ∈ L, snapSlot sn < b) : L.length ≤ b := by
  have hnodup : (L.map snapSlot).Nodup := by
    rw [List.Nodup, List.pairwise_map]
    exact List.Pairwise.imp (fun hlt => hlt.ne) h
  have hsub : L.map snapSlot ⊆ List.range b := by
    intro s hs
    obtain ⟨sn, hsn, rfl⟩ := List.mem_map.1 hs
    exact List.mem_range.2 (hb sn hsn)
  have hle := (hnodup.subperm hsub).length_le
  rwa [List.length_map, List.length_range] at hle

/-! ### Merging -/

/-- The entries of a copied snapshot: the substituted ones, and those of the loop snapshot for the other slots. -/
@[grind =]
def mergeEnts (subst : ℕ → ℕ) (nslots : ℕ) : List SnapEntry → List SnapEntry → List SnapEntry
  | ls, [] => ls.takeWhile fun l => snapSlot l < nslots
  | [], o :: os => substEntry subst o :: mergeEnts subst nslots [] os
  | l :: ls, o :: os =>
      if snapSlot l < snapSlot o then l :: mergeEnts subst nslots ls (o :: os)
      else substEntry subst o :: mergeEnts subst nslots (if snapSlot l = snapSlot o then ls else l :: ls) os
  termination_by ls os => ls.length + os.length
  decreasing_by
    · simp only [List.length_cons]; omega
    · simp only [List.length_cons]; omega
    · split_ifs <;> simp only [List.length_cons] <;> lia

theorem length_mergeEnts_le (subst : ℕ → ℕ) (nslots : ℕ) (ls os : List SnapEntry) :
    (mergeEnts subst nslots ls os).length ≤ ls.length + os.length := by
  induction ls, os using mergeEnts.induct with
  | case1 ls =>
    rw [mergeEnts]
    exact (List.takeWhile_prefix _).length_le
  | case2 o os ih =>
    rw [mergeEnts, List.length_cons, List.length_cons]
    omega
  | case3 l ls o os hlt ih =>
    rw [mergeEnts, if_pos hlt]
    simp only [List.length_cons] at ih ⊢
    omega
  | case4 l ls o os hlt ih =>
    rw [mergeEnts, if_neg hlt]
    split_ifs at ih ⊢ <;> simp only [List.length_cons] at ih ⊢ <;> lia

/-- The slots of a merge are slots of its parts. -/
theorem slot_mergeEnts {subst : ℕ → ℕ} {nslots : ℕ} {ls os : List SnapEntry} {sn : SnapEntry}
    (h : sn ∈ mergeEnts subst nslots ls os) : (∃ l ∈ ls, snapSlot sn = snapSlot l) ∨ ∃ o ∈ os, snapSlot sn = snapSlot o := by
  induction ls, os using mergeEnts.induct with
  | case1 ls =>
    rw [mergeEnts] at h
    exact .inl ⟨sn, (List.takeWhile_prefix _).subset h, rfl⟩
  | case2 o os ih =>
    rw [mergeEnts, List.mem_cons] at h
    rcases h with rfl | h
    · exact .inr ⟨o, List.mem_cons_self, snapSlot_substEntry _ _⟩
    · rcases ih h with ⟨l, hl, -⟩ | ⟨o', ho', heq⟩
      · cases hl
      · exact .inr ⟨o', List.mem_cons_of_mem _ ho', heq⟩
  | case3 l ls o os hlt ih =>
    rw [mergeEnts, if_pos hlt, List.mem_cons] at h
    rcases h with rfl | h
    · exact .inl ⟨_, List.mem_cons_self, rfl⟩
    · exact (ih h).imp_left fun ⟨l', hl', heq⟩ => ⟨l', List.mem_cons_of_mem _ hl', heq⟩
  | case4 l ls o os hlt ih =>
    rw [mergeEnts, if_neg hlt, List.mem_cons] at h
    rcases h with rfl | h
    · exact .inr ⟨o, List.mem_cons_self, snapSlot_substEntry _ _⟩
    · rcases ih h with ⟨l', hl', heq⟩ | ⟨o', ho', heq⟩
      · refine .inl ⟨l', ?_, heq⟩
        split_ifs at hl'
        · exact List.mem_cons_of_mem _ hl'
        · exact hl'
      · exact .inr ⟨o', List.mem_cons_of_mem _ ho', heq⟩

theorem slots_mergeEnts {subst : ℕ → ℕ} {nslots : ℕ} {ls os : List SnapEntry} (hl : Slots ls) (ho : Slots os) :
    Slots (mergeEnts subst nslots ls os) := by
  induction ls, os using mergeEnts.induct with
  | case1 ls =>
    rw [mergeEnts]
    exact List.Pairwise.sublist (List.takeWhile_prefix _).sublist hl
  | case2 o os ih =>
    obtain ⟨hhead, htail⟩ := List.pairwise_cons.1 ho
    rw [mergeEnts, Slots, List.pairwise_cons]
    refine ⟨fun sn hsn => ?_, ih hl htail⟩
    rw [snapSlot_substEntry]
    rcases slot_mergeEnts hsn with ⟨l, hl, -⟩ | ⟨o', ho', heq⟩
    · cases hl
    · rw [heq]
      exact hhead o' ho'
  | case3 l ls o os hlt ih =>
    obtain ⟨hhead, htail⟩ := List.pairwise_cons.1 hl
    obtain ⟨hohead, -⟩ := List.pairwise_cons.1 ho
    rw [mergeEnts, if_pos hlt, Slots, List.pairwise_cons]
    refine ⟨fun sn hsn => ?_, ih htail ho⟩
    rcases slot_mergeEnts hsn with ⟨l', hl', heq⟩ | ⟨o', ho', heq⟩
    · rw [heq]
      exact hhead l' hl'
    · rw [heq]
      rcases List.mem_cons.1 ho' with rfl | ho'
      · exact hlt
      · exact hlt.trans (hohead o' ho')
  | case4 l ls o os hlt ih =>
    obtain ⟨hhead, htail⟩ := List.pairwise_cons.1 hl
    obtain ⟨hohead, hotail⟩ := List.pairwise_cons.1 ho
    rw [mergeEnts, if_neg hlt, Slots, List.pairwise_cons]
    refine ⟨fun sn hsn => ?_, ih ?_ hotail⟩
    · rw [snapSlot_substEntry]
      rcases slot_mergeEnts hsn with ⟨l', hl', heq⟩ | ⟨o', ho', heq⟩
      · rw [heq]
        split_ifs at hl' with he
        · have := hhead l' hl'
          omega
        · rcases List.mem_cons.1 hl' with rfl | hl'
          · omega
          · have := hhead l' hl'
            omega
      · rw [heq]
        exact hohead o' ho'
    · split_ifs
      · exact htail
      · exact hl

theorem snapSlot_sentinel : snapSlot sentinel = 255 := by decide

/-- The remaining entries of the loop snapshot are copied until the sentinel. -/
theorem substMerge_tail {subst : ℕ → ℕ} {omap onent loopmap nmap nslots : ℕ} (hn : nslots < 255) {ls : List SnapEntry}
    {fuel ln nn : ℕ} {map : ℕ → SnapEntry} (hls : Seg map (loopmap + ln) (ls ++ [sentinel]))
    (hl : loopmap + ln + ls.length + 1 ≤ nmap) (hfuel : (ls.takeWhile fun l => snapSlot l < nslots).length < fuel) :
    substMerge subst omap onent loopmap nmap nslots fuel onent ln nn map =
      some (nn + (ls.takeWhile fun l => snapSlot l < nslots).length,
        write map (nmap + nn) (ls.takeWhile fun l => snapSlot l < nslots)) := by
  induction ls generalizing fuel ln nn map with
  | nil =>
    obtain ⟨fuel, rfl⟩ : ∃ f, fuel = f + 1 := ⟨fuel - 1, by lia⟩
    rw [List.nil_append, seg_cons] at hls
    rw [substMerge]
    dsimp only
    rw [if_neg (lt_irrefl _), hls.1, snapSlot_sentinel, if_neg (by omega)]
    rfl
  | cons l ls ih =>
    obtain ⟨fuel, rfl⟩ : ∃ f, fuel = f + 1 := ⟨fuel - 1, by lia⟩
    rw [List.cons_append, seg_cons] at hls
    rw [List.length_cons] at hl
    rw [substMerge]
    dsimp only
    rw [if_neg (lt_irrefl _), hls.1]
    by_cases hlt : snapSlot l < nslots
    · rw [List.takeWhile_cons_of_pos (by simpa using hlt)] at hfuel ⊢
      rw [List.length_cons] at hfuel ⊢
      rw [if_pos hlt, write, ih, Nat.add_right_comm nn, Nat.add_assoc nmap]
      · rfl
      · exact hls.2.congr fun k _ hk => Function.update_of_ne (by simp at hk; lia) _ _
      · lia
      · omega
    · rw [List.takeWhile_cons_of_neg (by simpa using hlt), if_neg hlt]
      rfl

/-- **The merge in the map**: it ends at the sentinel, and writes the merged entries. -/
theorem substMerge_eq {subst : ℕ → ℕ} {omap onent loopmap nmap nslots : ℕ} (hn : nslots < 255) {ls os : List SnapEntry}
    {fuel on ln nn : ℕ} {map : ℕ → SnapEntry} (hls : Seg map (loopmap + ln) (ls ++ [sentinel]))
    (hos : Seg map (omap + on) os) (hlen : on + os.length = onent) (hslot : ∀ o ∈ os, snapSlot o < 255)
    (hl : loopmap + ln + ls.length + 1 ≤ nmap) (ho : omap + on + os.length ≤ nmap)
    (hfuel : (mergeEnts subst nslots ls os).length < fuel) :
    substMerge subst omap onent loopmap nmap nslots fuel on ln nn map =
      some (nn + (mergeEnts subst nslots ls os).length, write map (nmap + nn) (mergeEnts subst nslots ls os)) := by
  induction ls, os using mergeEnts.induct generalizing fuel on ln nn map with
  | case1 ls =>
    rw [mergeEnts] at hfuel ⊢
    rw [List.length_nil, Nat.add_zero] at hlen
    rw [hlen]
    exact substMerge_tail hn hls hl hfuel
  | case2 o os ih =>
    obtain ⟨fuel, rfl⟩ : ∃ f, fuel = f + 1 := ⟨fuel - 1, by lia⟩
    obtain ⟨ho1, hos'⟩ := seg_cons.1 hos
    obtain ⟨hs, -⟩ := seg_cons.1 hls
    rw [List.length_cons] at hlen ho
    have hso := hslot o List.mem_cons_self
    rw [mergeEnts, List.length_cons] at hfuel ⊢
    rw [substMerge]
    dsimp only
    rw [if_pos (by omega), hs, ho1, snapSlot_sentinel, if_neg (by omega), if_neg (by omega), write, ih,
      Nat.add_right_comm nn, Nat.add_assoc nmap]
    · rfl
    · exact hls.congr fun k _ hk => Function.update_of_ne (by simp at hk hl; lia) _ _
    · exact hos'.congr fun k _ hk => Function.update_of_ne (by lia) _ _
    · lia
    · exact fun o' ho' => hslot o' (List.mem_cons_of_mem _ ho')
    · omega
    · lia
    · omega
  | case3 l ls o os hlt ih =>
    obtain ⟨fuel, rfl⟩ : ∃ f, fuel = f + 1 := ⟨fuel - 1, by lia⟩
    obtain ⟨ho1, -⟩ := seg_cons.1 hos
    rw [List.cons_append] at hls
    obtain ⟨hl1, hls'⟩ := seg_cons.1 hls
    rw [List.length_cons] at hlen ho hl
    rw [mergeEnts, if_pos hlt, List.length_cons] at hfuel ⊢
    rw [substMerge]
    dsimp only
    rw [if_pos (by omega), hl1, ho1, if_pos hlt, write, ih, Nat.add_right_comm nn, Nat.add_assoc nmap]
    · rfl
    · exact hls'.congr fun k _ hk => Function.update_of_ne (by simp at hk; lia) _ _
    · exact hos.congr fun k _ hk => Function.update_of_ne (by simp at hk; lia) _ _
    · rw [List.length_cons]
      omega
    · exact hslot
    · lia
    · rw [List.length_cons]
      omega
    · lia
  | case4 l ls o os hlt ih =>
    simp only [dite_eq_ite] at ih
    obtain ⟨fuel, rfl⟩ : ∃ f, fuel = f + 1 := ⟨fuel - 1, by lia⟩
    obtain ⟨ho1, hos'⟩ := seg_cons.1 hos
    rw [List.cons_append] at hls
    obtain ⟨hl1, hls'⟩ := seg_cons.1 hls
    rw [List.length_cons] at hlen ho hl
    rw [mergeEnts, if_neg hlt, List.length_cons] at hfuel ⊢
    rw [substMerge]
    dsimp only
    rw [if_pos (by omega), hl1, ho1, if_neg hlt, write, ih, Nat.add_right_comm nn, Nat.add_assoc nmap]
    · rfl
    · by_cases he : snapSlot l = snapSlot o
      · rw [if_pos he, if_pos he]
        exact hls'.congr fun k _ hk => Function.update_of_ne (by simp at hk; lia) _ _
      · rw [if_neg he, if_neg he, List.cons_append]
        exact hls.congr fun k _ hk => Function.update_of_ne (by simp at hk; lia) _ _
    · exact hos'.congr fun k _ hk => Function.update_of_ne (by lia) _ _
    · lia
    · exact fun o' ho' => hslot o' (List.mem_cons_of_mem _ ho')
    · split_ifs
      · lia
      · rw [List.length_cons]
        omega
    · lia
    · lia

/-! ### Snapshots as lists -/

/-- A snapshot: its entries, and its PC and frame links. -/
structure ASnap where
  ref : ℕ
  nslots : ℕ
  ents : List SnapEntry
  links : List SnapEntry

/-- The entries of a snapshot in the map. -/
def ASnap.all (a : ASnap) : List SnapEntry := a.ents ++ a.links

/-- The map that snapshots make. -/
def content (snaps : List ASnap) : List SnapEntry := snaps.flatMap ASnap.all

/-- The offset of a snapshot. -/
def ofs (snaps : List ASnap) (i : ℕ) : ℕ := (content (snaps.take i)).length

theorem content_append (s t : List ASnap) : content (s ++ t) = content s ++ content t := List.flatMap_append

theorem content_singleton (a : ASnap) : content [a] = a.all := List.append_nil _

theorem ofs_append {s t : List ASnap} {i : ℕ} (h : i ≤ s.length) : ofs (s ++ t) i = ofs s i := by
  rw [ofs, ofs, List.take_append_of_le_length h]

theorem ofs_length (snaps : List ASnap) : ofs snaps snaps.length = (content snaps).length := by
  rw [ofs, List.take_length]

theorem ofs_succ {snaps : List ASnap} {i : ℕ} (h : i < snaps.length) :
    ofs snaps (i + 1) = ofs snaps i + snaps[i].ents.length + snaps[i].links.length := by
  rw [ofs, List.take_succ_eq_append_getElem h, content_append, List.length_append, content_singleton, ASnap.all,
    List.length_append, ofs, Nat.add_assoc]

theorem ofs_mono (snaps : List ASnap) {i j : ℕ} (h : i ≤ j) : ofs snaps i ≤ ofs snaps j := by
  have hsplit := List.take_append_drop i (snaps.take j)
  rw [List.take_take, Nat.min_eq_left h] at hsplit
  rw [ofs, ofs, ← hsplit, content_append, List.length_append]
  exact Nat.le_add_right _ _

/-- The header of a snapshot at an offset. -/
structure Header (s : SnapShot) (p : ℕ) (a : ASnap) : Prop where
  mapofs : s.mapofs = p
  ref : s.ref = a.ref
  nslots : s.nslots = a.nslots
  nent : s.nent = a.ents.length

/-- The snapshots are in the buffers; there may be more. -/
structure Holds (B : SnapBuf) (snaps : List ASnap) : Prop where
  header : ∀ i (h : i < snaps.length), Header (B.snap i) (ofs snaps i) snaps[i]
  map : Seg B.map 0 (content snaps)

/-- The snapshots are what is in the buffers. -/
structure Repr (B : SnapBuf) (snaps : List ASnap) : Prop extends Holds B snaps where
  nsnap : B.nsnap = snaps.length
  nsnapmap : B.nsnapmap = (content snaps).length
  inside : (content snaps).length ≤ B.sizesnapmap

theorem Holds.init {B : SnapBuf} {s t : List ASnap} (h : Holds B (s ++ t)) : Holds B s := by
  refine ⟨fun i hi => ?_, ?_⟩
  · have hh := h.header i (by rw [List.length_append]; omega)
    rwa [ofs_append hi.le, List.getElem_append_left hi] at hh
  · have hm := h.map
    rw [content_append, seg_append] at hm
    exact hm.1

/-- The entries and the links of a snapshot. -/
theorem Holds.seg {B : SnapBuf} {snaps : List ASnap} (h : Holds B snaps) {i : ℕ} (hi : i < snaps.length) :
    Seg B.map (ofs snaps i) snaps[i].ents ∧ Seg B.map (ofs snaps i + snaps[i].ents.length) snaps[i].links := by
  have hm := h.map
  rw [← List.take_append_drop i snaps, content_append, seg_append, List.drop_eq_getElem_cons hi] at hm
  have hall : Seg B.map (ofs snaps i) (snaps[i].all ++ content (snaps.drop (i + 1))) := by
    have hm' := hm.2
    rwa [Nat.zero_add] at hm'
  exact seg_append.1 (seg_append.1 hall).1

/-- **A snapshot behind others.** -/
theorem Holds.push {B B' : SnapBuf} {init : List ASnap} {a : ASnap} (h : Holds B init) {hdr : SnapShot}
    (hsnap : B'.snap = Function.update B.snap init.length hdr) (hhdr : Header hdr (content init).length a)
    (hmap : ∀ k, k < (content init).length → B'.map k = B.map k) (hseg : Seg B'.map (content init).length a.all) :
    Holds B' (init ++ [a]) := by
  refine ⟨fun i hi => ?_, ?_⟩
  · rw [List.length_append, List.length_singleton] at hi
    rw [hsnap]
    by_cases hlt : i < init.length
    · rw [Function.update_of_ne (by omega), ofs_append hlt.le, List.getElem_append_left hlt]
      exact h.header i hlt
    · obtain rfl : i = init.length := by lia
      rw [Function.update_self, ofs_append le_rfl, ofs_length, List.getElem_concat_length rfl]
      exact hhdr
  · rw [content_append, content_singleton, seg_append, Nat.zero_add]
    exact ⟨h.map.congr fun k _ hk => hmap k (by omega), hseg⟩

end Snap
